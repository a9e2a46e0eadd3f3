import OrderedChoice.CommandLine.Run
import OrderedChoice.Proofs.Ebnf.Readable

/-! What printed expressions and grammars look like, character by character. Composites
are enclosed in brackets with a separator between their parts, and every rule is a line
that ends with its semicolon. Apart from those, a semicolon or a backslash that is printed
comes from a pattern, or was put before a double quote of one. -/

namespace OrderedChoice

/-! ## Patterns -/

namespace Expr

mutual
def patterns : Expr → List String
  | terminal pattern => [pattern]
  | reference _ => []
  | choice alternatives => patternsInAll alternatives
  | sequence items => patternsInAll items
  | optional operand => operand.patterns
  | repetition operand => operand.patterns

def patternsInAll : List Expr → List String
  | [] => []
  | head :: tail => head.patterns ++ patternsInAll tail
end

theorem patternsInAll_eq (exprs : List Expr) : patternsInAll exprs = exprs.flatMap patterns := by
  induction exprs with
  | nil => rfl
  | cons head tail induction => rw [patternsInAll, induction, List.flatMap_cons]

def content (expr : Expr) : List Char :=
  expr.patterns.flatMap String.toList

theorem content_patternsInAll (exprs : List Expr) :
    (patternsInAll exprs).flatMap String.toList = exprs.flatMap content := by
  rw [patternsInAll_eq, List.flatMap_assoc]
  rfl

end Expr

def Grammar.patterns (grammar : Grammar) : List String :=
  grammar.rules.flatMap fun rule => rule.2.patterns

/-! ## Shapes -/

namespace Expr

theorem describeAll_eq (exprs : List Expr) : describeAll exprs = exprs.map describe := by
  induction exprs with
  | nil => rfl
  | cons head tail induction => rw [describeAll, induction, List.map_cons]

def enclosed (opening closing : Char) (inside : List Char) : List Char :=
  opening :: ' ' :: (inside ++ [' ', closing])

def separated (separator : Char) (exprs : List Expr) : List Char :=
  exprs.flatMap fun expr => ' ' :: separator :: ' ' :: expr.describe.toList

theorem toList_intercalate_describeAll {separator : Char} {between : String}
    (spaced : between.toList = [' ', separator, ' ']) (first : Expr) (others : List Expr) :
    (between.intercalate (describeAll (first :: others))).toList =
      first.describe.toList ++ separated separator others := by
  rw [String.toList_intercalate, spaced, describeAll_eq, List.map_map]
  induction others generalizing first with
  | nil => simp [separated]
  | cons second others induction =>
      rw [List.map_cons, List.map_cons, List.intercalate_cons_cons, ← List.map_cons,
        induction second]
      simp [separated]

theorem toList_describe_choice (first : Expr) (others : List Expr) :
    (choice (first :: others)).describe.toList =
      enclosed '(' ')' (first.describe.toList ++ separated '|' others) := by
  have spaced : " | ".toList = [' ', '|', ' '] := rfl
  rw [describe, String.toList_append, String.toList_append,
    toList_intercalate_describeAll spaced]
  simp [enclosed]

theorem toList_describe_sequence (first : Expr) (others : List Expr) :
    (sequence (first :: others)).describe.toList =
      enclosed '(' ')' (first.describe.toList ++ separated ',' others) := by
  have spaced : " , ".toList = [' ', ',', ' '] := rfl
  rw [describe, String.toList_append, String.toList_append,
    toList_intercalate_describeAll spaced]
  simp [enclosed]

theorem toList_describe_optional (operand : Expr) :
    (optional operand).describe.toList = enclosed '[' ']' operand.describe.toList := by
  rw [describe, String.toList_append, String.toList_append]
  simp [enclosed]

theorem toList_describe_repetition (operand : Expr) :
    (repetition operand).describe.toList =
      enclosed '\x7b' '\x7d' operand.describe.toList := by
  rw [describe, String.toList_append, String.toList_append]
  simp [enclosed]

def escaped (character : Char) : List Char :=
  if character = '"' then ['\\', '"'] else [character]

theorem toList_describe_terminal (pattern : String) :
    (terminal pattern).describe.toList = '"' :: (pattern.toList.flatMap escaped ++ ['"']) := by
  rw [describe, quotePattern, String.toList_ofList]
  rfl

end Expr

namespace Ebnf

open OrderedChoice.Expr (content enclosed separated escaped)

/-! ## What shows of patterns -/

/-- The characters that a printed text has from its patterns alone, if at all. -/
def notable : List Char := ['\n', '\r', ';', '\\']

/-- A text of a single line whose semicolons and backslashes are those of a content, with
one more backslash for every double quote of it. -/
structure Displays (content text : List Char) : Prop where
  unfed : '\n' ∉ text
  unreturned : '\r' ∉ text
  semicolons : text.count ';' = content.count ';'
  backslashes : text.count '\\' = content.count '\\' + content.count '"'

namespace Displays

variable {content more text other : List Char} {character : Char}

theorem nil : Displays [] [] := ⟨List.not_mem_nil, List.not_mem_nil, rfl, rfl⟩

theorem append (displays : Displays content text) (further : Displays more other) :
    Displays (content ++ more) (text ++ other) where
  unfed := fun member => (List.mem_append.mp member).elim displays.unfed further.unfed
  unreturned := fun member =>
    (List.mem_append.mp member).elim displays.unreturned further.unreturned
  semicolons := by
    rw [List.count_append, List.count_append, displays.semicolons, further.semicolons]
  backslashes := by
    simp only [List.count_append, displays.backslashes, further.backslashes]
    omega

theorem single (plain : character ∉ notable) : Displays [] [character] := by
  simp only [notable, List.mem_cons, List.not_mem_nil, or_false, not_or] at plain
  obtain ⟨unfed, unreturned, semicolon, backslash⟩ := plain
  refine ⟨?_, ?_, ?_, ?_⟩
  · exact fun member => unfed (List.mem_singleton.mp member).symm
  · exact fun member => unreturned (List.mem_singleton.mp member).symm
  · exact List.count_eq_zero.mpr fun member => semicolon (List.mem_singleton.mp member).symm
  · exact List.count_eq_zero.mpr fun member => backslash (List.mem_singleton.mp member).symm

theorem cons (plain : character ∉ notable) (displays : Displays content text) :
    Displays content (character :: text) :=
  (single plain).append displays

theorem plain (plain : ∀ character ∈ text, character ∉ notable) : Displays [] text := by
  induction text with
  | nil => exact .nil
  | cons first others induction =>
      rw [List.forall_mem_cons] at plain
      exact .cons plain.1 (induction plain.2)

theorem enclosed {opening closing : Char} (opens : opening ∉ notable)
    (closes : closing ∉ notable) (displays : Displays content text) :
    Displays content (enclosed opening closing text) := by
  have blank : ' ' ∉ notable := by decide
  have last : Displays [] [' ', closing] := .cons blank (.single closes)
  rw [← List.append_nil content]
  exact .cons opens (.cons blank (displays.append last))

theorem separated {separator : Char} (plain : separator ∉ notable) {exprs : List Expr}
    (displays : ∀ expr ∈ exprs, Displays expr.content expr.describe.toList) :
    Displays (exprs.flatMap Expr.content) (separated separator exprs) := by
  have blank : ' ' ∉ notable := by decide
  induction exprs with
  | nil => exact .nil
  | cons first others induction =>
      rw [List.forall_mem_cons] at displays
      have shown : Displays first.content (' ' :: separator :: ' ' :: first.describe.toList) :=
        .cons blank (.cons plain (.cons blank displays.1))
      exact shown.append (induction displays.2)

theorem escaped (unfed : '\n' ∉ text) (unreturned : '\r' ∉ text) :
    Displays text (text.flatMap escaped) := by
  induction text with
  | nil => exact .nil
  | cons first others induction =>
      rw [List.mem_cons, not_or] at unfed unreturned
      have shown : Displays [first] (Expr.escaped first) := by
        by_cases quote : first = '"'
        · subst quote
          exact ⟨by decide, by decide, by decide, by decide⟩
        · unfold Expr.escaped
          rw [if_neg quote]
          refine ⟨?_, ?_, rfl, ?_⟩
          · exact fun member => unfed.1 (List.mem_singleton.mp member)
          · exact fun member => unreturned.1 (List.mem_singleton.mp member)
          · have none : [first].count '"' = 0 :=
              List.count_eq_zero.mpr fun member => quote (List.mem_singleton.mp member).symm
            rw [none]
            rfl
      exact shown.append (induction unfed.2 unreturned.2)

end Displays

theorem not_mem_notable_of_isWord {character : Char} (word : isWord character = true) :
    character ∉ notable := by
  have blanks : isBlank '\n' = true ∧ isBlank '\r' = true := by decide +kernel
  have unword : ∀ other ∈ notable, isWord other = false := by
    simp only [notable, List.forall_mem_cons]
    exact ⟨isWord_of_isBlank blanks.1, isWord_of_isBlank blanks.2,
      (marks_apart ';' (by decide)).2, (marks_apart '\\' (by decide)).2, List.forall_mem_nil _⟩
  intro member
  rw [unword character member] at word
  cases word

theorem IsName.displays {name : List Char} (isName : IsName name) : Displays [] name := by
  cases name with
  | nil => exact .nil
  | cons first others =>
      apply Displays.plain
      rw [List.forall_mem_cons]
      exact ⟨not_mem_notable_of_isWord (isWord_of_isLead isName.1),
        fun character member => not_mem_notable_of_isWord (isName.2 character member)⟩

theorem IsPlain.ne_newline {character : Char} (plain : IsPlain character) :
    character ≠ '\n' := by
  rintro rfl
  obtain word | blank | tab | mark := plain
  · exact not_mem_notable_of_isWord word (by decide)
  · cases blank
  · cases tab
  · revert mark
    decide

theorem Quotable.not_mem_newline {pattern : List Char} (quotable : Quotable pattern) :
    '\n' ∉ pattern := by
  induction quotable with
  | nil => exact List.not_mem_nil
  | escape different _ induction =>
      simp only [List.mem_cons, not_or]
      exact ⟨by decide, different.symm, induction⟩
  | plain plain _ induction =>
      rw [List.mem_cons, not_or]
      exact ⟨plain.ne_newline.symm, induction⟩

theorem Readable.displays {expr : Expr} (readable : Readable expr) :
    Displays expr.content expr.describe.toList := by
  induction readable with
  | @terminal pattern quotable unreturned =>
      have inside := Displays.escaped quotable.not_mem_newline unreturned
      have mark : '"' ∉ notable := by decide
      have whole := (Displays.cons mark inside).append (.single mark)
      rw [Expr.toList_describe_terminal]
      simpa [content, Expr.patterns] using whole
  | reference isName => exact isName.displays
  | @choice first second others _ induction =>
      rw [List.forall_mem_cons] at induction
      have inside := induction.1.append
        (.separated (by decide : '|' ∉ notable) induction.2)
      rw [Expr.toList_describe_choice, content, Expr.patterns, Expr.content_patternsInAll]
      exact .enclosed (by decide) (by decide) inside
  | @sequence first second others _ induction =>
      rw [List.forall_mem_cons] at induction
      have inside := induction.1.append
        (.separated (by decide : ',' ∉ notable) induction.2)
      rw [Expr.toList_describe_sequence, content, Expr.patterns, Expr.content_patternsInAll]
      exact .enclosed (by decide) (by decide) inside
  | optional _ induction =>
      rw [Expr.toList_describe_optional]
      exact .enclosed (by decide) (by decide) induction
  | repetition _ induction =>
      rw [Expr.toList_describe_repetition]
      exact .enclosed (by decide) (by decide) induction

/-! ## Lines -/

def line (rule : String × Expr) : List Char :=
  rule.1.toList ++ ' ' :: '=' :: ' ' :: (rule.2.describe.toList ++ [' ', ';'])

def page (rules : List (String × Expr)) : List Char :=
  rules.flatMap fun rule => line rule ++ ['\n']

theorem page_cons (rule : String × Expr) (others : List (String × Expr)) :
    page (rule :: others) = line rule ++ '\n' :: page others := by
  simp [page]

theorem toList_printed_describe (grammar : Grammar) :
    (CommandLine.printed grammar.describe).toList = page grammar.rules := by
  unfold CommandLine.printed Grammar.describe page
  rw [List.map_map, String.toList_join, List.flatMap_map]
  congr 1
  funext rule
  simp [line, toString]

theorem ReadableRule.displays {rule : String × Expr} (readable : ReadableRule rule) :
    Displays (rule.2.content ++ [';']) (line rule) := by
  have blank : ' ' ∉ notable := by decide
  have mark : '=' ∉ notable := by decide
  have semicolon : Displays [';'] [';'] := ⟨by decide, by decide, rfl, rfl⟩
  have ending : Displays (rule.2.content ++ [';']) (rule.2.describe.toList ++ [' ', ';']) :=
    readable.2.displays.append (.cons blank semicolon)
  have definition := Displays.cons blank (.cons mark (.cons blank ending))
  exact readable.1.displays.append definition

theorem not_mem_page {rules : List (String × Expr)}
    (readable : ∀ rule ∈ rules, ReadableRule rule) : '\r' ∉ page rules := by
  induction rules with
  | nil => exact List.not_mem_nil
  | cons rule others induction =>
      rw [List.forall_mem_cons] at readable
      rw [page_cons, List.mem_append, List.mem_cons]
      rintro (inLine | equal | inOthers)
      · exact readable.1.displays.unreturned inLine
      · revert equal
        decide
      · exact induction readable.2 inOthers

def contents (rules : List (String × Expr)) : List Char :=
  rules.flatMap fun rule => rule.2.content ++ [';']

theorem count_page_cons {mark : Char} (different : '\n' ≠ mark) (rule : String × Expr)
    (others : List (String × Expr)) :
    (page (rule :: others)).count mark = (line rule).count mark + (page others).count mark := by
  rw [page_cons, List.count_append, List.count_cons_of_ne different]

theorem count_contents_cons (mark : Char) (rule : String × Expr)
    (others : List (String × Expr)) :
    (contents (rule :: others)).count mark =
      (rule.2.content ++ [';']).count mark + (contents others).count mark := by
  rw [contents, List.flatMap_cons, List.count_append]
  rfl

theorem count_page {rules : List (String × Expr)}
    (readable : ∀ rule ∈ rules, ReadableRule rule) :
    (page rules).count ';' = (contents rules).count ';' ∧
      (page rules).count '\\' = (contents rules).count '\\' + (contents rules).count '"' := by
  induction rules with
  | nil => exact ⟨rfl, rfl⟩
  | cons rule others induction =>
      rw [List.forall_mem_cons] at readable
      have shown := readable.1.displays
      obtain ⟨semicolons, backslashes⟩ := induction readable.2
      constructor
      · rw [count_page_cons (by decide), count_contents_cons, shown.semicolons, semicolons]
      · rw [count_page_cons (by decide), count_contents_cons, count_contents_cons,
          shown.backslashes, backslashes]
        omega

theorem mem_contents {rules : List (String × Expr)} {rule : String × Expr} {pattern : String}
    (member : rule ∈ rules) (inside : pattern ∈ rule.2.patterns) {character : Char}
    (among : character ∈ pattern.toList) : character ∈ contents rules := by
  apply List.mem_flatMap.mpr
  refine ⟨rule, member, List.mem_append_left _ ?_⟩
  exact List.mem_flatMap.mpr ⟨pattern, inside, among⟩

end Ebnf

end OrderedChoice
