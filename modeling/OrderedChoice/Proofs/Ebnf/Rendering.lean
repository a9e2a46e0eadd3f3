import OrderedChoice.Proofs.Ebnf.Printing

/-! Printed expressions as phrases of the notation. Without double quotes in its patterns,
what is printed for a readable expression is an item that denotes it, and the page that is
printed for readable rules renders them. -/

namespace OrderedChoice

namespace Ebnf

open OrderedChoice.Expr (content enclosed separated)

variable {rest : List Char}

/-! ## Items -/

theorem layout_blank (text : List Char) : Layout (' ' :: text) text :=
  .blank (by decide +kernel) .none

def Written (expr : Expr) : Prop :=
  ∀ rest, ∃ named, Item named expr (expr.describe.toList ++ rest) rest

theorem Written.sequence {expr : Expr} (written : Written expr) (rest : List Char) :
    Sequence expr (' ' :: (expr.describe.toList ++ rest)) rest := by
  obtain ⟨named, isItem⟩ := written rest
  exact .items (layout_blank _) isItem .none

theorem Written.body {expr : Expr} (written : Written expr) (rest : List Char) :
    Body expr (' ' :: (expr.describe.toList ++ rest)) rest :=
  .branches (written.sequence rest) .none

theorem separated_cons_append (separator : Char) (first : Expr) (others : List Expr)
    (rest : List Char) :
    separated separator (first :: others) ++ rest =
      ' ' :: separator :: ' ' ::
        (first.describe.toList ++ (separated separator others ++ rest)) := by
  simp [separated]

theorem items_separated {exprs : List Expr} (written : ∀ expr ∈ exprs, Written expr)
    (named : Bool) (rest : List Char) :
    Items named exprs (separated ',' exprs ++ rest) rest := by
  induction exprs generalizing named with
  | nil => exact .none
  | cons first others induction =>
      rw [List.forall_mem_cons] at written
      rw [separated_cons_append]
      obtain ⟨next, isItem⟩ := written.1 (separated ',' others ++ rest)
      exact .comma (layout_blank _) (layout_blank _) isItem (induction written.2 next)

theorem branches_separated {exprs : List Expr} (written : ∀ expr ∈ exprs, Written expr)
    (rest : List Char) : Branches exprs (separated '|' exprs ++ rest) rest := by
  induction exprs with
  | nil => exact .none
  | cons first others induction =>
      rw [List.forall_mem_cons] at written
      rw [separated_cons_append]
      exact .bar (layout_blank _) (written.1.sequence _) (induction written.2)

theorem body_choice {first second : Expr} {others : List Expr}
    (written : ∀ expr ∈ first :: second :: others, Written expr) (rest : List Char) :
    Body (.choice (first :: second :: others))
      (' ' :: (first.describe.toList ++ separated '|' (second :: others) ++ rest)) rest := by
  rw [List.forall_mem_cons] at written
  rw [List.append_assoc]
  exact .branches (written.1.sequence _) (branches_separated written.2 rest)

theorem body_sequence {first second : Expr} {others : List Expr}
    (written : ∀ expr ∈ first :: second :: others, Written expr) (rest : List Char) :
    Body (.sequence (first :: second :: others))
      (' ' :: (first.describe.toList ++ separated ',' (second :: others) ++ rest)) rest := by
  rw [List.forall_mem_cons] at written
  rw [List.append_assoc]
  obtain ⟨named, isItem⟩ := written.1 (separated ',' (second :: others) ++ rest)
  have items := items_separated written.2 named rest
  exact .branches (.items (layout_blank _) isItem items) .none

theorem enclosed_append (opening closing : Char) (inside rest : List Char) :
    enclosed opening closing inside ++ rest =
      opening :: ' ' :: (inside ++ ' ' :: closing :: rest) := by
  simp [enclosed]

theorem flatMap_escaped {pattern : List Char} (unquoted : '"' ∉ pattern) :
    pattern.flatMap Expr.escaped = pattern := by
  induction pattern with
  | nil => rfl
  | cons first others induction =>
      rw [List.mem_cons, not_or] at unquoted
      rw [List.flatMap_cons, induction unquoted.2, Expr.escaped,
        if_neg fun equal => unquoted.1 equal.symm]
      rfl

theorem written_of_mem {parts : List Expr}
    (written : ∀ part ∈ parts, '"' ∉ part.content → Written part)
    (unquoted : '"' ∉ parts.flatMap content) : ∀ part ∈ parts, Written part := by
  intro part member
  apply written part member
  exact fun inside => unquoted (List.mem_flatMap.mpr ⟨part, member, inside⟩)

theorem Readable.written {expr : Expr} (readable : Readable expr) :
    '"' ∉ expr.content → Written expr := by
  induction readable with
  | @terminal pattern quotable _ =>
      intro unquoted rest
      -- a pattern without double quotes is printed as it is
      have plain : '"' ∉ pattern.toList := by simpa [content, Expr.patterns] using unquoted
      have item : Item false (.terminal (String.ofList pattern.toList))
          ('"' :: (pattern.toList ++ '"' :: rest)) rest := .quoted quotable
      rw [String.ofList_toList] at item
      rw [Expr.toList_describe_terminal, flatMap_escaped plain]
      refine ⟨false, ?_⟩
      simpa using item
  | @reference name isName =>
      intro _ rest
      have item : Item true (.reference (String.ofList name.toList)) (name.toList ++ rest) rest :=
        .name isName
      rw [String.ofList_toList] at item
      exact ⟨true, item⟩
  | @choice first second others _ induction =>
      intro unquoted rest
      rw [content, Expr.patterns, Expr.content_patternsInAll] at unquoted
      have written := written_of_mem induction unquoted
      rw [Expr.toList_describe_choice, enclosed_append]
      exact ⟨false, .group (body_choice written _) (layout_blank _)⟩
  | @sequence first second others _ induction =>
      intro unquoted rest
      rw [content, Expr.patterns, Expr.content_patternsInAll] at unquoted
      have written := written_of_mem induction unquoted
      rw [Expr.toList_describe_sequence, enclosed_append]
      exact ⟨false, .group (body_sequence written _) (layout_blank _)⟩
  | optional _ induction =>
      intro unquoted rest
      rw [Expr.toList_describe_optional, enclosed_append]
      exact ⟨false, .option ((induction unquoted).body _) (layout_blank _)⟩
  | repetition _ induction =>
      intro unquoted rest
      rw [Expr.toList_describe_repetition, enclosed_append]
      exact ⟨false, .repetition ((induction unquoted).body _) (layout_blank _)⟩

/-! ## Rules -/

theorem rule_of_line {rule : String × Expr} {text : List Char} (isName : IsName rule.1.toList)
    (written : Written rule.2) (layed : Layout text (line rule ++ rest)) :
    Rule rule text rest := by
  obtain ⟨name, definition⟩ := rule
  have split : line (name, definition) ++ rest =
      name.toList ++ ' ' :: '=' :: ' ' :: (definition.describe.toList ++ ' ' :: ';' :: rest) := by
    simp [line]
  rw [split] at layed
  have isRule : Rule (String.ofList name.toList, definition) text rest :=
    .rule layed isName (layout_blank _) (written.body _) (layout_blank _)
  rw [String.ofList_toList] at isRule
  exact isRule

/-- The rules of a page begin anywhere in the layout before it, such as at the end of the
line before. -/
theorem exists_rules_of_page {rules : List (String × Expr)}
    (readable : ∀ rule ∈ rules, ReadableRule rule) (unquoted : '"' ∉ contents rules)
    {text : List Char} (layed : Layout text (page rules)) :
    ∃ last, Rules rules text last ∧ Layout last [] := by
  induction rules generalizing text with
  | nil => exact ⟨text, .none, layed⟩
  | cons rule others induction =>
      rw [List.forall_mem_cons] at readable
      rw [contents, List.flatMap_cons, List.mem_append, not_or, List.mem_append, not_or]
        at unquoted
      rw [page_cons] at layed
      have isRule := rule_of_line readable.1.1 (readable.1.2.written unquoted.1.1) layed
      have ended : Layout ('\n' :: page others) (page others) :=
        .blank (by decide +kernel) .none
      obtain ⟨last, areRules, layedLast⟩ := induction readable.2 unquoted.2 ended
      exact ⟨last, .more isRule areRules, layedLast⟩

theorem renders_page {rules : List (String × Expr)}
    (readable : ∀ rule ∈ rules, ReadableRule rule) (unquoted : '"' ∉ contents rules) :
    Renders rules (page rules) :=
  exists_rules_of_page readable unquoted .none

end Ebnf

end OrderedChoice
