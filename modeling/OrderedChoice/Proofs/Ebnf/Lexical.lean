import Mathlib.Data.List.TakeWhile
import OrderedChoice.Proofs.CharClass.Membership
import OrderedChoice.Proofs.Derivation.Character
import OrderedChoice.Proofs.Ebnf.Notation

/-! Layout, names and quoted patterns, as the grammar of grammar texts finds them.
Layout and names are taken as far as they go, so each is found up to one rest
only: the one after which it cannot go on. -/

namespace OrderedChoice

namespace Ebnf

variable {characters text rest : List Char} {tree : Tree Char}

/-! ## Classes of characters -/

theorem isWord_of_isLead {character : Char} (lead : isLead character = true) :
    isWord character = true :=
  CharClass.word_of_lead lead

theorem isWord_of_isBlank {character : Char} (blank : isBlank character = true) :
    isWord character = false :=
  CharClass.word_of_space blank

/-- The characters with a meaning of their own outside of words and layout. -/
def marks : List Char :=
  ['/', '\\', '"', '(', ')', '[', ']', '\x7b', '\x7d', ',', '|', '=', ';']

theorem marks_apart : ∀ mark ∈ marks, isBlank mark = false ∧ isWord mark = false := by
  simp only [marks, List.forall_mem_cons, List.not_mem_nil, false_implies, implies_true, and_true]
  decide +kernel

theorem isLead_mark {mark : Char} (member : mark ∈ marks) : isLead mark = false := by
  apply Bool.eq_false_iff.mpr
  intro lead
  have word := isWord_of_isLead lead
  rw [(marks_apart mark member).2] at word
  cases word

/-! ## Comments -/

def inComment (character : Char) : Bool :=
  CharClass.newline.complement.containsChar character

theorem inComment_iff {character : Char} : inComment character = true ↔ character ≠ '\n' :=
  CharClass.not_newline_iff

theorem inComment_eq_false_iff {character : Char} :
    inComment character = false ↔ character = '\n' := by
  rw [← Bool.not_eq_true, inComment_iff, not_not]

def OpensComment (text : List Char) : Prop :=
  ∃ content, text = '/' :: '/' :: content

theorem comment_defined : grammar.lookup? "comment" =
    some (.sequence [.terminal "//", .repetition (.terminal "\\N")]) := rfl

theorem passes_slashes_iff (inside : text <:+ characters) :
    Passes grammar characters (.terminal "//") text rest ↔ text = '/' :: '/' :: rest := by
  have tests : Pattern.tests "//" = [('/' == ·), ('/' == ·)] := rfl
  rw [passes_terminal_iff inside]
  unfold Spells
  rw [tests]
  constructor
  · rintro ⟨taken, spells, rfl⟩
    rcases List.forall₂_cons_left_iff.mp spells with ⟨first, _, slash, more, rfl⟩
    rcases List.forall₂_cons_left_iff.mp more with ⟨second, _, again, none, rfl⟩
    rw [List.forall₂_nil_left_iff.mp none, ← beq_iff_eq.mp slash, ← beq_iff_eq.mp again]
    rfl
  · rintro rfl
    exact ⟨['/', '/'], .cons rfl (.cons rfl .nil), rfl⟩

theorem passes_comment_iff (inside : text <:+ characters) :
    Passes grammar characters (.reference "comment") text rest ↔
      ∃ content, text = '/' :: '/' :: (content ++ rest) ∧
        (∀ character ∈ content, character ≠ '\n') ∧
        ∀ character ∈ rest.head?, character = '\n' := by
  have tests : Pattern.tests "\\N" = [inComment] := rfl
  rw [passes_reference_iff comment_defined, passes_sequence_cons_iff]
  simp only [passes_sequence_single_iff, passes_slashes_iff inside]
  constructor
  · rintro ⟨middle, rfl, run⟩
    rcases (passes_run_iff tests run.inside).mp run with ⟨content, rfl, unbroken, ends⟩
    simp only [inComment_iff, inComment_eq_false_iff] at unbroken ends
    exact ⟨content, rfl, unbroken, ends⟩
  · rintro ⟨content, rfl, unbroken, ends⟩
    have insideContent : content ++ rest <:+ characters :=
      (List.suffix_append ['/', '/'] (content ++ rest)).trans inside
    simp only [← inComment_iff, ← inComment_eq_false_iff] at unbroken ends
    have run : Passes grammar characters (.repetition (.terminal "\\N")) (content ++ rest) rest :=
      (passes_run_iff tests insideContent).mpr ⟨content, rfl, unbroken, ends⟩
    exact ⟨_, rfl, run⟩

theorem exists_passes_comment (inside : text <:+ characters) (opens : OpensComment text) :
    ∃ rest, Passes grammar characters (.reference "comment") text rest := by
  rcases opens with ⟨content, rfl⟩
  rcases eq_dropWhile_iff.mp (rfl : content.dropWhile inComment = _) with
    ⟨run, split, unbroken, ends⟩
  simp only [inComment_iff, inComment_eq_false_iff] at unbroken ends
  refine ⟨content.dropWhile inComment, (passes_comment_iff inside).mpr ⟨run, ?_, unbroken, ends⟩⟩
  rw [← split]

theorem rejects_comment_iff (inside : text <:+ characters) :
    Rejects grammar characters (.reference "comment") text ↔ ¬ OpensComment text := by
  constructor
  · intro rejects opens
    rcases exists_passes_comment inside opens with ⟨rest, passes⟩
    exact passes.not_rejects rejects
  · intro closed
    rw [rejects_reference_iff comment_defined, rejects_sequence_cons_iff]
    left
    apply (rejects_terminal_iff inside).mpr
    intro taken rest spells whole
    have slashes := (passes_slashes_iff inside).mp
      ((passes_terminal_iff inside).mpr ⟨taken, spells, whole⟩)
    exact closed ⟨rest, slashes⟩

/-! ## Layout -/

def OpensLayout (text : List Char) : Prop :=
  (∃ character ∈ text.head?, isBlank character = true) ∨ OpensComment text

def layoutPiece : Expr := .choice [.terminal "\\s", .reference "comment"]

theorem layout_defined : grammar.lookup? "_" = some (.repetition layoutPiece) := rfl

theorem tests_blank : Pattern.tests "\\s" = [isBlank] := rfl

theorem passes_piece_iff (inside : text <:+ characters) :
    Passes grammar characters layoutPiece text rest ↔
      (∃ character, isBlank character = true ∧ text = character :: rest) ∨
        ∃ content, text = '/' :: '/' :: (content ++ rest) ∧
          (∀ character ∈ content, character ≠ '\n') ∧
          ∀ character ∈ rest.head?, character = '\n' := by
  have slash : isBlank '/' = false := (marks_apart '/' (by decide)).1
  unfold layoutPiece
  rw [passes_choice_cons_iff, passes_choice_cons_iff, passes_single_iff tests_blank inside,
    rejects_single_iff tests_blank inside, passes_comment_iff inside]
  constructor
  · rintro (blank | ⟨_, comment | ⟨_, none⟩⟩)
    · exact .inl blank
    · exact .inr comment
    · exact absurd none not_passes_choice_nil
  · rintro (blank | ⟨content, rfl, comment⟩)
    · exact .inl blank
    · refine .inr ⟨?_, .inl ⟨content, rfl, comment⟩⟩
      intro character head
      cases head
      exact slash

theorem rejects_piece_iff (inside : text <:+ characters) :
    Rejects grammar characters layoutPiece text ↔ ¬ OpensLayout text := by
  unfold layoutPiece OpensLayout
  rw [rejects_choice_cons_iff, rejects_choice_cons_iff, rejects_single_iff tests_blank inside,
    rejects_comment_iff inside]
  simp only [rejects_choice_nil inside, and_true, not_or, not_exists, not_and,
    Bool.not_eq_true]

theorem advances_piece : Advances grammar characters layoutPiece := by
  intro text tree rest reads
  rcases (passes_piece_iff reads.inside).mp ⟨tree, reads⟩ with
    ⟨character, _, rfl⟩ | ⟨content, rfl, _⟩
  · exact Nat.lt_succ_self _
  · simp only [List.length_cons, List.length_append]
    omega

theorem passes_pieces_iff (inside : text <:+ characters) :
    Passes grammar characters (.repetition layoutPiece) text rest ↔
      Layout text rest ∧ ¬ OpensLayout rest := by
  constructor
  · intro passes
    refine advances_piece.repetition_induction (fun text => Layout text rest ∧ ¬ OpensLayout rest)
      ?ends ?goes passes
    case ends => exact fun rejects => ⟨.none, (rejects_piece_iff rejects.inside).mp rejects⟩
    case goes =>
      rintro text middle piece ⟨laid, closed⟩
      refine ⟨?_, closed⟩
      rcases (passes_piece_iff piece.inside).mp piece with
        ⟨character, blank, rfl⟩ | ⟨content, rfl, unbroken, ends⟩
      · exact .blank blank laid
      · exact .comment unbroken ends laid
  · rintro ⟨laid, closed⟩
    induction laid with
    | none =>
        have rejects := (rejects_piece_iff inside).mpr closed
        exact advances_piece.passes_repetition_iff.mpr (.inl ⟨rejects, rfl⟩)
    | blank blank laid induction =>
        have piece := (passes_piece_iff inside).mpr (.inl ⟨_, blank, rfl⟩)
        have passes := induction piece.rest_inside closed
        exact advances_piece.passes_repetition_iff.mpr (.inr ⟨_, piece, passes⟩)
    | comment unbroken ends laid induction =>
        have piece := (passes_piece_iff inside).mpr (.inr ⟨_, rfl, unbroken, ends⟩)
        have passes := induction piece.rest_inside closed
        exact advances_piece.passes_repetition_iff.mpr (.inr ⟨_, piece, passes⟩)

/-- Layout is found as far as it goes. -/
theorem passes_layout_iff (inside : text <:+ characters) :
    Passes grammar characters layout text rest ↔ Layout text rest ∧ ¬ OpensLayout rest :=
  (passes_reference_iff layout_defined).trans (passes_pieces_iff inside)

theorem layout_of_reads (reads : Reads grammar characters layout text tree rest) :
    Layout text rest :=
  ((passes_layout_iff reads.inside).mp ⟨tree, reads⟩).1

/-! ## Names -/

theorem name_defined : grammar.lookup? "name" =
    some (.sequence [.terminal "\\a", .repetition (.terminal "\\w")]) := rfl

def OpensWord (text : List Char) : Prop :=
  ∃ character ∈ text.head?, isWord character = true

theorem passes_name_iff (inside : text <:+ characters) :
    Passes grammar characters (.reference "name") text rest ↔
      ∃ name, IsName name ∧ text = name ++ rest ∧ ¬ OpensWord rest := by
  have testsLead : Pattern.tests "\\a" = [isLead] := rfl
  have testsWord : Pattern.tests "\\w" = [isWord] := rfl
  rw [passes_reference_iff name_defined, passes_sequence_cons_iff]
  simp only [passes_sequence_single_iff, passes_single_iff testsLead inside, OpensWord,
    not_exists, not_and, Bool.not_eq_true]
  constructor
  · rintro ⟨middle, ⟨first, lead, rfl⟩, run⟩
    rcases (passes_run_iff testsWord run.inside).mp run with ⟨others, rfl, words, ends⟩
    exact ⟨first :: others, ⟨lead, words⟩, rfl, ends⟩
  · rintro ⟨name, isName, rfl, ends⟩
    cases name with
    | nil => exact absurd isName id
    | cons first others =>
        have insideOthers : others ++ rest <:+ characters :=
          (List.suffix_cons first (others ++ rest)).trans inside
        have run : Passes grammar characters (.repetition (.terminal "\\w")) (others ++ rest)
            rest := (passes_run_iff testsWord insideOthers).mpr ⟨others, rfl, isName.2, ends⟩
        exact ⟨_, ⟨first, isName.1, rfl⟩, run⟩

theorem rejects_name (inside : text <:+ characters)
    (closed : ∀ character ∈ text.head?, isLead character = false) :
    Rejects grammar characters (.reference "name") text := by
  have testsLead : Pattern.tests "\\a" = [isLead] := rfl
  rw [rejects_reference_iff name_defined, rejects_sequence_cons_iff]
  exact .inl ((rejects_single_iff testsLead inside).mpr closed)

/-! ## Quoted patterns -/

def plainPatterns : List (String × (Char → Bool)) :=
  [("\\w", isWord), (" ", (' ' == ·)), ("\\t", CharClass.tab.containsChar)] ++
    punctuation.map fun character => (character.toString, (character == ·))

theorem tests_plain {alternative : String × (Char → Bool)} (member : alternative ∈ plainPatterns) :
    Pattern.tests alternative.1 = [alternative.2] := by
  rcases List.mem_append.mp member with named | literal
  · simp only [List.mem_cons, List.not_mem_nil, or_false] at named
    rcases named with rfl | rfl | rfl <;> rfl
  · rcases List.mem_map.mp literal with ⟨character, _, rfl⟩
    exact tests_toString character

theorem plain_iff {character : Char} :
    (∃ alternative ∈ plainPatterns, alternative.2 character = true) ↔ IsPlain character := by
  unfold plainPatterns IsPlain
  simp only [List.mem_append, List.mem_cons, List.not_mem_nil, or_false, List.mem_map]
  constructor
  · rintro ⟨alternative, (rfl | rfl | rfl) | ⟨other, member, rfl⟩, holds⟩
    · exact .inl holds
    · exact .inr (.inl (beq_iff_eq.mp holds).symm)
    · exact .inr (.inr (.inl (CharClass.tab_iff.mp holds)))
    · rw [← beq_iff_eq.mp holds]
      exact .inr (.inr (.inr member))
  · rintro (word | rfl | rfl | member)
    · exact ⟨_, .inl (.inl rfl), word⟩
    · exact ⟨_, .inl (.inr (.inl rfl)), rfl⟩
    · exact ⟨_, .inl (.inr (.inr rfl)), CharClass.tab_iff.mpr rfl⟩
    · exact ⟨_, .inr ⟨character, member, rfl⟩, beq_self_eq_true character⟩

theorem character_defined : grammar.lookup? "character" =
    some (.choice (.sequence [.terminal "\\\\", .terminal "\\N"] ::
      plainPatterns.map fun alternative => .terminal alternative.1)) := rfl

theorem tests_backslash : Pattern.tests "\\\\" = [('\\' == ·)] := rfl

theorem tests_quote : Pattern.tests "\\\"" = [('"' == ·)] := rfl

theorem passes_escape_iff (inside : text <:+ characters) :
    Passes grammar characters (.sequence [.terminal "\\\\", .terminal "\\N"]) text rest ↔
      ∃ character, character ≠ '\n' ∧ text = '\\' :: character :: rest := by
  have tests : Pattern.tests "\\N" = [inComment] := rfl
  rw [passes_sequence_cons_iff]
  simp only [passes_sequence_single_iff, passes_literal_iff tests_backslash inside]
  constructor
  · rintro ⟨middle, rfl, passes⟩
    rcases (passes_single_iff tests passes.inside).mp passes with ⟨character, unbroken, rfl⟩
    exact ⟨character, inComment_iff.mp unbroken, rfl⟩
  · rintro ⟨character, unbroken, rfl⟩
    have insideOthers := (List.suffix_cons '\\' (character :: rest)).trans inside
    have passes : Passes grammar characters (.terminal "\\N") (character :: rest) rest :=
      (passes_single_iff tests insideOthers).mpr ⟨character, inComment_iff.mpr unbroken, rfl⟩
    exact ⟨_, rfl, passes⟩

theorem rejects_escape (inside : text <:+ characters) (head : text.head? ≠ some '\\') :
    Rejects grammar characters (.sequence [.terminal "\\\\", .terminal "\\N"]) text := by
  rw [rejects_sequence_cons_iff]
  exact .inl ((rejects_literal_iff tests_backslash inside).mpr head)

theorem not_isPlain : ∀ mark ∈ ['\\', '"'], ¬ IsPlain mark := by
  simp only [List.forall_mem_cons, List.not_mem_nil, false_implies, implies_true, and_true,
    IsPlain, isWord]
  decide +kernel

theorem passes_character_iff (inside : text <:+ characters) :
    Passes grammar characters (.reference "character") text rest ↔
      (∃ character, character ≠ '\n' ∧ text = '\\' :: character :: rest) ∨
        ∃ character, IsPlain character ∧ text = character :: rest := by
  rw [passes_reference_iff character_defined, passes_choice_cons_iff, passes_escape_iff inside,
    passes_choice_singles_iff (fun _ => tests_plain) inside]
  simp only [plain_iff]
  constructor
  · rintro (escape | ⟨_, plain⟩)
    · exact .inl escape
    · exact .inr plain
  · rintro (escape | ⟨character, plain, rfl⟩)
    · exact .inl escape
    · refine .inr ⟨rejects_escape inside ?_, character, plain, rfl⟩
      intro head
      cases head
      exact not_isPlain '\\' (by decide) plain

theorem rejects_character (inside : '"' :: rest <:+ characters) :
    Rejects grammar characters (.reference "character") ('"' :: rest) := by
  rw [rejects_reference_iff character_defined, rejects_choice_cons_iff]
  constructor
  · apply rejects_escape inside
    simp
  · apply rejects_choice_singles (fun _ => tests_plain) inside
    intro character head alternative member
    cases head
    apply Bool.eq_false_iff.mpr
    intro holds
    exact not_isPlain '"' (by decide) (plain_iff.mp ⟨alternative, member, holds⟩)

theorem advances_character : Advances grammar characters (.reference "character") := by
  intro text tree rest reads
  rcases (passes_character_iff reads.inside).mp ⟨tree, reads⟩ with
    ⟨character, _, rfl⟩ | ⟨character, _, rfl⟩
  · exact Nat.lt_succ_of_lt (Nat.lt_succ_self _)
  · exact Nat.lt_succ_self _

theorem passes_pattern_iff (inside : text <:+ characters) :
    Passes grammar characters (.repetition (.reference "character")) text ('"' :: rest) ↔
      ∃ pattern, Quotable pattern ∧ text = pattern ++ '"' :: rest := by
  constructor
  · intro passes
    refine advances_character.repetition_induction
      (fun text => ∃ pattern, Quotable pattern ∧ text = pattern ++ '"' :: rest) ?ends ?goes passes
    case ends => exact fun _ => ⟨[], .nil, rfl⟩
    case goes =>
      rintro text middle character ⟨pattern, quotable, rfl⟩
      rcases (passes_character_iff character.inside).mp character with
        ⟨character, unbroken, rfl⟩ | ⟨character, plain, rfl⟩
      · exact ⟨_, .escape unbroken quotable, rfl⟩
      · exact ⟨_, .plain plain quotable, rfl⟩
  · rintro ⟨pattern, quotable, rfl⟩
    induction quotable with
    | nil =>
        exact advances_character.passes_repetition_iff.mpr (.inl ⟨rejects_character inside, rfl⟩)
    | escape unbroken quotable induction =>
        have character := (passes_character_iff inside).mpr (.inl ⟨_, unbroken, rfl⟩)
        have passes := induction character.rest_inside
        exact advances_character.passes_repetition_iff.mpr (.inr ⟨_, character, passes⟩)
    | plain plain quotable induction =>
        have character := (passes_character_iff inside).mpr (.inr ⟨_, plain, rfl⟩)
        have passes := induction character.rest_inside
        exact advances_character.passes_repetition_iff.mpr (.inr ⟨_, character, passes⟩)

theorem term_defined : grammar.lookup? "term" =
    some (.sequence [.terminal "\\\"", .repetition (.reference "character"),
      .terminal "\\\""]) := rfl

theorem passes_term_iff (inside : text <:+ characters) :
    Passes grammar characters (.reference "term") text rest ↔
      ∃ pattern, Quotable pattern ∧ text = '"' :: (pattern ++ '"' :: rest) := by
  rw [passes_reference_iff term_defined, passes_sequence_cons_iff]
  simp only [passes_literal_iff tests_quote inside]
  constructor
  · rintro ⟨middle, rfl, passes⟩
    rcases passes_sequence_cons_iff.mp passes with ⟨last, passes, single⟩
    have quote := passes_sequence_single_iff.mp single
    rw [(passes_literal_iff tests_quote quote.inside).mp quote] at passes
    rcases (passes_pattern_iff passes.inside).mp passes with ⟨pattern, quotable, rfl⟩
    exact ⟨pattern, quotable, rfl⟩
  · rintro ⟨pattern, quotable, rfl⟩
    have insideOthers := (List.suffix_cons '"' (pattern ++ '"' :: rest)).trans inside
    have passes := (passes_pattern_iff insideOthers).mpr ⟨pattern, quotable, rfl⟩
    have quote : Passes grammar characters (.terminal "\\\"") ('"' :: rest) rest :=
      (passes_literal_iff tests_quote passes.rest_inside).mpr rfl
    exact ⟨_, rfl, passes_sequence_cons_iff.mpr
      ⟨_, passes, passes_sequence_single_iff.mpr quote⟩⟩

theorem rejects_term (inside : text <:+ characters) (head : text.head? ≠ some '"') :
    Rejects grammar characters (.reference "term") text := by
  rw [rejects_reference_iff term_defined, rejects_sequence_cons_iff]
  exact .inl ((rejects_literal_iff tests_quote inside).mpr head)

end Ebnf

end OrderedChoice
