import Mathlib.Data.List.TakeWhile
import OrderedChoice.Proofs.Derivation.Text

/-! Terminals that take one character. What they take, and what repetitions of them
and choices between them take, shows in the first characters of a text. -/

namespace OrderedChoice

variable {grammar : Grammar} {characters text rest : List Char} {tree : Tree Char}

/-! ## Patterns of one condition -/

section Single

variable {pattern : String} {test : Char → Bool}

theorem spells_single (tests : Pattern.tests pattern = [test]) {taken : List Char} :
    Spells pattern taken ↔ ∃ character, test character = true ∧ taken = [character] := by
  unfold Spells
  rw [tests]
  constructor
  · intro spells
    rcases List.forall₂_cons_left_iff.mp spells with ⟨character, others, holds, none, equal⟩
    rw [List.forall₂_nil_left_iff.mp none] at equal
    exact ⟨character, holds, equal⟩
  · rintro ⟨character, holds, rfl⟩
    exact .cons holds .nil

theorem reads_single_iff (tests : Pattern.tests pattern = [test]) (inside : text <:+ characters) :
    Reads grammar characters (.terminal pattern) text tree rest ↔
      ∃ character, test character = true ∧ text = character :: rest ∧
        tree = .leaf pattern [character] (spanOf characters text rest) := by
  rw [reads_terminal_iff inside]
  constructor
  · rintro ⟨taken, spells, whole, equal⟩
    rcases (spells_single tests).mp spells with ⟨character, holds, single⟩
    subst single
    exact ⟨character, holds, whole, equal⟩
  · rintro ⟨character, holds, whole, equal⟩
    exact ⟨[character], (spells_single tests).mpr ⟨character, holds, rfl⟩, whole, equal⟩

theorem passes_single_iff (tests : Pattern.tests pattern = [test])
    (inside : text <:+ characters) :
    Passes grammar characters (.terminal pattern) text rest ↔
      ∃ character, test character = true ∧ text = character :: rest := by
  constructor
  · rintro ⟨tree, reads⟩
    rcases (reads_single_iff tests inside).mp reads with ⟨character, holds, whole, _⟩
    exact ⟨character, holds, whole⟩
  · rintro ⟨character, holds, whole⟩
    exact ⟨_, (reads_single_iff tests inside).mpr ⟨character, holds, whole, rfl⟩⟩

theorem rejects_single_iff (tests : Pattern.tests pattern = [test])
    (inside : text <:+ characters) :
    Rejects grammar characters (.terminal pattern) text ↔
      ∀ character ∈ text.head?, test character = false := by
  rw [rejects_terminal_iff inside]
  constructor
  · intro unmet character head
    rcases List.head?_eq_some_iff.mp head with ⟨rest, equal⟩
    apply Bool.eq_false_iff.mpr
    intro holds
    exact unmet [character] rest ((spells_single tests).mpr ⟨character, holds, rfl⟩) equal
  · intro fails taken rest spells equal
    rcases (spells_single tests).mp spells with ⟨character, holds, rfl⟩
    have turned := fails character (by rw [equal]; rfl)
    rw [holds] at turned
    cases turned

theorem advances_single (grammar : Grammar) (characters : List Char)
    (tests : Pattern.tests pattern = [test]) :
    Advances grammar characters (.terminal pattern) := by
  intro text tree rest reads
  rcases (reads_single_iff tests reads.inside).mp reads with ⟨character, _, rfl, _⟩
  exact Nat.lt_succ_self _

theorem eq_dropWhile_iff :
    rest = text.dropWhile test ↔
      ∃ run, text = run ++ rest ∧ (∀ character ∈ run, test character = true) ∧
        ∀ character ∈ rest.head?, test character = false := by
  constructor
  · rintro rfl
    refine ⟨text.takeWhile test, List.takeWhile_append_dropWhile.symm, ?_, ?_⟩
    · intro character member
      exact List.mem_takeWhile_imp member
    · intro character head
      have turned := List.head?_dropWhile_not test text
      rw [Option.mem_def.mp head] at turned
      exact turned
  · rintro ⟨run, rfl, holds, fails⟩
    rw [List.dropWhile_append_of_pos holds]
    cases rest with
    | nil => rfl
    | cons first others =>
        have turned := fails first rfl
        rw [List.dropWhile_cons_of_neg (Bool.eq_false_iff.mp turned)]

/-- A repetition takes characters for as long as they meet the condition. -/
theorem passes_run_iff (tests : Pattern.tests pattern = [test]) (inside : text <:+ characters) :
    Passes grammar characters (.repetition (.terminal pattern)) text rest ↔
      ∃ run, text = run ++ rest ∧ (∀ character ∈ run, test character = true) ∧
        ∀ character ∈ rest.head?, test character = false := by
  rw [← eq_dropWhile_iff]
  have advances := advances_single grammar characters tests
  induction text with
  | nil =>
      rw [advances.passes_repetition_iff, rejects_single_iff tests inside]
      simp [passes_single_iff tests inside]
  | cons first others induction =>
      have insideOthers : others <:+ characters := (List.suffix_cons first others).trans inside
      rw [advances.passes_repetition_iff, rejects_single_iff tests inside]
      simp only [passes_single_iff tests inside]
      by_cases holds : test first = true
      · rw [List.dropWhile_cons_of_pos holds]
        simp [holds, induction insideOthers]
      · rw [List.dropWhile_cons_of_neg holds]
        simp [holds]

theorem passes_choice_singles_iff {alternatives : List (String × (Char → Bool))}
    (tests : ∀ alternative ∈ alternatives, Pattern.tests alternative.1 = [alternative.2])
    (inside : text <:+ characters) :
    Passes grammar characters
        (.choice (alternatives.map fun alternative => .terminal alternative.1)) text rest ↔
      ∃ character, (∃ alternative ∈ alternatives, alternative.2 character = true) ∧
        text = character :: rest := by
  induction alternatives with
  | nil =>
      constructor
      · intro passes
        exact absurd passes not_passes_choice_nil
      · rintro ⟨_, ⟨_, absent, _⟩, _⟩
        exact nomatch absent
  | cons first others induction =>
      have single := tests first List.mem_cons_self
      have further := induction fun alternative member =>
        tests alternative (List.mem_cons_of_mem first member)
      rw [List.map_cons, passes_choice_cons_iff, passes_single_iff single inside,
        rejects_single_iff single inside, further]
      constructor
      · rintro (⟨character, holds, whole⟩ | ⟨_, character, ⟨alternative, member, holds⟩, whole⟩)
        · exact ⟨character, ⟨first, List.mem_cons_self, holds⟩, whole⟩
        · exact ⟨character, ⟨alternative, List.mem_cons_of_mem first member, holds⟩, whole⟩
      · rintro ⟨character, ⟨alternative, member, holds⟩, rfl⟩
        -- the first alternative may take the character as well, and then it does
        by_cases now : first.2 character = true
        · exact .inl ⟨character, now, rfl⟩
        · rcases List.mem_cons.mp member with equal | member
          · subst equal
            exact absurd holds now
          · refine .inr ⟨?_, character, ⟨alternative, member, holds⟩, rfl⟩
            intro other head
            cases head
            exact Bool.eq_false_iff.mpr now

theorem rejects_choice_singles {alternatives : List (String × (Char → Bool))}
    (tests : ∀ alternative ∈ alternatives, Pattern.tests alternative.1 = [alternative.2])
    (inside : text <:+ characters)
    (fails : ∀ character ∈ text.head?, ∀ alternative ∈ alternatives,
      alternative.2 character = false) :
    Rejects grammar characters
      (.choice (alternatives.map fun alternative => .terminal alternative.1)) text := by
  induction alternatives with
  | nil => exact rejects_choice_nil inside
  | cons first others induction =>
      rw [List.map_cons]
      apply rejects_choice_cons_iff.mpr
      constructor
      · apply (rejects_single_iff (tests first List.mem_cons_self) inside).mpr
        intro character head
        exact fails character head first List.mem_cons_self
      · apply induction
        · intro alternative member
          exact tests alternative (List.mem_cons_of_mem first member)
        · intro character head alternative member
          exact fails character head alternative (List.mem_cons_of_mem first member)

end Single

/-! ## Literals -/

theorem tests_toString (character : Char) :
    Pattern.tests character.toString = [(character == ·)] := by
  unfold Pattern.tests Pattern.units
  have single : character.toString.toList = [character] := by simp
  have split : MatchUnit.split [character] = [.literal character] := by simp [MatchUnit.split]
  rw [single, split]
  rfl

section Literal

variable {pattern : String} {character : Char} (tests : Pattern.tests pattern = [(character == ·)])

include tests

theorem reads_literal_iff (inside : text <:+ characters) :
    Reads grammar characters (.terminal pattern) text tree rest ↔
      text = character :: rest ∧
        tree = .leaf pattern [character] (spanOf characters text rest) := by
  rw [reads_single_iff tests inside]
  simp

theorem eq_cons_of_reads (reads : Reads grammar characters (.terminal pattern) text tree rest) :
    text = character :: rest :=
  ((reads_literal_iff tests reads.inside).mp reads).1

theorem passes_literal_iff (inside : text <:+ characters) :
    Passes grammar characters (.terminal pattern) text rest ↔ text = character :: rest := by
  rw [passes_single_iff tests inside]
  simp

theorem rejects_literal_iff (inside : text <:+ characters) :
    Rejects grammar characters (.terminal pattern) text ↔ text.head? ≠ some character := by
  rw [rejects_single_iff tests inside]
  cases text with
  | nil => simp
  | cons first others =>
      simp only [List.head?_cons, Option.mem_some_iff, forall_eq', beq_eq_false_iff_ne, ne_eq,
        Option.some.injEq]
      exact not_congr eq_comm

end Literal

end OrderedChoice
