import Mathlib.Algebra.Group.Nat.Even
import Mathlib.Data.List.DropRight
import OrderedChoice.Grammar.Draft
import OrderedChoice.Proofs.Derivation.Character
import OrderedChoice.Proofs.Derivation.Whole
import OrderedChoice.Proofs.Text.Lines

/-! Patterns that spell a text. Behind an even number of backslashes a pattern can be cut, since
all of them are taken in pairs there. A text whose backslashes are doubled is a pattern with one
literal for each character, so it is matched by that text alone. -/

namespace OrderedChoice

namespace MatchUnit

/-! ## Cuts -/

def backslashTail (characters : List Char) : List Char :=
  characters.rtakeWhile (· == '\\')

theorem backslashTail_append (before behind : List Char) :
    backslashTail (before ++ behind) =
      if behind.all (· == '\\') then backslashTail before ++ behind
      else backslashTail behind := by
  unfold backslashTail List.rtakeWhile
  rw [List.reverse_append]
  split
  · next all =>
      have reversed : ∀ character ∈ behind.reverse, (character == '\\') = true := by
        simpa using all
      rw [List.takeWhile_append_of_pos reversed, List.reverse_append, List.reverse_reverse]
  · next some =>
      have shorter : (behind.reverse.takeWhile (· == '\\')).length ≠ behind.reverse.length := by
        intro length
        have whole := (List.takeWhile_prefix (· == '\\')).eq_of_length length
        apply some
        simpa using List.takeWhile_eq_self_iff.mp whole
      rw [List.takeWhile_append, if_neg shorter]

/-- An even number of backslashes at the end of a text does not change whether the number at the
end of a longer text is even. -/
theorem even_backslashTail_append {before : List Char} (behind : List Char)
    (even : Even (backslashTail before).length) :
    Even (backslashTail (before ++ behind)).length ↔ Even (backslashTail behind).length := by
  rw [backslashTail_append]
  split
  · next all =>
      have whole : backslashTail behind = behind :=
        List.rtakeWhile_eq_self_iff.mpr (List.all_eq_true.mp all)
      rw [List.length_append, Nat.even_add, whole]
      exact iff_true_left even
  · exact Iff.rfl

theorem split_cons {character : Char} (plain : character ≠ '\\') (rest : List Char) :
    split (character :: rest) = literal character :: split rest := by
  rw [split]
  exact fun _ _ equal => absurd equal plain

theorem split_append {before : List Char} (behind : List Char)
    (even : Even (backslashTail before).length) :
    split (before ++ behind) = split before ++ split behind := by
  fun_induction split before with
  | case1 => rfl
  | case2 character rest induction =>
      have pair : Even (backslashTail ['\\', character]).length := by
        by_cases doubled : character = '\\'
        · rw [doubled]
          decide
        · simp [backslashTail, List.rtakeWhile, doubled]
      have further := (even_backslashTail_append rest pair).mp even
      rw [List.cons_append, List.cons_append, split, induction further]
      rfl
  | case3 character rest single induction =>
      have plain : character ≠ '\\' := by
        rintro rfl
        cases rest with
        | nil => exact absurd even (by decide)
        | cons next others => exact single next others rfl rfl
      have none : Even (backslashTail [character]).length := by
        simp [backslashTail, List.rtakeWhile, plain]
      have further := (even_backslashTail_append rest none).mp even
      rw [List.cons_append, split_cons plain, induction further]
      rfl

/-! ## Units -/

theorem letter_of_ofLetter? {character : Char} {code : ClassCode}
    (found : ClassCode.ofLetter? character = some code) : code.letter = character := by
  have holds := List.find?_some found
  exact beq_iff_eq.mp holds

/-- What a backslash with a character after it stands for is written as both of them, or as that
character alone. -/
theorem escaped_infix (character : Char) (rest : List Char) :
    (escaped character).written.toList <:+: '\\' :: character :: rest := by
  unfold escaped
  split
  · next code found =>
      rw [written, ClassCode.written, String.toList_ofList, letter_of_ofLetter? found]
      exact ⟨[], rest, rfl⟩
  · rw [written, Char.toString, String.toList_singleton]
    exact ⟨['\\'], rest, rfl⟩

theorem written_infix_of_mem_split {characters : List Char} {unit : MatchUnit}
    (member : unit ∈ split characters) : unit.written.toList <:+: characters := by
  fun_induction split characters with
  | case1 => cases member
  | case2 character rest induction =>
      rcases List.mem_cons.mp member with rfl | later
      · exact escaped_infix character rest
      · exact (induction later).trans ⟨['\\', character], [], List.append_nil _⟩
  | case3 character rest _ induction =>
      rcases List.mem_cons.mp member with rfl | later
      · rw [written, Char.toString, String.toList_singleton]
        exact ⟨[], rest, rfl⟩
      · exact (induction later).trans ⟨[character], [], List.append_nil _⟩

theorem written_cases (unit : MatchUnit) :
    (∃ character : Char, unit.written = character.toString) ∨
      ∃ code ∈ ClassCode.all, unit.written = String.ofList ['\\', code.letter] := by
  cases unit with
  | literal character => exact .inl ⟨character, rfl⟩
  | member code => exact .inr ⟨code, by cases code <;> decide, rfl⟩

/-! ## Doubled backslashes -/

def doubled (character : Char) : List Char :=
  if character = '\\' then ['\\', '\\'] else [character]

theorem split_doubled (characters : List Char) :
    split (characters.flatMap doubled) = characters.map literal := by
  induction characters with
  | nil => rfl
  | cons character rest induction =>
      rw [List.flatMap_cons, List.map_cons, ← induction, doubled]
      split
      · next equal =>
          rw [equal]
          rfl
      · next plain => exact split_cons plain _

end MatchUnit

namespace Pattern

def spelling (text : String) : String :=
  String.ofList (text.toList.flatMap MatchUnit.doubled)

theorem units_spelling (text : String) : units (spelling text) = text.toList.map .literal := by
  rw [units, spelling, String.toList_ofList, MatchUnit.split_doubled]

theorem spells_spelling_iff {text : String} {taken : List Char} :
    Spells (spelling text) taken ↔ text.toList = taken := by
  have literally (expected character : Char) :
      (MatchUnit.literal expected).accepts character = true ↔ expected = character := beq_iff_eq
  unfold Spells tests
  simp only [units_spelling, List.map_map, List.forall₂_map_left_iff, Function.comp_apply,
    literally, List.forall₂_eq_eq_eq]

theorem log_eq_nil_iff_spells {grammar : Grammar} {pattern : String}
    (entry : grammar.lookup? entryName = some (.terminal pattern)) (text : String) :
    (parse grammar (.ofText text)).log = [] ↔
      Spells pattern (Lines.unifyBreaks text.toList) := by
  let characters := Lines.unifyBreaks text.toList
  have good : (parse grammar (.ofText text)).isOk = true ↔
      ∃ tree, Reads grammar characters (.terminal pattern) characters tree [] :=
    Machine.isOk_iff_reads entry (derivable_terminal pattern 0)
  rw [Machine.State.isOk, List.isEmpty_iff] at good
  rw [good]
  simp only [reads_terminal_iff (List.suffix_refl characters), List.append_nil]
  constructor
  · rintro ⟨_, taken, spells, rfl, _⟩
    exact spells
  · exact fun spells => ⟨_, characters, spells, rfl, rfl⟩

/-- A pattern can be cut wherever an even number of backslashes comes before. Its units are single
characters and class codes, as they stand in it. With doubled backslashes any text can be spelled:
the units are its characters, and a grammar whose entry rule is this pattern accepts that text and
no other. -/
theorem patterns_spell_any_text :
    (∀ before behind : String, Even (MatchUnit.backslashTail before.toList).length →
      units (before ++ behind) = units before ++ units behind) ∧
    (∀ pattern : String, ∀ unit ∈ units pattern,
      unit.written.toList <:+: pattern.toList ∧
        ((∃ character : Char, unit.written = character.toString) ∨
          ∃ code ∈ ClassCode.all, unit.written = String.ofList ['\\', code.letter])) ∧
    (∀ text : String, units (spelling text) = text.toList.map .literal) ∧
    ∀ text input : String, ∃ grammar : Grammar,
      Grammar.ofDrafts [⟨.text entryName, .pattern (spelling text)⟩] = .ok grammar ∧
        ((parse grammar (.ofText input)).log = [] ↔
          (Source.ofString input none).text = text) := by
  refine ⟨?_, ?_, units_spelling, ?_⟩
  · intro before behind even
    rw [units, String.toList_append]
    exact MatchUnit.split_append behind.toList even
  · intro pattern unit member
    exact ⟨MatchUnit.written_infix_of_mem_split member, unit.written_cases⟩
  · intro text input
    refine ⟨.ofRules [(entryName, .terminal (spelling text))], rfl, ?_⟩
    rw [log_eq_nil_iff_spells rfl, spells_spelling_iff, eq_comm, ← String.toList_inj, Source.text,
      String.toList_ofList]
    rfl

theorem letter_after_pair_is_cut_off :
    (Even (MatchUnit.backslashTail "\\d\\\\".toList).length ∧
      units ("\\d\\\\" ++ "d") = units "\\d\\\\" ++ units "d") ∧
    (.member .digit ∈ units "\\d\\\\" ∧
      (MatchUnit.member .digit).written.toList <:+: "\\d\\\\".toList) ∧
    units ("\\d\\\\" ++ "d") = [.member .digit, .literal '\\', .literal 'd'] := by
  have even : Even (MatchUnit.backslashTail "\\d\\\\".toList).length := ⟨1, rfl⟩
  have member : .member .digit ∈ units "\\d\\\\" := List.mem_cons_self
  rcases patterns_spell_any_text with ⟨cuts, shapes, _, _⟩
  exact ⟨⟨even, cuts "\\d\\\\" "d" even⟩, ⟨member, (shapes "\\d\\\\" _ member).1⟩, rfl⟩

end Pattern

end OrderedChoice
