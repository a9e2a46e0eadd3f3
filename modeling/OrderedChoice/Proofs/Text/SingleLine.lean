import Mathlib.Data.Nat.Digits.Defs
import OrderedChoice.Text.Quoted

/-! Texts that stand on one line: numbers, which have digits only, and quoted texts, in which
every line feed is an escape sequence. -/

namespace OrderedChoice

/-! ## Numbers -/

theorem digitChar_ne_newline (digit : Nat) : digit.digitChar ≠ '\n' := by
  by_cases wide : 16 ≤ digit
  · rw [Nat.digitChar_eq_star.mpr wide]
    decide
  · have narrow : ∀ digit < 16, digit.digitChar ≠ '\n' := by decide
    exact narrow digit (Nat.lt_of_not_le wide)

theorem newline_not_mem_toDigits {base : Nat} (several : 1 < base) (number : Nat) :
    '\n' ∉ Nat.toDigits base number := by
  induction number using Nat.strongRecOn with
  | ind number induction =>
      by_cases small : number < base
      · rw [Nat.toDigits_of_lt_base small, List.mem_singleton]
        exact (digitChar_ne_newline number).symm
      · have large : base ≤ number := Nat.le_of_not_lt small
        have positive : 0 < number := Nat.lt_of_lt_of_le (Nat.zero_lt_of_lt several) large
        rw [Nat.toDigits_of_base_le several large, List.mem_append, List.mem_singleton, not_or]
        exact ⟨induction _ (Nat.div_lt_self positive several), (digitChar_ne_newline _).symm⟩

theorem newline_not_mem_repr (number : Int) : '\n' ∉ number.repr.toList := by
  cases number with
  | ofNat number =>
      rw [Int.repr, Nat.toList_repr]
      exact newline_not_mem_toDigits (by decide) number
  | negSucc number =>
      rw [Int.repr, String.toList_append, Nat.toList_repr, List.mem_append, not_or]
      exact ⟨by decide, newline_not_mem_toDigits (by decide) _⟩

/-! ## Quoted texts -/

namespace Quoted

theorem newline_not_mem_hexadecimal (width value : Nat) : '\n' ∉ hexadecimal width value := by
  unfold hexadecimal
  rw [List.mem_append, not_or]
  refine ⟨?_, newline_not_mem_toDigits (by decide) value⟩
  intro filling
  exact absurd (List.eq_of_mem_replicate filling) (by decide)

theorem newline_not_mem_escapeCode (value : Nat) : '\n' ∉ escapeCode value := by
  unfold escapeCode
  split_ifs
  · simpa using newline_not_mem_hexadecimal 2 value
  · simpa using newline_not_mem_hexadecimal 4 value
  · simpa using newline_not_mem_hexadecimal 8 value

theorem markFor_ne_newline (characters : List Char) : markFor characters ≠ '\n' := by
  unfold markFor
  split <;> decide

theorem newline_not_mem_escape {mark : Char} (visible : mark ≠ '\n') (character : Char) :
    '\n' ∉ escape mark character := by
  unfold escape
  split_ifs with special feed
  · have different : character ≠ '\n' := by
      rcases special with rfl | rfl
      · exact visible
      · decide
    simpa using different.symm
  · decide
  · decide
  · decide
  · simpa using Ne.symm feed
  · exact newline_not_mem_escapeCode _

end Quoted

theorem newline_not_mem_quote (text : String) : '\n' ∉ (quote text).toList := by
  have visible := Quoted.markFor_ne_newline text.toList
  unfold quote
  simp only [String.toList_ofList, List.mem_append, List.mem_cons, List.mem_flatMap, not_or,
    not_exists, not_and]
  exact ⟨⟨visible.symm, fun character _ => Quoted.newline_not_mem_escape visible character⟩,
    visible.symm, List.not_mem_nil⟩

end OrderedChoice
