import OrderedChoice.Text.Lines

/-! Unified line breaks, and what the place of an offset depends on. Line and column of an
offset are told by the characters before it, and by no others. Every offset has a place of its
own, behind the places of the offsets before it. -/

namespace OrderedChoice

namespace Lines

variable {characters : List Char}

/-! ## Unified breaks -/

theorem not_mem_unifyBreaks (characters : List Char) :
    '\r' ∉ unifyBreaks characters := by
  fun_induction unifyBreaks characters with
  | case1 => exact List.not_mem_nil
  | case2 rest induction => simpa using induction
  | case3 character rest _ induction =>
      rw [List.mem_cons, not_or]
      refine ⟨?_, induction⟩
      split
      · decide
      · next different => exact fun equal => different equal.symm

theorem unifyBreaks_of_not_mem (unreturned : '\r' ∉ characters) :
    unifyBreaks characters = characters := by
  fun_induction unifyBreaks characters with
  | case1 => rfl
  | case2 => exact absurd List.mem_cons_self unreturned
  | case3 character rest _ induction =>
      rw [List.mem_cons, not_or] at unreturned
      rw [if_neg fun equal => unreturned.1 equal.symm, induction unreturned.2]

/-- A carriage return and the line feed after it are one line break. -/
def CutsBreak (before behind : List Char) : Prop :=
  before.getLast? = some '\r' ∧ behind.head? = some '\n'

theorem unifyBreaks_cons {character : Char} {rest : List Char}
    (apart : ¬ (character = '\r' ∧ rest.head? = some '\n')) :
    unifyBreaks (character :: rest) =
      (if character = '\r' then '\n' else character) :: unifyBreaks rest := by
  rw [unifyBreaks]
  rintro other rfl rfl
  exact apart ⟨rfl, rfl⟩

theorem unifyBreaks_cons_of_ne {character : Char} (plain : character ≠ '\r') (rest : List Char) :
    unifyBreaks (character :: rest) = character :: unifyBreaks rest := by
  rw [unifyBreaks_cons fun both => plain both.1, if_neg plain]

theorem CutsBreak.cons (character : Char) {before behind : List Char}
    (cuts : CutsBreak before behind) : CutsBreak (character :: before) behind := by
  refine ⟨?_, cuts.2⟩
  rw [List.getLast?_cons, cuts.1]
  rfl

theorem unifyBreaks_append {before behind : List Char} (apart : ¬ CutsBreak before behind) :
    unifyBreaks (before ++ behind) = unifyBreaks before ++ unifyBreaks behind := by
  fun_induction unifyBreaks before with
  | case1 => rfl
  | case2 rest induction =>
      have further : ¬ CutsBreak rest behind := fun cuts => apart ((cuts.cons _).cons _)
      exact congrArg (List.cons '\n') (induction further)
  | case3 character rest whole induction =>
      have further : ¬ CutsBreak rest behind := fun cuts => apart (cuts.cons _)
      have single : ¬ (character = '\r' ∧ (rest ++ behind).head? = some '\n') := by
        rintro ⟨rfl, feed⟩
        cases rest with
        | nil => exact apart ⟨rfl, feed⟩
        | cons next others =>
            cases feed
            exact whole others rfl rfl
      rw [List.cons_append, unifyBreaks_cons single, induction further]
      rfl

/-! ## Places -/

theorem lt_of_mem_startsFrom {offset start : Nat} {characters : List Char}
    (member : start ∈ startsFrom offset characters) : offset < start := by
  induction characters generalizing offset with
  | nil => cases member
  | cons character rest induction =>
      unfold startsFrom at member
      split at member
      · rcases List.mem_cons.mp member with rfl | later
        · exact Nat.lt_succ_self offset
        · exact Nat.lt_of_succ_lt (induction later)
      · exact Nat.lt_of_succ_lt (induction member)

theorem filter_startsFrom (characters : List Char) (offset count : Nat) :
    (startsFrom offset characters).filter
        (fun start : Nat => (start : Int) ≤ (offset + count : Nat)) =
      startsFrom offset (characters.take count) := by
  induction characters generalizing offset count with
  | nil => rw [List.take_nil]; rfl
  | cons character rest induction =>
      cases count with
      | zero =>
          apply List.filter_eq_nil_iff.mpr
          intro start member
          have beyond := lt_of_mem_startsFrom member
          rw [decide_eq_true_eq]
          omega
      | succ count =>
          have later := induction (offset + 1) count
          rw [Nat.add_right_comm] at later
          have within : ((offset + 1 : Nat) : Int) ≤ (offset + (count + 1) : Nat) := by omega
          rw [List.take_succ_cons, startsFrom, startsFrom]
          split
          · rw [List.filter_cons, if_pos (decide_eq_true within)]
            exact congrArg _ later
          · exact later

theorem filter_starts (characters : List Char) (offset : Nat) :
    (starts characters).filter (fun start : Nat => (start : Int) ≤ (offset : Int)) =
      starts (characters.take offset) := by
  have later := filter_startsFrom characters 0 offset
  rw [Nat.zero_add] at later
  have first : ((0 : Nat) : Int) ≤ (offset : Int) := Int.natCast_nonneg offset
  rw [starts, List.filter_cons, if_pos (decide_eq_true first), later]
  rfl

def lineStart (characters : List Char) (offset : Nat) : Nat :=
  (startsFrom 0 (characters.take offset)).getLastD 0

/-- The line of an offset is the number of line feeds before it, and the column is its distance
from the last of them. -/
theorem locate_eq (characters : List Char) (offset : Nat) :
    locate (starts characters) offset =
      (((startsFrom 0 (characters.take offset)).length : Int),
        (offset : Int) - lineStart characters offset) := by
  have lines : starts (characters.take offset) = 0 :: startsFrom 0 (characters.take offset) := rfl
  unfold locate lineStart
  simp only [filter_starts]
  rw [lines, List.getLast?_cons, List.length_cons, List.getLastD_eq_getLast?]
  simp

theorem startsFrom_append (offset : Nat) (before behind : List Char) :
    startsFrom offset (before ++ behind) =
      startsFrom offset before ++ startsFrom (offset + before.length) behind := by
  induction before generalizing offset with
  | nil => rfl
  | cons character rest induction =>
      have shift : offset + 1 + rest.length = offset + (character :: rest).length := by
        rw [List.length_cons]
        omega
      rw [List.cons_append, startsFrom, startsFrom, induction, shift]
      split <;> rfl

theorem length_startsFrom (offset : Nat) (characters : List Char) :
    (startsFrom offset characters).length = characters.count '\n' := by
  induction characters generalizing offset with
  | nil => rfl
  | cons character rest induction =>
      rw [startsFrom, List.count_cons]
      split <;> simp_all

theorem locate_lt (characters : List Char) {first second : Nat} (less : first < second) :
    Prod.Lex (· < ·) (· < ·) (locate (starts characters) first)
      (locate (starts characters) second) := by
  have split := List.take_append_drop first (characters.take second)
  rw [List.take_take, Nat.min_eq_left (Nat.le_of_lt less)] at split
  rw [locate_eq, locate_eq, lineStart, lineStart, ← split, startsFrom_append]
  cases startsFrom (0 + (characters.take first).length) ((characters.take second).drop first) with
  | nil =>
      rw [List.append_nil]
      exact .right _ (by omega)
  | cons start further =>
      refine .left _ _ ?_
      rw [List.length_append, List.length_cons]
      omega

theorem locate_of_length_le {offset : Nat} (beyond : characters.length ≤ offset) :
    locate (starts characters) offset =
      ((locate (starts characters) characters.length).1,
        (locate (starts characters) characters.length).2 + (offset - characters.length)) := by
  rw [locate_eq, locate_eq, lineStart, lineStart, List.take_of_length_le beyond,
    List.take_of_length_le (Nat.le_refl _)]
  refine Prod.ext rfl ?_
  dsimp only
  omega

theorem locate_cut {front last : List Char} (behind : List Char)
    (fresh : front = [] ∨ ∃ lines, front = lines ++ ['\n']) (unbroken : '\n' ∉ last) :
    locate (starts (front ++ last ++ behind)) (front ++ last).length =
      ((front.count '\n' : Int), (last.length : Int)) := by
  have none : startsFrom (0 + front.length) last = [] := by
    rw [← List.length_eq_zero_iff, length_startsFrom, List.count_eq_zero]
    exact unbroken
  have start : (startsFrom 0 front).getLastD 0 = front.length := by
    rcases fresh with rfl | ⟨lines, rfl⟩
    · rfl
    · have feed : startsFrom (0 + lines.length) ['\n'] = [0 + lines.length + 1] := rfl
      rw [startsFrom_append, feed, List.getLastD_concat, List.length_append, Nat.zero_add]
      rfl
  rw [locate_eq, lineStart, List.take_left, startsFrom_append, none, List.append_nil, start,
    length_startsFrom, List.length_append]
  refine Prod.ext rfl ?_
  dsimp only
  omega

theorem locate_congr {left right : List Char} {offset : Nat}
    (same : left.take offset = right.take offset) :
    locate (starts left) offset = locate (starts right) offset := by
  unfold locate
  simp only [filter_starts, same]
  -- the first line always begins up to the offset
  rfl

end Lines

end OrderedChoice
