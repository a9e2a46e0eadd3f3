import Mathlib.Data.List.Count
import OrderedChoice.CharClass

/-! Membership in a set of code points, without bisection. Where bounds ascend,
membership changes at each of them, and a point belongs to a set exactly if it lies
between the first and the second bound, or the third and the fourth, and so on. -/

namespace OrderedChoice

namespace CharClass

/-! ## Bisection -/

/-- Bisection finds a place with bounds at or below the point before it and bounds
above the point after it, if its range has such bounds around it. -/
theorem bisect_separates (point : Int) {bounds : List Int} {low high : Nat}
    (inside : high ≤ bounds.length) (sorted : bounds.Pairwise (· ≤ ·))
    (ordered : low ≤ high)
    (before : ∀ index (within : index < bounds.length), index < low → bounds[index] ≤ point)
    (behind : ∀ index (within : index < bounds.length), high ≤ index → point < bounds[index]) :
    let place := bisect bounds point low high inside
    place ≤ bounds.length ∧
      (∀ index (within : index < bounds.length), index < place → bounds[index] ≤ point) ∧
      ∀ index (within : index < bounds.length), place ≤ index → point < bounds[index] := by
  have ascending := List.pairwise_iff_getElem.mp sorted
  fun_induction bisect bounds point low high inside with
  | case1 low high inside less middle above induction =>
      apply induction (by omega) before
      intro index within after
      rcases Nat.eq_or_lt_of_le after with equal | further
      · subst equal
        exact above
      -- bounds behind the middle are no smaller than the one there
      · have larger := ascending middle index (by omega) within further
        omega
  | case2 low high inside less middle below induction =>
      refine induction (by omega) ?_ behind
      intro index within prior
      rcases Nat.eq_or_lt_of_le (Nat.le_of_lt_succ prior) with equal | further
      · subst equal
        omega
      · have smaller := ascending index middle within (by omega) further
        omega
  | case3 low high inside unordered =>
      have equal : low = high := by omega
      subst equal
      exact ⟨inside, before, behind⟩

theorem rank_eq_countP {cls : CharClass} (sorted : cls.bounds.Pairwise (· ≤ ·)) (point : Int) :
    cls.rank point = cls.bounds.countP (· ≤ point) := by
  have separates := bisect_separates point (Nat.le_refl cls.bounds.length) sorted
    (Nat.zero_le _) (fun _ _ prior => absurd prior (Nat.not_lt_zero _))
    (fun _ within after => absurd within (Nat.not_lt.mpr after))
  change cls.rank point ≤ cls.bounds.length ∧ _ at separates
  rcases separates with ⟨inside, before, behind⟩
  have below : ∀ bound ∈ cls.bounds.take (cls.rank point), bound ≤ point := by
    intro bound member
    rcases List.mem_take_iff_getElem.mp member with ⟨index, within, rfl⟩
    exact before index (by omega) (by unfold rank at within; omega)
  have above : ∀ bound ∈ cls.bounds.drop (cls.rank point), ¬ bound ≤ point := by
    intro bound member
    rcases List.mem_drop_iff_getElem.mp member with ⟨index, within, rfl⟩
    have larger := behind (cls.rank point + index) (by omega) (Nat.le_add_right _ _)
    exact Int.not_le.mpr larger
  have split := List.take_append_drop (cls.rank point) cls.bounds
  rw [← split, List.countP_append, List.countP_eq_length.mpr (by simpa using below),
    List.countP_eq_zero.mpr (by simpa using above), List.length_take]
  omega

theorem countP_eq_zero {bounds : List Int} {point : Int}
    (beyond : ∀ bound ∈ bounds, point < bound) : bounds.countP (· ≤ point) = 0 := by
  rw [List.countP_eq_zero]
  intro bound member
  have larger := beyond bound member
  simp only [decide_eq_true_eq]
  omega

/-! ## Membership from bound to bound -/

@[simp] theorem contains_nil (point : Int) : contains ⟨[]⟩ point = false := by
  rw [contains, rank_eq_countP .nil]
  rfl

theorem contains_of_before {cls : CharClass} (sorted : cls.bounds.Pairwise (· ≤ ·)) {point : Int}
    (before : ∀ bound ∈ cls.bounds, point < bound) : cls.contains point = false := by
  rw [contains, rank_eq_countP sorted, countP_eq_zero before]
  rfl

/-- Membership changes at the first bound, and from there on it is told by the bounds behind. -/
theorem contains_cons {first : Int} {rest : List Int}
    (sorted : (first :: rest).Pairwise (· ≤ ·)) (point : Int) :
    contains ⟨first :: rest⟩ point = (decide (first ≤ point) != contains ⟨rest⟩ point) := by
  have sortedRest := (List.pairwise_cons.mp sorted).2
  rw [contains, contains, rank_eq_countP sorted, rank_eq_countP sortedRest, List.countP_cons]
  by_cases reached : first ≤ point
  · rcases Nat.mod_two_eq_zero_or_one (rest.countP (· ≤ point)) with even | odd
    · simp [reached, even, Nat.add_mod]
    · simp [reached, odd, Nat.add_mod]
  · simp [reached]

theorem contains_congr {cls : CharClass} (sorted : cls.bounds.Pairwise (· ≤ ·))
    {lower upper : Int} (ordered : lower ≤ upper)
    (between : ∀ bound ∈ cls.bounds, bound ≤ lower ∨ upper < bound) :
    cls.contains lower = cls.contains upper := by
  have same : cls.bounds.countP (· ≤ lower) = cls.bounds.countP (· ≤ upper) := by
    apply List.countP_congr
    intro bound member
    simp only [decide_eq_true_eq]
    rcases between bound member with reached | beyond <;> omega
  rw [contains, contains, rank_eq_countP sorted, rank_eq_countP sorted, same]

/-! ## Intervals -/

theorem contains_from (lower point : Int) :
    contains ⟨[lower]⟩ point = true ↔ lower ≤ point := by
  rw [contains_cons (List.pairwise_singleton _ _), contains_nil, Bool.bne_false, decide_eq_true_iff]

theorem contains_interval {lower upper : Int} {rest : List Int}
    (sorted : (lower :: upper :: rest).Pairwise (· ≤ ·)) (point : Int) :
    contains ⟨lower :: upper :: rest⟩ point = true ↔
      lower ≤ point ∧ point < upper ∨ contains ⟨rest⟩ point = true := by
  rcases List.pairwise_cons.mp sorted with ⟨aboveLower, sortedUpper⟩
  rcases List.pairwise_cons.mp sortedUpper with ⟨aboveUpper, sortedRest⟩
  rw [contains_cons sorted, contains_cons sortedUpper]
  by_cases reached : upper ≤ point
  · have atLower := Int.le_trans (aboveLower upper List.mem_cons_self) reached
    simp [reached, atLower, Int.not_lt.mpr reached]
  · have outside : contains ⟨rest⟩ point = false :=
      contains_of_before sortedRest fun bound member =>
        Int.lt_of_lt_of_le (Int.not_le.mp reached) (aboveUpper bound member)
    simp [reached, outside, Int.not_le.mp reached]

theorem le_of_contains {first : Int} {rest : List Int} {point : Int}
    (sorted : (first :: rest).Pairwise (· ≤ ·))
    (member : contains ⟨first :: rest⟩ point = true) : first ≤ point := by
  apply Int.not_lt.mp
  intro before
  have outside : contains ⟨first :: rest⟩ point = false := by
    apply contains_of_before sorted
    refine List.forall_mem_cons.mpr ⟨before, fun bound later => ?_⟩
    exact Int.lt_of_lt_of_le before ((List.pairwise_cons.mp sorted).1 bound later)
  rw [outside] at member
  cases member

/-! ## Common sets -/

theorem mem_lead (point : Int) :
    lead.contains point = true ↔
      65 ≤ point ∧ point < 91 ∨ 95 ≤ point ∧ point < 96 ∨ 97 ≤ point ∧ point < 123 := by
  have bounds : lead = ⟨[65, 91, 95, 96, 97, 123]⟩ := by decide +kernel
  rw [bounds, contains_interval (by decide), contains_interval (by decide),
    contains_interval (by decide), contains_nil]
  simp only [Bool.false_eq_true, or_false]

theorem mem_word (point : Int) :
    word.contains point = true ↔
      48 ≤ point ∧ point < 58 ∨ lead.contains point = true := by
  have bounds : word = ⟨48 :: 58 :: lead.bounds⟩ := by decide +kernel
  have sorted : (48 :: 58 :: lead.bounds).Pairwise (· ≤ ·) := by decide +kernel
  rw [bounds, contains_interval sorted]

theorem space_bounds {point : Int} (member : space.contains point = true) :
    9 ≤ point ∧ point < 14 ∨ point = 32 ∨ 128 ≤ point := by
  have bounds : space = ⟨[9, 14, 32, 33, 160, 161, 5760, 5761, 8192, 8203, 8232, 8234, 8239,
    8240, 8287, 8288, 12288, 12289, 65279, 65280]⟩ := by decide +kernel
  rw [bounds, contains_interval (by decide), contains_interval (by decide)] at member
  rcases member with controls | single | further
  · exact .inl controls
  · right
    left
    omega
  · have beyond := le_of_contains (by decide) further
    right
    right
    omega

theorem word_of_lead {character : Char} (member : lead.containsChar character = true) :
    word.containsChar character = true :=
  (mem_word _).mpr (.inr member)

theorem word_of_space {character : Char} (member : space.containsChar character = true) :
    word.containsChar character = false := by
  apply Bool.eq_false_iff.mpr
  intro inWord
  have blank := space_bounds member
  have letter := (mem_word _).mp inWord
  rw [mem_lead] at letter
  omega

theorem tab_iff {character : Char} : tab.containsChar character = true ↔ character = '\t' := by
  have bounds : tab = ⟨[9, 10]⟩ := rfl
  rw [containsChar, bounds, contains_interval (by decide), contains_nil, ← Char.toNat_inj]
  have code : '\t'.toNat = 9 := rfl
  rw [code]
  simp
  omega

theorem not_newline_iff {character : Char} :
    newline.complement.containsChar character = true ↔ character ≠ '\n' := by
  have bounds : newline.complement = ⟨[0, 10, 11]⟩ := rfl
  rw [containsChar, bounds, contains_interval (by decide), contains_from, ne_eq, ← Char.toNat_inj]
  have code : '\n'.toNat = 10 := rfl
  rw [code]
  omega

end CharClass

end OrderedChoice
