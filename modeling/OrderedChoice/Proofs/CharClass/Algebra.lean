import OrderedChoice.Proofs.CharClass.Combination

/-! Sets of code points as a Boolean algebra. Two sets with the same members from zero on are the
same, bound by bound, provided that their bounds are strictly ascending and none is negative. All
operations make such sets of such sets, so what holds of members holds of sets. -/

namespace OrderedChoice

namespace CharClass

/-- No bound is repeated, and none is before the first code point. -/
structure Canonical (cls : CharClass) : Prop where
  ascending : cls.bounds.Pairwise (· < ·)
  nonnegative : ∀ bound ∈ cls.bounds, 0 ≤ bound

theorem Canonical.sorted {cls : CharClass} (canonical : cls.Canonical) :
    cls.bounds.Pairwise (· ≤ ·) :=
  canonical.ascending.imp Int.le_of_lt

theorem Canonical.tail {first : Int} {rest : List Int} (canonical : Canonical ⟨first :: rest⟩) :
    Canonical ⟨rest⟩ :=
  ⟨(List.pairwise_cons.mp canonical.ascending).2,
    fun bound member => canonical.nonnegative bound (List.mem_cons_of_mem first member)⟩

theorem canonical_empty : empty.Canonical :=
  ⟨.nil, fun _ member => nomatch member⟩

/-! ## Members determine bounds -/

section Members

variable {first other : Int} {rest others : List Int}

theorem contains_first (canonical : Canonical ⟨first :: rest⟩) :
    contains ⟨first :: rest⟩ first = true := by
  have outside : contains ⟨rest⟩ first = false :=
    contains_of_before canonical.tail.sorted (List.pairwise_cons.mp canonical.ascending).1
  rw [contains_cons canonical.sorted, outside, decide_eq_true (Int.le_refl first)]
  rfl

theorem first_le_of_contains (canonical : Canonical ⟨first :: rest⟩)
    (otherCanonical : Canonical ⟨other :: others⟩)
    (same : contains ⟨first :: rest⟩ other = contains ⟨other :: others⟩ other) :
    first ≤ other := by
  rw [contains_first otherCanonical] at same
  exact le_of_contains canonical.sorted same

end Members

theorem Canonical.ext {left right : CharClass} (leftCanonical : left.Canonical)
    (rightCanonical : right.Canonical)
    (same : ∀ point : Int, 0 ≤ point → left.contains point = right.contains point) :
    left = right := by
  rcases left with ⟨bounds⟩
  rcases right with ⟨others⟩
  induction bounds generalizing others with
  | nil =>
      cases others with
      | nil => rfl
      | cons other others =>
          have member := same other (rightCanonical.nonnegative other List.mem_cons_self)
          rw [contains_nil, contains_first rightCanonical] at member
          cases member
  | cons first rest induction =>
      have atFirst := same first (leftCanonical.nonnegative first List.mem_cons_self)
      cases others with
      | nil =>
          rw [contains_nil, contains_first leftCanonical] at atFirst
          cases atFirst
      | cons other others =>
          have atOther := same other (rightCanonical.nonnegative other List.mem_cons_self)
          -- each first bound is a member of both sets, and nothing comes before a first bound
          have equal : first = other := Int.le_antisymm
            (first_le_of_contains leftCanonical rightCanonical atOther)
            (first_le_of_contains rightCanonical leftCanonical atFirst.symm)
          subst equal
          have tails : (⟨rest⟩ : CharClass) = ⟨others⟩ := by
            apply induction leftCanonical.tail _ rightCanonical.tail
            intro point nonnegative
            have member := same point nonnegative
            -- the first bound turns membership around in both sets, which cancels
            rw [contains_cons leftCanonical.sorted, contains_cons rightCanonical.sorted] at member
            exact Bool.bne_right_inj.mp member
          cases tails
          rfl

/-! ## Operations -/

theorem canonical_combine (operation : Bool → Bool → Bool) {left right : CharClass}
    (leftNonnegative : ∀ bound ∈ left.bounds, 0 ≤ bound)
    (rightNonnegative : ∀ bound ∈ right.bounds, 0 ≤ bound) :
    (combine operation left right).Canonical where
  ascending := pairwise_combine operation left right
  nonnegative := by
    intro bound member
    rcases List.mem_append.mp (mem_candidates_of_mem_combine operation member) with among | among
    · rcases List.mem_cons.mp among with rfl | among
      · exact Int.le_refl 0
      · exact leftNonnegative bound among
    · exact rightNonnegative bound among

theorem complement_cons (first : Int) (rest : List Int) :
    complement ⟨first :: rest⟩ = if first ≤ 0 then ⟨rest⟩ else ⟨0 :: first :: rest⟩ := rfl

theorem positive_of_first {first : Int} {rest : List Int}
    (sorted : (first :: rest).Pairwise (· ≤ ·)) (positive : ¬ first ≤ 0) :
    ∀ bound ∈ first :: rest, 0 < bound := by
  have below := Int.not_le.mp positive
  refine List.forall_mem_cons.mpr ⟨below, fun bound member => ?_⟩
  exact Int.lt_of_lt_of_le below ((List.pairwise_cons.mp sorted).1 bound member)

theorem Canonical.complement {cls : CharClass} (canonical : cls.Canonical) :
    cls.complement.Canonical := by
  rcases cls with ⟨bounds⟩
  cases bounds with
  | nil => exact ⟨List.pairwise_singleton _ _, List.forall_mem_singleton.mpr (Int.le_refl 0)⟩
  | cons first rest =>
      rw [complement_cons]
      split
      · exact canonical.tail
      · next positive =>
          have beyond := positive_of_first canonical.sorted positive
          exact ⟨List.pairwise_cons.mpr ⟨beyond, canonical.ascending⟩,
            List.forall_mem_cons.mpr ⟨Int.le_refl 0, canonical.nonnegative⟩⟩

theorem contains_complement {cls : CharClass} (sorted : cls.bounds.Pairwise (· ≤ ·)) {point : Int}
    (nonnegative : 0 ≤ point) : cls.complement.contains point = !cls.contains point := by
  rcases cls with ⟨bounds⟩
  cases bounds with
  | nil =>
      rw [contains_nil]
      exact (contains_from 0 point).mpr nonnegative
  | cons first rest =>
      rw [complement_cons]
      split
      · next reached =>
          rw [contains_cons sorted, decide_eq_true (Int.le_trans reached nonnegative),
            Bool.true_bne, Bool.not_not]
      · next positive =>
          have beyond (bound : Int) (member : bound ∈ first :: rest) : 0 ≤ bound :=
            Int.le_of_lt (positive_of_first sorted positive bound member)
          rw [contains_cons (List.pairwise_cons.mpr ⟨beyond, sorted⟩), decide_eq_true nonnegative,
            Bool.true_bne]

section Canonical

variable {left right third : CharClass} (leftCanonical : left.Canonical)
  (rightCanonical : right.Canonical) (thirdCanonical : third.Canonical)

include leftCanonical

/-- The complement is a combination by an operation that does not look at the other set. -/
theorem complement_eq_combine {other : CharClass}
    (nonnegative : ∀ bound ∈ other.bounds, 0 ≤ bound) :
    left.complement = combine (fun inLeft _ => !inLeft) left other := by
  apply leftCanonical.complement.ext (canonical_combine _ leftCanonical.nonnegative nonnegative)
  intro point beyond
  have settled : SettledBy (candidates left other) left.contains :=
    settledBy_contains leftCanonical.sorted fun bound member =>
      mem_candidates.mpr (List.mem_append_left _ (List.mem_cons_of_mem _ member))
  have decided : SettledBy (candidates left other) fun point => !left.contains point :=
    fun lower member upper ordered between =>
      congrArg _ (settled lower member upper ordered between)
  rw [contains_complement leftCanonical.sorted beyond,
    contains_combine_of_settled (fun inLeft _ => !inLeft) decided
      ⟨0, List.mem_append_left _ List.mem_cons_self, beyond⟩]

theorem complement_complement : left.complement.complement = left := by
  apply leftCanonical.complement.complement.ext leftCanonical
  intro point beyond
  rw [contains_complement leftCanonical.complement.sorted beyond,
    contains_complement leftCanonical.sorted beyond, Bool.not_not]

theorem union_self : left.union left = left := by
  apply (canonical_combine or leftCanonical.nonnegative leftCanonical.nonnegative).ext leftCanonical
  intro point _
  exact (contains_union leftCanonical.sorted leftCanonical.sorted point).trans (Bool.or_self _)

include rightCanonical

theorem Canonical.union : (left.union right).Canonical :=
  canonical_combine or leftCanonical.nonnegative rightCanonical.nonnegative

theorem union_comm : left.union right = right.union left := by
  apply (leftCanonical.union rightCanonical).ext (rightCanonical.union leftCanonical)
  intro point _
  rw [contains_union leftCanonical.sorted rightCanonical.sorted,
    contains_union rightCanonical.sorted leftCanonical.sorted, Bool.or_comm]

theorem complement_union :
    (left.union right).complement = combine and left.complement right.complement := by
  have leftComplement := leftCanonical.complement
  have rightComplement := rightCanonical.complement
  apply (leftCanonical.union rightCanonical).complement.ext
    (canonical_combine and leftComplement.nonnegative rightComplement.nonnegative)
  intro point beyond
  rw [contains_complement (sorted_union left right) beyond,
    contains_union leftCanonical.sorted rightCanonical.sorted,
    contains_combine and leftComplement.sorted rightComplement.sorted
      ⟨0, List.mem_append_left _ List.mem_cons_self, beyond⟩,
    contains_complement leftCanonical.sorted beyond,
    contains_complement rightCanonical.sorted beyond, Bool.not_or]

include thirdCanonical

theorem union_assoc : (left.union right).union third = left.union (right.union third) := by
  apply ((leftCanonical.union rightCanonical).union thirdCanonical).ext
    (leftCanonical.union (rightCanonical.union thirdCanonical))
  intro point _
  rw [contains_union (sorted_union left right) thirdCanonical.sorted,
    contains_union leftCanonical.sorted rightCanonical.sorted,
    contains_union leftCanonical.sorted (sorted_union right third),
    contains_union rightCanonical.sorted thirdCanonical.sorted, Bool.or_assoc]

end Canonical

theorem union_empty {cls : CharClass} (canonical : cls.Canonical) : cls.union empty = cls := by
  apply (canonical.union canonical_empty).ext canonical
  intro point _
  rw [contains_union canonical.sorted canonical_empty.sorted, empty, contains_nil, Bool.or_false]

/-- Sets whose bounds are strictly ascending and not negative are the same if they have the same
members from zero on, and they form a Boolean algebra under union and complement, which again
make such sets. The complement agrees with the combination that asks for points outside, and it
turns membership around from zero on even where bounds are negative or repeated. -/
theorem canonical_sets_form_algebra :
    (∀ left right third : CharClass, left.Canonical → right.Canonical → third.Canonical →
      ((∀ point : Int, 0 ≤ point → left.contains point = right.contains point) → left = right) ∧
      left.complement.Canonical ∧
      (∀ other : CharClass, (∀ bound ∈ other.bounds, 0 ≤ bound) →
        left.complement = combine (fun inLeft _ => !inLeft) left other) ∧
      left.complement.complement = left ∧
      left.union right = right.union left ∧
      (left.union right).union third = left.union (right.union third) ∧
      left.union left = left ∧ left.union empty = left ∧ empty.union left = left ∧
      (left.union right).complement = combine and left.complement right.complement) ∧
      ∀ cls : CharClass, cls.bounds.Pairwise (· ≤ ·) → ∀ point : Int, 0 ≤ point →
        cls.complement.contains point = !cls.contains point := by
  refine ⟨?_, fun cls sorted point beyond => contains_complement sorted beyond⟩
  intro left right third leftCanonical rightCanonical thirdCanonical
  refine ⟨leftCanonical.ext rightCanonical, leftCanonical.complement, ?_,
    complement_complement leftCanonical, union_comm leftCanonical rightCanonical,
    union_assoc leftCanonical rightCanonical thirdCanonical, union_self leftCanonical,
    union_empty leftCanonical, ?_, complement_union leftCanonical rightCanonical⟩
  · exact fun other nonnegative => complement_eq_combine leftCanonical nonnegative
  · exact (union_comm canonical_empty leftCanonical).trans (union_empty leftCanonical)

theorem digits_in_algebra :
    let digits : CharClass := ⟨[48, 58]⟩
    let others : CharClass := ⟨[0, 48, 58]⟩
    let further : CharClass := ⟨[128]⟩
    let disorder : CharClass := ⟨[5, 3]⟩
    let repeated : CharClass := ⟨[-3, -3, 4, 4]⟩
    (digits.Canonical ∧ others.Canonical ∧ further.Canonical) ∧
      ((∀ point : Int, 0 ≤ point → digits.complement.contains point = others.contains point) ∧
        digits.complement = others) ∧
      ((∀ bound ∈ disorder.bounds, 0 ≤ bound) ∧
        digits.complement = combine (fun inLeft _ => !inLeft) digits disorder) ∧
      (digits.union others).union further = digits.union (others.union further) ∧
      (digits.union others).complement = combine and digits.complement others.complement ∧
      repeated.bounds.Pairwise (· ≤ ·) ∧
        repeated.complement.contains 4 = !repeated.contains 4 := by
  intro digits others further disorder repeated
  have digitsCanonical : digits.Canonical := ⟨by decide, by decide⟩
  have othersCanonical : others.Canonical := ⟨by decide, by decide⟩
  have furtherCanonical : further.Canonical := ⟨by decide, by decide⟩
  have nonnegative : ∀ bound ∈ disorder.bounds, 0 ≤ bound := by decide
  have sorted : repeated.bounds.Pairwise (· ≤ ·) := by decide
  have same (point : Int) (_ : 0 ≤ point) :
      digits.complement.contains point = others.contains point := rfl
  rcases canonical_sets_form_algebra with ⟨algebra, turns⟩
  rcases algebra digits others further digitsCanonical othersCanonical furtherCanonical with
    ⟨_, complemented, agrees, _, _, associative, _, _, _, complementary⟩
  have equal := (algebra digits.complement others further complemented othersCanonical
    furtherCanonical).1 same
  exact ⟨⟨digitsCanonical, othersCanonical, furtherCanonical⟩, ⟨same, equal⟩,
    ⟨nonnegative, agrees disorder nonnegative⟩, associative, complementary, sorted,
    turns repeated sorted 4 (by decide)⟩

end CharClass

end OrderedChoice
