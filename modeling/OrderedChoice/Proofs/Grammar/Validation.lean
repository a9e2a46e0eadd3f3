import OrderedChoice.Grammar.Basic
import OrderedChoice.Proofs.Ascending

/-! What a valid grammar is. It has an entry rule, and every name that one of its
definitions mentions is the name of a rule. A grammar with an entry rule that is not valid is
refused with the names that are mentioned in vain, in ascending order. -/

namespace OrderedChoice

namespace Grammar

variable {grammar : Grammar}

theorem name_trichotomy (left right : String) (notBelow : ¬ left < right)
    (notAbove : ¬ right < left) : left = right :=
  String.le_antisymm (String.not_lt.mp notAbove) (String.not_lt.mp notBelow)

theorem mem_references {name : String} :
    name ∈ grammar.references ↔ ∃ rule ∈ grammar.rules, name ∈ rule.2.references := by
  unfold references
  rw [Ascending.mem_ofList name_trichotomy, List.mem_flatMap]

theorem mem_undefinedNames {name : String} :
    name ∈ grammar.undefinedNames ↔ name ∈ grammar.references ∧ name ∉ grammar.names := by
  unfold undefinedNames
  rw [List.mem_filter, decide_eq_true_eq]

theorem pairwise_undefinedNames (grammar : Grammar) :
    grammar.undefinedNames.Pairwise (· < ·) := by
  unfold undefinedNames references
  apply List.Pairwise.filter
  apply Ascending.pairwise_ofList name_trichotomy
  exact fun _ _ _ before after => String.lt_trans before after

theorem validate_of_entry (entry : entryName ∈ grammar.names) :
    grammar.validate =
      if grammar.undefinedNames = [] then .ok ()
      else .error (.undefinedReferences grammar.undefinedNames) := by
  unfold validate
  rw [if_neg (not_not_intro entry)]
  simp only [List.isEmpty_iff]

theorem undefinedNames_eq_nil_iff :
    grammar.undefinedNames = [] ↔ ∀ name ∈ grammar.references, name ∈ grammar.names := by
  simp only [List.eq_nil_iff_forall_not_mem, mem_undefinedNames, not_and, Classical.not_not]

theorem validate_eq_ok_iff :
    grammar.validate = .ok () ↔
      entryName ∈ grammar.names ∧ ∀ name ∈ grammar.references, name ∈ grammar.names := by
  rw [← undefinedNames_eq_nil_iff]
  by_cases entry : entryName ∈ grammar.names
  · rw [validate_of_entry entry]
    split
    · next none => exact ⟨fun _ => ⟨entry, none⟩, fun _ => rfl⟩
    · next some => exact ⟨nofun, fun valid => absurd valid.2 some⟩
  · unfold validate
    rw [if_pos entry]
    exact ⟨nofun, fun valid => absurd valid.1 entry⟩

end Grammar

end OrderedChoice
