import OrderedChoice.Proofs.Grammar.Validation

/-! The references of a definition. Collecting them misses none: a name is collected exactly
if a reference to it stands somewhere in the definition, at whatever depth. -/

namespace OrderedChoice

/-! ## Parts -/

inductive Expr.PartOf (part : Expr) : Expr → Prop
  | self : PartOf part part
  | choice {alternative alternatives} :
      alternative ∈ alternatives → PartOf part alternative → PartOf part (.choice alternatives)
  | sequence {item items} :
      item ∈ items → PartOf part item → PartOf part (.sequence items)
  | optional {operand} : PartOf part operand → PartOf part (.optional operand)
  | repetition {operand} : PartOf part operand → PartOf part (.repetition operand)

namespace Expr

theorem PartOf.trans {part middle whole : Expr} (inner : part.PartOf middle)
    (outer : middle.PartOf whole) : part.PartOf whole := by
  induction outer with
  | self => exact inner
  | choice member _ induction => exact .choice member induction
  | sequence member _ induction => exact .sequence member induction
  | optional _ induction => exact .optional induction
  | repetition _ induction => exact .repetition induction

/-! ## References -/

theorem mem_referencesInAll {name : String} {parts : List Expr} :
    name ∈ referencesInAll parts ↔ ∃ part ∈ parts, name ∈ part.references := by
  induction parts with
  | nil => simp [referencesInAll]
  | cons head tail induction => simp [referencesInAll, induction]

theorem PartOf.mem_references {part whole : Expr} (within : part.PartOf whole) {name : String}
    (mentioned : name ∈ part.references) : name ∈ whole.references := by
  induction within with
  | self => exact mentioned
  | choice member _ induction => exact mem_referencesInAll.mpr ⟨_, member, induction⟩
  | sequence member _ induction => exact mem_referencesInAll.mpr ⟨_, member, induction⟩
  | optional _ induction => exact induction
  | repetition _ induction => exact induction

mutual
theorem partOf_of_mem_references {name : String} :
    (expr : Expr) → name ∈ expr.references → (Expr.reference name).PartOf expr
  | .terminal _, mentioned => by cases mentioned
  | .reference other, mentioned => by
      cases List.mem_singleton.mp mentioned
      exact .self
  | .choice alternatives, mentioned => by
      rcases partOf_of_mem_referencesInAll alternatives mentioned with ⟨_, member, within⟩
      exact .choice member within
  | .sequence items, mentioned => by
      rcases partOf_of_mem_referencesInAll items mentioned with ⟨_, member, within⟩
      exact .sequence member within
  | .optional operand, mentioned => .optional (partOf_of_mem_references operand mentioned)
  | .repetition operand, mentioned => .repetition (partOf_of_mem_references operand mentioned)

theorem partOf_of_mem_referencesInAll {name : String} :
    (parts : List Expr) → name ∈ referencesInAll parts →
      ∃ part ∈ parts, (Expr.reference name).PartOf part
  | [], mentioned => by cases mentioned
  | head :: tail, mentioned => by
      rcases List.mem_append.mp mentioned with here | later
      · exact ⟨head, List.mem_cons_self, partOf_of_mem_references head here⟩
      · rcases partOf_of_mem_referencesInAll tail later with ⟨part, member, within⟩
        exact ⟨part, List.mem_cons_of_mem _ member, within⟩
end

theorem mem_references_iff {name : String} {expr : Expr} :
    name ∈ expr.references ↔ (Expr.reference name).PartOf expr := by
  constructor
  · exact partOf_of_mem_references expr
  · intro within
    exact within.mem_references List.mem_cons_self

end Expr

/-! ## Grammars -/

namespace Grammar

variable {grammar : Grammar}

/-- A grammar mentions a name that none of its rules has: some definition refers to it, at
whatever depth. -/
def Dangling (grammar : Grammar) (name : String) : Prop :=
  (∃ rule ∈ grammar.rules, (Expr.reference name).PartOf rule.2) ∧ name ∉ grammar.names

theorem mem_undefinedNames_iff {name : String} :
    name ∈ grammar.undefinedNames ↔ grammar.Dangling name := by
  rw [mem_undefinedNames, mem_references]
  simp only [Expr.mem_references_iff]
  rfl

theorem not_mem_names_of_lookup? {name : String} (missing : grammar.lookup? name = none) :
    name ∉ grammar.names := by
  intro present
  rcases List.mem_map.mp present with ⟨rule, member, equal⟩
  have differs := List.lookup_eq_none_iff.mp missing rule member
  rw [equal] at differs
  simp at differs

end Grammar

end OrderedChoice
