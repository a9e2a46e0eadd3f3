import OrderedChoice.Proofs.Derivation.Extent
import OrderedChoice.Proofs.Derivation.Inversion

/-! Which expressions have a derivation at all. Putting expressions together never
loses derivations; only rules that lead back to themselves and references without
a rule can lack one. -/

namespace OrderedChoice

variable {α : Type} {grammar : Grammar} {input : Input α}

/-- An expression comes to a finding at an offset. -/
def Derivable (grammar : Grammar) (input : Input α) (expr : Expr) (start : Nat) : Prop :=
  ∃ finding, Derives grammar input expr start finding

def DerivableFrom (grammar : Grammar) (input : Input α) (expr : Expr) (start : Nat) : Prop :=
  ∀ offset, start ≤ offset → Derivable grammar input expr offset

theorem DerivableFrom.derivable {expr : Expr} {start : Nat}
    (derivable : DerivableFrom grammar input expr start) : Derivable grammar input expr start :=
  derivable start (Nat.le_refl start)

theorem DerivableFrom.of_le {expr : Expr} {start offset : Nat}
    (derivable : DerivableFrom grammar input expr start) (le : start ≤ offset) :
    DerivableFrom grammar input expr offset :=
  fun further after => derivable further (Nat.le_trans le after)

theorem derivable_terminal (pattern : String) (start : Nat) :
    Derivable grammar input (.terminal pattern) start := by
  by_cases met : ∃ elements, input.Meets (input.tests pattern) start elements
  · rcases met with ⟨elements, meets⟩
    exact ⟨_, derives_terminal_iff.mpr ⟨elements, meets, rfl, rfl⟩⟩
  · have unmet : ∀ elements, ¬ input.Meets (input.tests pattern) start elements :=
      fun elements meets => met ⟨elements, meets⟩
    exact ⟨.missed, misses_terminal_iff.mpr unmet⟩

theorem Derivable.reference {name : String} {definition : Expr} {start : Nat}
    (defined : grammar.lookup? name = some definition)
    (derivable : Derivable grammar input definition start) :
    Derivable grammar input (.reference name) start := by
  rcases derivable with ⟨finding, derives⟩
  cases finding with
  | found tree stop => exact ⟨_, (derives_reference_iff defined).mpr ⟨tree, derives, rfl⟩⟩
  | missed => exact ⟨.missed, (misses_reference_iff defined).mpr derives⟩

theorem Derivable.optional {operand : Expr} {start : Nat}
    (derivable : Derivable grammar input operand start) :
    Derivable grammar input (.optional operand) start := by
  rcases derivable with ⟨finding, derives⟩
  cases finding with
  | found tree stop => exact ⟨_, derives_optional_iff.mpr (.inl ⟨tree, derives, rfl⟩)⟩
  | missed => exact ⟨_, derives_optional_iff.mpr (.inr ⟨derives, rfl, rfl⟩)⟩

theorem derivable_choice {alternatives : List Expr} {start : Nat}
    (derivable : ∀ alternative ∈ alternatives, Derivable grammar input alternative start) :
    Derivable grammar input (.choice alternatives) start := by
  induction alternatives with
  | nil => exact ⟨.missed, misses_choice_nil⟩
  | cons first rest induction =>
      rcases derivable first List.mem_cons_self with ⟨finding, derives⟩
      cases finding with
      | found tree stop => exact ⟨_, derives_choice_cons_iff.mpr (.inl derives)⟩
      | missed =>
          have others := induction fun alternative member =>
            derivable alternative (List.mem_cons_of_mem first member)
          rcases others with ⟨finding, others⟩
          cases finding with
          | found tree stop =>
              exact ⟨_, derives_choice_cons_iff.mpr (.inr ⟨derives, others⟩)⟩
          | missed => exact ⟨.missed, misses_choice_cons_iff.mpr ⟨derives, others⟩⟩

/-! ## Sequences -/

def ItemsDerivable (grammar : Grammar) (input : Input α) (items : List Expr) (start : Nat) :
    Prop :=
  ∃ result, DerivesItems grammar input items start result

theorem itemsDerivable_cons {first : Expr} {rest : List Expr} {start : Nat}
    (derivable : Derivable grammar input first start)
    (others : ∀ tree middle, Derives grammar input first start (.found tree middle) →
      ItemsDerivable grammar input rest middle) :
    ItemsDerivable grammar input (first :: rest) start := by
  rcases derivable with ⟨finding, derives⟩
  cases finding with
  | missed => exact ⟨none, missesItems_cons_iff.mpr (.inl derives)⟩
  | found tree middle =>
      rcases others tree middle derives with ⟨result, further⟩
      cases result with
      | none => exact ⟨none, missesItems_cons_iff.mpr (.inr ⟨tree, middle, derives, further⟩)⟩
      | some gathered =>
          exact ⟨_, derivesItems_cons_iff.mpr ⟨tree, middle, _, derives, further, rfl⟩⟩

theorem itemsDerivable_of_derivableFrom {items : List Expr} {start : Nat}
    (derivable : ∀ item ∈ items, DerivableFrom grammar input item start) :
    ItemsDerivable grammar input items start := by
  induction items generalizing start with
  | nil => exact ⟨_, derivesItems_nil_iff.mpr ⟨rfl, rfl⟩⟩
  | cons first rest induction =>
      apply itemsDerivable_cons (derivable first List.mem_cons_self).derivable
      intro tree middle derives
      apply induction
      intro item member
      exact (derivable item (List.mem_cons_of_mem first member)).of_le derives.bounds.1

theorem ItemsDerivable.sequence {items : List Expr} {start : Nat}
    (derivable : ItemsDerivable grammar input items start) :
    Derivable grammar input (.sequence items) start := by
  rcases derivable with ⟨result, derives⟩
  cases result with
  | none => exact ⟨.missed, misses_sequence_iff.mpr derives⟩
  | some gathered => exact ⟨_, derives_sequence_iff.mpr ⟨_, derives, rfl⟩⟩

/-! ## Repetitions -/

theorem exists_derivesRounds {operand : Expr} {start : Nat}
    (derivable : DerivableFrom grammar input operand start) :
    ∃ trees stop, DerivesRounds grammar input operand start trees stop := by
  induction left : input.size - start using Nat.strongRecOn generalizing start with
  | ind remaining induction =>
      rcases derivable.derivable with ⟨finding, derives⟩
      cases finding with
      | missed => exact ⟨[], start, derivesRounds_iff.mpr (.inl ⟨.inl derives, rfl, rfl⟩)⟩
      | found tree middle =>
          rcases derives.bounds with ⟨forward, inside⟩
          rcases Nat.eq_or_lt_of_le forward with equal | progress
          · subst equal
            exact ⟨[], start,
              derivesRounds_iff.mpr (.inl ⟨.inr ⟨tree, derives⟩, rfl, rfl⟩)⟩
          · have less : input.size - middle < remaining := by omega
            rcases induction _ less (derivable.of_le forward) rfl with ⟨trees, stop, rounds⟩
            exact ⟨tree :: trees, stop, derivesRounds_iff.mpr
              (.inr ⟨tree, middle, trees, derives, progress, rounds, rfl⟩)⟩

theorem DerivableFrom.repetition {operand : Expr} {start : Nat}
    (derivable : DerivableFrom grammar input operand start) :
    DerivableFrom grammar input (.repetition operand) start := by
  intro offset after
  rcases exists_derivesRounds (derivable.of_le after) with ⟨trees, stop, rounds⟩
  exact ⟨_, derives_repetition_iff.mpr ⟨trees, rounds, rfl⟩⟩

/-! ## References -/

mutual
/-- Only references can leave an expression without a derivation. -/
theorem derivableFrom_of_references {start : Nat} :
    (expr : Expr) →
    (∀ name ∈ expr.references, DerivableFrom grammar input (.reference name) start) →
    DerivableFrom grammar input expr start
  | .terminal pattern, _ => fun offset _ => derivable_terminal pattern offset
  | .reference name, references => references name List.mem_cons_self
  | .choice alternatives, references => by
      have parts := derivableFrom_all_of_references alternatives references
      exact fun offset after => derivable_choice fun alternative member =>
        parts alternative member offset after
  | .sequence items, references => by
      have parts := derivableFrom_all_of_references items references
      intro offset after
      apply ItemsDerivable.sequence
      apply itemsDerivable_of_derivableFrom
      exact fun item member => (parts item member).of_le after
  | .optional operand, references => by
      have part := derivableFrom_of_references operand references
      exact fun offset after => (part offset after).optional
  | .repetition operand, references =>
      (derivableFrom_of_references operand references).repetition

theorem derivableFrom_all_of_references {start : Nat} :
    (exprs : List Expr) →
    (∀ name ∈ Expr.referencesInAll exprs,
      DerivableFrom grammar input (.reference name) start) →
    ∀ expr ∈ exprs, DerivableFrom grammar input expr start
  | [], _ => fun _ member => nomatch member
  | first :: rest, references => by
      have head := derivableFrom_of_references first fun name member =>
        references name (List.mem_append_left _ member)
      have tail := derivableFrom_all_of_references rest fun name member =>
        references name (List.mem_append_right _ member)
      exact List.forall_mem_cons.mpr ⟨head, tail⟩
end

theorem derivableFrom_of_defined {name : String} {definition : Expr} {start : Nat}
    (defined : grammar.lookup? name = some definition) (others : List String)
    (mentions : definition.references = others)
    (derivable : ∀ other ∈ others, DerivableFrom grammar input (.reference other) start) :
    DerivableFrom grammar input (.reference name) start := by
  intro offset after
  rw [← mentions] at derivable
  have body := derivableFrom_of_references definition derivable
  exact (body offset after).reference defined

end OrderedChoice
