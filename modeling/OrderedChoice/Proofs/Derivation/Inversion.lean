import OrderedChoice.Proofs.Derivation.Basic

/-! What derivations come down to, expression by expression: an expression is
found or missed exactly if its parts are found and missed in certain ways. -/

namespace OrderedChoice

variable {α : Type} {grammar : Grammar} {input : Input α} {start stop : Nat} {tree : Tree α}

/-! ## Terminals and references -/

theorem derives_terminal_iff {pattern : String} :
    Derives grammar input (.terminal pattern) start (.found tree stop) ↔
      ∃ elements, input.Meets (input.tests pattern) start elements ∧
        stop = start + elements.length ∧
        tree = .leaf pattern elements (.between start stop) := by
  constructor
  · rintro ⟨derivation⟩
    cases derivation with
    | terminal meets => exact ⟨_, meets, rfl, rfl⟩
  · rintro ⟨elements, meets, rfl, rfl⟩
    exact ⟨.terminal meets⟩

theorem misses_terminal_iff {pattern : String} :
    Derives grammar input (.terminal pattern) start .missed ↔
      ∀ elements, ¬ input.Meets (input.tests pattern) start elements := by
  constructor
  · rintro ⟨derivation⟩
    cases derivation with
    | terminalMissed unmet => exact unmet
  · intro unmet
    exact ⟨.terminalMissed unmet⟩

variable {name : String} {definition : Expr}

theorem derives_reference_iff (defined : grammar.lookup? name = some definition) :
    Derives grammar input (.reference name) start (.found tree stop) ↔
      ∃ part, Derives grammar input definition start (.found part stop) ∧
        tree = .node name [part] (.between start stop) := by
  constructor
  · rintro ⟨derivation⟩
    cases derivation with
    | reference same part =>
        cases defined.symm.trans same
        exact ⟨_, ⟨part⟩, rfl⟩
  · rintro ⟨part, ⟨derivation⟩, rfl⟩
    exact ⟨.reference defined derivation⟩

theorem misses_reference_iff (defined : grammar.lookup? name = some definition) :
    Derives grammar input (.reference name) start .missed ↔
      Derives grammar input definition start .missed := by
  constructor
  · rintro ⟨derivation⟩
    cases derivation with
    | referenceMissed same part =>
        cases defined.symm.trans same
        exact ⟨part⟩
  · rintro ⟨derivation⟩
    exact ⟨.referenceMissed defined derivation⟩

/-! ## Choices -/

theorem not_derives_choice_nil :
    ¬ Derives grammar input (.choice []) start (.found tree stop) := by
  rintro ⟨derivation⟩
  cases derivation

theorem misses_choice_nil : Derives grammar input (.choice []) start .missed :=
  ⟨.choiceMissed⟩

variable {first : Expr} {rest : List Expr}

theorem derives_choice_cons_iff :
    Derives grammar input (.choice (first :: rest)) start (.found tree stop) ↔
      Derives grammar input first start (.found tree stop) ∨
        Derives grammar input first start .missed ∧
          Derives grammar input (.choice rest) start (.found tree stop) := by
  constructor
  · rintro ⟨derivation⟩
    cases derivation with
    | choiceFirst part => exact .inl ⟨part⟩
    | choiceRest part others => exact .inr ⟨⟨part⟩, ⟨others⟩⟩
  · rintro (⟨⟨part⟩⟩ | ⟨⟨part⟩, ⟨others⟩⟩)
    · exact ⟨.choiceFirst part⟩
    · exact ⟨.choiceRest part others⟩

theorem misses_choice_cons_iff :
    Derives grammar input (.choice (first :: rest)) start .missed ↔
      Derives grammar input first start .missed ∧
        Derives grammar input (.choice rest) start .missed := by
  constructor
  · rintro ⟨derivation⟩
    cases derivation with
    | choiceRest part others => exact ⟨⟨part⟩, ⟨others⟩⟩
  · rintro ⟨⟨part⟩, ⟨others⟩⟩
    exact ⟨.choiceRest part others⟩

/-! ## Sequences -/

theorem derives_sequence_iff {items : List Expr} :
    Derives grammar input (.sequence items) start (.found tree stop) ↔
      ∃ trees, DerivesItems grammar input items start (some (trees, stop)) ∧
        tree = .node Operator.sequence.label trees (.between start stop) := by
  constructor
  · rintro ⟨derivation⟩
    cases derivation with
    | sequence parts => exact ⟨_, ⟨parts⟩, rfl⟩
  · rintro ⟨trees, ⟨parts⟩, rfl⟩
    exact ⟨.sequence parts⟩

theorem misses_sequence_iff {items : List Expr} :
    Derives grammar input (.sequence items) start .missed ↔
      DerivesItems grammar input items start none := by
  constructor
  · rintro ⟨derivation⟩
    cases derivation with
    | sequenceMissed parts => exact ⟨parts⟩
  · rintro ⟨parts⟩
    exact ⟨.sequenceMissed parts⟩

theorem derivesItems_nil_iff {trees : List (Tree α)} :
    DerivesItems grammar input [] start (some (trees, stop)) ↔ trees = [] ∧ stop = start := by
  constructor
  · rintro ⟨derivation⟩
    cases derivation
    exact ⟨rfl, rfl⟩
  · rintro ⟨rfl, rfl⟩
    exact ⟨.nil⟩

theorem derivesItems_cons_iff {trees : List (Tree α)} :
    DerivesItems grammar input (first :: rest) start (some (trees, stop)) ↔
      ∃ tree middle others, Derives grammar input first start (.found tree middle) ∧
        DerivesItems grammar input rest middle (some (others, stop)) ∧
        trees = tree :: others := by
  constructor
  · rintro ⟨derivation⟩
    cases derivation with
    | cons part others => exact ⟨_, _, _, ⟨part⟩, ⟨others⟩, rfl⟩
  · rintro ⟨tree, middle, others, ⟨part⟩, ⟨derivation⟩, rfl⟩
    exact ⟨.cons part derivation⟩

theorem missesItems_cons_iff :
    DerivesItems grammar input (first :: rest) start none ↔
      Derives grammar input first start .missed ∨
        ∃ tree middle, Derives grammar input first start (.found tree middle) ∧
          DerivesItems grammar input rest middle none := by
  constructor
  · rintro ⟨derivation⟩
    cases derivation with
    | firstMissed part => exact .inl ⟨part⟩
    | restMissed part others => exact .inr ⟨_, _, ⟨part⟩, ⟨others⟩⟩
  · rintro (⟨⟨part⟩⟩ | ⟨tree, middle, ⟨part⟩, ⟨others⟩⟩)
    · exact ⟨.firstMissed part⟩
    · exact ⟨.restMissed part others⟩

/-! ## Options and repetitions -/

variable {operand : Expr}

theorem derives_optional_iff :
    Derives grammar input (.optional operand) start (.found tree stop) ↔
      (∃ part, Derives grammar input operand start (.found part stop) ∧
        tree = .node Operator.optional.label [part] (.between start stop)) ∨
      Derives grammar input operand start .missed ∧ tree = .absent ∧ stop = start := by
  constructor
  · rintro ⟨derivation⟩
    cases derivation with
    | optional part => exact .inl ⟨_, ⟨part⟩, rfl⟩
    | optionalMissed part => exact .inr ⟨⟨part⟩, rfl, rfl⟩
  · rintro (⟨part, ⟨derivation⟩, rfl⟩ | ⟨⟨derivation⟩, rfl, rfl⟩)
    · exact ⟨.optional derivation⟩
    · exact ⟨.optionalMissed derivation⟩

theorem derives_repetition_iff :
    Derives grammar input (.repetition operand) start (.found tree stop) ↔
      ∃ trees, DerivesRounds grammar input operand start trees stop ∧
        tree = .node Operator.repetition.label trees (.between start stop) := by
  constructor
  · rintro ⟨derivation⟩
    cases derivation with
    | repetition rounds => exact ⟨_, ⟨rounds⟩, rfl⟩
  · rintro ⟨trees, ⟨rounds⟩, rfl⟩
    exact ⟨.repetition rounds⟩

theorem derivesRounds_iff {trees : List (Tree α)} :
    DerivesRounds grammar input operand start trees stop ↔
      (Derives grammar input operand start .missed ∨
          ∃ tree, Derives grammar input operand start (.found tree start)) ∧
        trees = [] ∧ stop = start ∨
      ∃ tree middle others, Derives grammar input operand start (.found tree middle) ∧
        start < middle ∧ DerivesRounds grammar input operand middle others stop ∧
        trees = tree :: others := by
  constructor
  · rintro ⟨derivation⟩
    cases derivation with
    | missed part => exact .inl ⟨.inl ⟨part⟩, rfl, rfl⟩
    | idle part => exact .inl ⟨.inr ⟨_, ⟨part⟩⟩, rfl, rfl⟩
    | round part progress others =>
        exact .inr ⟨_, _, _, ⟨part⟩, progress, ⟨others⟩, rfl⟩
  · rintro (⟨⟨⟨part⟩⟩ | ⟨tree, ⟨part⟩⟩, rfl, rfl⟩ |
      ⟨tree, middle, others, ⟨part⟩, progress, ⟨derivation⟩, rfl⟩)
    · exact ⟨.missed part⟩
    · exact ⟨.idle part⟩
    · exact ⟨.round part progress derivation⟩

end OrderedChoice
