import OrderedChoice.Grammar.Draft

/-! The shape of definitions: how high they are, and that every choice and every sequence
has parts. A grammar that has been put together from drafts has only such definitions. -/

namespace OrderedChoice

theorem bind_eq_ok_iff {ε α β : Type} {first : Except ε α} {next : α → Except ε β}
    {result : β} :
    first >>= next = .ok result ↔ ∃ value, first = .ok value ∧ next value = .ok result := by
  cases first with
  | error cause => exact ⟨nofun, nofun⟩
  | ok value =>
      constructor
      · exact fun good => ⟨value, rfl, good⟩
      · rintro ⟨_, same, good⟩
        cases same
        exact good

theorem Grammar.mem_rules_of_lookup? {grammar : Grammar} {name : String} {definition : Expr}
    (found : grammar.lookup? name = some definition) : (name, definition) ∈ grammar.rules := by
  obtain ⟨before, after, split, _⟩ := List.lookup_eq_some_iff.mp found
  rw [split]
  exact List.mem_append_right _ List.mem_cons_self

/-! ## Height -/

mutual
/-- How many expressions there are on the longest way from an expression down to a terminal
or a reference, both ends counted. -/
def Expr.height : Expr → Nat
  | .terminal _ | .reference _ => 1
  | .choice alternatives => Expr.heightOfAll alternatives + 1
  | .sequence items => Expr.heightOfAll items + 1
  | .optional operand | .repetition operand => operand.height + 1

def Expr.heightOfAll : List Expr → Nat
  | [] => 0
  | head :: tail => max head.height (Expr.heightOfAll tail)
end

def Grammar.height (grammar : Grammar) : Nat :=
  Expr.heightOfAll (grammar.rules.map Prod.snd)

theorem Expr.one_le_height (expr : Expr) : 1 ≤ expr.height := by
  cases expr <;> simp [Expr.height]

theorem Expr.height_le_of_mem {part : Expr} {parts : List Expr} (member : part ∈ parts) :
    part.height ≤ heightOfAll parts := by
  induction parts with
  | nil => cases member
  | cons head tail induction =>
      rw [Expr.heightOfAll]
      rcases List.mem_cons.mp member with rfl | member
      · exact Nat.le_max_left _ _
      · exact Nat.le_trans (induction member) (Nat.le_max_right _ _)

theorem Grammar.height_le_of_lookup? {grammar : Grammar} {name : String} {definition : Expr}
    (found : grammar.lookup? name = some definition) : definition.height ≤ grammar.height :=
  Expr.height_le_of_mem (List.mem_map_of_mem (Grammar.mem_rules_of_lookup? found))

/-! ## Parts -/

inductive Expr.Filled : Expr → Prop where
  | terminal {pattern} : Filled (.terminal pattern)
  | reference {name} : Filled (.reference name)
  | choice {first others} :
      (∀ part ∈ first :: others, Filled part) → Filled (.choice (first :: others))
  | sequence {first others} :
      (∀ part ∈ first :: others, Filled part) → Filled (.sequence (first :: others))
  | optional {operand} : Filled operand → Filled (.optional operand)
  | repetition {operand} : Filled operand → Filled (.repetition operand)

def Grammar.Filled (grammar : Grammar) : Prop :=
  ∀ rule ∈ grammar.rules, rule.2.Filled

/-- What a draft has been built into is filled, if it is an expression at all. -/
def Built.Filled (built : Built) : Prop :=
  ∀ expr, built = .expr expr → expr.Filled

theorem Built.filled_of_exprs {operator : Operator} {parts : List Built} {exprs : List Expr}
    (filled : ∀ part ∈ parts, part.Filled) (fit : Built.exprs operator parts = .ok exprs) :
    exprs.length = parts.length ∧ ∀ expr ∈ exprs, expr.Filled := by
  induction parts generalizing exprs with
  | nil =>
      cases fit
      exact ⟨rfl, List.forall_mem_nil _⟩
  | cons head rest induction =>
      obtain ⟨headFilled, restFilled⟩ := List.forall_mem_cons.mp filled
      cases head with
      | datum value => cases fit
      | expr head =>
          obtain ⟨tail, fitTail, made⟩ := bind_eq_ok_iff.mp fit
          cases made
          obtain ⟨length, tailFilled⟩ := induction restFilled fitTail
          refine ⟨congrArg Nat.succ length, ?_⟩
          exact List.forall_mem_cons.mpr ⟨headFilled head rfl, tailFilled⟩

theorem Expr.filled_of_composite? {operator : Operator} {parts : List Built} {expr : Expr}
    (filled : ∀ part ∈ parts, part.Filled)
    (fit : Expr.composite? operator parts = .ok expr) : expr.Filled := by
  cases parts with
  | nil => cases fit
  | cons part others =>
      obtain ⟨exprs, fitParts, made⟩ := bind_eq_ok_iff.mp fit
      obtain ⟨length, exprsFilled⟩ := Built.filled_of_exprs filled fitParts
      cases exprs with
      | nil => cases length
      | cons first others =>
          have operandFilled : (Expr.operand (first :: others)).Filled := by
            cases others with
            | nil => exact exprsFilled first List.mem_cons_self
            | cons second others => exact .sequence exprsFilled
          cases operator with
          | choice => cases made; exact .choice exprsFilled
          | sequence => cases made; exact .sequence exprsFilled
          | optional => cases made; exact .optional operandFilled
          | repetition => cases made; exact .repetition operandFilled

mutual
theorem Draft.filled_of_build {built : Built} :
    (draft : Draft) → draft.build = .ok built → built.Filled
  | .pattern text, made => by
      cases made
      rintro _ ⟨⟩
      exact .terminal
  | .reference name, made => by
      obtain ⟨expr, named, made⟩ := bind_eq_ok_iff.mp made
      cases made
      unfold Expr.reference? at named
      split at named
      · cases named
      · cases named
        rintro _ ⟨⟩
        exact .reference
  | .composite operator parts, made => by
      obtain ⟨builts, madeParts, made⟩ := bind_eq_ok_iff.mp made
      obtain ⟨expr, fit, made⟩ := bind_eq_ok_iff.mp made
      cases made
      rintro _ ⟨⟩
      exact Expr.filled_of_composite? (Draft.filled_of_buildAll parts madeParts) fit
  | .datum value, made => by
      cases made
      rintro _ ⟨⟩

theorem Draft.filled_of_buildAll {builts : List Built} :
    (drafts : List Draft) → Draft.buildAll drafts = .ok builts →
      ∀ built ∈ builts, built.Filled
  | [], made => by
      cases made
      exact List.forall_mem_nil _
  | head :: tail, made => by
      obtain ⟨builtHead, madeHead, made⟩ := bind_eq_ok_iff.mp made
      obtain ⟨builtTail, madeTail, made⟩ := bind_eq_ok_iff.mp made
      cases made
      exact List.forall_mem_cons.mpr
        ⟨Draft.filled_of_build head madeHead, Draft.filled_of_buildAll tail madeTail⟩
end

/-! ## Construction -/

namespace Grammar

theorem filled_of_mem_putBuilt {name : Datum} {definition : Built}
    {rules : List (Datum × Built)} (fits : definition.Filled)
    (filled : ∀ rule ∈ rules, rule.2.Filled) :
    ∀ rule ∈ putBuilt name definition rules, rule.2.Filled := by
  induction rules with
  | nil => exact List.forall_mem_singleton.mpr fits
  | cons rule rest induction =>
      obtain ⟨ruleFilled, restFilled⟩ := List.forall_mem_cons.mp filled
      have later : ∀ other ∈ rule :: putBuilt name definition rest, other.2.Filled :=
        List.forall_mem_cons.mpr ⟨ruleFilled, induction restFilled⟩
      unfold putBuilt
      split
      · split
        · exact List.forall_mem_cons.mpr ⟨fits, restFilled⟩
        · exact later
      · exact later

theorem filled_of_mem_foldl_putBuilt {rules kept : List (Datum × Built)}
    (fit : ∀ rule ∈ rules, rule.2.Filled) (filled : ∀ rule ∈ kept, rule.2.Filled) :
    ∀ rule ∈ rules.foldl (fun kept rule => putBuilt rule.1 rule.2 kept) kept,
      rule.2.Filled := by
  induction rules generalizing kept with
  | nil => exact filled
  | cons rule rest induction =>
      obtain ⟨ruleFits, restFit⟩ := List.forall_mem_cons.mp fit
      exact induction restFit (filled_of_mem_putBuilt ruleFits filled)

theorem filled_of_mem_put {name : String} {definition : Expr} {rules : List (String × Expr)}
    (fits : definition.Filled) (filled : ∀ rule ∈ rules, rule.2.Filled) :
    ∀ rule ∈ put name definition rules, rule.2.Filled := by
  induction rules with
  | nil => exact List.forall_mem_singleton.mpr fits
  | cons rule rest induction =>
      obtain ⟨ruleFilled, restFilled⟩ := List.forall_mem_cons.mp filled
      unfold put
      split
      · exact List.forall_mem_cons.mpr ⟨fits, restFilled⟩
      · exact List.forall_mem_cons.mpr ⟨ruleFilled, induction restFilled⟩

theorem Filled.insertBuilt {grammar result : Grammar} {rule : Datum × Built}
    (filled : grammar.Filled) (fits : rule.2.Filled)
    (inserted : grammar.insertBuilt rule = .ok result) : result.Filled := by
  unfold Grammar.insertBuilt at inserted
  split at inserted
  · cases inserted
    exact filled_of_mem_put (fits _ rfl) filled
  · cases inserted
  · cases inserted

theorem Filled.foldlM {rules : List (Datum × Built)} {grammar result : Grammar}
    (filled : grammar.Filled) (fit : ∀ rule ∈ rules, rule.2.Filled)
    (inserted : rules.foldlM Grammar.insertBuilt grammar = .ok result) : result.Filled := by
  induction rules generalizing grammar with
  | nil =>
      cases inserted
      exact filled
  | cons rule rest induction =>
      obtain ⟨ruleFits, restFit⟩ := List.forall_mem_cons.mp fit
      rw [List.foldlM_cons] at inserted
      obtain ⟨next, first, others⟩ := bind_eq_ok_iff.mp inserted
      exact induction (filled.insertBuilt ruleFits first) restFit others

theorem filled_of_ofDrafts {drafts : List RuleDraft} {grammar : Grammar}
    (made : ofDrafts drafts = .ok grammar) : grammar.Filled := by
  obtain ⟨definitions, built, inserted⟩ := bind_eq_ok_iff.mp made
  have filled := Draft.filled_of_buildAll _ built
  have empty : Grammar.empty.Filled := List.forall_mem_nil _
  apply empty.foldlM _ inserted
  apply filled_of_mem_foldl_putBuilt _ (List.forall_mem_nil _)
  exact fun rule member => filled rule.2 (List.of_mem_zip member).2

end Grammar

end OrderedChoice
