import OrderedChoice.Proofs.Derivation.Basic
import OrderedChoice.Proofs.Evaluation.Recursion

/-! The guard of evaluation against rules that are under way. A derivation is
larger than every derivation inside it, so a rule cannot be needed again, at the
same offset, to derive itself: wherever there is a derivation, the guard stays
idle and evaluation comes to the same finding. An evaluation whose guard stayed
idle is in turn nothing but a derivation. -/

namespace OrderedChoice

open Evaluation

variable {α : Type} {grammar : Grammar} {input : Input α}

namespace Evaluation

def Verdict.finding? {start size : Nat} : Verdict α start size → Option (Finding α)
  | .found tree stop _ _ => some (.found tree stop)
  | .missed => some .missed
  | .undefined _ => none

/-- An account comes to a finding, and the guard had no part in it. -/
def Account.ComesTo {start size : Nat} (account : Account α start size)
    (finding : Finding α) : Prop :=
  account.verdict.finding? = some finding ∧ account.effort.refusals = 0

namespace Account.ComesTo

variable {start size : Nat} {account : Account α start size} {finding : Finding α}

theorem exists_found {tree : Tree α} {stop : Nat} (comes : account.ComesTo (.found tree stop)) :
    ∃ forward inside effort, account = ⟨.found tree stop forward inside, effort⟩ ∧
      effort.refusals = 0 := by
  rcases account with ⟨verdict, effort⟩
  rcases comes with ⟨equal, idle⟩
  cases verdict with
  | found tree stop forward inside =>
      cases equal
      exact ⟨forward, inside, effort, rfl, idle⟩
  | missed => cases equal
  | undefined => cases equal

theorem exists_missed (comes : account.ComesTo .missed) :
    ∃ effort, account = ⟨.missed, effort⟩ ∧ effort.refusals = 0 := by
  rcases account with ⟨verdict, effort⟩
  rcases comes with ⟨equal, idle⟩
  cases verdict with
  | found => cases equal
  | missed => exact ⟨effort, rfl, idle⟩
  | undefined => cases equal

theorem of_eq {verdict : Verdict α start size} {effort : Effort}
    (equal : account = ⟨verdict, effort⟩) (shows : verdict.finding? = some finding)
    (idle : effort.refusals = 0) : account.ComesTo finding := by
  subst equal
  exact ⟨shows, idle⟩

theorem after_iff {effort : Effort} :
    (account.after effort).ComesTo finding ↔
      effort.refusals = 0 ∧ account.ComesTo finding := by
  simp only [Account.ComesTo, Account.after, Effort.add_refusals, Nat.add_eq_zero_iff]
  exact and_left_comm

end Account.ComesTo

end Evaluation

/-! ## Terminals -/

theorem Input.meets_nil {offset : Nat} {elements : List α} :
    input.Meets [] offset elements ↔ elements = [] := by
  constructor
  · exact fun meets => List.forall₂_nil_left_iff.mp meets.2
  · intro empty
    subst empty
    exact ⟨List.nil_prefix, .nil⟩

theorem Input.meets_cons {test : α → Bool} {tests : List (α → Bool)} {offset : Nat}
    {elements : List α} :
    input.Meets (test :: tests) offset elements ↔
      ∃ element rest, elements = element :: rest ∧ input.element? offset = some element ∧
        test element = true ∧ input.Meets tests (offset + 1) rest := by
  unfold Input.Meets Input.element?
  rw [← Array.getElem?_toList]
  constructor
  · rintro ⟨⟨after, equal⟩, met⟩
    rcases List.forall₂_cons_left_iff.mp met with ⟨element, rest, first, others, rfl⟩
    rw [List.cons_append] at equal
    have present : input.elements.toList[offset]? = some element := by
      rw [← List.head?_drop, ← equal, List.head?_cons]
    refine ⟨element, rest, rfl, present, first, ⟨after, ?_⟩, others⟩
    rw [← List.tail_drop, ← equal, List.tail_cons]
  · rintro ⟨element, rest, rfl, present, first, ⟨after, equal⟩, others⟩
    refine ⟨⟨after, ?_⟩, .cons first others⟩
    rcases List.getElem?_eq_some_iff.mp present with ⟨within, rfl⟩
    rw [List.cons_append, equal, List.drop_eq_getElem_cons within]

theorem scan_comesTo (pattern : String) (start offset : Nat) (forward : start ≤ offset)
    (inside : offset ≤ max start input.size) (taken : List α) (tests : List (α → Bool)) :
    (∃ elements, input.Meets tests offset elements ∧
      (scan input pattern start offset forward inside taken tests).ComesTo
        (.found (.leaf pattern (taken.reverse ++ elements)
          (.between start (offset + elements.length))) (offset + elements.length))) ∨
    (∀ elements, ¬ input.Meets tests offset elements) ∧
      (scan input pattern start offset forward inside taken tests).ComesTo .missed := by
  induction tests generalizing offset taken with
  | nil =>
      refine .inl ⟨[], Input.meets_nil.mpr rfl, ?_⟩
      rw [scan, List.append_nil]
      exact ⟨rfl, rfl⟩
  | cons test tests induction =>
      by_cases met : ∃ element, input.element? offset = some element ∧ test element = true
      · rcases met with ⟨element, present, first⟩
        rw [scan_met present first]
        simp only [Account.ComesTo.after_iff]
        rcases induction (offset + 1) (Nat.le_succ_of_le forward)
            (next_inside_of_element? present) (element :: taken) with
          ⟨elements, meets, comes⟩ | ⟨unmet, comes⟩
        · refine .inl ⟨element :: elements,
            Input.meets_cons.mpr ⟨element, elements, rfl, present, first, meets⟩, rfl, ?_⟩
          have stop : offset + (element :: elements).length = offset + 1 + elements.length := by
            rw [List.length_cons]
            omega
          rw [stop]
          simpa using comes
        · refine .inr ⟨?_, rfl, comes⟩
          intro elements meets
          rcases Input.meets_cons.mp meets with ⟨_, rest, _, _, _, others⟩
          exact unmet rest others
      · refine .inr ⟨?_, ?_⟩
        · intro elements meets
          rcases Input.meets_cons.mp meets with ⟨element, _, _, present, first, _⟩
          exact met ⟨element, present, first⟩
        · have rejected : ∀ element, input.element? offset = some element →
              test element = false := by
            intro element present
            by_contra first
            exact met ⟨element, present, by simpa using first⟩
          rw [scan_rejected rejected]
          exact ⟨rfl, rfl⟩

theorem terminal_comesTo (grammar : Grammar) (active : List (String × Nat)) (start : Nat)
    (pattern : String) :
    (∃ elements, input.Meets (input.tests pattern) start elements ∧
      (evaluate grammar input active start (.terminal pattern)).ComesTo
        (.found (.leaf pattern elements (.between start (start + elements.length)))
          (start + elements.length))) ∨
    (∀ elements, ¬ input.Meets (input.tests pattern) start elements) ∧
      (evaluate grammar input active start (.terminal pattern)).ComesTo .missed := by
  cases tests : input.tests pattern with
  | nil =>
      rw [evaluate_terminal_nil tests]
      exact .inl ⟨[], Input.meets_nil.mpr rfl, rfl, rfl⟩
  | cons test tests =>
      rw [evaluate_terminal_cons ‹_›]
      exact scan_comesTo pattern start start _ _ [] _

/-! ## From derivations to evaluation -/

/-- No rule under way can be derived in so few steps. -/
def Outgrown (grammar : Grammar) (input : Input α) (active : List (String × Nat))
    (size : Nat) : Prop :=
  ∀ name offset finding
    (derivation : Derivation grammar input (.reference name) offset finding),
    (name, offset) ∈ active → size < derivation.size

theorem outgrown_nil (size : Nat) : Outgrown grammar input [] size := by
  intro name offset finding derivation member
  cases member

theorem Outgrown.of_le {active : List (String × Nat)} {small large : Nat}
    (outgrown : Outgrown grammar input active large) (le : small ≤ large) :
    Outgrown grammar input active small :=
  fun name offset finding derivation member =>
    Nat.lt_of_le_of_lt le (outgrown name offset finding derivation member)

theorem Outgrown.not_mem {active : List (String × Nat)} {name : String} {start : Nat}
    {finding : Finding α} {derivation : Derivation grammar input (.reference name) start finding}
    (outgrown : Outgrown grammar input active derivation.size) : (name, start) ∉ active :=
  fun member => Nat.lt_irrefl _ (outgrown name start finding derivation member)

theorem Outgrown.enter {active : List (String × Nat)} {name : String} {start size : Nat}
    {finding : Finding α} {derivation : Derivation grammar input (.reference name) start finding}
    (outgrown : Outgrown grammar input active derivation.size)
    (smaller : size < derivation.size) :
    Outgrown grammar input ((name, start) :: active) size := by
  intro other offset otherFinding otherDerivation member
  rcases List.mem_cons.mp member with equal | member
  · cases equal
    -- the rule just entered has no derivation of another size
    rwa [← (derivation.unique otherDerivation).2]
  · exact Nat.lt_trans smaller (outgrown other offset otherFinding otherDerivation member)

/-- What a sequence comes to, given the trees that it has gathered, the latest
first, and what its other items come to. -/
def sequenceFinding (start : Nat) (children : List (Tree α)) :
    Option (List (Tree α) × Nat) → Finding α
  | some (trees, stop) =>
      .found (.node Operator.sequence.label (children.reverse ++ trees) (.between start stop)) stop
  | none => .missed

/-- What a repetition comes to, given the trees that it has gathered, the latest
first, and what its other rounds come to. -/
def repetitionFinding (start : Nat) (children trees : List (Tree α)) (stop : Nat) : Finding α :=
  .found (.node Operator.repetition.label (children.reverse ++ trees) (.between start stop)) stop

theorem sequenceFinding_cons (start : Nat) (tree : Tree α) (children trees : List (Tree α))
    (stop : Nat) :
    sequenceFinding start (tree :: children) (some (trees, stop)) =
      sequenceFinding start children (some (tree :: trees, stop)) := by
  simp [sequenceFinding]

theorem repetitionFinding_cons (start : Nat) (tree : Tree α) (children trees : List (Tree α))
    (stop : Nat) :
    repetitionFinding start (tree :: children) trees stop =
      repetitionFinding start children (tree :: trees) stop := by
  simp [repetitionFinding]

mutual
/-- Evaluation comes to what is derived, as long as no rule under way is needed
for it. -/
theorem Derivation.evaluates {expr : Expr} {start : Nat} {finding : Finding α} :
    (derivation : Derivation grammar input expr start finding) →
    (active : List (String × Nat)) →
    Outgrown grammar input active derivation.size →
    (evaluate grammar input active start expr).ComesTo finding
  | .terminal meets, active, _ => by
      rcases terminal_comesTo grammar active _ _ with ⟨elements, others, comes⟩ | ⟨unmet, _⟩
      · cases meets.eq others
        exact comes
      · exact absurd meets (unmet _)
  | .terminalMissed unmet, active, _ => by
      rcases terminal_comesTo grammar active _ _ with ⟨elements, meets, _⟩ | ⟨_, comes⟩
      · exact absurd meets (unmet _)
      · exact comes
  | .reference defined part, active, outgrown => by
      -- rules under way have larger derivations than this one, so the guard lets it in
      have entered := outgrown.enter (Nat.lt_succ_self part.size)
      rcases (part.evaluates _ entered).exists_found with
        ⟨forward, inside, effort, equal, idle⟩
      rw [evaluate_entered outgrown.not_mem defined, equal]
      exact ⟨rfl, by simp [idle]⟩
  | .referenceMissed defined part, active, outgrown => by
      have entered := outgrown.enter (Nat.lt_succ_self part.size)
      rcases (part.evaluates _ entered).exists_missed with ⟨effort, equal, idle⟩
      rw [evaluate_entered outgrown.not_mem defined, equal]
      exact ⟨rfl, by simp [idle]⟩
  | .choiceMissed, active, _ => by
      rw [evaluate, evaluateChoice]
      exact ⟨rfl, rfl⟩
  | .choiceFirst part, active, outgrown => by
      have outgrownPart := outgrown.of_le (Nat.le_succ part.size)
      rcases (part.evaluates _ outgrownPart).exists_found with
        ⟨forward, inside, effort, equal, idle⟩
      rw [evaluate, evaluateChoice, equal]
      exact ⟨rfl, by simp [idle]⟩
  | .choiceRest part rest, active, outgrown => by
      have outgrownPart : Outgrown grammar input active part.size :=
        outgrown.of_le (by simp only [Derivation.size]; omega)
      have outgrownRest : Outgrown grammar input active rest.size :=
        outgrown.of_le (by simp only [Derivation.size]; omega)
      rcases (part.evaluates _ outgrownPart).exists_missed with ⟨effort, equal, idle⟩
      have comes := rest.evaluates _ outgrownRest
      rw [evaluate] at comes
      rw [evaluate, evaluateChoice, equal]
      exact Account.ComesTo.after_iff.mpr ⟨by simp [idle], comes⟩
  | .sequence items, active, outgrown => by
      rw [evaluate]
      exact items.evaluates _ (outgrown.of_le (Nat.le_succ items.size)) _ _ _ []
  | .sequenceMissed items, active, outgrown => by
      rw [evaluate]
      exact items.evaluates _ (outgrown.of_le (Nat.le_succ items.size)) _ _ _ []
  | .optional part, active, outgrown => by
      have outgrownPart := outgrown.of_le (Nat.le_succ part.size)
      rcases (part.evaluates _ outgrownPart).exists_found with
        ⟨forward, inside, effort, equal, idle⟩
      rw [evaluate, equal]
      exact ⟨rfl, by simp [idle]⟩
  | .optionalMissed part, active, outgrown => by
      have outgrownPart := outgrown.of_le (Nat.le_succ part.size)
      rcases (part.evaluates _ outgrownPart).exists_missed with ⟨effort, equal, idle⟩
      rw [evaluate, equal]
      exact ⟨rfl, by simp [idle]⟩
  | .repetition rounds, active, outgrown => by
      rw [evaluate]
      exact rounds.evaluates _ (outgrown.of_le (Nat.le_succ rounds.size)) _ _ _ []

theorem ItemsDerivation.evaluates {items : List Expr} {offset : Nat}
    {result : Option (List (Tree α) × Nat)} :
    (derivation : ItemsDerivation grammar input items offset result) →
    (active : List (String × Nat)) →
    Outgrown grammar input active derivation.size →
    ∀ start reached within children,
      (evaluateSequence grammar input active start offset reached within children items).ComesTo
        (sequenceFinding start children result)
  | .nil, active, _, start, reached, within, children => by
      rw [evaluateSequence, sequenceFinding, List.append_nil]
      exact ⟨rfl, rfl⟩
  | .cons part rest, active, outgrown, start, reached, within, children => by
      have outgrownPart : Outgrown grammar input active part.size :=
        outgrown.of_le (by simp only [ItemsDerivation.size]; omega)
      have outgrownRest : Outgrown grammar input active rest.size :=
        outgrown.of_le (by simp only [ItemsDerivation.size]; omega)
      rcases (part.evaluates _ outgrownPart).exists_found with
        ⟨forward, inside, effort, equal, idle⟩
      rw [evaluateSequence, equal]
      refine Account.ComesTo.after_iff.mpr ⟨by simp [idle], ?_⟩
      rw [← sequenceFinding_cons]
      exact rest.evaluates _ outgrownRest start (by omega) (by omega) (_ :: children)
  | .firstMissed part, active, outgrown, start, reached, within, children => by
      have outgrownPart := outgrown.of_le (Nat.le_succ part.size)
      rcases (part.evaluates _ outgrownPart).exists_missed with ⟨effort, equal, idle⟩
      rw [evaluateSequence, equal]
      exact ⟨rfl, by simp [idle]⟩
  | .restMissed part rest, active, outgrown, start, reached, within, children => by
      have outgrownPart : Outgrown grammar input active part.size :=
        outgrown.of_le (by simp only [ItemsDerivation.size]; omega)
      have outgrownRest : Outgrown grammar input active rest.size :=
        outgrown.of_le (by simp only [ItemsDerivation.size]; omega)
      rcases (part.evaluates _ outgrownPart).exists_found with
        ⟨forward, inside, effort, equal, idle⟩
      rw [evaluateSequence, equal]
      refine Account.ComesTo.after_iff.mpr ⟨by simp [idle], ?_⟩
      exact rest.evaluates _ outgrownRest start (by omega) (by omega) (_ :: children)

theorem RoundsDerivation.evaluates {operand : Expr} {offset : Nat} {trees : List (Tree α)}
    {stop : Nat} :
    (derivation : RoundsDerivation grammar input operand offset trees stop) →
    (active : List (String × Nat)) →
    Outgrown grammar input active derivation.size →
    ∀ start reached within children,
      (evaluateRepetition grammar input active start offset reached within children
        operand).ComesTo (repetitionFinding start children trees stop)
  | .missed part, active, outgrown, start, reached, within, children => by
      have outgrownPart := outgrown.of_le (Nat.le_succ part.size)
      rcases (part.evaluates _ outgrownPart).exists_missed with ⟨effort, equal, idle⟩
      rw [evaluateRepetition, equal, repetitionFinding, List.append_nil]
      exact ⟨rfl, by simp [idle]⟩
  | .idle part, active, outgrown, start, reached, within, children => by
      have outgrownPart := outgrown.of_le (Nat.le_succ part.size)
      rcases (part.evaluates _ outgrownPart).exists_found with
        ⟨forward, inside, effort, equal, idle⟩
      rw [evaluateRepetition, equal, repetitionFinding, List.append_nil]
      simp only [Nat.lt_irrefl, ↓reduceDIte]
      exact ⟨rfl, by simp [idle]⟩
  | .round part progress rest, active, outgrown, start, reached, within, children => by
      have outgrownPart : Outgrown grammar input active part.size :=
        outgrown.of_le (by simp only [RoundsDerivation.size]; omega)
      have outgrownRest : Outgrown grammar input active rest.size :=
        outgrown.of_le (by simp only [RoundsDerivation.size]; omega)
      rcases (part.evaluates _ outgrownPart).exists_found with
        ⟨forward, inside, effort, equal, idle⟩
      rw [evaluateRepetition, equal]
      simp only [progress, ↓reduceDIte]
      refine Account.ComesTo.after_iff.mpr ⟨by simp [idle], ?_⟩
      rw [← repetitionFinding_cons]
      exact rest.evaluates _ outgrownRest start (by omega) (by omega) (_ :: children)
end

/-! ## From evaluation to derivations -/

theorem derives_of_comesTo (active : List (String × Nat)) (start : Nat) (expr : Expr) :
    ∀ finding, (evaluate grammar input active start expr).ComesTo finding →
      Derives grammar input expr start finding := by
  refine recursion grammar input
    (fun active start expr => ∀ finding,
      (evaluate grammar input active start expr).ComesTo finding →
      Derives grammar input expr start finding)
    (fun active start alternatives => ∀ finding,
      (evaluateChoice grammar input active start alternatives).ComesTo finding →
      Derives grammar input (.choice alternatives) start finding)
    (fun active start offset reached within children items => ∀ finding,
      (evaluateSequence grammar input active start offset reached within children
        items).ComesTo finding →
      ∃ result, DerivesItems grammar input items offset result ∧
        finding = sequenceFinding start children result)
    (fun active start offset reached within children operand => ∀ finding,
      (evaluateRepetition grammar input active start offset reached within children
        operand).ComesTo finding →
      ∃ trees stop, DerivesRounds grammar input operand offset trees stop ∧
        finding = repetitionFinding start children trees stop)
    ?terminal ?refused ?undefined ?entered ?choice ?sequence ?optional ?repetition
    ?noAlternative ?alternative ?noItem ?item ?round active start expr
  case terminal =>
    intro active start pattern finding comes
    rcases terminal_comesTo grammar active start pattern with
      ⟨elements, meets, terminal⟩ | ⟨unmet, terminal⟩
    · cases terminal.1.symm.trans comes.1
      exact ⟨.terminal meets⟩
    · cases terminal.1.symm.trans comes.1
      exact ⟨.terminalMissed unmet⟩
  case refused =>
    intro active start name refused finding comes
    rw [evaluate_refused refused] at comes
    -- a refusal is counted, but the guard had no part here
    cases comes.2
  case undefined =>
    intro active start name inactive missing finding comes
    rw [evaluate_undefined inactive missing] at comes
    cases comes.1
  case entered =>
    intro active start name definition inactive defined part finding comes
    rw [evaluate_entered inactive defined] at comes
    split at comes
    · next equal =>
        cases comes.1
        rcases part _ (.of_eq equal rfl (by simpa using comes.2)) with ⟨derivation⟩
        exact ⟨.reference defined derivation⟩
    · next equal =>
        cases comes.1
        rcases part _ (.of_eq equal rfl (by simpa using comes.2)) with ⟨derivation⟩
        exact ⟨.referenceMissed defined derivation⟩
    · cases comes.1
  case choice =>
    intro active start alternatives part finding comes
    rw [evaluate] at comes
    exact part finding comes
  case sequence =>
    intro active start items part finding comes
    rw [evaluate] at comes
    rcases part finding comes with ⟨result, ⟨derivation⟩, equal⟩
    subst equal
    cases result with
    | none => exact ⟨.sequenceMissed derivation⟩
    | some gathered => exact ⟨.sequence derivation⟩
  case optional =>
    intro active start operand part finding comes
    rw [evaluate] at comes
    split at comes
    · next equal =>
        cases comes.1
        rcases part _ (.of_eq equal rfl (by simpa using comes.2)) with ⟨derivation⟩
        exact ⟨.optional derivation⟩
    · next equal =>
        cases comes.1
        rcases part _ (.of_eq equal rfl (by simpa using comes.2)) with ⟨derivation⟩
        exact ⟨.optionalMissed derivation⟩
    · cases comes.1
  case repetition =>
    intro active start operand part finding comes
    rw [evaluate] at comes
    rcases part finding comes with ⟨trees, stop, ⟨derivation⟩, equal⟩
    subst equal
    exact ⟨.repetition derivation⟩
  case noAlternative =>
    intro active start finding comes
    rw [evaluateChoice] at comes
    cases comes.1
    exact ⟨.choiceMissed⟩
  case alternative =>
    intro active start first rest part further finding comes
    rw [evaluateChoice] at comes
    split at comes
    · next equal =>
        cases comes.1
        rcases part _ (.of_eq equal rfl (by simpa using comes.2)) with ⟨derivation⟩
        exact ⟨.choiceFirst derivation⟩
    · next equal =>
        rcases Account.ComesTo.after_iff.mp comes with ⟨idle, comes⟩
        rcases part _ (.of_eq equal rfl (by simpa using idle)) with ⟨derivation⟩
        rcases further _ equal finding comes with ⟨rest⟩
        exact ⟨.choiceRest derivation rest⟩
    · cases comes.1
  case noItem =>
    intro active start offset reached within children finding comes
    rw [evaluateSequence] at comes
    cases comes.1
    exact ⟨some ([], offset), ⟨.nil⟩, by simp [sequenceFinding]⟩
  case item =>
    intro active start offset reached within children first rest part further finding comes
    rw [evaluateSequence] at comes
    split at comes
    · next equal =>
        rcases Account.ComesTo.after_iff.mp comes with ⟨idle, comes⟩
        rcases part _ (.of_eq equal rfl (by simpa using idle)) with ⟨derivation⟩
        rcases further _ _ _ _ _ equal finding comes with ⟨result, ⟨rest⟩, shows⟩
        cases result with
        | none => exact ⟨none, ⟨.restMissed derivation rest⟩, shows⟩
        | some gathered =>
            rw [sequenceFinding_cons] at shows
            exact ⟨_, ⟨.cons derivation rest⟩, shows⟩
    · next equal =>
        cases comes.1
        rcases part _ (.of_eq equal rfl (by simpa using comes.2)) with ⟨derivation⟩
        exact ⟨none, ⟨.firstMissed derivation⟩, rfl⟩
    · cases comes.1
  case round =>
    intro active start offset reached within children operand part further finding comes
    rw [evaluateRepetition] at comes
    dsimp only at comes
    split at comes
    · next equal =>
        split at comes
        · next progress =>
            rcases Account.ComesTo.after_iff.mp comes with ⟨idle, comes⟩
            rcases part _ (.of_eq equal rfl (by simpa using idle)) with ⟨derivation⟩
            rcases further _ _ _ _ _ equal progress finding comes with
              ⟨trees, stop, ⟨rest⟩, shows⟩
            rw [repetitionFinding_cons] at shows
            exact ⟨_, _, ⟨.round derivation progress rest⟩, shows⟩
        · next _ _ forward _ equal idleRound =>
            -- a round that does not get ahead has stayed where it began
            cases Nat.le_antisymm (Nat.not_lt.mp idleRound) forward
            cases comes.1
            rcases part _ (.of_eq equal rfl (by simpa using comes.2)) with ⟨derivation⟩
            exact ⟨[], offset, ⟨.idle derivation⟩, by simp [repetitionFinding]⟩
    · next equal =>
        cases comes.1
        rcases part _ (.of_eq equal rfl (by simpa using comes.2)) with ⟨derivation⟩
        exact ⟨[], offset, ⟨.missed derivation⟩, by simp [repetitionFinding]⟩
    · cases comes.1

/-- Where no rule is under way, derivations and evaluations without help from the
guard are the same. -/
theorem derives_iff_comesTo {expr : Expr} {start : Nat} {finding : Finding α} :
    Derives grammar input expr start finding ↔
      (evaluate grammar input [] start expr).ComesTo finding := by
  constructor
  · rintro ⟨derivation⟩
    exact derivation.evaluates [] (outgrown_nil _)
  · exact derives_of_comesTo [] start expr finding

end OrderedChoice
