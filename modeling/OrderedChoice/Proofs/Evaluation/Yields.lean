import OrderedChoice.Proofs.Evaluation.Recursion

/-! Evaluation as a relation. What a search comes to is given by rules, one for each way in which
evaluation goes on, so that two grammars can be compared rule by rule. The rules leave out what
an evaluation costs. Beside the verdict and the furthest refusal they tell at which offset a
reference without a rule is reached. -/

namespace OrderedChoice

namespace Evaluation

variable {α : Type} {grammar : Grammar} {input : Input α}

/-! ## Searches and endings -/

inductive Search (α : Type) where
  | expr (expr : Expr)
  | alternatives (alternatives : List Expr)
  /-- The items left of a sequence that began at `start`, with the trees of earlier items
  gathered, the latest first. -/
  | items (start : Nat) (children : List (Tree α)) (items : List Expr)
  | rounds (start : Nat) (children : List (Tree α)) (operand : Expr)

inductive Ending (α : Type) where
  | found (tree : Tree α) (stop : Nat)
  | missed
  | undefined (name : String) (offset : Nat)

namespace Ending

def inNode (label : String) (start : Nat) : Ending α → Ending α
  | found tree stop => found (.node label [tree] (.between start stop)) stop
  | missed => missed
  | undefined name offset => undefined name offset

def ofOptional (start : Nat) : Ending α → Ending α
  | found tree stop => found (.node Operator.optional.label [tree] (.between start stop)) stop
  | missed => found .absent start
  | undefined name offset => undefined name offset

def ofRounds (start offset : Nat) (children : List (Tree α)) : Ending α → Ending α
  | found _ _ | missed =>
      found (.node Operator.repetition.label children.reverse (.between start offset)) offset
  | undefined name offset => undefined name offset

section Undefined

variable {ending : Ending α} {label name : String} {start offset place : Nat}
  {children : List (Tree α)}

theorem inNode_eq_undefined :
    ending.inNode label start = undefined name place ↔ ending = undefined name place := by
  cases ending <;> simp [inNode]

theorem ofOptional_eq_undefined :
    ending.ofOptional start = undefined name place ↔ ending = undefined name place := by
  cases ending <;> simp [ofOptional]

theorem ofRounds_eq_undefined :
    ending.ofRounds start offset children = undefined name place ↔
      ending = undefined name place := by
  cases ending <;> simp [ofRounds]

end Undefined

end Ending

inductive Account.Ends {start size : Nat} :
    Account α start size → Ending α → Option Nat → Prop
  | found {tree stop forward inside effort furthest} :
      effort.furthest = furthest →
      Ends ⟨.found tree stop forward inside, effort⟩ (.found tree stop) furthest
  | missed {effort furthest} :
      effort.furthest = furthest → Ends ⟨.missed, effort⟩ .missed furthest
  | undefined {name offset effort furthest} :
      effort.furthest = furthest → Ends ⟨.undefined name, effort⟩ (.undefined name offset) furthest

/-! ## Rules -/

/-- With some rules under way, a search at an offset comes to an ending, and the terminals that
are turned down on the way get as far as `furthest`. -/
inductive Yields (grammar : Grammar) (input : Input α) :
    List (String × Nat) → Nat → Search α → Ending α → Option Nat → Prop
  | terminal {active start pattern ending furthest} :
      (evaluate grammar input active start (.terminal pattern)).Ends ending furthest →
      Yields grammar input active start (.expr (.terminal pattern)) ending furthest
  | refused {active start name} :
      (name, start) ∈ active →
      Yields grammar input active start (.expr (.reference name)) .missed none
  | undefined {active start name} :
      (name, start) ∉ active → grammar.lookup? name = none →
      Yields grammar input active start (.expr (.reference name)) (.undefined name start) none
  | entered {active start name definition ending furthest} :
      (name, start) ∉ active → grammar.lookup? name = some definition →
      Yields grammar input ((name, start) :: active) start (.expr definition) ending furthest →
      Yields grammar input active start (.expr (.reference name)) (ending.inNode name start)
        furthest
  | choice {active start alternatives ending furthest} :
      Yields grammar input active start (.alternatives alternatives) ending furthest →
      Yields grammar input active start (.expr (.choice alternatives)) ending furthest
  | sequence {active start items ending furthest} :
      Yields grammar input active start (.items start [] items) ending furthest →
      Yields grammar input active start (.expr (.sequence items)) ending furthest
  | optional {active start operand ending furthest} :
      Yields grammar input active start (.expr operand) ending furthest →
      Yields grammar input active start (.expr (.optional operand)) (ending.ofOptional start)
        furthest
  | repetition {active start operand ending furthest} :
      Yields grammar input active start (.rounds start [] operand) ending furthest →
      Yields grammar input active start (.expr (.repetition operand)) ending furthest
  | noAlternative {active start} :
      Yields grammar input active start (.alternatives []) .missed none
  | lastAlternative {active start first rest ending furthest} :
      Yields grammar input active start (.expr first) ending furthest → ending ≠ .missed →
      Yields grammar input active start (.alternatives (first :: rest)) ending furthest
  | nextAlternative {active start first rest ending furthest further} :
      Yields grammar input active start (.expr first) .missed furthest →
      Yields grammar input active start (.alternatives rest) ending further →
      Yields grammar input active start (.alternatives (first :: rest)) ending
        (max furthest further)
  | noItem {active start offset children} :
      Yields grammar input active offset (.items start children [])
        (.found (.node Operator.sequence.label children.reverse (.between start offset)) offset)
        none
  | lastItem {active start offset children first rest ending furthest} :
      Yields grammar input active offset (.expr first) ending furthest →
      (∀ tree stop, ending ≠ .found tree stop) →
      Yields grammar input active offset (.items start children (first :: rest)) ending furthest
  | nextItem {active start offset children first rest tree stop ending furthest further} :
      Yields grammar input active offset (.expr first) (.found tree stop) furthest →
      Yields grammar input active stop (.items start (tree :: children) rest) ending further →
      Yields grammar input active offset (.items start children (first :: rest)) ending
        (max furthest further)
  /-- A round that takes nothing is the last. -/
  | lastRound {active start offset children operand ending furthest} :
      Yields grammar input active offset (.expr operand) ending furthest →
      (∀ tree stop, ending = .found tree stop → stop ≤ offset) →
      Yields grammar input active offset (.rounds start children operand)
        (ending.ofRounds start offset children) furthest
  | nextRound {active start offset children operand tree stop ending furthest further} :
      Yields grammar input active offset (.expr operand) (.found tree stop) furthest →
      offset < stop →
      Yields grammar input active stop (.rounds start (tree :: children) operand) ending further →
      Yields grammar input active offset (.rounds start children operand) ending
        (max furthest further)

/-! ## The rules agree with evaluation -/

section Ends

variable {start size : Nat} {account : Account α start size} {effort : Effort}
  {ending : Ending α} {furthest further : Option Nat}

theorem furthest_between {effort : Effort} (furthest : effort.furthest = further) :
    (.move + effort + .move : Effort).furthest = further := by
  rw [← furthest]
  exact Option.max_none_right.trans Option.max_none_left

theorem furthest_since {effort : Effort} (furthest : effort.furthest = further) :
    (.move + effort : Effort).furthest = further := by
  rw [← furthest]
  exact Option.max_none_left

theorem Account.Ends.after (ends : account.Ends ending further)
    (before : effort.furthest = furthest) :
    (account.after effort).Ends ending (max furthest further) := by
  subst before
  cases ends with
  | found same => exact .found (congrArg (max effort.furthest) same)
  | missed same => exact .missed (congrArg (max effort.furthest) same)
  | undefined same => exact .undefined (congrArg (max effort.furthest) same)

theorem Account.Ends.exists_found {tree : Tree α} {stop : Nat}
    (ends : account.Ends (.found tree stop) furthest) :
    ∃ forward inside effort, account = ⟨.found tree stop forward inside, effort⟩ ∧
      effort.furthest = furthest := by
  cases ends with
  | found same => exact ⟨_, _, _, rfl, same⟩

theorem Account.Ends.exists_missed (ends : account.Ends .missed furthest) :
    ∃ effort, account = ⟨.missed, effort⟩ ∧ effort.furthest = furthest := by
  cases ends with
  | missed same => exact ⟨_, rfl, same⟩

end Ends

def Search.Agrees (grammar : Grammar) (input : Input α) (active : List (String × Nat))
    (offset : Nat) (ending : Ending α) (furthest : Option Nat) : Search α → Prop
  | .expr sought => (evaluate grammar input active offset sought).Ends ending furthest
  | .alternatives untried =>
      (evaluateChoice grammar input active offset untried).Ends ending furthest
  | .items start children rest => ∀ reached within,
      (evaluateSequence grammar input active start offset reached within children rest).Ends
        ending furthest
  | .rounds start children operand => ∀ reached within,
      (evaluateRepetition grammar input active start offset reached within children
        operand).Ends ending furthest

theorem Yields.agrees {active : List (String × Nat)} {offset : Nat} {search : Search α}
    {ending : Ending α} {furthest : Option Nat}
    (yields : Yields grammar input active offset search ending furthest) :
    search.Agrees grammar input active offset ending furthest := by
  -- what is left to look for goes on exactly where the ending of the first part says so
  induction yields with
  | terminal ends => exact ends
  | refused refused =>
      simp only [Search.Agrees]
      rw [evaluate_refused refused]
      exact .missed rfl
  | undefined inactive missing =>
      simp only [Search.Agrees]
      rw [evaluate_undefined inactive missing]
      exact .undefined rfl
  | @entered active start name definition _ _ inactive defined _ part =>
      simp only [Search.Agrees] at part ⊢
      rw [evaluate_entered inactive defined]
      generalize evaluate grammar input ((name, start) :: active) start definition = account
        at part ⊢
      cases part with
      | found same => exact .found (furthest_between same)
      | missed same => exact .missed (furthest_between same)
      | undefined same => exact .undefined (furthest_since same)
  | choice _ alternatives =>
      simp only [Search.Agrees] at alternatives ⊢
      rwa [evaluate]
  | sequence _ items =>
      simp only [Search.Agrees] at items ⊢
      rw [evaluate]
      exact items _ _
  | @optional active start operand _ _ _ part =>
      simp only [Search.Agrees] at part ⊢
      rw [evaluate]
      generalize evaluate grammar input active start operand = account at part ⊢
      cases part with
      | found same => exact .found (furthest_between same)
      | missed same => exact .found (furthest_between same)
      | undefined same => exact .undefined (furthest_since same)
  | repetition _ rounds =>
      simp only [Search.Agrees] at rounds ⊢
      rw [evaluate]
      exact rounds _ _
  | noAlternative =>
      simp only [Search.Agrees]
      rw [evaluateChoice]
      exact .missed rfl
  | @lastAlternative active start first _ _ _ _ settled part =>
      simp only [Search.Agrees] at part ⊢
      rw [evaluateChoice]
      generalize evaluate grammar input active start first = account at part ⊢
      cases part with
      | found same => exact .found (furthest_between same)
      | missed => exact absurd rfl settled
      | undefined same => exact .undefined (furthest_since same)
  | nextAlternative _ _ part rest =>
      simp only [Search.Agrees] at part rest ⊢
      rcases part.exists_missed with ⟨effort, account, same⟩
      rw [evaluateChoice, account]
      exact rest.after (furthest_since same)
  | noItem =>
      intro reached within
      rw [evaluateSequence]
      exact .found rfl
  | @lastItem active _ offset _ first _ _ _ _ settled part =>
      intro reached within
      simp only [Search.Agrees] at part
      rw [evaluateSequence]
      generalize evaluate grammar input active offset first = account at part ⊢
      cases part with
      | found => exact absurd rfl (settled _ _)
      | missed same => exact .missed (furthest_between same)
      | undefined same => exact .undefined (furthest_since same)
  | nextItem _ _ part rest =>
      intro reached within
      simp only [Search.Agrees] at part rest
      rcases part.exists_found with ⟨forward, inside, effort, account, same⟩
      rw [evaluateSequence, account]
      exact (rest _ _).after (furthest_since same)
  | @lastRound active _ offset _ operand _ _ _ idle part =>
      intro reached within
      simp only [Search.Agrees] at part
      rw [evaluateRepetition]
      generalize evaluate grammar input active offset operand = account at part ⊢
      cases part with
      | found same =>
          dsimp only
          rw [dif_neg (Nat.not_lt.mpr (idle _ _ rfl))]
          exact .found (furthest_between same)
      | missed same => exact .found (furthest_between same)
      | undefined same => exact .undefined (furthest_since same)
  | nextRound _ progress _ part rest =>
      intro reached within
      simp only [Search.Agrees] at part rest
      rcases part.exists_found with ⟨forward, inside, effort, account, same⟩
      rw [evaluateRepetition, account]
      dsimp only
      rw [dif_pos progress]
      exact (rest _ _).after (furthest_since same)

/-! ## Every expression comes to an ending -/

theorem Account.exists_ends {start size : Nat} (account : Account α start size) :
    ∃ ending furthest, account.Ends ending furthest := by
  rcases account with ⟨verdict, effort⟩
  cases verdict with
  | found tree stop forward inside => exact ⟨_, _, .found rfl⟩
  | missed => exact ⟨_, _, .missed rfl⟩
  | undefined name => exact ⟨.undefined name start, _, .undefined rfl⟩

/-- The rules leave nothing open. The induction is that of evaluation, which goes on exactly
where the rules do. -/
theorem exists_yields (grammar : Grammar) (input : Input α) (active : List (String × Nat))
    (offset : Nat) (expr : Expr) :
    ∃ ending furthest, Yields grammar input active offset (.expr expr) ending furthest := by
  refine recursion grammar input
    (fun active offset expr =>
      ∃ ending furthest, Yields grammar input active offset (.expr expr) ending furthest)
    (fun active offset alternatives => ∃ ending furthest,
      Yields grammar input active offset (.alternatives alternatives) ending furthest)
    (fun active start offset _ _ children items => ∃ ending furthest,
      Yields grammar input active offset (.items start children items) ending furthest)
    (fun active start offset _ _ children operand => ∃ ending furthest,
      Yields grammar input active offset (.rounds start children operand) ending furthest)
    ?terminal ?refused ?undefined ?entered ?choice ?sequence ?optional ?repetition
    ?noAlternative ?alternative ?noItem ?item ?round active offset expr
  case terminal =>
    intro active start pattern
    rcases (evaluate grammar input active start (.terminal pattern)).exists_ends with
      ⟨ending, furthest, ends⟩
    exact ⟨ending, furthest, .terminal ends⟩
  case refused => exact fun active start name refused => ⟨_, _, .refused refused⟩
  case undefined =>
    exact fun active start name inactive missing => ⟨_, _, .undefined inactive missing⟩
  case entered =>
    rintro active start name definition inactive defined ⟨ending, furthest, yields⟩
    exact ⟨_, _, .entered inactive defined yields⟩
  case choice =>
    rintro active start alternatives ⟨ending, furthest, yields⟩
    exact ⟨_, _, .choice yields⟩
  case sequence =>
    rintro active start items ⟨ending, furthest, yields⟩
    exact ⟨_, _, .sequence yields⟩
  case optional =>
    rintro active start operand ⟨ending, furthest, yields⟩
    exact ⟨_, _, .optional yields⟩
  case repetition =>
    rintro active start operand ⟨ending, furthest, yields⟩
    exact ⟨_, _, .repetition yields⟩
  case noAlternative => exact fun active start => ⟨_, _, .noAlternative⟩
  case alternative =>
    rintro active start first rest ⟨ending, furthest, yields⟩ further
    -- evaluation gives the rest only behind an alternative that is missed
    by_cases missed : ending = .missed
    · subst missed
      rcases yields.agrees.exists_missed with ⟨effort, account, _⟩
      rcases further effort account with ⟨ending, later, rest⟩
      exact ⟨_, _, .nextAlternative yields rest⟩
    · exact ⟨_, _, .lastAlternative yields missed⟩
  case noItem => exact fun active start offset _ _ children => ⟨_, _, .noItem⟩
  case item =>
    rintro active start offset reached within children first rest ⟨ending, furthest, yields⟩
      further
    by_cases found : ∃ tree stop, ending = .found tree stop
    · rcases found with ⟨tree, stop, rfl⟩
      rcases yields.agrees.exists_found with ⟨forward, inside, effort, account, _⟩
      rcases further tree stop forward inside effort account with ⟨ending, later, rest⟩
      exact ⟨_, _, .nextItem yields rest⟩
    · exact ⟨_, _, .lastItem yields fun tree stop same => found ⟨tree, stop, same⟩⟩
  case round =>
    rintro active start offset reached within children operand ⟨ending, furthest, yields⟩ further
    -- a round that is found but takes nothing ends the repetition like one that is missed
    by_cases progress : ∃ tree stop, ending = .found tree stop ∧ offset < stop
    · rcases progress with ⟨tree, stop, rfl, progress⟩
      rcases yields.agrees.exists_found with ⟨forward, inside, effort, account, _⟩
      rcases further tree stop forward inside effort account progress with ⟨ending, later, rest⟩
      exact ⟨_, _, .nextRound yields progress rest⟩
    · refine ⟨_, _, .lastRound yields fun tree stop same => ?_⟩
      exact Nat.not_lt.mp fun further => progress ⟨tree, stop, same, further⟩

end Evaluation

end OrderedChoice
