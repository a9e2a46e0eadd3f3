import OrderedChoice.Proofs.Derivation.Guard
import OrderedChoice.Proofs.Evaluation.Yields
import OrderedChoice.Proofs.Machine.Ending

/-! What a run leaves behind. The tree, the cursor and the log of a run that is over follow from
what the definition of the entry rule yields, also where the run has come to a reference without
a rule. So two grammars whose entry rules yield the same cannot be told apart by what their runs
leave. -/

namespace OrderedChoice

namespace Machine

open Evaluation

variable {α : Type} {grammar : Grammar} {input : Input α}

/-! ## References without a rule -/

theorem drop_eq_cons {all rest : List Expr} {first : Expr} {count : Nat}
    (remaining : all.drop count = first :: rest) :
    all[count]? = some first ∧ all.drop (count + 1) = rest := by
  rw [← List.head?_drop, ← List.drop_drop, remaining]
  exact ⟨rfl, rfl⟩

def Strands (grammar : Grammar) (input : Input α) (state : State α) (name : String)
    (offset : Nat) : Prop :=
  ∃ spent final, Course grammar input state spent final ∧
    Proposes grammar input final (.undefined name) ∧ final.cursor = offset

theorem Strands.of_course {state middle : State α} {spent : Effort} {name : String}
    {offset : Nat} (course : Course grammar input state spent middle)
    (strands : Strands grammar input middle name offset) :
    Strands grammar input state name offset := by
  rcases strands with ⟨further, final, rest, undefined, cursor⟩
  exact ⟨_, final, course.trans rest, undefined, cursor⟩

/-- Wherever a frame on top has a search in hand, the machine comes to reach for a rule that is
not there. Lists of alternatives, lists of items and rounds are met in the middle of their
frame. -/
def StrandsOn (grammar : Grammar) (input : Input α) (active : List (String × Nat))
    (offset : Nat) (name : String) (place : Nat) : Search α → Prop
  | .expr expr => ∀ (state : State α) (below : List (Frame α)),
      Stands state (.begin expr offset) below active offset offset →
      Strands grammar input state name place
  | .alternatives alternatives =>
      ∀ (state : State α) (frame : Frame α) (below : List (Frame α)) (all : List Expr)
        (tried : Nat), Stands state frame below active offset offset →
        frame.expr = .choice all → all.drop tried = alternatives →
        frame.visit grammar input active offset = visitChoice all tried →
        Strands grammar input state name place
  | .items start children items =>
      ∀ (state : State α) (frame : Frame α) (below : List (Frame α)) (all : List Expr),
        Stands state frame below active start offset →
        frame.expr = .sequence all → all.drop children.length = items →
        frame.visit grammar input active offset = visitSequence offset start all children →
        Strands grammar input state name place
  | .rounds start children operand =>
      ∀ (state : State α) (frame : Frame α) (below : List (Frame α)),
        Stands state frame below active start offset →
        frame.expr = .repetition operand → reached? start children = some (offset : Int) →
        frame.visit grammar input active offset = (.repeated children, .descend operand) →
        Strands grammar input state name place

theorem terminal_not_undefined {active : List (String × Nat)} {start : Nat} {pattern : String}
    {name : String} {offset : Nat} {furthest : Option Nat} :
    ¬ (evaluate grammar input active start (.terminal pattern)).Ends (.undefined name offset)
      furthest := by
  intro ends
  have comes := @terminal_comesTo α input grammar active start pattern
  generalize evaluate grammar input active start (.terminal pattern) = account at ends comes
  cases ends
  rcases comes with ⟨_, _, shows, _⟩ | ⟨_, shows, _⟩
  · cases shows
  · cases shows

theorem strandsOn_of_yields {active : List (String × Nat)} {offset : Nat} {search : Search α}
    {ending : Ending α} {furthest : Option Nat} {name : String} {place : Nat}
    (yields : Yields grammar input active offset search ending furthest)
    (undefined : ending = .undefined name place) :
    StrandsOn grammar input active offset name place search := by
  induction yields with
  | terminal ends =>
      subst undefined
      exact absurd ends terminal_not_undefined
  | refused => cases undefined
  | @undefined active _ _ inactive missing =>
      cases undefined
      intro state below stands
      have visit : Frame.visit grammar input active place (.begin (.reference name) place) =
          (.fresh, .undefined name) := by
        simp [Frame.visit, Frame.begin, visitReference, inactive, missing]
      exact ⟨_, state, .rest state, (stands.visit visit).proposes, stands.cursor⟩
  | @entered active start other definition _ _ inactive defined _ part =>
      intro state below stands
      have visit : Frame.visit grammar input active start (.begin (.reference other) start) =
          (.entered, .enter (other, start) definition) := by
        simp [Frame.visit, Frame.begin, visitReference, inactive, defined]
      have pushed := (stands.visit visit).enter
      rw [stands.cursor, stands.active] at pushed
      have reached := Ending.inNode_eq_undefined.mp undefined
      exact .of_course pushed (part reached _ _ (.after stands.running rfl _ _ _ _))
  | choice _ alternatives =>
      intro state below stands
      exact alternatives undefined state _ below _ 0 stands rfl rfl rfl
  | sequence _ items =>
      intro state below stands
      exact items undefined state _ below _ stands rfl rfl rfl
  | optional _ part =>
      intro state below stands
      have pushed : Course grammar input state .move _ := stands.descend rfl
      have reached := Ending.ofOptional_eq_undefined.mp undefined
      exact .of_course pushed (part reached _ _ (.after stands.running rfl _ _ _ _))
  | repetition _ rounds =>
      intro state below stands
      exact rounds undefined state _ below stands rfl rfl rfl
  | noAlternative => cases undefined
  | lastAlternative _ _ part =>
      intro state frame below all tried stands choice remaining visit
      rcases drop_eq_cons remaining with ⟨current, _⟩
      rw [visitChoice, current] at visit
      exact .of_course (stands.descend visit)
        (part undefined _ _ (.after stands.running rfl _ _ _ _))
  | @nextAlternative active start first _ _ _ _ missed _ _ others =>
      intro state frame below all tried stands choice remaining visit
      rcases drop_eq_cons remaining with ⟨current, left⟩
      rw [visitChoice, current] at visit
      -- what is tried before is missed, and of that the course is known
      rcases missed.agrees.exists_missed with ⟨effort, account, _⟩
      have settled := simulated grammar input active start first
      rcases settled.missed stands.running (stands.descend visit) stands.entry account with
        ⟨course, answered⟩
      refine .of_course course (others undefined _ _ _ all (tried + 1) answered choice left ?_)
      simp [Frame.visit, choice]
  | noItem => cases undefined
  | lastItem _ _ part =>
      intro state frame below all stands sequence remaining visit
      rcases drop_eq_cons remaining with ⟨current, _⟩
      rw [visitSequence, current] at visit
      exact .of_course (stands.descend visit)
        (part undefined _ _ (.after stands.running rfl _ _ _ _))
  | @nextItem active _ offset _ first _ _ _ _ _ _ found _ _ others =>
      intro state frame below all stands sequence remaining visit
      rcases drop_eq_cons remaining with ⟨current, left⟩
      rw [visitSequence, current] at visit
      have entry := stands.entry
      rcases found.agrees.exists_found with ⟨forward, inside, effort, account, _⟩
      have settled := simulated grammar input active offset first
      rcases settled.found stands.running (stands.descend visit) entry account with
        ⟨course, answered⟩
      refine .of_course course (others undefined _ _ _ all answered sequence left ?_)
      simp [Frame.visit, sequence, entry]
  | lastRound _ _ part =>
      intro state frame below stands repetition latest visit
      have reached := Ending.ofRounds_eq_undefined.mp undefined
      exact .of_course (stands.descend visit)
        (part reached _ _ (.after stands.running rfl _ _ _ _))
  | @nextRound active _ offset _ operand _ _ _ _ _ found progress _ _ others =>
      intro state frame below stands repetition latest visit
      have entry := stands.entry
      rcases found.agrees.exists_found with ⟨forward, inside, effort, account, _⟩
      have ends := evaluate_endsAtStop grammar input active offset operand
      rw [account] at ends
      have settled := simulated grammar input active offset operand
      rcases settled.found stands.running (stands.descend visit) entry account with
        ⟨course, answered⟩
      refine .of_course course (others undefined _ _ _ answered repetition (ends progress) ?_)
      simp [Frame.visit, repetition, visitRepetition, entry, latest, progress]

/-! ## Whole runs -/

def State.report (state : State α) : Tree α × Nat × List (Diagnostic α) :=
  (state.tree, state.cursor, state.log)

def reportOf (input : Input α) (furthest : Option Nat) :
    Ending α → Tree α × Nat × List (Diagnostic α)
  | .found tree stop => (tree, stop, logOfFound input stop)
  | .missed => (.absent, 0, logOfMissed input furthest)
  | .undefined name offset => (.absent, offset, [.undefinedReference name])

theorem report_parse {definition : Expr} {ending : Ending α} {furthest : Option Nat}
    (entry : grammar.lookup? entryName = some definition)
    (yields : Yields grammar input [] 0 (.expr definition) ending furthest) :
    (parse grammar input).report = reportOf input furthest ending := by
  have ends : EndsAs input (parse grammar input) _ := parse_endsAs entry
  cases ending with
  | found tree stop =>
      rcases yields.agrees.exists_found with ⟨forward, inside, effort, account, _⟩
      rw [account] at ends
      rw [State.report, ends]
      rfl
  | missed =>
      rcases yields.agrees.exists_missed with ⟨effort, account, same⟩
      rw [account] at ends
      rw [State.report, ends, same]
      rfl
  | undefined name offset =>
      -- evaluation tells which rule is missing, but only the run tells where
      have stands : Stands (State.start grammar : State α) (.begin definition 0) [] [] 0 0 := by
        rw [start_eq entry]
        exact ⟨rfl, rfl, rfl, rfl, rfl⟩
      rcases strandsOn_of_yields yields rfl _ _ stands with
        ⟨spent, final, course, undefined, cursor⟩
      have reached : stateAt grammar input spent.moves = final := course.iterate_step
      rw [← reached] at undefined cursor
      have ended := undefined_ends undefined
      rw [stateAt_eq_parse ended.stopped, cursor] at ended
      rw [State.report, ended.tree, ended.cursor, ended.log]
      rfl

theorem report_parse_of_missing (missing : grammar.lookup? entryName = none) :
    (parse grammar input).report = (.absent, 0, [.missingEntry]) := by
  rw [parse, start_of_missing_entry missing]
  rfl

/-- The runs of two grammars leave the same if neither has an entry rule, or if the entry rule of
the one yields whatever that of the other yields. -/
theorem parse_congr {other : Grammar}
    (missing : grammar.lookup? entryName = none → other.lookup? entryName = none)
    (yields : ∀ definition, grammar.lookup? entryName = some definition →
      ∃ changed, other.lookup? entryName = some changed ∧
        ∀ ending furthest, Yields grammar input [] 0 (.expr definition) ending furthest →
          Yields other input [] 0 (.expr changed) ending furthest) :
    (parse other input).tree = (parse grammar input).tree ∧
      (parse other input).cursor = (parse grammar input).cursor ∧
      (parse other input).log = (parse grammar input).log := by
  have same : (parse other input).report = (parse grammar input).report := by
    cases entry : grammar.lookup? entryName with
    | none => rw [report_parse_of_missing entry, report_parse_of_missing (missing entry)]
    | some definition =>
        rcases yields definition entry with ⟨changed, changedEntry, transfer⟩
        rcases exists_yields grammar input [] 0 definition with ⟨ending, furthest, yielded⟩
        rw [report_parse entry yielded,
          report_parse changedEntry (transfer ending furthest yielded)]
  simpa only [State.report, Prod.mk.injEq] using same

end Machine

end OrderedChoice
