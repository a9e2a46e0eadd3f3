import OrderedChoice.Proofs.Machine.Ending

/-! Runs that complete. A run that had a rule to begin at makes exactly one last move: one that
takes the outermost frame away, or one that comes to a reference without a rule. So it has at
most one outcome, and none where it comes to such a reference. -/

namespace OrderedChoice

namespace Machine

variable {α : Type} {grammar : Grammar} {input : Input α} {last : Nat} {outcome : Outcome α}

def Completes (grammar : Grammar) (input : Input α) (outcome : Outcome α) : Prop :=
  ∃ last, Concludes grammar input last outcome

theorem Concludes.stopped (concludes : Concludes grammar input last outcome) :
    (stateAt grammar input (last + 1)).stopped = true := by
  cases outcome with
  | found tree => exact concludes.found.stopped
  | missed => exact concludes.missed.stopped

theorem Concludes.eq_parse (concludes : Concludes grammar input last outcome) :
    stateAt grammar input (last + 1) = parse grammar input :=
  stateAt_eq_parse concludes.stopped

theorem Completes.found {tree : Tree α} (completes : Completes grammar input (.found tree)) :
    EndsFound input tree (parse grammar input) := by
  rcases completes with ⟨last, concludes⟩
  rw [← concludes.eq_parse]
  exact concludes.found

theorem Completes.missed (completes : Completes grammar input .missed) :
    EndsMissed input (parse grammar input) := by
  rcases completes with ⟨last, concludes⟩
  rw [← concludes.eq_parse]
  exact concludes.missed

theorem last_unique {earlier : Nat}
    (running : (stateAt grammar input earlier).stopped = false)
    (ends : (stateAt grammar input (earlier + 1)).stopped = true)
    (goes : (stateAt grammar input last).stopped = false)
    (stopped : (stateAt grammar input (last + 1)).stopped = true) : earlier = last :=
  Nat.le_antisymm (Nat.le_of_lt_succ (lt_of_stopped running stopped))
    (Nat.le_of_lt_succ (lt_of_stopped goes ends))

/-- A run that is left alone, and that had a rule to begin at, has made its last move: one that
took the outermost frame away, or one that came to a reference without a rule. -/
theorem parse_cases (input : Input α) {definition : Expr}
    (entry : grammar.lookup? entryName = some definition) :
    ∃ last, stateAt grammar input (last + 1) = parse grammar input ∧
      ((∃ outcome, Concludes grammar input last outcome) ∨
        ∃ missing, Proposes grammar input (stateAt grammar input last) (.undefined missing)) := by
  have stopped : (stateAt grammar input (moveCount grammar input)).stopped = true :=
    iterate_moveCount_stopped grammar input
  rcases stopped_cases stopped with ⟨absent, _⟩ | ⟨last, same, ends⟩
  · rw [entry] at absent
    cases absent
  · exact ⟨last, same.trans (parse_eq_stateAt grammar input).symm, ends⟩

theorem Completes.unique {first second : Outcome α} (one : Completes grammar input first)
    (other : Completes grammar input second) : first = second := by
  rcases one with ⟨last, concludes⟩
  rcases other with ⟨later, concludesLater⟩
  have firstStops := concludes.stopped
  have secondStops := concludesLater.stopped
  rcases concludes with ⟨frame, progress, move, visit, leaves⟩
  rcases concludesLater with ⟨otherFrame, otherProgress, otherMove, otherVisit, otherLeaves⟩
  cases last_unique visit.running firstStops otherVisit.running secondStops
  have same := (visit.proposes_iff).mp otherVisit.proposes
  rw [same, otherLeaves] at leaves
  exact (Option.some.inj leaves).symm

theorem Completes.not_undefined {missing : String} (completes : Completes grammar input outcome) :
    ¬ Proposes grammar input (stateAt grammar input last) (.undefined missing) := by
  intro undefined
  rcases completes with ⟨later, concludes⟩
  have stops := concludes.stopped
  have ends := (undefined_ends undefined).stopped
  rcases concludes with ⟨frame, progress, move, visit, leaves⟩
  rcases exists_visit_of_proposes undefined with ⟨_, _, _, before⟩
  cases last_unique visit.running stops before.running ends
  rw [(visit.proposes_iff).mp undefined] at leaves
  cases leaves

end Machine

end OrderedChoice
