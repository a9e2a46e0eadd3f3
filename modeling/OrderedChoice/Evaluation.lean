import OrderedChoice.Grammar.Basic
import OrderedChoice.Tree.Basic

/-! What a grammar means, read recursively. Evaluating an expression at an
offset says whether it is found there, with which tree and up to where. A rule
that is entered at an offset where it is already under way is missed. Beside
the verdict, evaluation accounts for the moves that a machine without recursion
needs to reach it, for the furthest element that a terminal turned down, and for
the rules that were missed only because they were under way. -/

namespace OrderedChoice

namespace Evaluation

/-! ## Results -/

inductive Verdict (α : Type) (start size : Nat) where
  | found (tree : Tree α) (stop : Nat) (forward : start ≤ stop)
      (inside : stop ≤ max start size)
  | missed
  | undefined (name : String)

@[ext] structure Effort where
  /-- The moves of a machine that makes one move at a time. -/
  moves : Nat
  furthest : Option Nat
  /-- The references that found their rule under way since the same offset. -/
  refusals : Nat
deriving DecidableEq, Repr

namespace Effort

def none : Effort := ⟨0, Option.none, 0⟩

def move : Effort := ⟨1, Option.none, 0⟩

def rejection (offset : Nat) : Effort := ⟨1, some offset, 0⟩

def refusal : Effort := ⟨1, Option.none, 1⟩

instance : Add Effort where
  add left right :=
    ⟨left.moves + right.moves, max left.furthest right.furthest,
      left.refusals + right.refusals⟩

@[simp] theorem add_moves (left right : Effort) :
    (left + right).moves = left.moves + right.moves := rfl

@[simp] theorem add_furthest (left right : Effort) :
    (left + right).furthest = max left.furthest right.furthest := rfl

@[simp] theorem add_refusals (left right : Effort) :
    (left + right).refusals = left.refusals + right.refusals := rfl

@[simp] theorem move_refusals : move.refusals = 0 := rfl

theorem max_furthest_assoc (first second third : Option Nat) :
    max (max first second) third = max first (max second third) := by
  cases first <;> cases second <;> cases third <;> simp

theorem add_assoc (first second third : Effort) :
    first + second + third = first + (second + third) :=
  Effort.ext (Nat.add_assoc _ _ _) (max_furthest_assoc _ _ _) (Nat.add_assoc _ _ _)

@[simp] theorem add_none (effort : Effort) : effort + none = effort :=
  Effort.ext rfl Option.max_none_right rfl

@[simp] theorem none_add (effort : Effort) : none + effort = effort :=
  Effort.ext (Nat.zero_add _) Option.max_none_left (Nat.zero_add _)

end Effort

structure Account (α : Type) (start size : Nat) where
  verdict : Verdict α start size
  effort : Effort

def Account.after (effort : Effort) (account : Account α start size) : Account α start size :=
  ⟨account.verdict, effort + account.effort⟩

/-! ## The measure of recursion -/

/-- The number of rules that can still be entered at an offset. -/
def openRules (grammar : Grammar) (active : List (String × Nat)) (offset : Nat) : Nat :=
  grammar.names.countP fun name => (name, offset) ∉ active

theorem countP_lt_of_imp {values : List α} {narrow wide : α → Bool}
    (imp : ∀ value, narrow value = true → wide value = true) {witness : α}
    (member : witness ∈ values) (inWide : wide witness = true)
    (notInNarrow : narrow witness = false) :
    values.countP narrow < values.countP wide := by
  induction values with
  | nil => simp at member
  | cons head tail induction =>
      have monotone : tail.countP narrow ≤ tail.countP wide :=
        List.countP_mono_left fun value _ => imp value
      rw [List.countP_cons, List.countP_cons]
      rcases List.mem_cons.mp member with equal | inTail
      · subst equal
        simp [inWide, notInNarrow]
        omega
      · have smaller := induction inTail
        by_cases holds : narrow head = true
        · simp [holds, imp head holds]
          exact smaller
        · simp [holds]
          omega

theorem openRules_cons_lt {grammar : Grammar} {active : List (String × Nat)}
    {name : String} {offset : Nat} (member : name ∈ grammar.names)
    (inactive : (name, offset) ∉ active) :
    openRules grammar ((name, offset) :: active) offset < openRules grammar active offset := by
  refine countP_lt_of_imp ?_ member (by simpa using inactive) (by simp)
  intro value
  simp only [List.mem_cons, not_or, decide_eq_true_eq]
  exact And.right

/-- Going on from where something was found brings the end nearer, or else stays
where it is, with the same rules open and less to look for. -/
theorem advance_lt {grammar : Grammar} {active : List (String × Nat)}
    {offset stop size remaining total : Nat} (forward : offset ≤ stop)
    (inside : stop ≤ max offset size) (less : remaining < total) :
    Prod.Lex (· < ·) (Prod.Lex (· < ·) (· < ·))
      (size - stop, openRules grammar active stop, remaining)
      (size - offset, openRules grammar active offset, total) := by
  rcases Nat.eq_or_lt_of_le forward with equal | further
  · subst equal
    exact .right _ (.right _ less)
  · exact .left _ _ (by omega)

/-! ## Evaluation -/

section Evaluate

variable {α : Type} (grammar : Grammar) (input : Input α)

/-- Meet the conditions of a pattern from an offset on, with some elements taken
already, the latest first. -/
def scan (pattern : String) (start offset : Nat) (forward : start ≤ offset)
    (inside : offset ≤ max start input.size) (taken : List α) :
    List (α → Bool) → Account α start input.size
  | [] =>
      ⟨.found (.leaf pattern taken.reverse (.between start offset)) offset forward inside,
        .none⟩
  | test :: tests =>
      if present : offset < input.size then
        let element := input.elements[offset]
        if test element then
          (scan pattern start (offset + 1) (Nat.le_succ_of_le forward)
            (Input.next_inside present) (element :: taken) tests).after .move
        else ⟨.missed, .rejection offset⟩
      else ⟨.missed, .rejection offset⟩

mutual
def evaluate (active : List (String × Nat)) (start : Nat) :
    (expr : Expr) → Account α start input.size
  | .terminal pattern =>
      match input.tests pattern with
      | [] =>
          ⟨.found (.leaf pattern [] (.between start start)) start (Nat.le_refl start)
              (input.start_inside start), .move⟩
      | test :: tests =>
          scan input pattern start start (Nat.le_refl start) (input.start_inside start) []
            (test :: tests)
  | .reference name =>
      if refused : (name, start) ∈ active then ⟨.missed, .refusal⟩
      else
        match found : grammar.lookup? name with
        | none => ⟨.undefined name, .move⟩
        | some definition =>
            match evaluate ((name, start) :: active) start definition with
            | ⟨.found tree stop forward inside, effort⟩ =>
                ⟨.found (.node name [tree] (.between start stop)) stop forward inside,
                  .move + effort + .move⟩
            | ⟨.missed, effort⟩ => ⟨.missed, .move + effort + .move⟩
            | ⟨.undefined missing, effort⟩ => ⟨.undefined missing, .move + effort⟩
  | .choice alternatives => evaluateChoice active start alternatives
  | .sequence items =>
      evaluateSequence active start start (Nat.le_refl start) (input.start_inside start) [] items
  | .optional operand =>
      match evaluate active start operand with
      | ⟨.found tree stop forward inside, effort⟩ =>
          ⟨.found (.node Operator.optional.label [tree] (.between start stop))
            stop forward inside, .move + effort + .move⟩
      | ⟨.missed, effort⟩ =>
          ⟨.found .absent start (Nat.le_refl start) (input.start_inside start),
            .move + effort + .move⟩
      | ⟨.undefined missing, effort⟩ => ⟨.undefined missing, .move + effort⟩
  | .repetition operand =>
      evaluateRepetition active start start (Nat.le_refl start) (input.start_inside start) []
        operand
termination_by expr => (input.size - start, openRules grammar active start, 2 * sizeOf expr)
decreasing_by
  · exact .right _ (.left _ _ (openRules_cons_lt (Grammar.mem_names_of_lookup? found) refused))
  · exact .right _ (.right _ (by rw [Expr.choice.sizeOf_spec]; omega))
  · exact .right _ (.right _ (by rw [Expr.sequence.sizeOf_spec]; omega))
  · exact .right _ (.right _ (by rw [Expr.optional.sizeOf_spec]; omega))
  · exact .right _ (.right _ (by rw [Expr.repetition.sizeOf_spec]; omega))

def evaluateChoice (active : List (String × Nat)) (start : Nat) :
    (alternatives : List Expr) → Account α start input.size
  | [] => ⟨.missed, .move⟩
  | alternative :: rest =>
      match evaluate active start alternative with
      | ⟨.found tree stop forward inside, effort⟩ =>
          ⟨.found tree stop forward inside, .move + effort + .move⟩
      | ⟨.missed, effort⟩ => (evaluateChoice active start rest).after (.move + effort)
      | ⟨.undefined missing, effort⟩ => ⟨.undefined missing, .move + effort⟩
termination_by alternatives =>
  (input.size - start, openRules grammar active start, 2 * sizeOf alternatives + 1)
decreasing_by
  · exact .right _ (.right _ (by rw [List.cons.sizeOf_spec]; omega))
  · exact .right _ (.right _ (by rw [List.cons.sizeOf_spec]; omega))

/-- The items of a sequence that began at `start`, from an offset on, with the
trees of earlier items gathered, the latest first. -/
def evaluateSequence (active : List (String × Nat)) (start offset : Nat)
    (reached : start ≤ offset) (within : offset ≤ max start input.size)
    (children : List (Tree α)) : (items : List Expr) → Account α start input.size
  | [] =>
      ⟨.found (.node Operator.sequence.label children.reverse (.between start offset))
        offset reached within, .move⟩
  | item :: rest =>
      match evaluate active offset item with
      | ⟨.found tree stop forward inside, effort⟩ =>
          (evaluateSequence active start stop (Nat.le_trans reached forward)
            (Input.inside_trans within inside) (tree :: children) rest).after (.move + effort)
      | ⟨.missed, effort⟩ => ⟨.missed, .move + effort + .move⟩
      | ⟨.undefined missing, effort⟩ => ⟨.undefined missing, .move + effort⟩
termination_by items =>
  (input.size - offset, openRules grammar active offset, 2 * sizeOf items + 1)
decreasing_by
  · exact .right _ (.right _ (by rw [List.cons.sizeOf_spec]; omega))
  · exact advance_lt forward inside (by rw [List.cons.sizeOf_spec]; omega)

/-- The rounds of a repetition that began at `start`, from an offset on, with
the trees of earlier rounds gathered, the latest first. A round that takes
nothing ends the repetition and leaves no tree. -/
def evaluateRepetition (active : List (String × Nat)) (start offset : Nat)
    (reached : start ≤ offset) (within : offset ≤ max start input.size)
    (children : List (Tree α)) (operand : Expr) : Account α start input.size :=
  let close (effort : Effort) : Account α start input.size :=
    ⟨.found (.node Operator.repetition.label children.reverse (.between start offset))
      offset reached within, .move + effort + .move⟩
  match evaluate active offset operand with
  | ⟨.found tree stop forward inside, effort⟩ =>
      if progress : offset < stop then
        (evaluateRepetition active start stop (Nat.le_trans reached forward)
          (Input.inside_trans within inside) (tree :: children) operand).after (.move + effort)
      else close effort
  | ⟨.missed, effort⟩ => close effort
  | ⟨.undefined missing, effort⟩ => ⟨.undefined missing, .move + effort⟩
termination_by (input.size - offset, openRules grammar active offset, 2 * sizeOf operand + 1)
decreasing_by
  · exact .right _ (.right _ (by omega))
  · exact .left _ _ (by omega)
end

end Evaluate

end Evaluation

end OrderedChoice
