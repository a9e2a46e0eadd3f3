import OrderedChoice.Proofs.Derivation.Conformance
import OrderedChoice.Proofs.Derivation.Guard

/-! The stretch of input that a derivation covers. It begins where the expression
begins and ends inside the input. The tree conforms to the expression over that stretch,
so its elements are exactly those of the stretch. -/

namespace OrderedChoice

open Evaluation

variable {α : Type} {grammar : Grammar} {input : Input α}

/-! ## Bounds -/

theorem Derives.bounds {expr : Expr} {start stop : Nat} {tree : Tree α}
    (derives : Derives grammar input expr start (.found tree stop)) :
    start ≤ stop ∧ stop ≤ max start input.size := by
  have comes := derives_iff_comesTo.mp derives
  rcases comes.exists_found with ⟨forward, inside, _, _, _⟩
  exact ⟨forward, inside⟩

/-! ## Elements -/

def Input.after (input : Input α) (offset : Nat) : List α :=
  input.elements.toList.drop offset

theorem Input.Stretch.after_eq {start stop : Nat} {elements : List α}
    (stretch : input.Stretch start elements stop) :
    input.after start = elements ++ input.after stop := by
  obtain ⟨rfl, ⟨others, split⟩⟩ := stretch
  have rest : others = input.after (start + elements.length) := by
    unfold Input.after
    rw [← List.drop_drop, ← split, List.drop_left]
  rw [← rest]
  exact split.symm

/-! ## Trees -/

theorem Conforms.choice_cons {first : Expr} {rest : List Expr} {start stop : Nat}
    {tree : Tree α} (conforms : Conforms grammar input (.choice rest) start tree stop) :
    Conforms grammar input (.choice (first :: rest)) start tree stop := by
  cases conforms with
  | choice member part => exact .choice (List.mem_cons_of_mem _ member) part

mutual
theorem Derivation.conforms {expr : Expr} {start stop : Nat} {tree : Tree α} :
    Derivation grammar input expr start (.found tree stop) →
    Conforms grammar input expr start tree stop
  | .terminal meets => .terminal meets
  | .reference defined part => .reference defined part.conforms
  | .choiceFirst part => .choice List.mem_cons_self part.conforms
  | .choiceRest _ rest => rest.conforms.choice_cons
  | .sequence items => .sequence items.conforms
  | .optional part => .optional part.conforms
  | .optionalMissed _ => .optionalAbsent
  | .repetition rounds => .repetition rounds.conforms

theorem ItemsDerivation.conforms {items : List Expr} {start stop : Nat}
    {trees : List (Tree α)} :
    ItemsDerivation grammar input items start (some (trees, stop)) →
    ConformAll grammar input items start trees stop
  | .nil => .nil
  | .cons part rest => .cons part.conforms rest.conforms

theorem RoundsDerivation.conforms {operand : Expr} {start stop : Nat}
    {trees : List (Tree α)} :
    RoundsDerivation grammar input operand start trees stop →
    ConformRounds grammar input operand start trees stop
  | .missed _ | .idle _ => .nil
  | .round part forward rest =>
      .cons (part.conforms.ne_absent forward) forward part.conforms rest.conforms
end

theorem Derivation.after_eq {expr : Expr} {start stop : Nat} {tree : Tree α}
    (derivation : Derivation grammar input expr start (.found tree stop)) :
    input.after start = tree.elements ++ input.after stop :=
  derivation.conforms.stretch.after_eq

theorem ItemsDerivation.after_eq {items : List Expr} {start stop : Nat}
    {trees : List (Tree α)}
    (derivation : ItemsDerivation grammar input items start (some (trees, stop))) :
    input.after start = Tree.elementsOfAll trees ++ input.after stop :=
  derivation.conforms.stretch.after_eq

theorem RoundsDerivation.after_eq {operand : Expr} {start stop : Nat}
    {trees : List (Tree α)}
    (derivation : RoundsDerivation grammar input operand start trees stop) :
    input.after start = Tree.elementsOfAll trees ++ input.after stop :=
  derivation.conforms.stretch.after_eq

end OrderedChoice
