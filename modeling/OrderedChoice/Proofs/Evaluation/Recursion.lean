import OrderedChoice.Evaluation

/-! The recursion of evaluation as a principle of proof, with one case for each
way in which an expression, a list of alternatives, a list of items or a round of
a repetition is evaluated. The assumption about a part holds whatever becomes of
the part; what comes after it is assumed only where evaluation goes on. -/

namespace OrderedChoice

namespace Evaluation

variable {α : Type} {grammar : Grammar} {input : Input α}

/-! ## One step of evaluation -/

theorem evaluate_terminal_nil {active : List (String × Nat)} {start : Nat} {pattern : String}
    (tests : input.tests pattern = []) :
    evaluate grammar input active start (.terminal pattern) =
      ⟨.found (.leaf pattern [] (.between start start)) start (Nat.le_refl start)
        (input.start_inside start), .move⟩ := by
  rw [evaluate]
  split
  · rfl
  · next nonempty => simp [tests] at nonempty

theorem evaluate_terminal_cons {active : List (String × Nat)} {start : Nat} {pattern : String}
    {test : α → Bool} {tests : List (α → Bool)} (equal : input.tests pattern = test :: tests) :
    evaluate grammar input active start (.terminal pattern) =
      scan input pattern start start (Nat.le_refl start) (input.start_inside start) []
        (test :: tests) := by
  rw [evaluate]
  split
  · next empty => simp [equal] at empty
  · next nonempty => rw [equal] at nonempty; cases nonempty; rfl

theorem evaluate_refused {active : List (String × Nat)} {start : Nat} {name : String}
    (refused : (name, start) ∈ active) :
    evaluate grammar input active start (.reference name) = ⟨.missed, .refusal⟩ := by
  rw [evaluate, dif_pos refused]

theorem evaluate_undefined {active : List (String × Nat)} {start : Nat} {name : String}
    (inactive : (name, start) ∉ active) (missing : grammar.lookup? name = none) :
    evaluate grammar input active start (.reference name) = ⟨.undefined name, .move⟩ := by
  rw [evaluate, dif_neg inactive]
  split
  · rfl
  · next found => simp [missing] at found

theorem evaluate_entered {active : List (String × Nat)} {start : Nat} {name : String}
    {definition : Expr} (inactive : (name, start) ∉ active)
    (defined : grammar.lookup? name = some definition) :
    evaluate grammar input active start (.reference name) =
      match evaluate grammar input ((name, start) :: active) start definition with
      | ⟨.found tree stop forward inside, effort⟩ =>
          ⟨.found (.node name [tree] (.between start stop)) stop forward inside,
            .move + effort + .move⟩
      | ⟨.missed, effort⟩ => ⟨.missed, .move + effort + .move⟩
      | ⟨.undefined missing, effort⟩ => ⟨.undefined missing, .move + effort⟩ := by
  rw [evaluate, dif_neg inactive]
  split
  · next missing => simp [defined] at missing
  · next found => rw [defined] at found; cases found; rfl

theorem scan_rejected {pattern : String} {start offset : Nat} {forward : start ≤ offset}
    {inside : offset ≤ max start input.size} {taken : List α} {test : α → Bool}
    {tests : List (α → Bool)}
    (rejected : ∀ element, input.element? offset = some element → test element = false) :
    scan input pattern start offset forward inside taken (test :: tests) =
      ⟨.missed, .rejection offset⟩ := by
  rw [scan]
  split
  · next present =>
      have turned := rejected input.elements[offset] (Array.getElem?_eq_getElem present)
      simp [turned]
  · rfl

theorem next_inside_of_element? {start offset : Nat} {element : α}
    (present : input.element? offset = some element) : offset + 1 ≤ max start input.size :=
  Input.next_inside (Array.getElem?_eq_some_iff.mp present).1

theorem scan_met {pattern : String} {start offset : Nat} {forward : start ≤ offset}
    {inside : offset ≤ max start input.size} {taken : List α} {test : α → Bool}
    {tests : List (α → Bool)} {element : α} (present : input.element? offset = some element)
    (met : test element = true) :
    scan input pattern start offset forward inside taken (test :: tests) =
      (scan input pattern start (offset + 1) (Nat.le_succ_of_le forward)
        (next_inside_of_element? present) (element :: taken) tests).after .move := by
  rcases Array.getElem?_eq_some_iff.mp present with ⟨within, equal⟩
  subst equal
  rw [scan]
  split
  · exact if_pos met
  · next absent => exact absurd within absent

/-! ## The principle -/

section Recursion

variable (grammar input)
variable (ofExpr : List (String × Nat) → Nat → Expr → Prop)
  (ofAlternatives : List (String × Nat) → Nat → List Expr → Prop)
  (ofItems : List (String × Nat) → (start offset : Nat) → start ≤ offset →
    offset ≤ max start input.size → List (Tree α) → List Expr → Prop)
  (ofRounds : List (String × Nat) → (start offset : Nat) → start ≤ offset →
    offset ≤ max start input.size → List (Tree α) → Expr → Prop)

theorem recursion
    (terminal : ∀ active start pattern, ofExpr active start (.terminal pattern))
    (refused : ∀ active start name, (name, start) ∈ active →
      ofExpr active start (.reference name))
    (undefined : ∀ active start name, (name, start) ∉ active →
      grammar.lookup? name = none → ofExpr active start (.reference name))
    (entered : ∀ active start name definition, (name, start) ∉ active →
      grammar.lookup? name = some definition →
      ofExpr ((name, start) :: active) start definition →
      ofExpr active start (.reference name))
    (choice : ∀ active start alternatives, ofAlternatives active start alternatives →
      ofExpr active start (.choice alternatives))
    (sequence : ∀ active start items,
      ofItems active start start (Nat.le_refl start) (input.start_inside start) [] items →
      ofExpr active start (.sequence items))
    (optional : ∀ active start operand, ofExpr active start operand →
      ofExpr active start (.optional operand))
    (repetition : ∀ active start operand,
      ofRounds active start start (Nat.le_refl start) (input.start_inside start) [] operand →
      ofExpr active start (.repetition operand))
    (noAlternative : ∀ active start, ofAlternatives active start [])
    (alternative : ∀ active start first rest, ofExpr active start first →
      (∀ effort, evaluate grammar input active start first = ⟨.missed, effort⟩ →
        ofAlternatives active start rest) →
      ofAlternatives active start (first :: rest))
    (noItem : ∀ active start offset reached within children,
      ofItems active start offset reached within children [])
    (item : ∀ active start offset reached within children first rest,
      ofExpr active offset first →
      (∀ tree stop forward inside effort,
        evaluate grammar input active offset first =
          ⟨.found tree stop forward inside, effort⟩ →
        ofItems active start stop (Nat.le_trans reached forward)
          (Input.inside_trans within inside) (tree :: children) rest) →
      ofItems active start offset reached within children (first :: rest))
    (round : ∀ active start offset reached within children operand,
      ofExpr active offset operand →
      (∀ tree stop forward inside effort,
        evaluate grammar input active offset operand =
          ⟨.found tree stop forward inside, effort⟩ →
        offset < stop →
        ofRounds active start stop (Nat.le_trans reached forward)
          (Input.inside_trans within inside) (tree :: children) operand) →
      ofRounds active start offset reached within children operand) :
    ∀ active start expr, ofExpr active start expr := by
  refine evaluate.induct grammar input ofExpr ofRounds ofItems ofAlternatives
    ?_ ?_ refused undefined ?_ ?_ ?_ choice sequence ?_ ?_ ?_ repetition
    ?_ ?_ ?_ ?_ noItem ?_ ?_ ?_ noAlternative ?_ ?_ ?_
  -- A part is found, missed or undefined; only one of these lets evaluation go on.
  · exact fun active start pattern _ => terminal active start pattern
  · exact fun active start pattern _ _ _ => terminal active start pattern
  · exact fun active start name inactive definition defined _ _ _ _ _ _ =>
      entered active start name definition inactive defined
  · exact fun active start name inactive definition defined _ _ =>
      entered active start name definition inactive defined
  · exact fun active start name inactive definition defined _ _ _ =>
      entered active start name definition inactive defined
  · exact fun active start operand _ _ _ _ _ _ => optional active start operand
  · exact fun active start operand _ _ => optional active start operand
  · exact fun active start operand _ _ _ => optional active start operand
  · intro active start offset reached within children operand _ _ _ _ _ found _ part further
    refine round active start offset reached within children operand part ?_
    intro tree stop forward inside effort equal _
    rw [found] at equal
    cases equal
    exact further
  · intro active start offset reached within children operand _ _ _ _ _ found idle part
    refine round active start offset reached within children operand part ?_
    intro tree stop forward inside effort equal progress
    rw [found] at equal
    cases equal
    exact absurd progress idle
  · intro active start offset reached within children operand _ missed part
    refine round active start offset reached within children operand part ?_
    intro tree stop forward inside effort equal _
    simp [missed] at equal
  · intro active start offset reached within children operand _ _ missing part
    refine round active start offset reached within children operand part ?_
    intro tree stop forward inside effort equal _
    simp [missing] at equal
  · intro active start offset reached within children first rest _ _ _ _ _ found part further
    refine item active start offset reached within children first rest part ?_
    intro tree stop forward inside effort equal
    rw [found] at equal
    cases equal
    exact further
  · intro active start offset reached within children first rest _ missed part
    refine item active start offset reached within children first rest part ?_
    intro tree stop forward inside effort equal
    simp [missed] at equal
  · intro active start offset reached within children first rest _ _ missing part
    refine item active start offset reached within children first rest part ?_
    intro tree stop forward inside effort equal
    simp [missing] at equal
  · intro active start first rest _ _ _ _ _ found part
    refine alternative active start first rest part ?_
    intro effort equal
    simp [found] at equal
  · intro active start first rest _ missed part further
    exact alternative active start first rest part fun _ _ => further
  · intro active start first rest _ _ missing part
    refine alternative active start first rest part ?_
    intro effort equal
    simp [missing] at equal

end Recursion

end Evaluation

end OrderedChoice
