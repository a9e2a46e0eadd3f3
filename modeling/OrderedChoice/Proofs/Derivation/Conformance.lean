import OrderedChoice.Proofs.Derivation.Basic

/-! Trees that conform to expressions. Nothing is said here about which of several trees
ordered choice picks, or about why a choice, an option or a repetition went on or ended:
a tree conforms if every node has the parts that its expression asks for, each where the
one before it ends. -/

namespace OrderedChoice

variable {α : Type}

mutual
inductive Conforms (grammar : Grammar) (input : Input α) :
    Expr → Nat → Tree α → Nat → Prop
  | terminal {pattern start elements} :
      input.Meets (input.tests pattern) start elements →
      Conforms grammar input (.terminal pattern) start
        (.leaf pattern elements (.between start (start + elements.length)))
        (start + elements.length)
  | reference {name definition start tree stop} :
      grammar.lookup? name = some definition →
      Conforms grammar input definition start tree stop →
      Conforms grammar input (.reference name) start
        (.node name [tree] (.between start stop)) stop
  /-- A choice leaves no node of its own. -/
  | choice {alternatives alternative start tree stop} :
      alternative ∈ alternatives →
      Conforms grammar input alternative start tree stop →
      Conforms grammar input (.choice alternatives) start tree stop
  | sequence {items start trees stop} :
      ConformAll grammar input items start trees stop →
      Conforms grammar input (.sequence items) start
        (.node Operator.sequence.label trees (.between start stop)) stop
  | optional {operand start tree stop} :
      Conforms grammar input operand start tree stop →
      Conforms grammar input (.optional operand) start
        (.node Operator.optional.label [tree] (.between start stop)) stop
  | optionalAbsent {operand start} :
      Conforms grammar input (.optional operand) start .absent start
  | repetition {operand start trees stop} :
      ConformRounds grammar input operand start trees stop →
      Conforms grammar input (.repetition operand) start
        (.node Operator.repetition.label trees (.between start stop)) stop

inductive ConformAll (grammar : Grammar) (input : Input α) :
    List Expr → Nat → List (Tree α) → Nat → Prop
  | nil {start} : ConformAll grammar input [] start [] start
  | cons {item rest start tree middle trees stop} :
      Conforms grammar input item start tree middle →
      ConformAll grammar input rest middle trees stop →
      ConformAll grammar input (item :: rest) start (tree :: trees) stop

/-- Trees conform to the rounds of a repetition, one after the other. Every round is
there and takes something. -/
inductive ConformRounds (grammar : Grammar) (input : Input α) :
    Expr → Nat → List (Tree α) → Nat → Prop
  | nil {operand start} : ConformRounds grammar input operand start [] start
  | cons {operand start tree middle trees stop} :
      tree ≠ .absent → start < middle →
      Conforms grammar input operand start tree middle →
      ConformRounds grammar input operand middle trees stop →
      ConformRounds grammar input operand start (tree :: trees) stop
end

variable {grammar : Grammar} {input : Input α}

/-! ## One more part -/

theorem ConformAll.snoc {items : List Expr} {item : Expr} {start middle stop : Nat}
    {trees : List (Tree α)} {tree : Tree α}
    (all : ConformAll grammar input items start trees middle)
    (last : Conforms grammar input item middle tree stop) :
    ConformAll grammar input (items ++ [item]) start (trees ++ [tree]) stop := by
  induction items generalizing start trees with
  | nil =>
      cases all with
      | nil => exact .cons last .nil
  | cons first rest induction =>
      cases all with
      | cons part others => exact .cons part (induction others)

theorem ConformRounds.snoc {operand : Expr} {start middle stop : Nat}
    {trees : List (Tree α)} {tree : Tree α}
    (rounds : ConformRounds grammar input operand start trees middle)
    (present : tree ≠ .absent) (forward : middle < stop)
    (last : Conforms grammar input operand middle tree stop) :
    ConformRounds grammar input operand start (trees ++ [tree]) stop := by
  induction trees generalizing start with
  | nil =>
      cases rounds with
      | nil => exact .cons present forward last .nil
  | cons first others induction =>
      cases rounds with
      | cons there further part rest => exact .cons there further part (induction rest)

theorem ConformRounds.latest {operand : Expr} {start stop : Nat} {trees : List (Tree α)}
    {tree : Tree α}
    (rounds : ConformRounds grammar input operand start (trees ++ [tree]) stop) :
    ∃ middle, tree ≠ .absent ∧ Conforms grammar input operand middle tree stop := by
  induction trees generalizing start with
  | nil =>
      cases rounds with
      | cons present _ part rest =>
          cases rest with
          | nil => exact ⟨_, present, part⟩
  | cons first others induction =>
      cases rounds with
      | cons _ _ _ rest => exact induction rest

/-! ## The stretch of a tree -/

theorem Conforms.absent_or_span_eq {expr : Expr} {start stop : Nat} {tree : Tree α}
    (conforms : Conforms grammar input expr start tree stop) :
    tree = .absent ∧ stop = start ∨
      tree.span = .between start stop ∧ tree.stop? = some (stop : Int) :=
  match conforms with
  | .terminal _ => .inr ⟨rfl, rfl⟩
  | .reference _ _ => .inr ⟨rfl, rfl⟩
  | .choice _ part => part.absent_or_span_eq
  | .sequence _ => .inr ⟨rfl, rfl⟩
  | .optional _ => .inr ⟨rfl, rfl⟩
  | .optionalAbsent => .inl ⟨rfl, rfl⟩
  | .repetition _ => .inr ⟨rfl, rfl⟩

theorem Conforms.ne_absent {expr : Expr} {start stop : Nat} {tree : Tree α}
    (conforms : Conforms grammar input expr start tree stop) (forward : start < stop) :
    tree ≠ .absent := by
  rintro rfl
  obtain ⟨_, idle⟩ | ⟨_, ends⟩ := conforms.absent_or_span_eq
  · exact absurd idle (Nat.ne_of_gt forward)
  · cases ends

def Input.Stretch (input : Input α) (start : Nat) (elements : List α) (stop : Nat) : Prop :=
  stop = start + elements.length ∧ elements <+: input.elements.toList.drop start

theorem Input.Stretch.nil (input : Input α) (start : Nat) : input.Stretch start [] start :=
  ⟨rfl, List.nil_prefix⟩

theorem Input.Stretch.append {start middle stop : Nat} {first second : List α}
    (before : input.Stretch start first middle) (after : input.Stretch middle second stop) :
    input.Stretch start (first ++ second) stop := by
  obtain ⟨rfl, ⟨others, split⟩⟩ := before
  obtain ⟨rfl, inside⟩ := after
  constructor
  · rw [List.length_append, Nat.add_assoc]
  · rw [← List.drop_drop, ← split, List.drop_left] at inside
    rw [← split]
    exact (List.prefix_append_right_inj first).mpr inside

theorem Input.Stretch.forward {start stop : Nat} {elements : List α}
    (stretch : input.Stretch start elements stop) : start ≤ stop := by
  rw [stretch.1]
  exact Nat.le_add_right _ _

theorem Input.Stretch.eq_take {stop : Nat} {elements : List α}
    (stretch : input.Stretch 0 elements stop) :
    elements = input.elements.toList.take stop ∧ stop ≤ input.size := by
  obtain ⟨length, inside⟩ := stretch
  rw [Nat.zero_add] at length
  rw [List.drop_zero] at inside
  subst length
  exact ⟨List.prefix_iff_eq_take.mp inside, inside.length_le⟩

theorem Tree.elements_node (label : String) (children : List (Tree α)) (span : Span) :
    (Tree.node label children span).elements = Tree.elementsOfAll children := by
  rw [Tree.elements]

theorem Tree.elementsOfAll_single (tree : Tree α) :
    Tree.elementsOfAll [tree] = tree.elements := by
  rw [Tree.elementsOfAll, Tree.elementsOfAll, List.append_nil]

mutual
/-- A tree holds the elements between its ends, no more and no fewer. -/
theorem Conforms.stretch {expr : Expr} {start stop : Nat} {tree : Tree α} :
    Conforms grammar input expr start tree stop → input.Stretch start tree.elements stop
  | .terminal meets => by
      rw [Tree.elements]
      exact ⟨rfl, meets.1⟩
  | .reference _ part => by
      rw [Tree.elements_node, Tree.elementsOfAll_single]
      exact part.stretch
  | .choice _ part => part.stretch
  | .sequence all => by
      rw [Tree.elements_node]
      exact all.stretch
  | .optional part => by
      rw [Tree.elements_node, Tree.elementsOfAll_single]
      exact part.stretch
  | .optionalAbsent => by
      rw [Tree.elements]
      exact .nil input start
  | .repetition rounds => by
      rw [Tree.elements_node]
      exact rounds.stretch

theorem ConformAll.stretch {items : List Expr} {start stop : Nat} {trees : List (Tree α)} :
    ConformAll grammar input items start trees stop →
    input.Stretch start (Tree.elementsOfAll trees) stop
  | .nil => by
      rw [Tree.elementsOfAll]
      exact .nil input start
  | .cons part rest => by
      rw [Tree.elementsOfAll]
      exact part.stretch.append rest.stretch

theorem ConformRounds.stretch {operand : Expr} {start stop : Nat} {trees : List (Tree α)} :
    ConformRounds grammar input operand start trees stop →
    input.Stretch start (Tree.elementsOfAll trees) stop
  | .nil => by
      rw [Tree.elementsOfAll]
      exact .nil input start
  | .cons _ _ part rest => by
      rw [Tree.elementsOfAll]
      exact part.stretch.append rest.stretch
end

/-! ## Conditions met -/

theorem Input.Meets.snoc {tests : List (α → Bool)} {test : α → Bool} {start : Nat}
    {elements : List α} {element : α} (meets : input.Meets tests start elements)
    (present : input.element? (start + elements.length) = some element)
    (holds : test element = true) :
    input.Meets (tests ++ [test]) start (elements ++ [element]) := by
  obtain ⟨⟨others, split⟩, met⟩ := meets
  constructor
  · have next : others.head? = some element := by
      unfold Input.element? at present
      rw [← Array.getElem?_toList, ← List.head?_drop, ← List.drop_drop, ← split,
        List.drop_left] at present
      exact present
    obtain ⟨further, rfl⟩ := List.head?_eq_some_iff.mp next
    rw [← split]
    exact ⟨further, List.append_assoc _ _ _⟩
  · exact List.rel_append met (.cons holds .nil)

end OrderedChoice
