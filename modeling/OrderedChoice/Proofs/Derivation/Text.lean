import OrderedChoice.Proofs.Derivation.Existence
import OrderedChoice.Source

/-! Derivations over characters, told by what is left of the text. Instead of the
offsets where an expression begins and ends, they name the text that lies before
it and the rest of that text after it. -/

namespace OrderedChoice

def Input.ofCharacters (characters : List Char) : Input Char :=
  .ofSource ⟨characters, none⟩

/-! ## Offsets -/

/-- The offset at which what is left of some characters begins. -/
def offsetOf (characters left : List Char) : Nat :=
  characters.length - left.length

def spanOf (characters text rest : List Char) : Span :=
  .between (offsetOf characters text) (offsetOf characters rest)

variable {characters text rest : List Char}

@[simp] theorem offsetOf_self : offsetOf characters characters = 0 :=
  Nat.sub_self _

theorem after_offsetOf (inside : text <:+ characters) :
    (Input.ofCharacters characters).after (offsetOf characters text) = text := by
  have equal := List.suffix_iff_eq_drop.mp inside
  exact equal.symm

theorem offsetOf_add (inside : text <:+ characters) (after : rest <:+ text) :
    offsetOf characters rest = offsetOf characters text + (text.length - rest.length) := by
  have inner := inside.length_le
  have outer := after.length_le
  unfold offsetOf
  omega

theorem offsetOf_injective {other : List Char} (inside : text <:+ characters)
    (otherInside : other <:+ characters)
    (equal : offsetOf characters text = offsetOf characters other) : text = other := by
  rw [← after_offsetOf inside, equal, after_offsetOf otherInside]

theorem exists_offsetOf {offset : Nat} (inside : text <:+ characters)
    (forward : offsetOf characters text ≤ offset) (within : offset ≤ characters.length) :
    ∃ rest, rest <:+ text ∧ offset = offsetOf characters rest := by
  refine ⟨text.drop (offset - offsetOf characters text), List.drop_suffix _ _, ?_⟩
  have length := inside.length_le
  unfold offsetOf at forward ⊢
  rw [List.length_drop]
  omega

/-! ## Reading -/

section Reading

variable (grammar : Grammar) (characters : List Char)

/-- An expression is found at the beginning of a text, with a tree, up to a rest. -/
structure Reads (expr : Expr) (text : List Char) (tree : Tree Char) (rest : List Char) :
    Prop where
  inside : text <:+ characters
  after : rest <:+ text
  derives : Derives grammar (.ofCharacters characters) expr (offsetOf characters text)
    (.found tree (offsetOf characters rest))

structure Rejects (expr : Expr) (text : List Char) : Prop where
  inside : text <:+ characters
  derives : Derives grammar (.ofCharacters characters) expr (offsetOf characters text) .missed

structure ReadsItems (items : List Expr) (text : List Char) (trees : List (Tree Char))
    (rest : List Char) : Prop where
  inside : text <:+ characters
  after : rest <:+ text
  derives : DerivesItems grammar (.ofCharacters characters) items (offsetOf characters text)
    (some (trees, offsetOf characters rest))

structure RejectsItems (items : List Expr) (text : List Char) : Prop where
  inside : text <:+ characters
  derives : DerivesItems grammar (.ofCharacters characters) items (offsetOf characters text) none

structure ReadsRounds (operand : Expr) (text : List Char) (trees : List (Tree Char))
    (rest : List Char) : Prop where
  inside : text <:+ characters
  after : rest <:+ text
  derives : DerivesRounds grammar (.ofCharacters characters) operand (offsetOf characters text)
    trees (offsetOf characters rest)

end Reading

variable {grammar : Grammar} {expr : Expr} {tree : Tree Char}

theorem Reads.rest_inside (reads : Reads grammar characters expr text tree rest) :
    rest <:+ characters :=
  reads.after.trans reads.inside

theorem Reads.text_eq (reads : Reads grammar characters expr text tree rest) :
    text = tree.elements ++ rest := by
  rcases reads.derives with ⟨derivation⟩
  have equal := derivation.after_eq
  rwa [after_offsetOf reads.inside, after_offsetOf reads.rest_inside] at equal

theorem Derives.exists_reads (inside : text <:+ characters) {stop : Nat}
    (derives : Derives grammar (.ofCharacters characters) expr (offsetOf characters text)
      (.found tree stop)) :
    ∃ rest, Reads grammar characters expr text tree rest ∧ stop = offsetOf characters rest := by
  rcases derives.bounds with ⟨forward, within⟩
  have size : (Input.ofCharacters characters).size = characters.length := List.size_toArray
  have start : offsetOf characters text ≤ characters.length := Nat.sub_le _ _
  rw [size, Nat.max_eq_right start] at within
  rcases exists_offsetOf inside forward within with ⟨rest, after, equal⟩
  subst equal
  exact ⟨rest, ⟨inside, after, derives⟩, rfl⟩

theorem Reads.unique {otherTree : Tree Char} {otherRest : List Char}
    (first : Reads grammar characters expr text tree rest)
    (second : Reads grammar characters expr text otherTree otherRest) :
    tree = otherTree ∧ rest = otherRest := by
  have equal := first.derives.unique second.derives
  simp only [Finding.found.injEq] at equal
  exact ⟨equal.1, offsetOf_injective first.rest_inside second.rest_inside equal.2⟩

theorem Reads.not_rejects (reads : Reads grammar characters expr text tree rest) :
    ¬ Rejects grammar characters expr text := by
  intro rejects
  cases reads.derives.unique rejects.derives

/-! ## Terminals -/

def Spells (pattern : String) (taken : List Char) : Prop :=
  List.Forall₂ (fun test character => test character = true) (Pattern.tests pattern) taken

theorem meets_iff {pattern : String} {taken : List Char} (inside : text <:+ characters) :
    (Input.ofCharacters characters).Meets (Pattern.tests pattern) (offsetOf characters text)
        taken ↔
      taken <+: text ∧ Spells pattern taken := by
  have equal := after_offsetOf inside
  unfold Input.after at equal
  unfold Input.Meets Spells
  rw [equal]

theorem reads_terminal_iff {pattern : String} (inside : text <:+ characters) :
    Reads grammar characters (.terminal pattern) text tree rest ↔
      ∃ taken, Spells pattern taken ∧ text = taken ++ rest ∧
        tree = .leaf pattern taken (spanOf characters text rest) := by
  constructor
  · rintro reads
    rcases derives_terminal_iff.mp reads.derives with ⟨taken, meets, _, equal⟩
    have spells := ((meets_iff inside).mp meets).2
    have whole := reads.text_eq
    subst equal
    exact ⟨taken, spells, whole, rfl⟩
  · rintro ⟨taken, spells, rfl, rfl⟩
    have after : rest <:+ taken ++ rest := List.suffix_append taken rest
    refine ⟨inside, after, derives_terminal_iff.mpr ⟨taken, ?_, ?_, rfl⟩⟩
    · exact (meets_iff inside).mpr ⟨List.prefix_append taken rest, spells⟩
    · rw [offsetOf_add inside after, List.length_append, Nat.add_sub_cancel]

theorem rejects_terminal_iff {pattern : String} (inside : text <:+ characters) :
    Rejects grammar characters (.terminal pattern) text ↔
      ∀ taken rest, Spells pattern taken → text ≠ taken ++ rest := by
  constructor
  · intro rejects taken rest spells equal
    exact misses_terminal_iff.mp rejects.derives taken
      ((meets_iff inside).mpr ⟨⟨rest, equal.symm⟩, spells⟩)
  · intro unmet
    refine ⟨inside, misses_terminal_iff.mpr ?_⟩
    intro taken meets
    rcases (meets_iff inside).mp meets with ⟨⟨rest, equal⟩, spells⟩
    exact unmet taken rest spells equal.symm

/-! ## References and choices -/

section References

variable {name : String} {definition : Expr} (defined : grammar.lookup? name = some definition)

include defined

theorem reads_reference_iff :
    Reads grammar characters (.reference name) text tree rest ↔
      ∃ part, Reads grammar characters definition text part rest ∧
        tree = .node name [part] (spanOf characters text rest) := by
  constructor
  · intro reads
    rcases (derives_reference_iff defined).mp reads.derives with ⟨part, derives, equal⟩
    exact ⟨part, ⟨reads.inside, reads.after, derives⟩, equal⟩
  · rintro ⟨part, reads, equal⟩
    exact ⟨reads.inside, reads.after,
      (derives_reference_iff defined).mpr ⟨part, reads.derives, equal⟩⟩

theorem rejects_reference_iff :
    Rejects grammar characters (.reference name) text ↔
      Rejects grammar characters definition text := by
  constructor
  · intro rejects
    exact ⟨rejects.inside, (misses_reference_iff defined).mp rejects.derives⟩
  · intro rejects
    exact ⟨rejects.inside, (misses_reference_iff defined).mpr rejects.derives⟩

end References

theorem not_reads_choice_nil : ¬ Reads grammar characters (.choice []) text tree rest :=
  fun reads => not_derives_choice_nil reads.derives

theorem rejects_choice_nil (inside : text <:+ characters) :
    Rejects grammar characters (.choice []) text :=
  ⟨inside, misses_choice_nil⟩

variable {first : Expr} {others : List Expr}

theorem reads_choice_cons_iff :
    Reads grammar characters (.choice (first :: others)) text tree rest ↔
      Reads grammar characters first text tree rest ∨
        Rejects grammar characters first text ∧
          Reads grammar characters (.choice others) text tree rest := by
  constructor
  · intro reads
    rcases derives_choice_cons_iff.mp reads.derives with derives | ⟨missed, derives⟩
    · exact .inl ⟨reads.inside, reads.after, derives⟩
    · exact .inr ⟨⟨reads.inside, missed⟩, ⟨reads.inside, reads.after, derives⟩⟩
  · rintro (reads | ⟨rejects, reads⟩)
    · exact ⟨reads.inside, reads.after, derives_choice_cons_iff.mpr (.inl reads.derives)⟩
    · exact ⟨reads.inside, reads.after,
        derives_choice_cons_iff.mpr (.inr ⟨rejects.derives, reads.derives⟩)⟩

theorem rejects_choice_cons_iff :
    Rejects grammar characters (.choice (first :: others)) text ↔
      Rejects grammar characters first text ∧
        Rejects grammar characters (.choice others) text := by
  constructor
  · intro rejects
    rcases misses_choice_cons_iff.mp rejects.derives with ⟨missed, derives⟩
    exact ⟨⟨rejects.inside, missed⟩, ⟨rejects.inside, derives⟩⟩
  · rintro ⟨rejects, further⟩
    exact ⟨rejects.inside, misses_choice_cons_iff.mpr ⟨rejects.derives, further.derives⟩⟩

/-! ## Sequences -/

theorem reads_sequence_iff {items : List Expr} :
    Reads grammar characters (.sequence items) text tree rest ↔
      ∃ trees, ReadsItems grammar characters items text trees rest ∧
        tree = .node Operator.sequence.label trees (spanOf characters text rest) := by
  constructor
  · intro reads
    rcases derives_sequence_iff.mp reads.derives with ⟨trees, derives, equal⟩
    exact ⟨trees, ⟨reads.inside, reads.after, derives⟩, equal⟩
  · rintro ⟨trees, reads, equal⟩
    exact ⟨reads.inside, reads.after, derives_sequence_iff.mpr ⟨trees, reads.derives, equal⟩⟩

theorem rejects_sequence_iff {items : List Expr} :
    Rejects grammar characters (.sequence items) text ↔
      RejectsItems grammar characters items text := by
  constructor
  · intro rejects
    exact ⟨rejects.inside, misses_sequence_iff.mp rejects.derives⟩
  · intro rejects
    exact ⟨rejects.inside, misses_sequence_iff.mpr rejects.derives⟩

variable {trees : List (Tree Char)}

theorem readsItems_nil_iff (inside : text <:+ characters) :
    ReadsItems grammar characters [] text trees rest ↔ trees = [] ∧ rest = text := by
  constructor
  · intro reads
    rcases derivesItems_nil_iff.mp reads.derives with ⟨empty, equal⟩
    exact ⟨empty, offsetOf_injective (reads.after.trans reads.inside) reads.inside equal⟩
  · rintro ⟨rfl, rfl⟩
    exact ⟨inside, List.suffix_refl _, derivesItems_nil_iff.mpr ⟨rfl, rfl⟩⟩

theorem readsItems_cons_iff :
    ReadsItems grammar characters (first :: others) text trees rest ↔
      ∃ tree middle further, Reads grammar characters first text tree middle ∧
        ReadsItems grammar characters others middle further rest ∧ trees = tree :: further := by
  constructor
  · intro reads
    rcases derivesItems_cons_iff.mp reads.derives with ⟨tree, stop, further, part, derives, equal⟩
    rcases part.exists_reads reads.inside with ⟨middle, readsPart, same⟩
    subst same
    rcases derives with ⟨derivation⟩
    have whole := derivation.after_eq
    rw [after_offsetOf readsPart.rest_inside,
      after_offsetOf (reads.after.trans reads.inside)] at whole
    have after : rest <:+ middle := ⟨_, whole.symm⟩
    exact ⟨tree, middle, further, readsPart, ⟨readsPart.rest_inside, after, ⟨derivation⟩⟩, equal⟩
  · rintro ⟨tree, middle, further, part, reads, equal⟩
    exact ⟨part.inside, reads.after.trans part.after,
      derivesItems_cons_iff.mpr ⟨tree, _, further, part.derives, reads.derives, equal⟩⟩

theorem readsItems_single_iff :
    ReadsItems grammar characters [first] text trees rest ↔
      ∃ tree, Reads grammar characters first text tree rest ∧ trees = [tree] := by
  constructor
  · intro reads
    rcases readsItems_cons_iff.mp reads with ⟨tree, middle, further, part, none, equal⟩
    rcases (readsItems_nil_iff part.rest_inside).mp none with ⟨rfl, rfl⟩
    exact ⟨tree, part, equal⟩
  · rintro ⟨tree, reads, equal⟩
    have none : ReadsItems grammar characters [] rest [] rest :=
      (readsItems_nil_iff reads.rest_inside).mpr ⟨rfl, rfl⟩
    exact readsItems_cons_iff.mpr ⟨tree, rest, [], reads, none, equal⟩

theorem reads_pair_iff {second : Expr} :
    Reads grammar characters (.sequence [first, second]) text tree rest ↔
      ∃ left middle right, Reads grammar characters first text left middle ∧
        Reads grammar characters second middle right rest ∧
        tree = .node Operator.sequence.label [left, right] (spanOf characters text rest) := by
  constructor
  · intro reads
    rcases reads_sequence_iff.mp reads with ⟨_, reads, equal⟩
    rcases readsItems_cons_iff.mp reads with ⟨left, middle, _, readsLeft, single, rfl⟩
    rcases readsItems_single_iff.mp single with ⟨right, readsRight, rfl⟩
    exact ⟨left, middle, right, readsLeft, readsRight, equal⟩
  · rintro ⟨left, middle, right, reads, readsRight, equal⟩
    have single := readsItems_single_iff.mpr ⟨right, readsRight, rfl⟩
    have items := readsItems_cons_iff.mpr ⟨left, middle, _, reads, single, rfl⟩
    exact reads_sequence_iff.mpr ⟨_, items, equal⟩

theorem reads_triple_iff {second third : Expr} :
    Reads grammar characters (.sequence [first, second, third]) text tree rest ↔
      ∃ left start middle stop right, Reads grammar characters first text left start ∧
        Reads grammar characters second start middle stop ∧
        Reads grammar characters third stop right rest ∧
        tree = .node Operator.sequence.label [left, middle, right]
          (spanOf characters text rest) := by
  constructor
  · intro reads
    rcases reads_sequence_iff.mp reads with ⟨_, reads, equal⟩
    rcases readsItems_cons_iff.mp reads with ⟨left, start, _, readsLeft, others, rfl⟩
    rcases readsItems_cons_iff.mp others with ⟨middle, stop, _, readsMiddle, single, rfl⟩
    rcases readsItems_single_iff.mp single with ⟨right, readsRight, rfl⟩
    exact ⟨left, start, middle, stop, right, readsLeft, readsMiddle, readsRight, equal⟩
  · rintro ⟨left, start, middle, stop, right, reads, readsMiddle, readsRight, equal⟩
    have single := readsItems_single_iff.mpr ⟨right, readsRight, rfl⟩
    have others := readsItems_cons_iff.mpr ⟨middle, stop, _, readsMiddle, single, rfl⟩
    have items := readsItems_cons_iff.mpr ⟨left, start, _, reads, others, rfl⟩
    exact reads_sequence_iff.mpr ⟨_, items, equal⟩

theorem rejectsItems_cons_iff :
    RejectsItems grammar characters (first :: others) text ↔
      Rejects grammar characters first text ∨
        ∃ tree middle, Reads grammar characters first text tree middle ∧
          RejectsItems grammar characters others middle := by
  constructor
  · intro rejects
    rcases missesItems_cons_iff.mp rejects.derives with missed | ⟨tree, stop, part, missed⟩
    · exact .inl ⟨rejects.inside, missed⟩
    · rcases part.exists_reads rejects.inside with ⟨middle, reads, same⟩
      subst same
      exact .inr ⟨tree, middle, reads, reads.rest_inside, missed⟩
  · rintro (rejects | ⟨tree, middle, reads, rejects⟩)
    · exact ⟨rejects.inside, missesItems_cons_iff.mpr (.inl rejects.derives)⟩
    · exact ⟨reads.inside,
        missesItems_cons_iff.mpr (.inr ⟨tree, _, reads.derives, rejects.derives⟩)⟩

theorem not_rejects_sequence_nil : ¬ Rejects grammar characters (.sequence []) text := by
  intro rejects
  rcases misses_sequence_iff.mp rejects.derives with ⟨derivation⟩
  cases derivation

/-! ## Options and repetitions -/

variable {operand : Expr}

theorem reads_optional_iff :
    Reads grammar characters (.optional operand) text tree rest ↔
      (∃ part, Reads grammar characters operand text part rest ∧
        tree = .node Operator.optional.label [part] (spanOf characters text rest)) ∨
      Rejects grammar characters operand text ∧ tree = .absent ∧ rest = text := by
  constructor
  · intro reads
    rcases derives_optional_iff.mp reads.derives with
      ⟨part, derives, equal⟩ | ⟨missed, absent, same⟩
    · exact .inl ⟨part, ⟨reads.inside, reads.after, derives⟩, equal⟩
    · exact .inr ⟨⟨reads.inside, missed⟩, absent,
        offsetOf_injective reads.rest_inside reads.inside same⟩
  · rintro (⟨part, reads, equal⟩ | ⟨rejects, absent, same⟩)
    · exact ⟨reads.inside, reads.after,
        derives_optional_iff.mpr (.inl ⟨part, reads.derives, equal⟩)⟩
    · subst same
      exact ⟨rejects.inside, List.suffix_refl _,
        derives_optional_iff.mpr (.inr ⟨rejects.derives, absent, rfl⟩)⟩

theorem reads_repetition_iff :
    Reads grammar characters (.repetition operand) text tree rest ↔
      ∃ trees, ReadsRounds grammar characters operand text trees rest ∧
        tree = .node Operator.repetition.label trees (spanOf characters text rest) := by
  constructor
  · intro reads
    rcases derives_repetition_iff.mp reads.derives with ⟨trees, derives, equal⟩
    exact ⟨trees, ⟨reads.inside, reads.after, derives⟩, equal⟩
  · rintro ⟨trees, reads, equal⟩
    exact ⟨reads.inside, reads.after, derives_repetition_iff.mpr ⟨trees, reads.derives, equal⟩⟩

theorem not_rejects_repetition : ¬ Rejects grammar characters (.repetition operand) text := by
  intro rejects
  rcases rejects.derives with ⟨derivation⟩
  cases derivation

theorem reads_list_iff {round : Expr} :
    Reads grammar characters (.sequence [first, .repetition round]) text tree rest ↔
      ∃ head middle trees, Reads grammar characters first text head middle ∧
        ReadsRounds grammar characters round middle trees rest ∧
        tree = .node Operator.sequence.label
          [head, .node Operator.repetition.label trees (spanOf characters middle rest)]
          (spanOf characters text rest) := by
  constructor
  · intro reads
    rcases reads_pair_iff.mp reads with ⟨head, middle, _, readsHead, readsRounds, equal⟩
    rcases reads_repetition_iff.mp readsRounds with ⟨trees, rounds, rfl⟩
    exact ⟨head, middle, trees, readsHead, rounds, equal⟩
  · rintro ⟨head, middle, trees, readsHead, rounds, equal⟩
    have repetition := reads_repetition_iff.mpr ⟨trees, rounds, rfl⟩
    exact reads_pair_iff.mpr ⟨head, middle, _, readsHead, repetition, equal⟩

/-- An expression that is never found without taking anything. -/
def Advances (grammar : Grammar) (characters : List Char) (operand : Expr) : Prop :=
  ∀ text tree rest, Reads grammar characters operand text tree rest →
    rest.length < text.length

/-- The rounds of an expression that always takes something end where it is
missed. -/
theorem Advances.readsRounds_iff (advances : Advances grammar characters operand) :
    ReadsRounds grammar characters operand text trees rest ↔
      Rejects grammar characters operand text ∧ trees = [] ∧ rest = text ∨
      ∃ tree middle further, Reads grammar characters operand text tree middle ∧
        ReadsRounds grammar characters operand middle further rest ∧
        trees = tree :: further := by
  constructor
  · intro reads
    rcases derivesRounds_iff.mp reads.derives with
      ⟨missed | ⟨tree, idle⟩, empty, same⟩ |
      ⟨tree, stop, further, part, progress, derives, equal⟩
    · exact .inl ⟨⟨reads.inside, missed⟩, empty,
        offsetOf_injective (reads.after.trans reads.inside) reads.inside same⟩
    · have stays : Reads grammar characters operand text tree text :=
        ⟨reads.inside, List.suffix_refl _, idle⟩
      -- no round stays where it is, so the last one is missed
      exact absurd (advances text tree text stays) (Nat.lt_irrefl _)
    · rcases part.exists_reads reads.inside with ⟨middle, readsPart, same⟩
      subst same
      rcases derives with ⟨derivation⟩
      have whole := derivation.after_eq
      rw [after_offsetOf readsPart.rest_inside,
        after_offsetOf (reads.after.trans reads.inside)] at whole
      have after : rest <:+ middle := ⟨_, whole.symm⟩
      exact .inr ⟨tree, middle, further, readsPart,
        ⟨readsPart.rest_inside, after, ⟨derivation⟩⟩, equal⟩
  · rintro (⟨rejects, empty, same⟩ | ⟨tree, middle, further, part, reads, equal⟩)
    · subst same
      exact ⟨rejects.inside, List.suffix_refl _,
        derivesRounds_iff.mpr (.inl ⟨.inl rejects.derives, empty, rfl⟩)⟩
    · have progress : offsetOf characters text < offsetOf characters middle := by
        have less := advances text tree middle part
        have length := part.inside.length_le
        unfold offsetOf
        omega
      exact ⟨part.inside, reads.after.trans part.after, derivesRounds_iff.mpr
        (.inr ⟨tree, _, further, part.derives, progress, reads.derives, equal⟩)⟩

theorem Advances.reference {name : String} {definition : Expr}
    (advances : Advances grammar characters definition)
    (defined : grammar.lookup? name = some definition) :
    Advances grammar characters (.reference name) := by
  intro text tree rest reads
  rcases (reads_reference_iff defined).mp reads with ⟨part, reads, _⟩
  exact advances text part rest reads

theorem Advances.length_lt {item : Expr} {items : List Expr}
    (advances : Advances grammar characters item) (member : item ∈ items)
    (reads : ReadsItems grammar characters items text trees rest) :
    rest.length < text.length := by
  induction items generalizing text trees with
  | nil => cases member
  | cons first others induction =>
      rcases readsItems_cons_iff.mp reads with ⟨_, middle, further, part, later, _⟩
      rcases List.mem_cons.mp member with equal | inOthers
      · have progress : middle.length < text.length := advances _ _ _ (equal ▸ part)
        exact Nat.lt_of_le_of_lt later.after.length_le progress
      · have progress := induction inOthers later
        exact Nat.lt_of_lt_of_le progress part.after.length_le

theorem Advances.sequence {item : Expr} {items : List Expr}
    (advances : Advances grammar characters item) (member : item ∈ items) :
    Advances grammar characters (.sequence items) := by
  intro text tree rest reads
  rcases reads_sequence_iff.mp reads with ⟨trees, gathered, _⟩
  exact advances.length_lt member gathered

/-! ## Passing

Where only the rest of a text matters, trees are left out. -/

def Passes (grammar : Grammar) (characters : List Char) (expr : Expr)
    (text rest : List Char) : Prop :=
  ∃ tree, Reads grammar characters expr text tree rest

theorem Passes.inside (passes : Passes grammar characters expr text rest) :
    text <:+ characters := by
  rcases passes with ⟨_, reads⟩
  exact reads.inside

theorem Passes.rest_inside (passes : Passes grammar characters expr text rest) :
    rest <:+ characters := by
  rcases passes with ⟨_, reads⟩
  exact reads.rest_inside

theorem Passes.not_rejects (passes : Passes grammar characters expr text rest) :
    ¬ Rejects grammar characters expr text := by
  rcases passes with ⟨_, reads⟩
  exact reads.not_rejects

theorem passes_reference_iff {name : String} {definition : Expr}
    (defined : grammar.lookup? name = some definition) :
    Passes grammar characters (.reference name) text rest ↔
      Passes grammar characters definition text rest := by
  constructor
  · rintro ⟨tree, reads⟩
    rcases (reads_reference_iff defined).mp reads with ⟨part, reads, _⟩
    exact ⟨part, reads⟩
  · rintro ⟨part, reads⟩
    exact ⟨_, (reads_reference_iff defined).mpr ⟨part, reads, rfl⟩⟩

theorem passes_terminal_iff {pattern : String} (inside : text <:+ characters) :
    Passes grammar characters (.terminal pattern) text rest ↔
      ∃ taken, Spells pattern taken ∧ text = taken ++ rest := by
  constructor
  · rintro ⟨tree, reads⟩
    rcases (reads_terminal_iff inside).mp reads with ⟨taken, spells, whole, _⟩
    exact ⟨taken, spells, whole⟩
  · rintro ⟨taken, spells, whole⟩
    exact ⟨_, (reads_terminal_iff inside).mpr ⟨taken, spells, whole, rfl⟩⟩

theorem passes_choice_cons_iff :
    Passes grammar characters (.choice (first :: others)) text rest ↔
      Passes grammar characters first text rest ∨
        Rejects grammar characters first text ∧
          Passes grammar characters (.choice others) text rest := by
  unfold Passes
  simp only [reads_choice_cons_iff, exists_or, exists_and_left]

theorem not_passes_choice_nil : ¬ Passes grammar characters (.choice []) text rest := by
  rintro ⟨tree, reads⟩
  exact not_reads_choice_nil reads

theorem passes_sequence_single_iff :
    Passes grammar characters (.sequence [first]) text rest ↔
      Passes grammar characters first text rest := by
  constructor
  · rintro ⟨tree, reads⟩
    rcases reads_sequence_iff.mp reads with ⟨trees, reads, _⟩
    rcases readsItems_single_iff.mp reads with ⟨part, reads, _⟩
    exact ⟨part, reads⟩
  · rintro ⟨part, reads⟩
    have single := readsItems_single_iff.mpr ⟨part, reads, rfl⟩
    exact ⟨_, reads_sequence_iff.mpr ⟨[part], single, rfl⟩⟩

theorem passes_sequence_cons_iff :
    Passes grammar characters (.sequence (first :: others)) text rest ↔
      ∃ middle, Passes grammar characters first text middle ∧
        Passes grammar characters (.sequence others) middle rest := by
  constructor
  · rintro ⟨tree, reads⟩
    rcases reads_sequence_iff.mp reads with ⟨trees, reads, _⟩
    rcases readsItems_cons_iff.mp reads with ⟨part, middle, further, reads, items, _⟩
    exact ⟨middle, ⟨part, reads⟩, ⟨_, reads_sequence_iff.mpr ⟨further, items, rfl⟩⟩⟩
  · rintro ⟨middle, ⟨part, reads⟩, ⟨tree, readsOthers⟩⟩
    rcases reads_sequence_iff.mp readsOthers with ⟨trees, items, _⟩
    have whole := readsItems_cons_iff.mpr ⟨part, middle, trees, reads, items, rfl⟩
    exact ⟨_, reads_sequence_iff.mpr ⟨_, whole, rfl⟩⟩

theorem rejects_sequence_cons_iff :
    Rejects grammar characters (.sequence (first :: others)) text ↔
      Rejects grammar characters first text ∨
        ∃ middle, Passes grammar characters first text middle ∧
          Rejects grammar characters (.sequence others) middle := by
  simp only [rejects_sequence_iff, rejectsItems_cons_iff, Passes]
  constructor
  · rintro (rejects | ⟨tree, middle, reads, rejects⟩)
    · exact .inl rejects
    · exact .inr ⟨middle, ⟨tree, reads⟩, rejects⟩
  · rintro (rejects | ⟨middle, ⟨tree, reads⟩, rejects⟩)
    · exact .inl rejects
    · exact .inr ⟨tree, middle, reads, rejects⟩

theorem passes_optional_iff :
    Passes grammar characters (.optional operand) text rest ↔
      Passes grammar characters operand text rest ∨
        Rejects grammar characters operand text ∧ rest = text := by
  constructor
  · rintro ⟨tree, reads⟩
    rcases reads_optional_iff.mp reads with ⟨part, reads, _⟩ | ⟨rejects, _, same⟩
    · exact .inl ⟨part, reads⟩
    · exact .inr ⟨rejects, same⟩
  · rintro (⟨part, reads⟩ | ⟨rejects, same⟩)
    · exact ⟨_, reads_optional_iff.mpr (.inl ⟨part, reads, rfl⟩)⟩
    · exact ⟨_, reads_optional_iff.mpr (.inr ⟨rejects, rfl, same⟩)⟩

theorem Advances.passes_repetition_iff (advances : Advances grammar characters operand) :
    Passes grammar characters (.repetition operand) text rest ↔
      Rejects grammar characters operand text ∧ rest = text ∨
        ∃ middle, Passes grammar characters operand text middle ∧
          Passes grammar characters (.repetition operand) middle rest := by
  constructor
  · rintro ⟨tree, reads⟩
    rcases reads_repetition_iff.mp reads with ⟨trees, rounds, _⟩
    rcases advances.readsRounds_iff.mp rounds with
      ⟨rejects, _, same⟩ | ⟨part, middle, further, reads, rounds, _⟩
    · exact .inl ⟨rejects, same⟩
    · exact .inr ⟨middle, ⟨part, reads⟩, ⟨_, reads_repetition_iff.mpr ⟨further, rounds, rfl⟩⟩⟩
  · rintro (⟨rejects, same⟩ | ⟨middle, ⟨part, reads⟩, ⟨tree, readsOthers⟩⟩)
    · have rounds := advances.readsRounds_iff.mpr (.inl ⟨rejects, rfl, same⟩)
      exact ⟨_, reads_repetition_iff.mpr ⟨[], rounds, rfl⟩⟩
    · rcases reads_repetition_iff.mp readsOthers with ⟨trees, others, _⟩
      have rounds := advances.readsRounds_iff.mpr
        (.inr ⟨part, middle, trees, reads, others, rfl⟩)
      exact ⟨_, reads_repetition_iff.mpr ⟨_, rounds, rfl⟩⟩

theorem Advances.repetition_induction (advances : Advances grammar characters operand)
    (holds : List Char → Prop)
    (ends : Rejects grammar characters operand rest → holds rest)
    (goes : ∀ text middle, Passes grammar characters operand text middle → holds middle →
      holds text)
    (passes : Passes grammar characters (.repetition operand) text rest) : holds text := by
  -- a round takes something, so there is less of the text for those after it
  induction length : text.length using Nat.strongRecOn generalizing text with
  | ind size induction =>
      rcases advances.passes_repetition_iff.mp passes with
        ⟨rejects, rfl⟩ | ⟨middle, part, others⟩
      · exact ends rejects
      · have shorter : middle.length < size := by
          rcases part with ⟨tree, reads⟩
          rw [← length]
          exact advances text tree middle reads
        exact goes text middle part (induction _ shorter others rfl)

end OrderedChoice
