import OrderedChoice.Proofs.Derivation.Text

/-! Texts that are cut short. Most of what is found before a cut is found there in the text that
ends at the cut as well, with the same tree: there is a lemma for each kind of expression, which
takes that its parts stand the cut. Where an expression looks beyond the cut before it turns
back, none of them applies. -/

namespace OrderedChoice

variable {grammar : Grammar} {characters part tail text rest : List Char} {tree : Tree Char}

/-! ## Places -/

section Places

variable (part tail text rest)

theorem offsetOf_cut : offsetOf (part ++ tail) (text ++ tail) = offsetOf part text := by
  unfold offsetOf
  rw [List.length_append, List.length_append, Nat.add_sub_add_right]

theorem spanOf_cut : spanOf (part ++ tail) (text ++ tail) (rest ++ tail) = spanOf part text rest := by
  unfold spanOf
  rw [offsetOf_cut, offsetOf_cut]

end Places

theorem suffix_cut (inside : text ++ tail <:+ part ++ tail) : text <:+ part := by
  rcases inside with ⟨before, whole⟩
  rw [← List.append_assoc] at whole
  exact ⟨before, List.append_cancel_right whole⟩

theorem exists_cut {middle : List Char} (after : rest ++ tail <:+ middle) :
    ∃ cut, middle = cut ++ tail := by
  rcases after with ⟨before, whole⟩
  exact ⟨before ++ rest, by rw [← whole, List.append_assoc]⟩

/-! ## Findings -/

section Findings

variable (grammar part tail)

/-- Where an expression is found in less than a number of characters before the cut, it is found
after the cut. -/
def FoundAfterCut (size : Nat) (expr : Expr) : Prop :=
  ∀ text tree rest, text.length < size →
    Reads grammar (part ++ tail) expr (text ++ tail) tree (rest ++ tail) →
    Reads grammar part expr text tree rest

def ItemsFoundAfterCut (size : Nat) (items : List Expr) : Prop :=
  ∀ text trees rest, text.length < size →
    ReadsItems grammar (part ++ tail) items (text ++ tail) trees (rest ++ tail) →
    ReadsItems grammar part items text trees rest

def MissedAfterCut (expr : Expr) : Prop :=
  ∀ text, Rejects grammar (part ++ tail) expr (text ++ tail) → Rejects grammar part expr text

end Findings

variable {size : Nat} {expr : Expr}

/-! ## Terminals and references -/

theorem foundAfterCut_terminal (pattern : String) :
    FoundAfterCut grammar part tail size (.terminal pattern) := by
  intro text tree rest _ reads
  rcases (reads_terminal_iff reads.inside).mp reads with ⟨taken, spells, whole, equal⟩
  apply (reads_terminal_iff (suffix_cut reads.inside)).mpr
  rw [← List.append_assoc] at whole
  rw [spanOf_cut] at equal
  exact ⟨taken, spells, List.append_cancel_right whole, equal⟩

theorem missedAfterCut_terminal (pattern : String) :
    MissedAfterCut grammar part tail (.terminal pattern) := by
  intro text rejects
  apply (rejects_terminal_iff (suffix_cut rejects.inside)).mpr
  intro taken rest spells equal
  apply (rejects_terminal_iff rejects.inside).mp rejects taken (rest ++ tail) spells
  rw [equal, List.append_assoc]

section References

variable {name : String} {definition : Expr} (defined : grammar.lookup? name = some definition)

include defined

theorem FoundAfterCut.reference (found : FoundAfterCut grammar part tail size definition) :
    FoundAfterCut grammar part tail size (.reference name) := by
  intro text tree rest shorter reads
  rcases (reads_reference_iff defined).mp reads with ⟨part, readsPart, equal⟩
  rw [spanOf_cut] at equal
  exact (reads_reference_iff defined).mpr ⟨part, found text part rest shorter readsPart, equal⟩

theorem MissedAfterCut.reference (missed : MissedAfterCut grammar part tail definition) :
    MissedAfterCut grammar part tail (.reference name) := by
  intro text rejects
  apply (rejects_reference_iff defined).mpr
  exact missed text ((rejects_reference_iff defined).mp rejects)

end References

/-! ## Choices -/

theorem missedAfterCut_choice {alternatives : List Expr}
    (missed : ∀ alternative ∈ alternatives, MissedAfterCut grammar part tail alternative) :
    MissedAfterCut grammar part tail (.choice alternatives) := by
  induction alternatives with
  | nil =>
      intro text rejects
      exact rejects_choice_nil (suffix_cut rejects.inside)
  | cons first others induction =>
      rcases List.forall_mem_cons.mp missed with ⟨missedFirst, missedOthers⟩
      intro text rejects
      rcases rejects_choice_cons_iff.mp rejects with ⟨rejectsFirst, rejectsOthers⟩
      apply rejects_choice_cons_iff.mpr
      exact ⟨missedFirst text rejectsFirst, induction missedOthers text rejectsOthers⟩

theorem foundAfterCut_choice {alternatives : List Expr}
    (found : ∀ alternative ∈ alternatives, FoundAfterCut grammar part tail size alternative)
    (missed : ∀ alternative ∈ alternatives, MissedAfterCut grammar part tail alternative) :
    FoundAfterCut grammar part tail size (.choice alternatives) := by
  induction alternatives with
  | nil => exact fun _ _ _ _ reads => absurd reads not_reads_choice_nil
  | cons first others induction =>
      rcases List.forall_mem_cons.mp found with ⟨foundFirst, foundOthers⟩
      rcases List.forall_mem_cons.mp missed with ⟨missedFirst, missedOthers⟩
      intro text tree rest shorter reads
      apply reads_choice_cons_iff.mpr
      rcases reads_choice_cons_iff.mp reads with readsFirst | ⟨rejects, readsOthers⟩
      · exact .inl (foundFirst text tree rest shorter readsFirst)
      · exact .inr ⟨missedFirst text rejects,
          induction foundOthers missedOthers text tree rest shorter readsOthers⟩

/-! ## Sequences -/

theorem itemsFoundAfterCut_nil : ItemsFoundAfterCut grammar part tail size [] := by
  intro text trees rest _ reads
  rcases (readsItems_nil_iff reads.inside).mp reads with ⟨none, same⟩
  have inside := suffix_cut reads.inside
  exact (readsItems_nil_iff inside).mpr ⟨none, List.append_cancel_right same⟩

theorem ItemsFoundAfterCut.cons_of_left {left : Nat} {first : Expr} {others : List Expr}
    (foundOthers : ItemsFoundAfterCut grammar part tail left others)
    (foundFirst : FoundAfterCut grammar part tail size first)
    (leaves : ∀ text tree rest, text.length < size → Reads grammar part first text tree rest →
      rest.length < left) :
    ItemsFoundAfterCut grammar part tail size (first :: others) := by
  intro text trees rest shorter reads
  rcases readsItems_cons_iff.mp reads with ⟨tree, middle, further, readsFirst, readsOthers, equal⟩
  rcases exists_cut readsOthers.after with ⟨cut, rfl⟩
  have here := foundFirst text tree cut shorter readsFirst
  have later := foundOthers cut further rest (leaves text tree cut shorter here) readsOthers
  exact readsItems_cons_iff.mpr ⟨tree, cut, further, here, later, equal⟩

theorem ItemsFoundAfterCut.cons {first : Expr} {others : List Expr}
    (foundOthers : ItemsFoundAfterCut grammar part tail size others)
    (foundFirst : FoundAfterCut grammar part tail size first) :
    ItemsFoundAfterCut grammar part tail size (first :: others) :=
  foundOthers.cons_of_left foundFirst fun _ _ _ shorter reads =>
    Nat.lt_of_le_of_lt reads.after.length_le shorter

theorem ItemsFoundAfterCut.cons_of_advances {first : Expr} {others : List Expr}
    (foundOthers : ItemsFoundAfterCut grammar part tail size others)
    (foundFirst : FoundAfterCut grammar part tail (size + 1) first)
    (advances : Advances grammar part first) :
    ItemsFoundAfterCut grammar part tail (size + 1) (first :: others) :=
  foundOthers.cons_of_left foundFirst fun text tree rest shorter reads =>
    Nat.lt_of_lt_of_le (advances text tree rest reads) (Nat.le_of_lt_succ shorter)

theorem ItemsFoundAfterCut.of_forall {items : List Expr}
    (found : ∀ item ∈ items, FoundAfterCut grammar part tail size item) :
    ItemsFoundAfterCut grammar part tail size items := by
  induction items with
  | nil => exact itemsFoundAfterCut_nil
  | cons first others induction =>
      rcases List.forall_mem_cons.mp found with ⟨foundFirst, foundOthers⟩
      exact (induction foundOthers).cons foundFirst

theorem ItemsFoundAfterCut.sequence {items : List Expr}
    (found : ItemsFoundAfterCut grammar part tail size items) :
    FoundAfterCut grammar part tail size (.sequence items) := by
  intro text tree rest shorter reads
  rcases reads_sequence_iff.mp reads with ⟨trees, readsItems, equal⟩
  rw [spanOf_cut] at equal
  exact reads_sequence_iff.mpr ⟨trees, found text trees rest shorter readsItems, equal⟩

theorem foundAfterCut_sequence {items : List Expr}
    (found : ∀ item ∈ items, FoundAfterCut grammar part tail size item) :
    FoundAfterCut grammar part tail size (.sequence items) :=
  (ItemsFoundAfterCut.of_forall found).sequence

/-- A sequence that begins with a terminal does not look at its other items unless the terminal
has been found, and then the cut is not within the terminal. -/
theorem MissedAfterCut.sequence_terminal {pattern : String} {others : List Expr}
    (missed : MissedAfterCut grammar part tail (.sequence others)) :
    MissedAfterCut grammar part tail (.sequence (.terminal pattern :: others)) := by
  intro text rejects
  have inside := suffix_cut rejects.inside
  apply rejects_sequence_cons_iff.mpr
  by_cases fits : ∃ taken rest, Spells pattern taken ∧ text = taken ++ rest
  · right
    rcases fits with ⟨taken, rest, spells, split⟩
    have whole : text ++ tail = taken ++ (rest ++ tail) := by rw [split, List.append_assoc]
    have passes : Passes grammar (part ++ tail) (.terminal pattern) (text ++ tail) (rest ++ tail) :=
      (passes_terminal_iff rejects.inside).mpr ⟨taken, spells, whole⟩
    refine ⟨rest, (passes_terminal_iff inside).mpr ⟨taken, spells, split⟩, missed rest ?_⟩
    rcases rejects_sequence_cons_iff.mp rejects with turned | ⟨middle, other, later⟩
    · exact absurd turned passes.not_rejects
    · rcases passes with ⟨_, reads⟩
      rcases other with ⟨_, readsOther⟩
      rwa [(reads.unique readsOther).2]
  · left
    apply (rejects_terminal_iff inside).mpr
    exact fun taken rest spells split => fits ⟨taken, rest, spells, split⟩

theorem missedAfterCut_sequence_nil : MissedAfterCut grammar part tail (.sequence []) :=
  fun _ rejects => absurd rejects not_rejects_sequence_nil

/-! ## Options and repetitions -/

variable {operand : Expr}

theorem FoundAfterCut.optional (found : FoundAfterCut grammar part tail size operand)
    (missed : MissedAfterCut grammar part tail operand) :
    FoundAfterCut grammar part tail size (.optional operand) := by
  intro text tree rest shorter reads
  apply reads_optional_iff.mpr
  rcases reads_optional_iff.mp reads with ⟨inner, readsInner, equal⟩ | ⟨rejects, absent, same⟩
  · rw [spanOf_cut] at equal
    exact .inl ⟨inner, found text inner rest shorter readsInner, equal⟩
  · exact .inr ⟨missed text rejects, absent, List.append_cancel_right same⟩

theorem Advances.rejects_rest {trees : List (Tree Char)}
    (advances : Advances grammar characters operand)
    (rounds : ReadsRounds grammar characters operand text trees rest) :
    Rejects grammar characters operand rest := by
  induction trees generalizing text with
  | nil =>
      rcases advances.readsRounds_iff.mp rounds with ⟨rejects, _, rfl⟩ | ⟨_, _, _, _, _, none⟩
      · exact rejects
      · cases none
  | cons tree others induction =>
      rcases advances.readsRounds_iff.mp rounds with ⟨_, none, _⟩ | ⟨_, _, _, _, later, equal⟩
      · cases none
      · cases equal
        exact induction later

theorem readsRounds_after_cut {trees : List (Tree Char)}
    (advances : ∀ characters, Advances grammar characters operand)
    (found : FoundAfterCut grammar part tail size operand) (shorter : text.length < size)
    (ends : Rejects grammar part operand rest)
    (rounds : ReadsRounds grammar (part ++ tail) operand (text ++ tail) trees (rest ++ tail)) :
    ReadsRounds grammar part operand text trees rest := by
  induction trees generalizing text with
  | nil =>
      rcases (advances _).readsRounds_iff.mp rounds with
        ⟨_, none, same⟩ | ⟨_, _, _, _, _, none⟩
      · have here := List.append_cancel_right same
        subst here
        exact (advances _).readsRounds_iff.mpr (.inl ⟨ends, none, rfl⟩)
      · cases none
  | cons tree others induction =>
      rcases (advances _).readsRounds_iff.mp rounds with
        ⟨_, none, _⟩ | ⟨round, middle, further, reads, later, equal⟩
      · cases none
      · cases equal
        rcases exists_cut later.after with ⟨cut, rfl⟩
        have here := found text tree cut shorter reads
        have left := Nat.lt_of_le_of_lt here.after.length_le shorter
        exact (advances _).readsRounds_iff.mpr
          (.inr ⟨tree, cut, others, here, induction left later, rfl⟩)

theorem FoundAfterCut.repetition (found : FoundAfterCut grammar part tail size operand)
    (missed : MissedAfterCut grammar part tail operand)
    (advances : ∀ characters, Advances grammar characters operand) :
    FoundAfterCut grammar part tail size (.repetition operand) := by
  intro text tree rest shorter reads
  rcases reads_repetition_iff.mp reads with ⟨trees, rounds, equal⟩
  rw [spanOf_cut] at equal
  have ends := missed rest ((advances _).rejects_rest rounds)
  exact reads_repetition_iff.mpr
    ⟨trees, readsRounds_after_cut advances found shorter ends rounds, equal⟩

end OrderedChoice
