import OrderedChoice.Proofs.Derivation.Cut
import OrderedChoice.Proofs.Ebnf.Rules

/-! Grammar texts that are cut short. What the grammar of grammar texts finds up to some place
does not rest on what comes after that place: layout and words end where the next character
does not go on with them, and bodies end at a mark, which lies before the cut as well. So the
rules of a text that breaks off are found in the text up to there, with the same trees. -/

namespace OrderedChoice

namespace Ebnf

variable {part tail text rest : List Char} {size : Nat} {tree : Tree Char}

/-! ## Layout -/

theorem foundAfterCut_run (pattern : String) {test : Char → Bool}
    (tests : Pattern.tests pattern = [test]) :
    FoundAfterCut grammar part tail size (.repetition (.terminal pattern)) := by
  have found : FoundAfterCut grammar part tail size (.terminal pattern) :=
    foundAfterCut_terminal pattern
  apply found.repetition (missedAfterCut_terminal pattern)
  exact fun characters => advances_single grammar characters tests

theorem foundAfterCut_comment : FoundAfterCut grammar part tail size (.reference "comment") := by
  apply FoundAfterCut.reference comment_defined
  apply foundAfterCut_sequence
  simp only [List.forall_mem_cons, List.not_mem_nil, false_implies, implies_true, and_true]
  exact ⟨foundAfterCut_terminal "//", foundAfterCut_run "\\N" rfl⟩

theorem missedAfterCut_comment : MissedAfterCut grammar part tail (.reference "comment") := by
  have opened : MissedAfterCut grammar part tail (.sequence [.repetition (.terminal "\\N")]) := by
    intro text rejects
    rcases rejects_sequence_cons_iff.mp rejects with run | ⟨_, _, none⟩
    · exact absurd run not_rejects_repetition
    · exact absurd none not_rejects_sequence_nil
  exact opened.sequence_terminal.reference comment_defined

theorem foundAfterCut_layout : FoundAfterCut grammar part tail size layout := by
  have missed : ∀ piece ∈ [Expr.terminal "\\s", .reference "comment"],
      MissedAfterCut grammar part tail piece := by
    simp only [List.forall_mem_cons, List.not_mem_nil, false_implies, implies_true, and_true]
    exact ⟨missedAfterCut_terminal "\\s", missedAfterCut_comment⟩
  have piece : FoundAfterCut grammar part tail size layoutPiece := by
    apply foundAfterCut_choice _ missed
    simp only [List.forall_mem_cons, List.not_mem_nil, false_implies, implies_true, and_true]
    exact ⟨foundAfterCut_terminal "\\s", foundAfterCut_comment⟩
  apply FoundAfterCut.reference layout_defined
  exact piece.repetition (missedAfterCut_choice missed) fun _ => advances_piece

/-! ## Words -/

theorem foundAfterCut_name : FoundAfterCut grammar part tail size (.reference "name") := by
  apply FoundAfterCut.reference name_defined
  apply foundAfterCut_sequence
  simp only [List.forall_mem_cons, List.not_mem_nil, false_implies, implies_true, and_true]
  exact ⟨foundAfterCut_terminal "\\a", foundAfterCut_run "\\w" rfl⟩

theorem foundAfterCut_escape :
    FoundAfterCut grammar part tail size (.sequence [.terminal "\\\\", .terminal "\\N"]) := by
  apply foundAfterCut_sequence
  simp only [List.forall_mem_cons, List.not_mem_nil, false_implies, implies_true, and_true]
  exact ⟨foundAfterCut_terminal "\\\\", foundAfterCut_terminal "\\N"⟩

theorem missedAfterCut_escape :
    MissedAfterCut grammar part tail (.sequence [.terminal "\\\\", .terminal "\\N"]) :=
  missedAfterCut_sequence_nil.sequence_terminal.sequence_terminal

theorem missedAfterCut_alternatives :
    ∀ alternative ∈ Expr.sequence [.terminal "\\\\", .terminal "\\N"] ::
        plainPatterns.map fun alternative => .terminal alternative.1,
      MissedAfterCut grammar part tail alternative := by
  rw [List.forall_mem_cons, List.forall_mem_map]
  exact ⟨missedAfterCut_escape, fun plain _ => missedAfterCut_terminal plain.1⟩

theorem foundAfterCut_character :
    FoundAfterCut grammar part tail size (.reference "character") := by
  apply FoundAfterCut.reference character_defined
  apply foundAfterCut_choice _ missedAfterCut_alternatives
  rw [List.forall_mem_cons, List.forall_mem_map]
  exact ⟨foundAfterCut_escape, fun plain _ => foundAfterCut_terminal plain.1⟩

theorem missedAfterCut_character : MissedAfterCut grammar part tail (.reference "character") :=
  (missedAfterCut_choice missedAfterCut_alternatives).reference character_defined

theorem foundAfterCut_term : FoundAfterCut grammar part tail size (.reference "term") := by
  have pattern : FoundAfterCut grammar part tail size (.repetition (.reference "character")) :=
    foundAfterCut_character.repetition missedAfterCut_character fun _ => advances_character
  apply FoundAfterCut.reference term_defined
  apply foundAfterCut_sequence
  simp only [List.forall_mem_cons, List.not_mem_nil, false_implies, implies_true, and_true]
  exact ⟨foundAfterCut_terminal "\\\"", pattern, foundAfterCut_terminal "\\\""⟩

/-! ## Bodies

A body ends where no other item and no other alternative follows. To see that, the text up to
the cut has to go on with a mark, as it does in the texts of rules and of bracketed items. -/

/-- Where an expression is found in less than a number of characters before the cut, and one of
some marks follows before the cut, it is found after the cut. -/
def FoundBeforeMark (marks part tail : List Char) (size : Nat) (expr : Expr) : Prop :=
  ∀ text tree rest, text.length < size → Ends marks rest →
    Reads grammar (part ++ tail) expr (text ++ tail) tree (rest ++ tail) →
    Reads grammar part expr text tree rest

section Bodies

variable (bodies : FoundBeforeMark bodyMarks part tail size (.reference "alternatives"))

include bodies

theorem itemsFoundAfterCut_body {closing : String} {last : Char}
    (tests : Pattern.tests closing = [(last == ·)]) (member : last ∈ bodyMarks) :
    ItemsFoundAfterCut grammar part tail size
      [.reference "alternatives", layout, .terminal closing] := by
  intro text trees rest shorter reads
  rcases readsItems_cons_iff.mp reads with ⟨body, stop, further, readsBody, readsEnd, equal⟩
  rcases exists_cut readsEnd.after with ⟨cut, rfl⟩
  have ending : ItemsFoundAfterCut grammar part tail (cut.length + 1)
      [layout, .terminal closing] :=
    (itemsFoundAfterCut_nil.cons (foundAfterCut_terminal closing)).cons foundAfterCut_layout
  have ended := ending cut further rest (Nat.lt_succ_self _) readsEnd
  rcases readsItems_cons_iff.mp ended with ⟨_, start, _, lays, single, _⟩
  rcases readsItems_single_iff.mp single with ⟨_, closes, _⟩
  have layed := layout_of_reads lays
  rw [eq_cons_of_reads tests closes] at layed
  have here := bodies text body cut shorter ⟨last, member, rest, layed⟩ readsBody
  exact readsItems_cons_iff.mpr ⟨body, cut, further, here, ended, equal⟩

theorem foundAfterCut_enclosed {label opening closing : String} {first last : Char}
    (defined : grammar.lookup? label = some (bracketed opening closing))
    (testsFirst : Pattern.tests opening = [(first == ·)])
    (testsLast : Pattern.tests closing = [(last == ·)]) (member : last ∈ bodyMarks) :
    FoundAfterCut grammar part tail (size + 1) (.reference label) := by
  apply FoundAfterCut.reference defined
  apply ItemsFoundAfterCut.sequence
  have body := itemsFoundAfterCut_body bodies testsLast member
  have mark := advances_single grammar part testsFirst
  exact body.cons_of_advances (foundAfterCut_terminal opening) mark

theorem foundAfterCut_core : FoundAfterCut grammar part tail (size + 1) itemCore := by
  intro text tree rest shorter reads
  apply reads_core_iff.mpr
  rcases reads_core_iff.mp reads with name | term | group | option | repetition
  · exact .inl (foundAfterCut_name text tree rest shorter name)
  · exact .inr (.inl (foundAfterCut_term text tree rest shorter term))
  · have found := foundAfterCut_enclosed bodies group_defined (tests_toString '(')
      (tests_toString ')') (by decide)
    exact .inr (.inr (.inl (found text tree rest shorter group)))
  · have found := foundAfterCut_enclosed bodies option_defined (tests_toString '[')
      (tests_toString ']') (by decide)
    exact .inr (.inr (.inr (.inl (found text tree rest shorter option))))
  · have found := foundAfterCut_enclosed bodies repeat_defined (tests_toString '\x7b')
      (tests_toString '\x7d') (by decide)
    exact .inr (.inr (.inr (.inr (found text tree rest shorter repetition))))

theorem foundAfterCut_item :
    FoundAfterCut grammar part tail (size + 1) (.reference "item") := by
  apply FoundAfterCut.reference item_defined
  apply ItemsFoundAfterCut.sequence
  exact (itemsFoundAfterCut_nil.cons (foundAfterCut_core bodies)).cons foundAfterCut_layout

theorem foundAfterCut_itemRound : FoundAfterCut grammar part tail (size + 1) itemRound := by
  have comma : FoundAfterCut grammar part tail (size + 1) (.optional (.terminal ",")) :=
    (foundAfterCut_terminal ",").optional (missedAfterCut_terminal ",")
  have item := itemsFoundAfterCut_nil.cons (foundAfterCut_item bodies)
  exact ((item.cons comma).cons foundAfterCut_layout).sequence

theorem foundBeforeMark_sequence :
    FoundBeforeMark sequenceMarks part tail (size + 1) (.reference "sequence") := by
  intro text tree rest shorter ends reads
  rcases (reads_reference_iff sequence_defined).mp reads with ⟨_, readsList, rfl⟩
  rcases reads_list_iff.mp readsList with ⟨first, stop, trees, readsFirst, rounds, rfl⟩
  rcases exists_cut rounds.after with ⟨cut, rfl⟩
  have item := foundAfterCut_item bodies text first cut shorter readsFirst
  have left := Nat.lt_of_le_of_lt item.after.length_le shorter
  have ended := rejects_itemRound ends (suffix_cut reads.rest_inside)
  have others := readsRounds_after_cut (fun _ => advances_itemRound)
    (foundAfterCut_itemRound bodies) left ended rounds
  have list := reads_list_iff.mpr ⟨first, cut, trees, item, others, rfl⟩
  simp only [spanOf_cut]
  exact (reads_reference_iff sequence_defined).mpr ⟨_, list, rfl⟩

theorem readsRounds_branches_after_cut {trees : List (Tree Char)}
    (shorter : text.length < size + 1) (ends : Ends bodyMarks rest)
    (rounds : ReadsRounds grammar (part ++ tail) branchRound (text ++ tail) trees
      (rest ++ tail)) :
    ReadsRounds grammar part branchRound text trees rest ∧ Ends sequenceMarks text := by
  induction trees generalizing text with
  | nil =>
      rcases advances_branchRound.readsRounds_iff.mp rounds with
        ⟨_, none, same⟩ | ⟨_, _, _, _, _, none⟩
      · have here := List.append_cancel_right same
        subst here
        have ended := rejects_branchRound ends (suffix_cut rounds.inside)
        exact ⟨advances_branchRound.readsRounds_iff.mpr (.inl ⟨ended, none, rfl⟩), ends.sequence⟩
      · cases none
  | cons tree others induction =>
      rcases advances_branchRound.readsRounds_iff.mp rounds with
        ⟨_, none, _⟩ | ⟨round, middle, further, reads, later, equal⟩
      · cases none
      · cases equal
        rcases reads_triple_iff.mp reads with
          ⟨laid, atBar, bar, atBranch, branch, lays, readsBar, readsBranch, rfl⟩
        rcases exists_cut later.after with ⟨cut, rfl⟩
        rcases exists_cut readsBranch.after with ⟨start, rfl⟩
        rcases exists_cut readsBar.after with ⟨stop, rfl⟩
        have laysHere := foundAfterCut_layout text laid stop shorter lays
        have atStop := Nat.lt_of_le_of_lt laysHere.after.length_le shorter
        have barHere := foundAfterCut_terminal "|" stop bar start atStop readsBar
        have atStart := Nat.lt_of_le_of_lt barHere.after.length_le atStop
        have layed := layout_of_reads laysHere
        rw [eq_cons_of_reads (tests_toString '|') barHere] at layed
        have shorterCut : cut.length < size + 1 := by
          have after := readsBranch.after.length_le
          rw [List.length_append, List.length_append] at after
          omega
        -- the later branches first: they tell by which mark this one ends
        rcases induction shorterCut later with ⟨laterHere, endsCut⟩
        have branchHere := foundBeforeMark_sequence bodies start branch cut atStart endsCut
          readsBranch
        have roundHere := reads_triple_iff.mpr
          ⟨laid, stop, bar, start, branch, laysHere, barHere, branchHere, rfl⟩
        rw [spanOf_cut]
        exact ⟨advances_branchRound.readsRounds_iff.mpr
          (.inr ⟨_, cut, others, roundHere, laterHere, rfl⟩), '|', by decide, start, layed⟩

theorem foundBeforeMark_alternatives :
    FoundBeforeMark bodyMarks part tail (size + 1) (.reference "alternatives") := by
  intro text tree rest shorter ends reads
  rcases (reads_reference_iff alternatives_defined).mp reads with ⟨_, readsList, rfl⟩
  rcases reads_list_iff.mp readsList with ⟨first, stop, trees, readsFirst, rounds, rfl⟩
  rcases exists_cut rounds.after with ⟨cut, rfl⟩
  have left : cut.length < size + 1 := by
    have after := readsFirst.after.length_le
    rw [List.length_append, List.length_append] at after
    omega
  rcases readsRounds_branches_after_cut bodies left ends rounds with ⟨others, endsCut⟩
  have branch := foundBeforeMark_sequence bodies text first cut shorter endsCut readsFirst
  have list := reads_list_iff.mpr ⟨first, cut, trees, branch, others, rfl⟩
  simp only [spanOf_cut]
  exact (reads_reference_iff alternatives_defined).mpr ⟨_, list, rfl⟩

end Bodies

theorem foundBeforeMark_body (part tail : List Char) (size : Nat) :
    FoundBeforeMark bodyMarks part tail size (.reference "alternatives") := by
  -- A body in brackets is shorter than the item around it, and so than the body around that.
  induction size with
  | zero => exact fun _ _ _ shorter => absurd shorter (Nat.not_lt_zero _)
  | succ size bodies => exact foundBeforeMark_alternatives bodies

/-! ## Rules -/

theorem foundAfterCut_rule : FoundAfterCut grammar part tail size (.reference "rule") := by
  have body := itemsFoundAfterCut_body (foundBeforeMark_body part tail size) (tests_toString ';')
    (by decide)
  have definition := body.cons (foundAfterCut_terminal "=")
  have name := (definition.cons foundAfterCut_layout).cons foundAfterCut_name
  exact (name.cons foundAfterCut_layout).sequence.reference rule_defined

/-- What the grammar of grammar texts finds in a text, it finds in the part of the text that it
took when there is no more. -/
theorem reads_taken (reads : Reads grammar (part ++ tail) entry (part ++ tail) tree tail) :
    Reads grammar part entry part tree [] := by
  rcases reads_pair_iff.mp reads with ⟨_, last, laid, readsRules, lays, rfl⟩
  rcases reads_repetition_iff.mp readsRules with ⟨trees, rounds, rfl⟩
  have after : [] ++ tail <:+ last := lays.after
  rcases exists_cut after with ⟨cut, rfl⟩
  have laysHere := foundAfterCut_layout cut laid [] (Nat.lt_succ_self _) lays
  -- In the whole text a rule may begin in this layout and break off after the cut.
  have ended := rejects_rule laysHere.inside (layout_of_reads laysHere)
  have rules := readsRounds_after_cut (fun _ => advances_rule) foundAfterCut_rule
    (Nat.lt_succ_self part.length) ended rounds
  have repetition := reads_repetition_iff.mpr ⟨trees, rules, rfl⟩
  have pair := reads_pair_iff.mpr ⟨_, cut, laid, repetition, laysHere, rfl⟩
  have whole : spanOf (part ++ tail) (part ++ tail) tail = spanOf part part [] :=
    spanOf_cut part tail part []
  rw [whole, spanOf_cut]
  exact pair

end Ebnf

end OrderedChoice
