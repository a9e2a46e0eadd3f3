import OrderedChoice.Proofs.Ebnf.Phrase

/-! Whatever the grammar of grammar texts finds as a phrase is one, and is read as
what it denotes. A body inside brackets is shorter than the item that holds it, so
the length of the text carries the argument around. -/

namespace OrderedChoice

namespace Ebnf

variable {characters text rest : List Char} {tree : Tree Char} {size : Nat}

/-! ## Facts about the notation -/

theorem Layout.trans {middle : List Char} (first : Layout text middle)
    (second : Layout middle rest) : Layout text rest := by
  induction first with
  | none => exact second
  | blank blank _ induction => exact .blank blank (induction second)
  | comment unbroken ends _ induction => exact .comment unbroken ends (induction second)

theorem Item.opensWord {item : Expr} (isItem : Item true item text rest) : OpensWord text := by
  cases isItem with
  | @name letters rest isName =>
      cases letters with
      | nil => exact absurd isName id
      | cons first others => exact ⟨first, rfl, isWord_of_isLead isName.1⟩

/-! ## Items -/

/-- Bodies of texts up to a length are found only where they are, and read right. -/
def BodiesRead (characters : List Char) (size : Nat) : Prop :=
  ∀ text tree rest, text.length < size →
    Reads grammar characters (.reference "alternatives") text tree rest →
    ∃ body, Body body text rest ∧ expr? tree = some body

theorem exists_body_of_reads_bracketed (bodies : BodiesRead characters size)
    (within : text.length ≤ size) {label opening closing : String} {first last : Char}
    (defined : grammar.lookup? label = some (bracketed opening closing))
    (testsFirst : Pattern.tests opening = [(first == ·)])
    (testsLast : Pattern.tests closing = [(last == ·)])
    (reads : Reads grammar characters (.reference label) text tree rest) :
    ∃ inner stop body part bodyTree, text = first :: inner ∧ Body body inner stop ∧
      Layout stop (last :: rest) ∧ expr? bodyTree = some body ∧ Encloses bodyTree part ∧
      tree = .node label [part] (spanOf characters text rest) := by
  rcases (reads_reference_iff defined).mp reads with ⟨part, readsPart, equal⟩
  rcases exists_of_reads_bracketed testsFirst testsLast readsPart with
    ⟨inner, bodyTree, stop, whole, readsBody, layed, encloses⟩
  have shorter : inner.length < size := by
    rw [whole, List.length_cons] at within
    exact within
  rcases bodies inner bodyTree stop shorter readsBody with ⟨body, isBody, denotes⟩
  exact ⟨inner, stop, body, part, bodyTree, whole, isBody, layed, denotes, encloses, equal⟩

theorem exists_item_of_reads_core (bodies : BodiesRead characters size)
    (within : text.length ≤ size) (reads : Reads grammar characters itemCore text tree rest) :
    ∃ named item, Item named item text rest ∧ expr? tree = some item ∧
      (named = true → ¬ OpensWord rest) := by
  rcases reads_core_cases reads with name | term | group | option | repetition
  · rcases (passes_name_iff name.inside).mp ⟨tree, name⟩ with ⟨letters, isName, rfl, closed⟩
    exact ⟨true, _, .name isName, expr?_name name, fun _ => closed⟩
  · rcases (passes_term_iff term.inside).mp ⟨tree, term⟩ with ⟨pattern, quotable, rfl⟩
    exact ⟨false, _, .quoted quotable, expr?_term term, nofun⟩
  · rcases exists_body_of_reads_bracketed bodies within group_defined (tests_toString '(')
        (tests_toString ')')
        group with
      ⟨inner, stop, body, part, bodyTree, rfl, isBody, layed, denotes, encloses, rfl⟩
    refine ⟨false, body, .group isBody layed, ?_, nofun⟩
    rw [expr?_group encloses, denotes]
  · rcases exists_body_of_reads_bracketed bodies within option_defined (tests_toString '[')
        (tests_toString ']')
        option with
      ⟨inner, stop, body, part, bodyTree, rfl, isBody, layed, denotes, encloses, rfl⟩
    refine ⟨false, .optional body, .option isBody layed, ?_, nofun⟩
    rw [expr?_option encloses, denotes]
    rfl
  · rcases exists_body_of_reads_bracketed bodies within repeat_defined (tests_toString '\x7b')
        (tests_toString '\x7d')
        repetition with
      ⟨inner, stop, body, part, bodyTree, rfl, isBody, layed, denotes, encloses, rfl⟩
    refine ⟨false, .repetition body, .repetition isBody layed, ?_, nofun⟩
    rw [expr?_repeat encloses, denotes]
    rfl

theorem exists_item_of_reads (bodies : BodiesRead characters size)
    (within : text.length ≤ size)
    (reads : Reads grammar characters (.reference "item") text tree rest) :
    ∃ start named item, Layout text start ∧ Item named item start rest ∧
      expr? tree = some item ∧ (named = true → ¬ OpensWord rest) := by
  rcases (reads_reference_iff item_defined).mp reads with ⟨part, readsPart, rfl⟩
  rcases reads_pair_iff.mp readsPart with ⟨laid, start, core, lays, readsCore, equal⟩
  have layed := layout_of_reads lays
  have shorter := Nat.le_trans lays.after.length_le within
  rcases exists_item_of_reads_core bodies shorter readsCore with
    ⟨named, item, isItem, denotes, closed⟩
  have encloses : Encloses core part := ⟨laid, [], _, equal⟩
  refine ⟨start, named, item, layed, isItem, ?_, closed⟩
  rw [expr?_item encloses, denotes]

theorem exists_items_of_reads_rounds (bodies : BodiesRead characters size)
    {trees : List (Tree Char)} {named : Bool} (within : text.length ≤ size)
    (closed : named = true → ¬ OpensWord text)
    (reads : ReadsRounds grammar characters itemRound text trees rest) :
    ∃ items, Items named items text rest ∧ separated? trees = some items := by
  induction trees generalizing named text with
  | nil =>
      rcases advances_itemRound.readsRounds_iff.mp reads with
        ⟨_, _, rfl⟩ | ⟨_, _, _, _, _, equal⟩
      · exact ⟨[], .none, separated?_nil⟩
      · cases equal
  | cons tree others induction =>
      rcases advances_itemRound.readsRounds_iff.mp reads with
        ⟨_, equal, _⟩ | ⟨round, middle, further, readsRound, rounds, equal⟩
      · cases equal
      · cases equal
        rcases reads_triple_iff.mp readsRound with
          ⟨laid, start, comma, stop, itemTree, lays, readsComma, readsItem, rfl⟩
        have layed := layout_of_reads lays
        have atStop := (readsComma.after.trans lays.after).length_le
        have atMiddle := readsRound.after.length_le
        rcases exists_item_of_reads bodies (Nat.le_trans atStop within) readsItem with
          ⟨begin, next, item, layedItem, isItem, denotes, closedItem⟩
        rcases induction (Nat.le_trans atMiddle within) closedItem rounds with
          ⟨items, isItems, denotesItems⟩
        refine ⟨item :: items, ?_, separated?_cons denotes denotesItems⟩
        rcases reads_optional_iff.mp readsComma with ⟨_, found, _⟩ | ⟨_, _, rfl⟩
        · rw [eq_cons_of_reads (tests_toString ',') found] at layed
          exact .comma layed layedItem isItem isItems
        · refine .apart (layed.trans layedItem) ?_ isItem isItems
          -- Between two names that touch, the first would not have ended.
          rintro first second rfl
          subst second
          exact closed first isItem.opensWord

/-! ## Sequences and bodies -/

theorem exists_sequence_of_reads (bodies : BodiesRead characters size)
    (within : text.length ≤ size)
    (reads : Reads grammar characters (.reference "sequence") text tree rest) :
    ∃ sequence, Sequence sequence text rest ∧ expr? tree = some sequence := by
  rcases (reads_reference_iff sequence_defined).mp reads with ⟨part, readsPart, rfl⟩
  rcases reads_list_iff.mp readsPart with ⟨first, stop, trees, readsFirst, rounds, rfl⟩
  rcases exists_item_of_reads bodies within readsFirst with
    ⟨start, named, item, layed, isItem, denotes, closed⟩
  have shorter := Nat.le_trans readsFirst.after.length_le within
  rcases exists_items_of_reads_rounds bodies shorter closed rounds with
    ⟨items, isItems, denotesItems⟩
  exact ⟨_, .items layed isItem isItems, expr?_sequence denotes denotesItems⟩

theorem exists_branches_of_reads_rounds (bodies : BodiesRead characters size)
    {trees : List (Tree Char)} (within : text.length ≤ size)
    (reads : ReadsRounds grammar characters branchRound text trees rest) :
    ∃ branches, Branches branches text rest ∧ separated? trees = some branches := by
  induction trees generalizing text with
  | nil =>
      rcases advances_branchRound.readsRounds_iff.mp reads with
        ⟨_, _, rfl⟩ | ⟨_, _, _, _, _, equal⟩
      · exact ⟨[], .none, separated?_nil⟩
      · cases equal
  | cons tree others induction =>
      rcases advances_branchRound.readsRounds_iff.mp reads with
        ⟨_, equal, _⟩ | ⟨round, middle, further, readsRound, rounds, equal⟩
      · cases equal
      · cases equal
        rcases reads_triple_iff.mp readsRound with
          ⟨laid, bar, mark, start, branchTree, lays, readsBar, readsBranch, rfl⟩
        have layed := layout_of_reads lays
        rw [eq_cons_of_reads (tests_toString '|') readsBar] at layed
        have atStart := (readsBar.after.trans lays.after).length_le
        have atMiddle := readsRound.after.length_le
        rcases exists_sequence_of_reads bodies (Nat.le_trans atStart within) readsBranch with
          ⟨branch, isBranch, denotes⟩
        rcases induction (Nat.le_trans atMiddle within) rounds with
          ⟨branches, areBranches, denotesBranches⟩
        exact ⟨branch :: branches, .bar layed isBranch areBranches,
          separated?_cons denotes denotesBranches⟩

theorem bodiesRead (characters : List Char) (size : Nat) : BodiesRead characters size := by
  induction size with
  | zero =>
      intro text tree rest shorter
      exact absurd shorter (Nat.not_lt_zero _)
  | succ size bodies =>
      intro text tree rest shorter reads
      have within := Nat.le_of_lt_succ shorter
      rcases (reads_reference_iff alternatives_defined).mp reads with ⟨part, readsPart, rfl⟩
      rcases reads_list_iff.mp readsPart with ⟨first, stop, trees, readsFirst, rounds, rfl⟩
      rcases exists_sequence_of_reads bodies within readsFirst with ⟨branch, isBranch, denotes⟩
      have atStop := Nat.le_trans readsFirst.after.length_le within
      rcases exists_branches_of_reads_rounds bodies atStop rounds with
        ⟨branches, areBranches, denotesBranches⟩
      exact ⟨_, .branches isBranch areBranches, expr?_alternatives denotes denotesBranches⟩

theorem exists_body_of_reads
    (reads : Reads grammar characters (.reference "alternatives") text tree rest) :
    ∃ body, Body body text rest ∧ expr? tree = some body :=
  bodiesRead characters (text.length + 1) text tree rest (Nat.lt_succ_self _) reads

end Ebnf

end OrderedChoice
