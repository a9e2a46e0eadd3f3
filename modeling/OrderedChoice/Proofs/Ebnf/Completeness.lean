import OrderedChoice.Proofs.Ebnf.Soundness

/-! Whatever is a phrase of the notation is found as one, up to the same rest. Layout
and names go as far as they can and rounds are never given back, so this takes that
the rest cannot go on with another item or another alternative. -/

namespace OrderedChoice

namespace Ebnf

variable {characters text rest : List Char}

/-! ## What may follow -/

/-- The marks that may stand after a body, with layout before them. -/
def bodyMarks : List Char := [';', ')', ']', '\x7d']

def sequenceMarks : List Char := '|' :: bodyMarks

def Ends (marks : List Char) (text : List Char) : Prop :=
  ∃ mark ∈ marks, ∃ more, Layout text (mark :: more)

theorem not_opensLayout_cons {first : Char} {more : List Char} (unblank : isBlank first = false)
    (different : first ≠ '/') : ¬ OpensLayout (first :: more) := by
  rintro (⟨character, head, blank⟩ | ⟨content, whole⟩)
  · cases head
    rw [unblank] at blank
    cases blank
  · cases whole
    exact different rfl

theorem not_opensLayout_mark {mark : Char} {more : List Char} (member : mark ∈ marks)
    (different : mark ≠ '/') : ¬ OpensLayout (mark :: more) :=
  not_opensLayout_cons (marks_apart mark member).1 different

theorem not_opensWord_cons {first : Char} {more : List Char} (unword : isWord first = false) :
    ¬ OpensWord (first :: more) := by
  rintro ⟨character, head, word⟩
  cases head
  rw [unword] at word
  cases word

theorem not_opensWord_mark {mark : Char} {more : List Char} (member : mark ∈ marks) :
    ¬ OpensWord (mark :: more) :=
  not_opensWord_cons (marks_apart mark member).2

theorem sequenceMarks_apart : ∀ mark ∈ sequenceMarks, mark ∈ marks ∧ mark ≠ '/' := by
  simp only [sequenceMarks, bodyMarks, List.forall_mem_cons, List.not_mem_nil, false_implies,
    implies_true, and_true]
  decide

theorem Layout.eq_or_not_opensWord (layed : Layout text rest) :
    text = rest ∨ ¬ OpensWord text := by
  cases layed with
  | none => exact .inl rfl
  | blank blank _ => exact .inr (not_opensWord_cons (isWord_of_isBlank blank))
  | comment _ _ _ => exact .inr (not_opensWord_mark (by decide))

theorem Layout.not_opensWord (layed : Layout text rest) (closed : ¬ OpensWord rest) :
    ¬ OpensWord text := by
  rcases layed.eq_or_not_opensWord with rfl | closed
  · exact closed
  · exact closed

theorem Ends.not_opensWord (ends : Ends sequenceMarks text) : ¬ OpensWord text := by
  rcases ends with ⟨mark, member, more, layed⟩
  exact layed.not_opensWord (not_opensWord_mark (sequenceMarks_apart mark member).1)

theorem Ends.sequence (ends : Ends bodyMarks text) : Ends sequenceMarks text := by
  rcases ends with ⟨mark, member, more, layed⟩
  exact ⟨mark, List.mem_cons_of_mem _ member, more, layed⟩

theorem isBlank_of_isLead {character : Char} (lead : isLead character = true) :
    isBlank character = false := by
  apply Bool.eq_false_iff.mpr
  intro blank
  have word := isWord_of_isLead lead
  rw [isWord_of_isBlank blank] at word
  cases word

theorem Item.not_opensLayout {named : Bool} {item : Expr} (isItem : Item named item text rest) :
    ¬ OpensLayout text := by
  cases isItem with
  | @name letters rest isName =>
      cases letters with
      | nil => exact absurd isName id
      | cons first others =>
          have lead := isName.1
          apply not_opensLayout_cons (isBlank_of_isLead lead)
          rintro rfl
          rw [isLead_mark (by decide)] at lead
          cases lead
  | quoted => exact not_opensLayout_mark (by decide) (by decide)
  | group => exact not_opensLayout_mark (by decide) (by decide)
  | option => exact not_opensLayout_mark (by decide) (by decide)
  | repetition => exact not_opensLayout_mark (by decide) (by decide)

theorem Item.head_ne_comma {named : Bool} {item : Expr} (isItem : Item named item text rest) :
    text.head? ≠ some ',' := by
  cases isItem with
  | @name letters rest isName =>
      cases letters with
      | nil => exact absurd isName id
      | cons first others =>
          intro head
          cases head
          have lead := isName.1
          rw [isLead_mark (by decide)] at lead
          cases lead
  | quoted => simp
  | group => simp
  | option => simp
  | repetition => simp

theorem Items.not_opensWord {items : List Expr} (areItems : Items true items text rest)
    (closed : ¬ OpensWord rest) : ¬ OpensWord text := by
  cases areItems with
  | none => exact closed
  | comma layed _ _ _ => exact layed.not_opensWord (not_opensWord_mark (by decide))
  | @apart _ next item items text start stop rest layed apart isItem _ =>
      rcases layed.eq_or_not_opensWord with rfl | closed
      · cases isItem with
        | name => exact absurd rfl (apart rfl rfl)
        | quoted => exact not_opensWord_mark (by decide)
        | group => exact not_opensWord_mark (by decide)
        | option => exact not_opensWord_mark (by decide)
        | repetition => exact not_opensWord_mark (by decide)
      · exact closed

theorem Items.closes {next : Bool} {items : List Expr} (areItems : Items next items text rest)
    (ends : Ends sequenceMarks rest) : next = true → ¬ OpensWord text := by
  rintro rfl
  exact areItems.not_opensWord ends.not_opensWord

theorem Branches.ends {branches : List Expr} (areBranches : Branches branches text rest)
    (ends : Ends bodyMarks rest) : Ends sequenceMarks text := by
  cases areBranches with
  | none => exact ends.sequence
  | bar layed _ _ => exact ⟨'|', List.mem_cons_self, _, layed⟩

/-! ## Where rounds end -/

theorem rejects_enclosed {label opening closing : String} {first : Char}
    (defined : grammar.lookup? label = some (bracketed opening closing))
    (tests : Pattern.tests opening = [(first == ·)]) (inside : text <:+ characters)
    (head : text.head? ≠ some first) : Rejects grammar characters (.reference label) text :=
  (rejects_reference_iff defined).mpr (rejects_bracketed tests inside head)

theorem rejects_name_mark {mark : Char} {more : List Char} (member : mark ∈ marks)
    (inside : mark :: more <:+ characters) :
    Rejects grammar characters (.reference "name") (mark :: more) := by
  apply rejects_name inside
  intro character head
  cases head
  exact isLead_mark member

theorem rejects_core {mark : Char} {more : List Char} (member : mark ∈ sequenceMarks)
    (inside : mark :: more <:+ characters) :
    Rejects grammar characters itemCore (mark :: more) := by
  have unquoted : mark ≠ '"' := ne_of_mem_of_not_mem member (by decide)
  have ungrouped : mark ≠ '(' := ne_of_mem_of_not_mem member (by decide)
  have unoptional : mark ≠ '[' := ne_of_mem_of_not_mem member (by decide)
  have unrepeated : mark ≠ '\x7b' := ne_of_mem_of_not_mem member (by decide)
  have name := rejects_name_mark (sequenceMarks_apart mark member).1 inside
  have term := rejects_term inside (by simpa using unquoted)
  have group := rejects_enclosed group_defined (tests_toString '(') inside
    (by simpa using ungrouped)
  have option := rejects_enclosed option_defined (tests_toString '[') inside
    (by simpa using unoptional)
  have repetition := rejects_enclosed repeat_defined (tests_toString '\x7b') inside
    (by simpa using unrepeated)
  simp only [itemCore, rejects_choice_cons_iff]
  exact ⟨name, term, group, option, repetition, rejects_choice_nil inside⟩

theorem not_opensLayout_sequenceMark {mark : Char} {more : List Char}
    (member : mark ∈ sequenceMarks) : ¬ OpensLayout (mark :: more) := by
  rcases sequenceMarks_apart mark member with ⟨apart, different⟩
  exact not_opensLayout_mark apart different

theorem Ends.passes_layout (ends : Ends sequenceMarks text) (inside : text <:+ characters) :
    ∃ mark ∈ sequenceMarks, ∃ more, Passes grammar characters layout text (mark :: more) := by
  rcases ends with ⟨mark, member, more, layed⟩
  exact ⟨mark, member, more,
    (passes_layout_iff inside).mpr ⟨layed, not_opensLayout_sequenceMark member⟩⟩

theorem rejects_itemRound (ends : Ends sequenceMarks text) (inside : text <:+ characters) :
    Rejects grammar characters itemRound text := by
  rcases ends.passes_layout inside with ⟨mark, member, more, lays⟩
  have insideMark := lays.rest_inside
  have comma : Rejects grammar characters (.terminal ",") (mark :: more) := by
    have different : mark ≠ ',' := ne_of_mem_of_not_mem member (by decide)
    apply (rejects_literal_iff (tests_toString ',') insideMark).mpr
    simpa using different
  have absent : Passes grammar characters (.optional (.terminal ",")) (mark :: more)
      (mark :: more) := passes_optional_iff.mpr (.inr ⟨comma, rfl⟩)
  have unlayed : Passes grammar characters layout (mark :: more) (mark :: more) :=
    (passes_layout_iff insideMark).mpr ⟨.none, not_opensLayout_sequenceMark member⟩
  have core : Rejects grammar characters (.sequence [itemCore]) (mark :: more) :=
    rejects_sequence_cons_iff.mpr (.inl (rejects_core member insideMark))
  have item : Rejects grammar characters (.reference "item") (mark :: more) :=
    (rejects_reference_iff item_defined).mpr
      (rejects_sequence_cons_iff.mpr (.inr ⟨_, unlayed, core⟩))
  unfold itemRound
  apply rejects_sequence_cons_iff.mpr
  refine .inr ⟨_, lays, rejects_sequence_cons_iff.mpr (.inr ⟨_, absent, ?_⟩)⟩
  exact rejects_sequence_cons_iff.mpr (.inl item)

theorem rejects_branchRound (ends : Ends bodyMarks text) (inside : text <:+ characters) :
    Rejects grammar characters branchRound text := by
  rcases ends with ⟨mark, member, more, layed⟩
  have closed : ¬ OpensLayout (mark :: more) :=
    not_opensLayout_sequenceMark (List.mem_cons_of_mem '|' member)
  have lays : Passes grammar characters layout text (mark :: more) :=
    (passes_layout_iff inside).mpr ⟨layed, closed⟩
  have bar : Rejects grammar characters (.terminal "|") (mark :: more) := by
    have different : mark ≠ '|' := ne_of_mem_of_not_mem member (by decide)
    apply (rejects_literal_iff (tests_toString '|') lays.rest_inside).mpr
    simpa using different
  unfold branchRound
  apply rejects_sequence_cons_iff.mpr
  exact .inr ⟨_, lays, rejects_sequence_cons_iff.mpr (.inl bar)⟩

/-! ## Finding phrases -/

theorem exists_cons_of_reads_enclosed {label opening closing : String} {first : Char}
    {tree : Tree Char} (defined : grammar.lookup? label = some (bracketed opening closing))
    (tests : Pattern.tests opening = [(first == ·)])
    (reads : Reads grammar characters (.reference label) text tree rest) :
    ∃ inner, text = first :: inner := by
  rcases (reads_reference_iff defined).mp reads with ⟨part, readsPart, _⟩
  rcases reads_sequence_iff.mp readsPart with ⟨_, items, _⟩
  rcases readsItems_cons_iff.mp items with ⟨mark, inner, _, opens, _, _⟩
  exact ⟨inner, eq_cons_of_reads tests opens⟩

/-- The order in which the kinds of items are tried does not matter, since no two of them begin
with the same character. -/
theorem reads_core_iff {tree : Tree Char} :
    Reads grammar characters itemCore text tree rest ↔
      Reads grammar characters (.reference "name") text tree rest ∨
        Reads grammar characters (.reference "term") text tree rest ∨
        Reads grammar characters (.reference "group") text tree rest ∨
        Reads grammar characters (.reference "option") text tree rest ∨
        Reads grammar characters (.reference "repeat") text tree rest := by
  refine ⟨reads_core_cases, ?_⟩
  simp only [itemCore, reads_choice_cons_iff]
  rintro (name | term | group | option | repetition)
  · exact .inl name
  -- the first character rules out every kind that is tried before
  · rcases (passes_term_iff term.inside).mp ⟨tree, term⟩ with ⟨_, _, rfl⟩
    exact .inr ⟨rejects_name_mark (by decide) term.inside, .inl term⟩
  · rcases exists_cons_of_reads_enclosed group_defined (tests_toString '(') group with
      ⟨inner, rfl⟩
    have name := rejects_name_mark (by decide) group.inside
    have term := rejects_term group.inside (by simp)
    exact .inr ⟨name, .inr ⟨term, .inl group⟩⟩
  · rcases exists_cons_of_reads_enclosed option_defined (tests_toString '[') option with
      ⟨inner, rfl⟩
    have name := rejects_name_mark (by decide) option.inside
    have term := rejects_term option.inside (by simp)
    have group := rejects_enclosed group_defined (tests_toString '(') option.inside (by simp)
    exact .inr ⟨name, .inr ⟨term, .inr ⟨group, .inl option⟩⟩⟩
  · rcases exists_cons_of_reads_enclosed repeat_defined (tests_toString '\x7b') repetition with
      ⟨inner, rfl⟩
    have name := rejects_name_mark (by decide) repetition.inside
    have term := rejects_term repetition.inside (by simp)
    have group := rejects_enclosed group_defined (tests_toString '(') repetition.inside (by simp)
    have option := rejects_enclosed option_defined (tests_toString '[') repetition.inside
      (by simp)
    exact .inr ⟨name, .inr ⟨term, .inr ⟨group, .inr ⟨option, .inl repetition⟩⟩⟩⟩

theorem passes_comma {more : List Char} (inside : ',' :: more <:+ characters) :
    Passes grammar characters (.optional (.terminal ",")) (',' :: more) more :=
  passes_optional_iff.mpr (.inl ((passes_literal_iff (tests_toString ',') inside).mpr rfl))

theorem passes_no_comma (inside : text <:+ characters) (head : text.head? ≠ some ',') :
    Passes grammar characters (.optional (.terminal ",")) text text :=
  passes_optional_iff.mpr (.inr ⟨(rejects_literal_iff (tests_toString ',') inside).mpr head, rfl⟩)

theorem exists_reads_branchRound {start : List Char} {branch : Tree Char}
    (inside : text <:+ characters) (layed : Layout text ('|' :: start))
    (reads : Reads grammar characters (.reference "sequence") start branch rest) :
    ∃ laid mark span, Reads grammar characters branchRound text
      (.node Operator.sequence.label [laid, mark, branch] span) rest := by
  have closed : ¬ OpensLayout ('|' :: start) :=
    not_opensLayout_mark (by decide) (by decide)
  obtain ⟨laid, lays⟩ : Passes grammar characters layout text ('|' :: start) :=
    (passes_layout_iff inside).mpr ⟨layed, closed⟩
  obtain ⟨mark, readsMark⟩ : Passes grammar characters (.terminal "|") ('|' :: start) start :=
    (passes_literal_iff (tests_toString '|') lays.rest_inside).mpr rfl
  exact ⟨laid, mark, _,
    reads_triple_iff.mpr ⟨laid, _, mark, _, branch, lays, readsMark, reads, rfl⟩⟩

theorem exists_reads_enclosed {label opening closing : String} {first last : Char}
    (defined : grammar.lookup? label = some (bracketed opening closing))
    (testsFirst : Pattern.tests opening = [(first == ·)])
    (testsLast : Pattern.tests closing = [(last == ·)])
    (member : last ∈ bodyMarks) {inner stop : List Char} (inside : first :: inner <:+ characters)
    (layed : Layout stop (last :: rest)) {bodyTree : Tree Char}
    (reads : Reads grammar characters (.reference "alternatives") inner bodyTree stop) :
    ∃ part span, Reads grammar characters (.reference label) (first :: inner)
      (.node label [part] span) rest ∧ Encloses bodyTree part := by
  have closed : ¬ OpensLayout (last :: rest) :=
    not_opensLayout_sequenceMark (List.mem_cons_of_mem '|' member)
  rcases exists_reads_bracketed testsFirst testsLast inside reads layed closed with
    ⟨part, readsPart, encloses⟩
  exact ⟨part, _, (reads_reference_iff defined).mpr ⟨part, readsPart, rfl⟩, encloses⟩

theorem exists_reads_item {start : List Char} {core : Tree Char} (inside : text <:+ characters)
    (layed : Layout text start) (closed : ¬ OpensLayout start)
    (reads : Reads grammar characters itemCore start core rest) :
    ∃ tree, Reads grammar characters (.reference "item") text tree rest ∧
      expr? tree = expr? core := by
  obtain ⟨laid, lays⟩ : Passes grammar characters layout text start :=
    (passes_layout_iff inside).mpr ⟨layed, closed⟩
  have pair := reads_pair_iff.mpr ⟨laid, start, core, lays, reads, rfl⟩
  have encloses : Encloses core (.node Operator.sequence.label [laid, core]
      (spanOf characters text rest)) := ⟨laid, [], _, rfl⟩
  exact ⟨_, (reads_reference_iff item_defined).mpr ⟨_, pair, rfl⟩, expr?_item encloses _⟩

theorem exists_reads_itemRound {start stop : List Char} {item : Tree Char}
    (inside : text <:+ characters) (layed : Layout text start) (closed : ¬ OpensLayout start)
    (comma : Passes grammar characters (.optional (.terminal ",")) start stop)
    (reads : Reads grammar characters (.reference "item") stop item rest) :
    ∃ laid mark span, Reads grammar characters itemRound text
      (.node Operator.sequence.label [laid, mark, item] span) rest := by
  obtain ⟨laid, lays⟩ : Passes grammar characters layout text start :=
    (passes_layout_iff inside).mpr ⟨layed, closed⟩
  rcases comma with ⟨mark, readsMark⟩
  exact ⟨laid, mark, _, reads_triple_iff.mpr ⟨laid, _, mark, _, item, lays, readsMark, reads, rfl⟩⟩

mutual
theorem Item.exists_reads {named : Bool} {item : Expr} {text rest : List Char} :
    Item named item text rest → text <:+ characters → (named = true → ¬ OpensWord rest) →
    ∃ tree, Reads grammar characters itemCore text tree rest ∧ expr? tree = some item
  | .name isName, inside, closed => by
      rcases (passes_name_iff inside).mpr ⟨_, isName, rfl, closed rfl⟩ with ⟨tree, reads⟩
      exact ⟨tree, reads_core_iff.mpr (.inl reads), expr?_name reads⟩
  | .quoted quotable, inside, _ => by
      rcases (passes_term_iff inside).mpr ⟨_, quotable, rfl⟩ with ⟨tree, reads⟩
      exact ⟨tree, reads_core_iff.mpr (.inr (.inl reads)), expr?_term reads⟩
  | .group body layed, inside, _ => by
      have insideBody := (List.suffix_cons _ _).trans inside
      have ends : Ends bodyMarks _ := ⟨')', by decide, _, layed⟩
      rcases body.exists_reads insideBody ends with ⟨bodyTree, readsBody, denotes⟩
      rcases exists_reads_enclosed group_defined (tests_toString '(') (tests_toString ')')
        (by decide) inside layed
        readsBody with ⟨part, span, reads, encloses⟩
      exact ⟨_, reads_core_iff.mpr (.inr (.inr (.inl reads))),
        (expr?_group encloses span).trans denotes⟩
  | .option body layed, inside, _ => by
      have insideBody := (List.suffix_cons _ _).trans inside
      have ends : Ends bodyMarks _ := ⟨']', by decide, _, layed⟩
      rcases body.exists_reads insideBody ends with ⟨bodyTree, readsBody, denotes⟩
      rcases exists_reads_enclosed option_defined (tests_toString '[') (tests_toString ']')
        (by decide) inside layed
        readsBody with ⟨part, span, reads, encloses⟩
      exact ⟨_, reads_core_iff.mpr (.inr (.inr (.inr (.inl reads)))),
        (expr?_option encloses span).trans (by rw [denotes]; rfl)⟩
  | .repetition body layed, inside, _ => by
      have insideBody := (List.suffix_cons _ _).trans inside
      have ends : Ends bodyMarks _ := ⟨'\x7d', by decide, _, layed⟩
      rcases body.exists_reads insideBody ends with ⟨bodyTree, readsBody, denotes⟩
      rcases exists_reads_enclosed repeat_defined (tests_toString '\x7b') (tests_toString '\x7d')
        (by decide) inside layed
        readsBody with ⟨part, span, reads, encloses⟩
      exact ⟨_, reads_core_iff.mpr (.inr (.inr (.inr (.inr reads)))),
        (expr?_repeat encloses span).trans (by rw [denotes]; rfl)⟩

theorem Items.exists_reads {named : Bool} {items : List Expr} {text rest : List Char} :
    Items named items text rest → text <:+ characters → Ends sequenceMarks rest →
    ∃ trees, ReadsRounds grammar characters itemRound text trees rest ∧
      separated? trees = some items
  | .none, inside, ends => by
      have rejects := rejects_itemRound ends inside
      exact ⟨[], advances_itemRound.readsRounds_iff.mpr (.inl ⟨rejects, rfl, rfl⟩),
        separated?_nil⟩
  | .comma layed layedItem item others, inside, ends => by
      have insideMark := layed.suffix.trans inside
      have insideMiddle := (List.suffix_cons _ _).trans insideMark
      have insideStart := layedItem.suffix.trans insideMiddle
      rcases item.exists_reads insideStart (others.closes ends) with ⟨core, readsCore, denotes⟩
      rcases exists_reads_item insideMiddle layedItem item.not_opensLayout readsCore with
        ⟨itemTree, readsItem, same⟩
      rcases exists_reads_itemRound inside layed
          (not_opensLayout_mark (by decide) (by decide)) (passes_comma insideMark)
          readsItem with ⟨laid, mark, span, round⟩
      rcases others.exists_reads readsItem.rest_inside ends with ⟨trees, rounds, denotesOthers⟩
      exact ⟨_, advances_itemRound.readsRounds_iff.mpr (.inr ⟨_, _, trees, round, rounds, rfl⟩),
        separated?_cons (same.trans denotes) denotesOthers⟩
  | .apart layed _ item others, inside, ends => by
      -- no comma comes first, since an item does not begin with one
      have insideStart := layed.suffix.trans inside
      rcases item.exists_reads insideStart (others.closes ends) with ⟨core, readsCore, denotes⟩
      rcases exists_reads_item insideStart .none item.not_opensLayout readsCore with
        ⟨itemTree, readsItem, same⟩
      rcases exists_reads_itemRound inside layed item.not_opensLayout
          (passes_no_comma insideStart item.head_ne_comma) readsItem with
        ⟨laid, mark, span, round⟩
      rcases others.exists_reads readsItem.rest_inside ends with ⟨trees, rounds, denotesOthers⟩
      exact ⟨_, advances_itemRound.readsRounds_iff.mpr (.inr ⟨_, _, trees, round, rounds, rfl⟩),
        separated?_cons (same.trans denotes) denotesOthers⟩

theorem Sequence.exists_reads {sequence : Expr} {text rest : List Char} :
    Sequence sequence text rest → text <:+ characters → Ends sequenceMarks rest →
    ∃ tree, Reads grammar characters (.reference "sequence") text tree rest ∧
      expr? tree = some sequence
  | .items layed item others, inside, ends => by
      have insideStart := layed.suffix.trans inside
      rcases item.exists_reads insideStart (others.closes ends) with ⟨core, readsCore, denotes⟩
      rcases exists_reads_item inside layed item.not_opensLayout readsCore with
        ⟨itemTree, readsItem, same⟩
      rcases others.exists_reads readsItem.rest_inside ends with ⟨trees, rounds, denotesOthers⟩
      have list := reads_list_iff.mpr ⟨itemTree, _, trees, readsItem, rounds, rfl⟩
      exact ⟨_, (reads_reference_iff sequence_defined).mpr ⟨_, list, rfl⟩,
        expr?_sequence (same.trans denotes) denotesOthers⟩

theorem Branches.exists_reads {branches : List Expr} {text rest : List Char} :
    Branches branches text rest → text <:+ characters → Ends bodyMarks rest →
    ∃ trees, ReadsRounds grammar characters branchRound text trees rest ∧
      separated? trees = some branches
  | .none, inside, ends => by
      have rejects := rejects_branchRound ends inside
      exact ⟨[], advances_branchRound.readsRounds_iff.mpr (.inl ⟨rejects, rfl, rfl⟩),
        separated?_nil⟩
  | .bar layed branch others, inside, ends => by
      have insideMark := layed.suffix.trans inside
      have insideStart := (List.suffix_cons _ _).trans insideMark
      rcases branch.exists_reads insideStart (others.ends ends) with
        ⟨branchTree, readsBranch, denotes⟩
      rcases exists_reads_branchRound inside layed readsBranch with ⟨laid, mark, span, round⟩
      rcases others.exists_reads readsBranch.rest_inside ends with
        ⟨trees, rounds, denotesOthers⟩
      exact ⟨_, advances_branchRound.readsRounds_iff.mpr (.inr ⟨_, _, trees, round, rounds, rfl⟩),
        separated?_cons denotes denotesOthers⟩

theorem Body.exists_reads {body : Expr} {text rest : List Char} :
    Body body text rest → text <:+ characters → Ends bodyMarks rest →
    ∃ tree, Reads grammar characters (.reference "alternatives") text tree rest ∧
      expr? tree = some body
  | .branches branch others, inside, ends => by
      rcases branch.exists_reads inside (others.ends ends) with
        ⟨branchTree, readsBranch, denotes⟩
      rcases others.exists_reads readsBranch.rest_inside ends with
        ⟨trees, rounds, denotesOthers⟩
      have list := reads_list_iff.mpr ⟨branchTree, _, trees, readsBranch, rounds, rfl⟩
      exact ⟨_, (reads_reference_iff alternatives_defined).mpr ⟨_, list, rfl⟩,
        expr?_alternatives denotes denotesOthers⟩
end

end Ebnf

end OrderedChoice
