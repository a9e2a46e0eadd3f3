import OrderedChoice.Proofs.Ebnf.Lexical

/-! The trees of phrases: how the rules for bodies put them together, and what
reading makes of them. -/

namespace OrderedChoice

namespace Ebnf

variable {characters text rest : List Char} {tree : Tree Char}

/-! ## Words -/

theorem expr?_name {name : List Char}
    (reads : Reads grammar characters (.reference "name") (name ++ rest) tree rest) :
    expr? tree = some (.reference (String.ofList name)) := by
  rcases (reads_reference_iff name_defined).mp reads with ⟨part, _, equal⟩
  have whole := List.append_cancel_right reads.text_eq
  subst equal
  rw [Tree.elements_node] at whole
  rw [whole]
  rfl

theorem expr?_term {pattern : List Char}
    (reads : Reads grammar characters (.reference "term") ('"' :: (pattern ++ '"' :: rest)) tree
      rest) :
    expr? tree = some (.terminal (String.ofList pattern)) := by
  rcases (reads_reference_iff term_defined).mp reads with ⟨part, _, equal⟩
  have whole := reads.text_eq
  have split : '"' :: (pattern ++ '"' :: rest) = ('"' :: (pattern ++ ['"'])) ++ rest := by simp
  rw [split] at whole
  have elements := List.append_cancel_right whole
  subst equal
  rw [Tree.elements_node] at elements
  have inner : unquoted (Tree.elementsOfAll [part]) = String.ofList pattern := by
    rw [← elements, unquoted, List.tail_cons, List.dropLast_concat]
  exact congrArg (fun text => some (Expr.terminal text)) inner

/-! ## Bracketed bodies -/

def bracketed (opening closing : String) : Expr :=
  .sequence [.terminal opening, .reference "alternatives", layout, .terminal closing]

theorem group_defined : grammar.lookup? "group" = some (bracketed "(" ")") := rfl

theorem option_defined : grammar.lookup? "option" = some (bracketed "[" "]") := rfl

theorem repeat_defined : grammar.lookup? "repeat" = some (bracketed "\x7b" "\x7d") := rfl

def Encloses (body tree : Tree Char) : Prop :=
  ∃ first others span, tree = .node Operator.sequence.label (first :: body :: others) span

theorem rejects_bracketed {opening closing : String} {first : Char}
    (testsFirst : Pattern.tests opening = [(first == ·)]) (inside : text <:+ characters)
    (head : text.head? ≠ some first) :
    Rejects grammar characters (bracketed opening closing) text := by
  unfold bracketed
  rw [rejects_sequence_cons_iff]
  exact .inl ((rejects_literal_iff testsFirst inside).mpr head)

section Bracketed

variable {opening closing : String} {first last : Char}
  (testsFirst : Pattern.tests opening = [(first == ·)])
  (testsLast : Pattern.tests closing = [(last == ·)])

include testsFirst testsLast

/-- What stands between the marks is a body, and layout after it. -/
theorem exists_of_reads_bracketed
    (reads : Reads grammar characters (bracketed opening closing) text tree rest) :
    ∃ inner body stop, text = first :: inner ∧
      Reads grammar characters (.reference "alternatives") inner body stop ∧
      Layout stop (last :: rest) ∧ Encloses body tree := by
  rcases reads_sequence_iff.mp reads with ⟨_, items, equal⟩
  rcases readsItems_cons_iff.mp items with ⟨mark, inner, _, opens, afterMark, rfl⟩
  rcases readsItems_cons_iff.mp afterMark with ⟨body, stop, _, readsBody, afterBody, rfl⟩
  rcases readsItems_cons_iff.mp afterBody with ⟨laid, close, _, lays, single, rfl⟩
  rcases readsItems_single_iff.mp single with ⟨otherMark, closes, rfl⟩
  have start := eq_cons_of_reads testsFirst opens
  have stops := eq_cons_of_reads testsLast closes
  subst stops
  exact ⟨inner, body, stop, start, readsBody, layout_of_reads lays, mark, _, _, equal⟩

theorem exists_reads_bracketed {inner stop : List Char} {body : Tree Char}
    (inside : first :: inner <:+ characters)
    (readsBody : Reads grammar characters (.reference "alternatives") inner body stop)
    (layed : Layout stop (last :: rest)) (closed : ¬ OpensLayout (last :: rest)) :
    ∃ tree, Reads grammar characters (bracketed opening closing) (first :: inner) tree rest ∧
      Encloses body tree := by
  obtain ⟨mark, opens⟩ : Passes grammar characters (.terminal opening) (first :: inner) inner :=
    (passes_literal_iff testsFirst inside).mpr rfl
  obtain ⟨laid, lays⟩ : Passes grammar characters layout stop (last :: rest) :=
    (passes_layout_iff readsBody.rest_inside).mpr ⟨layed, closed⟩
  obtain ⟨otherMark, closes⟩ :
      Passes grammar characters (.terminal closing) (last :: rest) rest :=
    (passes_literal_iff testsLast lays.rest_inside).mpr rfl
  have single := readsItems_single_iff.mpr ⟨otherMark, closes, rfl⟩
  have afterBody := readsItems_cons_iff.mpr ⟨laid, _, _, lays, single, rfl⟩
  have afterMark := readsItems_cons_iff.mpr ⟨body, _, _, readsBody, afterBody, rfl⟩
  have items := readsItems_cons_iff.mpr ⟨mark, _, _, opens, afterMark, rfl⟩
  exact ⟨_, reads_sequence_iff.mpr ⟨_, items, rfl⟩, mark, _, _, rfl⟩

end Bracketed

/-! ## Items -/

def itemCore : Expr :=
  .choice [.reference "name", .reference "term", .reference "group", .reference "option",
    .reference "repeat"]

theorem item_defined : grammar.lookup? "item" = some (.sequence [layout, itemCore]) := rfl

theorem expr?_group {body part : Tree Char} (encloses : Encloses body part) (span : Span) :
    expr? (.node "group" [part] span) = expr? body := by
  rcases encloses with ⟨first, others, inner, rfl⟩
  rfl

theorem expr?_option {body part : Tree Char} (encloses : Encloses body part) (span : Span) :
    expr? (.node "option" [part] span) = (expr? body).map .optional := by
  rcases encloses with ⟨first, others, inner, rfl⟩
  rw [Option.map_eq_bind]
  rfl

theorem expr?_repeat {body part : Tree Char} (encloses : Encloses body part) (span : Span) :
    expr? (.node "repeat" [part] span) = (expr? body).map .repetition := by
  rcases encloses with ⟨first, others, inner, rfl⟩
  rw [Option.map_eq_bind]
  rfl

theorem expr?_item {core part : Tree Char} (encloses : Encloses core part) (span : Span) :
    expr? (.node "item" [part] span) = expr? core := by
  rcases encloses with ⟨first, others, inner, rfl⟩
  rfl

/-! ## Sequences and alternatives -/

def itemRound : Expr := .sequence [layout, .optional (.terminal ","), .reference "item"]

def branchRound : Expr := .sequence [layout, .terminal "|", .reference "sequence"]

theorem sequence_defined : grammar.lookup? "sequence" =
    some (.sequence [.reference "item", .repetition itemRound]) := rfl

theorem alternatives_defined : grammar.lookup? "alternatives" =
    some (.sequence [.reference "sequence", .repetition branchRound]) := rfl

theorem separated?_nil : separated? [] = some [] := rfl

theorem separated?_cons {label : String} {first second inner : Tree Char} {span : Span}
    {others : List (Tree Char)} {expr : Expr} {exprs : List Expr}
    (reads : expr? inner = some expr) (readsOthers : separated? others = some exprs) :
    separated? (.node label [first, second, inner] span :: others) = some (expr :: exprs) := by
  have whole : separated? (.node label [first, second, inner] span :: others) =
      (expr? inner).bind fun head => (separated? others).bind fun tail =>
        some (head :: tail) := rfl
  rw [whole, reads, readsOthers]
  rfl

section Lists

variable {label otherLabel : String} {first : Tree Char} {more : List (Tree Char)}
  {inner outer whole : Span} {expr : Expr} {exprs : List Expr}
  (reads : expr? first = some expr) (readsMore : separated? more = some exprs)

include reads readsMore

theorem expr?_sequence :
    expr? (.node "sequence" [.node label [first, .node otherLabel more inner] outer] whole) =
      some (sequenceOf (expr :: exprs)) := by
  have parts : expr? (.node "sequence" [.node label [first, .node otherLabel more inner] outer]
      whole) = (expr? first).bind fun head => (separated? more).bind fun tail =>
        some (sequenceOf (head :: tail)) := rfl
  rw [parts, reads, readsMore]
  rfl

theorem expr?_alternatives :
    expr? (.node "alternatives" [.node label [first, .node otherLabel more inner] outer] whole) =
      some (choiceOf (expr :: exprs)) := by
  have parts : expr? (.node "alternatives" [.node label [first, .node otherLabel more inner]
      outer] whole) = (expr? first).bind fun head => (separated? more).bind fun tail =>
        some (choiceOf (head :: tail)) := rfl
  rw [parts, reads, readsMore]
  rfl

end Lists

/-! ## Progress -/

theorem Layout.suffix (layed : Layout text rest) : rest <:+ text := by
  induction layed with
  | none => exact List.suffix_refl _
  | blank _ _ induction => exact induction.trans (List.suffix_cons _ _)
  | @comment content text rest _ _ _ induction =>
      exact induction.trans (List.suffix_append ('/' :: '/' :: content) text)

theorem reads_core_cases (reads : Reads grammar characters itemCore text tree rest) :
    Reads grammar characters (.reference "name") text tree rest ∨
      Reads grammar characters (.reference "term") text tree rest ∨
      Reads grammar characters (.reference "group") text tree rest ∨
      Reads grammar characters (.reference "option") text tree rest ∨
      Reads grammar characters (.reference "repeat") text tree rest := by
  unfold itemCore at reads
  simp only [reads_choice_cons_iff, not_reads_choice_nil, and_false, or_false] at reads
  rcases reads with name | ⟨_, term | ⟨_, group | ⟨_, option | ⟨_, repetition⟩⟩⟩⟩
  · exact .inl name
  · exact .inr (.inl term)
  · exact .inr (.inr (.inl group))
  · exact .inr (.inr (.inr (.inl option)))
  · exact .inr (.inr (.inr (.inr repetition)))

theorem advances_bracketed {label opening closing : String} {first : Char}
    (defined : grammar.lookup? label = some (bracketed opening closing))
    (tests : Pattern.tests opening = [(first == ·)]) :
    Advances grammar characters (.reference label) := by
  have mark := advances_single grammar characters tests
  exact (mark.sequence List.mem_cons_self).reference defined

theorem advances_core : Advances grammar characters itemCore := by
  intro text tree rest reads
  rcases reads_core_cases reads with name | term | group | option | repetition
  · rcases (passes_name_iff name.inside).mp ⟨tree, name⟩ with ⟨letters, isName, rfl, _⟩
    cases letters with
    | nil => exact absurd isName id
    | cons first others =>
        simp only [List.length_append, List.length_cons]
        omega
  · rcases (passes_term_iff term.inside).mp ⟨tree, term⟩ with ⟨pattern, _, rfl⟩
    simp only [List.length_append, List.length_cons]
    omega
  · exact advances_bracketed group_defined (tests_toString '(') _ _ _ group
  · exact advances_bracketed option_defined (tests_toString '[') _ _ _ option
  · exact advances_bracketed repeat_defined (tests_toString '\x7b') _ _ _ repetition

theorem advances_itemRound : Advances grammar characters itemRound := by
  have item : Advances grammar characters (.reference "item") :=
    (advances_core.sequence (by simp)).reference item_defined
  exact item.sequence (by simp)

theorem advances_branchRound : Advances grammar characters branchRound := by
  have mark := advances_single grammar characters (tests_toString '|')
  exact mark.sequence (by simp)

end Ebnf

end OrderedChoice
