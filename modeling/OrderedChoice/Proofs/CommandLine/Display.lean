import OrderedChoice.Proofs.CommandLine.Printed
import OrderedChoice.Proofs.Derivation.Conformance
import OrderedChoice.Proofs.Ebnf.Acceptance
import OrderedChoice.Proofs.Text.SingleLine

/-! What is displayed on request. Every rule of a grammar and every tree takes a line of its own,
and none of these lines is the message that all went well, whatever the rules are called and
whatever the patterns hold. The grammars that are displayed are the notation and those that
have been read, and the trees are those that conform to them. -/

namespace OrderedChoice

/-! ## Expressions -/

theorem newline_not_mem_intercalate {between : String} {texts : List String}
    (apart : '\n' ∉ between.toList) (unfed : ∀ text ∈ texts, '\n' ∉ text.toList) :
    '\n' ∉ (between.intercalate texts).toList := by
  rw [String.toList_intercalate]
  induction texts with
  | nil => exact List.not_mem_nil
  | cons first others induction =>
      rw [List.forall_mem_cons] at unfed
      cases others with
      | nil =>
          rw [List.map_singleton, List.intercalate_singleton]
          exact unfed.1
      | cons second others =>
          rw [List.map_cons, List.map_cons, List.intercalate_cons_cons, ← List.map_cons,
            List.mem_append, List.mem_append, not_or, not_or]
          exact ⟨⟨unfed.1, apart⟩, induction unfed.2⟩

namespace Expr

def Inline (expr : Expr) : Prop :=
  ∀ pattern ∈ expr.patterns, '\n' ∉ pattern.toList

theorem Inline.of_mem {part : Expr} {parts : List Expr}
    (inline : ∀ pattern ∈ patternsInAll parts, '\n' ∉ pattern.toList) (member : part ∈ parts) :
    part.Inline := by
  rw [patternsInAll_eq] at inline
  exact fun pattern inside => inline pattern (List.mem_flatMap.mpr ⟨part, member, inside⟩)

theorem inline_patternsInAll {parts : List Expr} (inline : ∀ part ∈ parts, part.Inline) :
    ∀ pattern ∈ patternsInAll parts, '\n' ∉ pattern.toList := by
  intro pattern inside
  rw [patternsInAll_eq] at inside
  obtain ⟨part, member, within⟩ := List.mem_flatMap.mp inside
  exact inline part member pattern within

theorem Inline.of_optional {operand : Expr} (inline : (optional operand).Inline) :
    operand.Inline :=
  inline

theorem Inline.of_repetition {operand : Expr} (inline : (repetition operand).Inline) :
    operand.Inline :=
  inline

theorem newline_not_mem_quotePattern {pattern : String} (unfed : '\n' ∉ pattern.toList) :
    '\n' ∉ (quotePattern pattern).toList := by
  have inside : '\n' ∉ pattern.toList.flatMap escaped := by
    intro member
    obtain ⟨character, among, fed⟩ := List.mem_flatMap.mp member
    unfold escaped at fed
    split at fed
    · revert fed
      decide
    · exact unfed (List.mem_singleton.mp fed ▸ among)
  have shape : (quotePattern pattern).toList = '"' :: (pattern.toList.flatMap escaped ++ ['"']) :=
    toList_describe_terminal pattern
  rw [shape]
  simp [inside]

theorem newline_not_mem_between {opening middle closing : String}
    (outside : '\n' ∉ opening.toList ∧ '\n' ∉ closing.toList) (inside : '\n' ∉ middle.toList) :
    '\n' ∉ (opening ++ middle ++ closing).toList := by
  rw [String.toList_append, String.toList_append, List.mem_append, List.mem_append, not_or, not_or]
  exact ⟨⟨outside.1, inside⟩, outside.2⟩

mutual
theorem newline_not_mem_describe :
    (expr : Expr) → expr.Inline → (∀ name ∈ expr.references, '\n' ∉ name.toList) →
      '\n' ∉ expr.describe.toList
  | .terminal _, inline, _ => newline_not_mem_quotePattern (inline _ (List.mem_singleton_self _))
  | .reference _, _, named => named _ (List.mem_singleton_self _)
  | .choice alternatives, inline, named => by
      have unfed := newline_not_mem_describeAll alternatives inline named
      exact newline_not_mem_between (by decide) (newline_not_mem_intercalate (by decide) unfed)
  | .sequence items, inline, named => by
      have unfed := newline_not_mem_describeAll items inline named
      exact newline_not_mem_between (by decide) (newline_not_mem_intercalate (by decide) unfed)
  | .optional operand, inline, named => newline_not_mem_between (by decide)
      (newline_not_mem_describe operand inline named)
  | .repetition operand, inline, named => newline_not_mem_between (by decide)
      (newline_not_mem_describe operand inline named)

theorem newline_not_mem_describeAll :
    (parts : List Expr) → (∀ pattern ∈ patternsInAll parts, '\n' ∉ pattern.toList) →
      (∀ name ∈ referencesInAll parts, '\n' ∉ name.toList) →
      ∀ text ∈ describeAll parts, '\n' ∉ text.toList
  | [], _, _ => List.forall_mem_nil _
  | head :: tail, inline, named => by
      have ⟨inlineHead, inlineTail⟩ := List.forall_mem_append.mp inline
      have ⟨namedHead, namedTail⟩ := List.forall_mem_append.mp named
      exact List.forall_mem_cons.mpr ⟨newline_not_mem_describe head inlineHead namedHead,
        newline_not_mem_describeAll tail inlineTail namedTail⟩
end

end Expr

theorem Ebnf.Readable.inline {expr : Expr} (readable : Readable expr) : expr.Inline := by
  induction readable with
  | terminal quotable _ => exact List.forall_mem_singleton.mpr quotable.not_mem_newline
  | reference _ => exact List.forall_mem_nil _
  | choice _ induction => exact Expr.inline_patternsInAll induction
  | sequence _ induction => exact Expr.inline_patternsInAll induction
  | optional _ induction => exact induction
  | repetition _ induction => exact induction

theorem Ebnf.IsName.not_mem_of_isBlank {name : List Char} (isName : IsName name)
    {character : Char} (blank : isBlank character = true) : character ∉ name := by
  have words : ∀ other ∈ name, isWord other = true := by
    cases name with
    | nil => exact List.forall_mem_nil _
    | cons first others => exact List.forall_mem_cons.mpr ⟨isWord_of_isLead isName.1, isName.2⟩
  intro member
  have unword := isWord_of_isBlank blank
  rw [words character member] at unword
  cases unword

theorem Span.newline_not_mem_describe (span : Span) : '\n' ∉ span.describe.toList := by
  unfold Span.describe
  simp only [toString, String.toList_append, List.mem_append, not_or]
  exact ⟨⟨⟨by decide, newline_not_mem_repr _⟩, by decide⟩, newline_not_mem_repr _⟩

namespace CommandLine

/-! ## Grammars -/

/-- A valid grammar whose names are single words and whose patterns have no line feeds. -/
structure Legible (grammar : Grammar) : Prop where
  names : ∀ name ∈ grammar.names, ' ' ∉ name.toList ∧ '\n' ∉ name.toList
  patterns : ∀ rule ∈ grammar.rules, rule.2.Inline
  valid : grammar.validate = .ok ()

theorem legible_notation : Legible Ebnf.grammar := by
  constructor
  · decide +kernel
  · have single : ∀ pattern ∈ Ebnf.grammar.patterns, '\n' ∉ pattern.toList := by decide +kernel
    exact fun rule among pattern inside =>
      single pattern (List.mem_flatMap.mpr ⟨rule, among, inside⟩)
  · exact Ebnf.validate_grammar

theorem legible_of_read {text : String} {start : Option String} {grammar : Grammar}
    (reads : Ebnf.read text start = .ok grammar) : Legible grammar := by
  have readable := Ebnf.readable_of_read reads
  constructor
  · intro name member
    obtain ⟨rule, among, rfl⟩ := List.mem_map.mp member
    have isName := (readable rule among).1
    exact ⟨isName.not_mem_of_isBlank (by decide +kernel),
      isName.not_mem_of_isBlank (by decide +kernel)⟩
  · exact fun rule among => (readable rule among).2.inline
  · obtain ⟨_, _, _, _, _, valid⟩ := Ebnf.read_eq_ok_iff.mp reads
    exact valid

theorem Legible.neutral {grammar : Grammar} (legible : Legible grammar) :
    ∀ line ∈ grammar.describe, Neutral line := by
  intro line member
  obtain ⟨rule, among, rfl⟩ := List.mem_map.mp member
  obtain ⟨single, unfed⟩ := legible.names rule.1 (List.mem_map_of_mem among)
  have named : ∀ name ∈ rule.2.references, '\n' ∉ name.toList := by
    intro name mentioned
    have referred := Grammar.mem_references.mpr ⟨rule, among, mentioned⟩
    have known := (Grammar.validate_eq_ok_iff.mp legible.valid).2 name referred
    exact (legible.names name known).2
  have definition := rule.2.newline_not_mem_describe (legible.patterns rule among) named
  have shape : (s!"{rule.1} = {rule.2.describe} ;").toList =
      rule.1.toList ++ ' ' :: '=' :: (' ' :: (rule.2.describe.toList ++ [' ', ';'])) := by
    simp [toString]
  apply neutral_of_word shape single (by decide)
  rw [shape]
  simp [unfed, definition]

/-! ## Trees -/

theorem neutral_indented {line : String} (neutral : Neutral line) (depth : Int) :
    Neutral (Tree.indentation depth ++ line) := by
  unfold Tree.indentation
  cases 2 * depth.toNat with
  | zero =>
      rw [List.replicate_zero, String.ofList_nil, String.empty_append]
      exact neutral
  | succ count =>
      have shape : (String.ofList (List.replicate (count + 1) ' ') ++ line).toList =
          ' ' :: (List.replicate count ' ' ++ line.toList) := by
        rw [String.toList_append, String.toList_ofList, List.replicate_succ, List.cons_append]
      apply neutral_of_cons shape (by decide)
      rw [shape]
      simp [neutral.unfed]

theorem neutral_node {label : String} (single : ' ' ∉ label.toList)
    (unfed : '\n' ∉ label.toList) (span : Span) : Neutral (label ++ " " ++ span.describe) := by
  have described := span.newline_not_mem_describe
  have shape : (label ++ " " ++ span.describe).toList =
      label.toList ++ ' ' :: '@' :: span.describe.toList.tail := by
    simp [Span.describe, toString]
  apply neutral_of_word shape single (by decide)
  simp [unfed, described]

theorem neutral_leaf {pattern : String} (unfed : '\n' ∉ pattern.toList) (text : String)
    (span : Span) :
    Neutral (Expr.quotePattern pattern ++ " " ++ quote text ++ " " ++ span.describe) := by
  have described := span.newline_not_mem_describe
  have quoted := newline_not_mem_quote text
  have enclosed := Expr.newline_not_mem_quotePattern unfed
  have shape : (Expr.quotePattern pattern ++ " " ++ quote text ++ " " ++ span.describe).toList =
      '"' :: ((Expr.quotePattern pattern).toList.tail ++ ' ' :: ((quote text).toList ++ ' ' ::
        span.describe.toList)) := by
    simp [Expr.quotePattern]
  apply neutral_of_cons shape (by decide)
  simp [enclosed, quoted, described]

theorem label_word (operator : Operator) :
    ' ' ∉ operator.label.toList ∧ '\n' ∉ operator.label.toList := by
  cases operator <;> decide

section Outline

variable {α : Type} [Element α] {depth : Int}

theorem neutral_outline_absent :
    ∀ line ∈ (Tree.absent : Tree α).outline depth, Neutral line := by
  rw [Tree.outline, List.forall_mem_singleton]
  exact neutral_indented ⟨by decide, by decide⟩ depth

theorem neutral_outline_leaf {pattern : String} (unfed : '\n' ∉ pattern.toList)
    (elements : List α) (span : Span) :
    ∀ line ∈ (Tree.leaf pattern elements span).outline depth, Neutral line := by
  rw [Tree.outline, List.forall_mem_singleton]
  have neutral := neutral_leaf unfed (String.join (elements.map Element.spell)) span
  simpa only [String.append_assoc] using neutral_indented neutral depth

theorem neutral_outline_node {label : String}
    (word : ' ' ∉ label.toList ∧ '\n' ∉ label.toList) {children : List (Tree α)} (span : Span)
    (parts : ∀ line ∈ Tree.outlineAll (depth + 1) children, Neutral line) :
    ∀ line ∈ (Tree.node label children span).outline depth, Neutral line := by
  rw [Tree.outline, List.forall_mem_cons]
  have neutral := neutral_indented (neutral_node word.1 word.2 span) depth
  exact ⟨by simpa only [String.append_assoc] using neutral, parts⟩

theorem neutral_outlineAll_nil :
    ∀ line ∈ Tree.outlineAll depth ([] : List (Tree α)), Neutral line := by
  rw [Tree.outlineAll]
  exact List.forall_mem_nil _

theorem neutral_outlineAll_cons {tree : Tree α} {others : List (Tree α)}
    (here : ∀ line ∈ tree.outline depth, Neutral line)
    (later : ∀ line ∈ Tree.outlineAll depth others, Neutral line) :
    ∀ line ∈ Tree.outlineAll depth (tree :: others), Neutral line := by
  rw [Tree.outlineAll]
  exact List.forall_mem_append.mpr ⟨here, later⟩

variable {grammar : Grammar} {input : Input α}

mutual
/-- The lines that a tree is displayed on that conforms to an expression. -/
theorem neutral_outline (legible : Legible grammar) {expr : Expr} {start stop : Nat}
    {tree : Tree α} (depth : Int) (inline : expr.Inline) :
    Conforms grammar input expr start tree stop → ∀ line ∈ tree.outline depth, Neutral line
  | .terminal _ => neutral_outline_leaf (inline _ (List.mem_singleton_self _)) _ _
  | .reference found part => by
      have name := legible.names _ (Grammar.mem_names_of_lookup? found)
      have definition := legible.patterns _ (Grammar.mem_rules_of_lookup? found)
      apply neutral_outline_node name
      exact neutral_outlineAll_cons (neutral_outline legible _ definition part)
        neutral_outlineAll_nil
  | .choice member part => neutral_outline legible depth (.of_mem inline member) part
  | .sequence all => by
      apply neutral_outline_node (label_word .sequence)
      exact neutral_outlineAll legible _ (fun _ member => .of_mem inline member) all
  | .optional part => by
      apply neutral_outline_node (label_word .optional)
      exact neutral_outlineAll_cons (neutral_outline legible _ inline.of_optional part)
        neutral_outlineAll_nil
  | .optionalAbsent => neutral_outline_absent
  | .repetition rounds => by
      apply neutral_outline_node (label_word .repetition)
      exact neutral_outlineRounds legible _ inline.of_repetition rounds

theorem neutral_outlineAll (legible : Legible grammar) {items : List Expr} {start stop : Nat}
    {trees : List (Tree α)} (depth : Int) (inline : ∀ item ∈ items, item.Inline) :
    ConformAll grammar input items start trees stop →
    ∀ line ∈ Tree.outlineAll depth trees, Neutral line
  | .nil => neutral_outlineAll_nil
  | .cons part rest =>
      have ⟨first, others⟩ := List.forall_mem_cons.mp inline
      neutral_outlineAll_cons (neutral_outline legible depth first part)
        (neutral_outlineAll legible depth others rest)

theorem neutral_outlineRounds (legible : Legible grammar) {operand : Expr} {start stop : Nat}
    {trees : List (Tree α)} (depth : Int) (inline : operand.Inline) :
    ConformRounds grammar input operand start trees stop →
    ∀ line ∈ Tree.outlineAll depth trees, Neutral line
  | .nil => neutral_outlineAll_nil
  | .cons _ _ part rest =>
      neutral_outlineAll_cons (neutral_outline legible depth inline part)
        (neutral_outlineRounds legible depth inline rest)
end

end Outline

end CommandLine

end OrderedChoice
