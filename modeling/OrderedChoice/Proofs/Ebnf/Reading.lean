import OrderedChoice.Proofs.Derivation.Whole
import OrderedChoice.Proofs.Ebnf.Rules

/-! What the reader makes of a grammar text. A run of the grammar of grammar texts goes
well exactly on the texts that render rules, and its tree holds these rules and no
others. -/

namespace OrderedChoice

namespace Ebnf

open Machine

variable {characters text rest : List Char} {tree : Tree Char}

/-! ## Trees of grammar texts -/

def Holds (tree : Tree Char) (rules : List (String × Expr)) : Prop :=
  ∃ trees, ruleTrees? tree = some trees ∧ List.Forall₂ IsRuleTree trees rules

theorem rightUnique_isRuleTree : Relator.RightUnique IsRuleTree := by
  rintro tree ⟨name, body⟩ ⟨otherName, otherBody⟩ ⟨definition, parts, denotes⟩
    ⟨otherDefinition, otherParts, otherDenotes⟩
  rw [parts] at otherParts
  cases otherParts
  rw [denotes] at otherDenotes
  cases otherDenotes
  rfl

theorem Holds.unique {rules others : List (String × Expr)} (first : Holds tree rules)
    (second : Holds tree others) : rules = others := by
  rcases first with ⟨trees, found, areRules⟩
  rcases second with ⟨otherTrees, otherFound, areOthers⟩
  rw [found] at otherFound
  cases otherFound
  exact rightUnique_isRuleTree.forall₂ areRules areOthers

theorem exists_rules_of_reads (reads : Reads grammar characters entry text tree rest) :
    ∃ rules last, Rules rules text last ∧ Layout last rest ∧ Holds tree rules := by
  rcases reads_pair_iff.mp reads with ⟨repetition, last, laid, readsRules, lays, rfl⟩
  rcases reads_repetition_iff.mp readsRules with ⟨trees, rounds, rfl⟩
  rcases exists_rules_of_reads_rounds rounds with ⟨rules, areRules, areTrees⟩
  exact ⟨rules, last, areRules, layout_of_reads lays, trees, rfl, areTrees⟩

theorem Renders.exists_reads {rules : List (String × Expr)}
    (renders : Renders rules characters) :
    ∃ tree, Reads grammar characters entry characters tree [] ∧ Holds tree rules := by
  rcases renders with ⟨last, areRules, layed⟩
  rcases areRules.exists_reads (List.suffix_refl characters) layed with
    ⟨trees, rounds, areTrees⟩
  have readsRules := reads_repetition_iff.mpr ⟨trees, rounds, rfl⟩
  obtain ⟨laid, lays⟩ : Passes grammar characters layout last [] :=
    (passes_layout_iff readsRules.rest_inside).mpr ⟨layed, not_opensLayout_nil⟩
  have pair := reads_pair_iff.mpr ⟨_, last, laid, readsRules, lays, rfl⟩
  exact ⟨_, pair, trees, rfl, areTrees⟩

/-! ## Any text -/

theorem not_rejects_entry : ¬ Rejects grammar characters entry text := by
  intro rejects
  rcases rejects_sequence_cons_iff.mp rejects with rules | ⟨_, _, others⟩
  · exact not_rejects_repetition rules
  · rcases rejects_sequence_cons_iff.mp others with lays | ⟨_, _, none⟩
    · exact not_rejects_repetition ((rejects_reference_iff layout_defined).mp lays)
    · exact not_rejects_sequence_nil none

theorem exists_reads_entry (characters : List Char) :
    ∃ tree rest, Reads grammar characters entry characters tree rest := by
  rcases entry_derivable characters with ⟨finding, derives⟩
  have start : offsetOf characters characters = 0 := offsetOf_self
  rw [← start] at derives
  cases finding with
  | missed => exact absurd ⟨List.suffix_refl _, derives⟩ not_rejects_entry
  | found tree stop =>
      rcases derives.exists_reads (List.suffix_refl characters) with ⟨rest, reads, _⟩
      exact ⟨tree, rest, reads⟩

/-! ## Runs -/

theorem shows_of_reads (reads : Reads grammar characters entry characters tree rest) :
    Shows (.ofCharacters characters) (parse grammar (.ofCharacters characters))
      (.found tree (offsetOf characters rest)) :=
  Machine.shows_of_reads entry_defined reads

theorem exists_reads_of_isOk
    (good : (parse grammar (.ofCharacters characters)).isOk = true) :
    ∃ tree, Reads grammar characters entry characters tree [] :=
  (isOk_iff_reads entry_defined (entry_derivable characters)).mp good

theorem isOk_of_reads (reads : Reads grammar characters entry characters tree []) :
    (parse grammar (.ofCharacters characters)).isOk = true :=
  (isOk_iff_reads entry_defined (entry_derivable characters)).mpr ⟨tree, reads⟩

/-! ## Grammars -/

/-- Add a rule, which must not be there yet. -/
def define (grammar : Grammar) (rule : String × Expr) : Except GrammarError Grammar :=
  if rule.1 ∈ grammar.names then .error (.definedTwice rule.1)
  else .ok (grammar.insert rule.1 rule.2)

theorem addRule_eq {rule : String × Expr} (isTree : IsRuleTree tree rule) (grammar : Grammar) :
    addRule grammar tree = define grammar rule := by
  rcases isTree with ⟨definition, parts, denotes⟩
  have named : orMisshapen (ruleParts? tree) = .ok (rule.1, definition) := by rw [parts]; rfl
  have body : orMisshapen (expr? definition) = .ok rule.2 := by rw [denotes]; rfl
  unfold addRule define
  rw [named]
  by_cases member : rule.1 ∈ grammar.names
  · rw [if_pos member]
    simp [bind, Except.bind, member, throw, throwThe, MonadExceptOf.throw]
  · rw [if_neg member]
    simp [bind, Except.bind, member, body, pure, Except.pure]

theorem foldlM_addRule {trees : List (Tree Char)} {rules : List (String × Expr)}
    (areTrees : List.Forall₂ IsRuleTree trees rules) (grammar : Grammar) :
    trees.foldlM addRule grammar = rules.foldlM define grammar := by
  induction areTrees generalizing grammar with
  | nil => rfl
  | cons isTree _ induction =>
      rw [List.foldlM_cons, List.foldlM_cons, addRule_eq isTree]
      simp only [induction]

theorem ofTree_eq_bind {rules : List (String × Expr)} (holds : Holds tree rules)
    (start : Option String) :
    ofTree tree start = rules.foldlM define .empty >>= (addStart · start) := by
  rcases holds with ⟨trees, found, areTrees⟩
  have parts : orMisshapen (ruleTrees? tree) = .ok trees := by rw [found]; rfl
  unfold ofTree
  rw [parts, ← foldlM_addRule areTrees]
  rfl

theorem ofTree_eq {rules : List (String × Expr)} (holds : Holds tree rules) :
    ofTree tree none = rules.foldlM define .empty := by
  rw [ofTree_eq_bind holds]
  cases rules.foldlM define .empty <;> rfl

theorem put_of_not_mem {name : String} {rules : List (String × Expr)}
    (absent : name ∉ rules.map Prod.fst) (definition : Expr) :
    Grammar.put name definition rules = rules ++ [(name, definition)] := by
  induction rules with
  | nil => rfl
  | cons rule others induction =>
      rw [List.map_cons, List.mem_cons, not_or] at absent
      have different : rule.1 ≠ name := fun equal => absent.1 equal.symm
      rw [Grammar.put, if_neg different, induction absent.2]
      rfl

theorem exists_define {grammar : Grammar} {rule : String × Expr}
    (absent : rule.1 ∉ grammar.names) :
    ∃ next, define grammar rule = .ok next ∧ next.rules = grammar.rules ++ [rule] := by
  refine ⟨grammar.insert rule.1 rule.2, if_neg absent, ?_⟩
  exact put_of_not_mem absent rule.2

theorem exists_foldlM_define {rules : List (String × Expr)} {grammar : Grammar}
    (distinct : ((grammar.rules ++ rules).map Prod.fst).Nodup) :
    ∃ result, rules.foldlM define grammar = .ok result ∧
      result.rules = grammar.rules ++ rules := by
  induction rules generalizing grammar with
  | nil => exact ⟨grammar, rfl, (List.append_nil _).symm⟩
  | cons rule others induction =>
      have absent : rule.1 ∉ grammar.names := by
        intro member
        rw [List.map_append, List.map_cons] at distinct
        exact (List.nodup_append.mp distinct).2.2 _ member _ List.mem_cons_self rfl
      rcases exists_define absent with ⟨next, step, added⟩
      have whole : next.rules ++ others = grammar.rules ++ rule :: others := by
        rw [added, List.append_assoc]
        rfl
      rw [← whole] at distinct ⊢
      rcases induction distinct with ⟨result, folds, rules⟩
      refine ⟨result, ?_, rules⟩
      rw [List.foldlM_cons, step]
      exact folds

theorem foldlM_define_eq_error {before after : List (String × Expr)} {rule : String × Expr}
    (distinct : (before.map Prod.fst).Nodup) (member : rule.1 ∈ before.map Prod.fst) :
    (before ++ rule :: after).foldlM define .empty = .error (.definedTwice rule.1) := by
  obtain ⟨grammar, folds, rules⟩ :
      ∃ grammar, before.foldlM define .empty = .ok grammar ∧ grammar.rules = before :=
    exists_foldlM_define distinct
  have present : rule.1 ∈ grammar.names := by
    unfold Grammar.names
    rw [rules]
    exact member
  rw [List.foldlM_append, folds]
  simp only [bind, Except.bind, List.foldlM_cons, define, if_pos present]

/-! ## Texts -/

/-- A run over a grammar text goes well exactly if the text, with its line breaks
unified, renders some rules. They are the only ones that it renders, and the reader
gives exactly them, in their order. If a name comes up again, the reader turns down
the first rule whose name does. -/
theorem parseText_isOk_iff_renders (text : String) :
    let characters := Lines.unifyBreaks text.toList
    ((parseText text).isOk = true ↔ ∃ rules, Renders rules characters) ∧
      ∀ rules, Renders rules characters →
        (∀ others, Renders others characters → others = rules) ∧
        ((rules.map Prod.fst).Nodup →
          ∃ grammar, ofTree (parseText text).tree none = .ok grammar ∧ grammar.rules = rules) ∧
        ∀ before rule after, rules = before ++ rule :: after →
          (before.map Prod.fst).Nodup → rule.1 ∈ before.map Prod.fst →
            ofTree (parseText text).tree none = .error (.definedTwice rule.1) := by
  intro characters
  have run : parseText text = parse grammar (.ofCharacters characters) := rfl
  rw [run]
  refine ⟨⟨?_, ?_⟩, ?_⟩
  · intro good
    rcases exists_reads_of_isOk good with ⟨tree, reads⟩
    rcases exists_rules_of_reads reads with ⟨rules, last, areRules, layed, _⟩
    exact ⟨rules, last, areRules, layed⟩
  · rintro ⟨rules, renders⟩
    rcases renders.exists_reads with ⟨tree, reads, _⟩
    exact isOk_of_reads reads
  · intro rules renders
    rcases renders.exists_reads with ⟨tree, reads, holds⟩
    have shown : (parse grammar (.ofCharacters characters)).tree = tree :=
      (shows_of_reads reads).2.1
    rw [shown, ofTree_eq holds]
    refine ⟨?_, ?_, ?_⟩
    · intro others rendersOthers
      rcases rendersOthers.exists_reads with ⟨otherTree, otherReads, holdsOthers⟩
      -- one text has one tree, and one tree has the rules of one list
      rw [(otherReads.unique reads).1] at holdsOthers
      exact holdsOthers.unique holds
    · intro distinct
      have added : ∃ grammar, rules.foldlM define .empty = .ok grammar ∧
          grammar.rules = rules := exists_foldlM_define distinct
      exact added
    · rintro before rule after rfl distinct member
      exact foldlM_define_eq_error distinct member

theorem rule_quoted (rest : List Char) :
    Rule ("a", .terminal "x") ("a=\"x\";".toList ++ rest) rest := by
  have plain : IsPlain 'x' := .inl (by decide +kernel)
  have item : Item false (.terminal "x") ('"' :: (['x'] ++ '"' :: ';' :: rest)) (';' :: rest) :=
    .quoted (.plain plain .nil)
  have body : Body (.terminal "x") ('"' :: (['x'] ++ '"' :: ';' :: rest)) (';' :: rest) :=
    .branches (.items .none item .none) .none
  have isName : IsName ['a'] := ⟨by decide +kernel, nofun⟩
  exact .rule (.none : Layout _ (['a'] ++ _)) isName .none body .none

theorem once_read_twice_turned_down :
    (∃ grammar, ofTree (parseText "a=\"x\";").tree none = .ok grammar ∧
      grammar.rules = [("a", .terminal "x")]) ∧
      ofTree (parseText "a=\"x\";a=\"x\";").tree none = .error (.definedTwice "a") := by
  have once : Renders [("a", .terminal "x")] (Lines.unifyBreaks "a=\"x\";".toList) :=
    ⟨[], .more (rule_quoted []) .none, .none⟩
  have twice : Renders [("a", .terminal "x"), ("a", .terminal "x")]
      (Lines.unifyBreaks "a=\"x\";a=\"x\";".toList) :=
    ⟨[], .more (rule_quoted _) (.more (rule_quoted []) .none), .none⟩
  refine ⟨?_, ?_⟩
  · exact ((parseText_isOk_iff_renders "a=\"x\";").2 _ once).2.1 (by decide)
  · exact ((parseText_isOk_iff_renders "a=\"x\";a=\"x\";").2 _ twice).2.2
      [("a", .terminal "x")] ("a", .terminal "x") [] rfl (by decide) (by decide)

end Ebnf

end OrderedChoice
