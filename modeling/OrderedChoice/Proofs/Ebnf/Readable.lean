import OrderedChoice.Proofs.Ebnf.Reading
import OrderedChoice.Proofs.Grammar.Shape

/-! What can come of reading a grammar text. A phrase leaves a suffix of the text, and the
expressions it denotes have names and patterns that the notation has room for, and at least
two parts wherever they have several. -/

namespace OrderedChoice

namespace Ebnf

variable {text rest : List Char}

/-! ## What phrases leave -/

theorem suffix_of_cons_suffix {mark : Char} (suffix : mark :: rest <:+ text) : rest <:+ text :=
  (List.suffix_cons mark rest).trans suffix

theorem suffix_cons_of_suffix (mark : Char) (suffix : rest <:+ text) : rest <:+ mark :: text :=
  suffix.trans (List.suffix_cons mark text)

mutual
theorem Item.suffix {named : Bool} {item : Expr} {text rest : List Char} :
    Item named item text rest → rest <:+ text
  | .name _ => List.suffix_append _ _
  | @Item.quoted pattern rest _ =>
      suffix_cons_of_suffix '"' (suffix_of_cons_suffix (List.suffix_append pattern _))
  | .group isBody layed =>
      suffix_cons_of_suffix _ ((suffix_of_cons_suffix layed.suffix).trans isBody.suffix)
  | .option isBody layed =>
      suffix_cons_of_suffix _ ((suffix_of_cons_suffix layed.suffix).trans isBody.suffix)
  | .repetition isBody layed =>
      suffix_cons_of_suffix _ ((suffix_of_cons_suffix layed.suffix).trans isBody.suffix)

theorem Items.suffix {named : Bool} {items : List Expr} {text rest : List Char} :
    Items named items text rest → rest <:+ text
  | .none => List.suffix_refl _
  | .comma layed layedItem isItem areItems =>
      have fromComma := layedItem.suffix.trans (suffix_of_cons_suffix layed.suffix)
      (areItems.suffix.trans isItem.suffix).trans fromComma
  | .apart layed _ isItem areItems =>
      (areItems.suffix.trans isItem.suffix).trans layed.suffix

theorem Sequence.suffix {sequence : Expr} {text rest : List Char} :
    Sequence sequence text rest → rest <:+ text
  | .items layed isItem areItems =>
      (areItems.suffix.trans isItem.suffix).trans layed.suffix

theorem Branches.suffix {branches : List Expr} {text rest : List Char} :
    Branches branches text rest → rest <:+ text
  | .none => List.suffix_refl _
  | .bar layed isSequence areBranches =>
      (areBranches.suffix.trans isSequence.suffix).trans (suffix_of_cons_suffix layed.suffix)

theorem Body.suffix {body : Expr} {text rest : List Char} :
    Body body text rest → rest <:+ text
  | .branches isSequence areBranches => areBranches.suffix.trans isSequence.suffix
end

theorem Rule.suffix {rule : String × Expr} (isRule : Rule rule text rest) : rest <:+ text := by
  cases isRule with
  | @rule name _ _ afterName _ _ _ layed _ layedEquals isBody layedEnd =>
      have pastName := (List.suffix_append name afterName).trans layed.suffix
      have pastEquals := (suffix_of_cons_suffix layedEquals.suffix).trans pastName
      have pastBody := isBody.suffix.trans pastEquals
      exact (suffix_of_cons_suffix layedEnd.suffix).trans pastBody

theorem Rules.suffix {rules : List (String × Expr)} (areRules : Rules rules text rest) :
    rest <:+ text := by
  induction areRules with
  | none => exact List.suffix_refl _
  | more isRule _ induction => exact induction.trans isRule.suffix

/-! ## What phrases denote -/

/-- An expression that a text without carriage returns can denote. -/
inductive Readable : Expr → Prop where
  | terminal {pattern : String} :
      Quotable pattern.toList → '\r' ∉ pattern.toList → Readable (.terminal pattern)
  | reference {name : String} : IsName name.toList → Readable (.reference name)
  | choice {first second others} :
      (∀ part ∈ first :: second :: others, Readable part) →
      Readable (.choice (first :: second :: others))
  | sequence {first second others} :
      (∀ part ∈ first :: second :: others, Readable part) →
      Readable (.sequence (first :: second :: others))
  | optional {operand} : Readable operand → Readable (.optional operand)
  | repetition {operand} : Readable operand → Readable (.repetition operand)

theorem readable_choiceOf {first : Expr} {others : List Expr}
    (readable : ∀ part ∈ first :: others, Readable part) :
    Readable (choiceOf (first :: others)) := by
  cases others with
  | nil => exact readable first List.mem_cons_self
  | cons second others => exact .choice readable

theorem readable_sequenceOf {first : Expr} {others : List Expr}
    (readable : ∀ part ∈ first :: others, Readable part) :
    Readable (sequenceOf (first :: others)) := by
  cases others with
  | nil => exact readable first List.mem_cons_self
  | cons second others => exact .sequence readable

theorem not_mem_of_suffix {mark : Char} (absent : mark ∉ text) (suffix : rest <:+ text) :
    mark ∉ rest :=
  fun member => absent (suffix.subset member)

mutual
theorem Item.readable {named : Bool} {item : Expr} {text rest : List Char}
    (unreturned : '\r' ∉ text) : Item named item text rest → Readable item
  | .name isName => .reference (String.toList_ofList.symm ▸ isName)
  | @Item.quoted pattern rest quotable => by
      refine .terminal (String.toList_ofList.symm ▸ quotable) ?_
      rw [String.toList_ofList]
      intro member
      exact unreturned (List.mem_cons_of_mem _ (List.mem_append_left _ member))
  | .group isBody _ => isBody.readable (not_mem_of_suffix unreturned (List.suffix_cons _ _))
  | .option isBody _ =>
      .optional (isBody.readable (not_mem_of_suffix unreturned (List.suffix_cons _ _)))
  | .repetition isBody _ =>
      .repetition (isBody.readable (not_mem_of_suffix unreturned (List.suffix_cons _ _)))

theorem Items.readable {named : Bool} {items : List Expr} {text rest : List Char}
    (unreturned : '\r' ∉ text) :
    Items named items text rest → ∀ item ∈ items, Readable item
  | .none => List.forall_mem_nil _
  | .comma layed layedItem isItem areItems =>
      have fromComma := layedItem.suffix.trans (suffix_of_cons_suffix layed.suffix)
      have before := not_mem_of_suffix unreturned fromComma
      have after := not_mem_of_suffix before isItem.suffix
      List.forall_mem_cons.mpr ⟨isItem.readable before, areItems.readable after⟩
  | .apart layed _ isItem areItems =>
      have before := not_mem_of_suffix unreturned layed.suffix
      have after := not_mem_of_suffix before isItem.suffix
      List.forall_mem_cons.mpr ⟨isItem.readable before, areItems.readable after⟩

theorem Sequence.readable {sequence : Expr} {text rest : List Char}
    (unreturned : '\r' ∉ text) : Sequence sequence text rest → Readable sequence
  | .items layed isItem areItems =>
      have before := not_mem_of_suffix unreturned layed.suffix
      have after := not_mem_of_suffix before isItem.suffix
      readable_sequenceOf
        (List.forall_mem_cons.mpr ⟨isItem.readable before, areItems.readable after⟩)

theorem Branches.readable {branches : List Expr} {text rest : List Char}
    (unreturned : '\r' ∉ text) :
    Branches branches text rest → ∀ branch ∈ branches, Readable branch
  | .none => List.forall_mem_nil _
  | .bar layed isSequence areBranches =>
      have before := not_mem_of_suffix unreturned (suffix_of_cons_suffix layed.suffix)
      have after := not_mem_of_suffix before isSequence.suffix
      List.forall_mem_cons.mpr ⟨isSequence.readable before, areBranches.readable after⟩

theorem Body.readable {body : Expr} {text rest : List Char}
    (unreturned : '\r' ∉ text) : Body body text rest → Readable body
  | .branches isSequence areBranches =>
      have after := not_mem_of_suffix unreturned isSequence.suffix
      readable_choiceOf
        (List.forall_mem_cons.mpr ⟨isSequence.readable unreturned, areBranches.readable after⟩)
end

def ReadableRule (rule : String × Expr) : Prop :=
  IsName rule.1.toList ∧ Readable rule.2

theorem Rule.readable {rule : String × Expr} (isRule : Rule rule text rest)
    (unreturned : '\r' ∉ text) : ReadableRule rule := by
  cases isRule with
  | @rule name _ _ afterName _ _ _ layed isName layedEquals isBody _ =>
      have pastName := (List.suffix_append name afterName).trans layed.suffix
      have pastEquals := (suffix_of_cons_suffix layedEquals.suffix).trans pastName
      refine ⟨?_, isBody.readable (not_mem_of_suffix unreturned pastEquals)⟩
      rw [String.toList_ofList]
      exact isName

theorem Rules.readable {rules : List (String × Expr)} (areRules : Rules rules text rest)
    (unreturned : '\r' ∉ text) : ∀ rule ∈ rules, ReadableRule rule := by
  induction areRules with
  | none => exact List.forall_mem_nil _
  | more isRule _ induction =>
      have after := not_mem_of_suffix unreturned isRule.suffix
      exact List.forall_mem_cons.mpr ⟨isRule.readable unreturned, induction after⟩

theorem Renders.readable {rules : List (String × Expr)} (renders : Renders rules text)
    (unreturned : '\r' ∉ text) : ∀ rule ∈ rules, ReadableRule rule := by
  obtain ⟨last, areRules, _⟩ := renders
  exact areRules.readable unreturned

/-! ## Grammars -/

theorem rules_of_define {grammar next : Grammar} {rule : String × Expr}
    (step : define grammar rule = .ok next) : next.rules = grammar.rules ++ [rule] := by
  by_cases present : rule.1 ∈ grammar.names
  · rw [define, if_pos present] at step
    cases step
  · obtain ⟨other, defined, rules⟩ := exists_define present
    rw [step] at defined
    cases defined
    exact rules

theorem rules_of_foldlM_define {rules : List (String × Expr)} {grammar result : Grammar}
    (folds : rules.foldlM define grammar = .ok result) :
    result.rules = grammar.rules ++ rules := by
  induction rules generalizing grammar with
  | nil =>
      cases folds
      exact (List.append_nil _).symm
  | cons rule others induction =>
      rw [List.foldlM_cons] at folds
      cases step : define grammar rule with
      | error cause =>
          rw [step] at folds
          cases folds
      | ok next =>
          rw [step] at folds
          rw [induction folds, rules_of_define step, List.append_assoc]
          rfl

/-! ## Texts -/

theorem validated_eq_ok_iff {grammar result : Grammar} :
    validated grammar = .ok result ↔ grammar = result ∧ result.validate = .ok () := by
  unfold validated
  rw [bind_eq_ok_iff]
  constructor
  · rintro ⟨_, valid, same⟩
    cases same
    exact ⟨rfl, valid⟩
  · rintro ⟨rfl, valid⟩
    exact ⟨(), valid, rfl⟩

theorem read_eq_ok_iff_ofTree {text : String} {start : Option String} {result : Grammar} :
    read text start = .ok result ↔
      (parseText text).isOk = true ∧
        ofTree (parseText text).tree start >>= validated = .ok result := by
  simp only [read]
  cases (parseText text).isOk with
  | false => simp
  | true =>
      cases ofTree (parseText text).tree start >>= validated with
      | error cause => simp
      | ok grammar => simp

/-- A text is read as a grammar if it renders rules that all have names of their own, and
with the rule to start at they make a grammar where every reference leads somewhere. -/
theorem read_eq_ok_iff {text : String} {start : Option String} {result : Grammar} :
    read text start = .ok result ↔
      ∃ rules base, Renders rules (Lines.unifyBreaks text.toList) ∧
        rules.foldlM define .empty = .ok base ∧ addStart base start = .ok result ∧
        result.validate = .ok () := by
  have run : parseText text = parse grammar (.ofCharacters (Lines.unifyBreaks text.toList)) :=
    rfl
  rw [read_eq_ok_iff_ofTree, bind_eq_ok_iff, run]
  simp only [validated_eq_ok_iff]
  constructor
  · rintro ⟨good, _, made, rfl, valid⟩
    obtain ⟨tree, reads⟩ := exists_reads_of_isOk good
    obtain ⟨rules, last, areRules, layed, holds⟩ := exists_rules_of_reads reads
    rw [(shows_of_reads reads).2.1, ofTree_eq_bind holds, bind_eq_ok_iff] at made
    obtain ⟨base, folds, starts⟩ := made
    exact ⟨rules, base, ⟨last, areRules, layed⟩, folds, starts, valid⟩
  · rintro ⟨rules, base, renders, folds, starts, valid⟩
    obtain ⟨tree, reads, holds⟩ := renders.exists_reads
    refine ⟨isOk_of_reads reads, result, ?_, rfl, valid⟩
    rw [(shows_of_reads reads).2.1, ofTree_eq_bind holds, bind_eq_ok_iff]
    exact ⟨base, folds, starts⟩

theorem read_none_eq_ok_iff {text : String} {result : Grammar} :
    read text none = .ok result ↔
      Renders result.rules (Lines.unifyBreaks text.toList) ∧ result.validate = .ok () := by
  rw [read_eq_ok_iff]
  constructor
  · rintro ⟨rules, base, renders, folds, starts, valid⟩
    cases starts
    have same : result.rules = rules := rules_of_foldlM_define folds
    rw [same]
    exact ⟨renders, valid⟩
  · rintro ⟨renders, valid⟩
    obtain ⟨base, folds, same⟩ : ∃ base, result.rules.foldlM define .empty = .ok base ∧
        base.rules = result.rules := exists_foldlM_define result.distinct
    have equal : base = result := by
      cases base
      cases result
      cases same
      rfl
    rw [equal] at folds
    exact ⟨result.rules, result, renders, folds, rfl, valid⟩

end Ebnf

end OrderedChoice
