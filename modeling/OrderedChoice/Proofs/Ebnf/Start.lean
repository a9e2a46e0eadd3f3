import OrderedChoice.Proofs.Ebnf.Refusal

/-! Rules to start at. Where a text is accepted with a rule to start at, this is a rule of the
text, with one exception. The entry rule that is added may refer to itself: the name of the entry
rule is accepted to start at, although the text has no rule of this name. -/

namespace OrderedChoice

namespace Ebnf

variable {rules : List (String × Expr)} {start : Option String} {text name : String}

/-! ## Assembled grammars -/

theorem exists_assemble_iff :
    (∃ result, assemble rules start = .ok result) ↔ ¬ Unfit rules start := by
  rw [← exists_fault_iff]
  constructor
  · rintro ⟨result, made⟩ ⟨_, fault⟩
    rcases exists_firstFault fault with ⟨cause, first⟩
    rw [first.assemble] at made
    cases made
  · intro fit
    rcases exists_assemble (not_exists.mp fit) with ⟨result, made, _⟩
    exact ⟨result, made⟩

theorem rules_of_assemble {result : Grammar} (made : assemble rules start = .ok result) :
    result.rules = rules ++ startRule start := by
  have fit := exists_assemble_iff.mp ⟨result, made⟩
  rw [← exists_fault_iff, not_exists] at fit
  rcases exists_assemble fit with ⟨other, same, whole⟩
  rw [made] at same
  cases same
  exact whole

/-! ## Rules to start at -/

theorem entry_not_mem_of_fit (fit : ¬ Unfit rules (some name)) :
    entryName ∉ rules.map Prod.fst :=
  fun present => fit (.inr (.inl ⟨rfl, present⟩))

theorem mem_names_iff_of_fit (fit : ¬ Unfit rules (some name)) :
    name ∈ rules.map Prod.fst ↔ name ≠ entryName := by
  constructor
  · rintro present rfl
    exact entry_not_mem_of_fit fit present
  · intro other
    apply Classical.byContradiction
    intro absent
    have unmet : Unmet rules (some name) name := ⟨.inr rfl, absent, fun entry => other entry.2⟩
    exact fit (.inr (.inr (.inr (.inr ⟨name, unmet⟩))))

/-- Nothing is wrong with the name of the entry rule to start at, as long as the rules have
names of their own, none of them is the entry rule, and they refer to each other or to it. -/
theorem fit_entry_iff :
    ¬ Unfit rules (some entryName) ↔
      (rules.map Prod.fst).Nodup ∧ entryName ∉ rules.map Prod.fst ∧
        ∀ rule ∈ rules, ∀ name ∈ rule.2.references,
          name ∈ rules.map Prod.fst ∨ name = entryName := by
  have named : some entryName ≠ some "" := by decide
  unfold Unfit Unmet
  simp only [← Expr.mem_references_iff, Option.isSome_some, Option.some.injEq, true_and,
    reduceCtorEq, false_and, false_or, not_or, not_and, Classical.not_not, not_exists]
  constructor
  · rintro ⟨distinct, free, _, met⟩
    refine ⟨distinct, free, ?_⟩
    intro rule member name mentioned
    apply Classical.byContradiction
    intro lost
    rw [not_or] at lost
    exact lost.2 (met name (.inl ⟨rule, member, mentioned⟩) lost.1)
  · rintro ⟨distinct, free, leads⟩
    refine ⟨distinct, free, fun nameless => named (congrArg some nameless), ?_⟩
    rintro name (⟨rule, member, mentioned⟩ | rfl) absent
    · exact (leads rule member name mentioned).resolve_left absent
    · rfl

/-! ## Texts -/

theorem exists_read_iff (renders : Renders rules (Lines.unifyBreaks text.toList)) :
    (∃ result, read text start = .ok result) ↔ ¬ Unfit rules start := by
  rw [← exists_assemble_iff, (read_of_renders renders start).2]
  cases assemble rules start <;> simp

/-- An accepted text renders rules with which nothing is wrong, and they are in the grammar, with
the entry rule after them that refers to the rule to start at. -/
theorem exists_renders_of_read {result : Grammar} (accepted : read text start = .ok result) :
    ∃ rules, Renders rules (Lines.unifyBreaks text.toList) ∧ ¬ Unfit rules start ∧
      result.rules = rules ++ startRule start := by
  have clear : (parseText text).log = [] := by
    apply Classical.byContradiction
    intro lines
    rw [read_of_log_ne_nil lines] at accepted
    cases accepted
  rcases exists_renders clear with ⟨rules, renders⟩
  refine ⟨rules, renders, (exists_read_iff renders).mp ⟨result, accepted⟩, ?_⟩
  rw [(read_of_renders renders start).2] at accepted
  cases made : assemble rules start with
  | error cause => rw [made] at accepted; cases accepted
  | ok other =>
      rw [made] at accepted
      cases accepted
      exact rules_of_assemble made

/-- Where a text is accepted with a rule to start at, that rule is one of the text exactly if it
does not have the name of the entry rule. Any other name that is not the name of a rule is
refused. The name of the entry rule, to start at, never is the name of a rule of the text, and it
is accepted wherever the rules of the text refer to each other or to the entry rule. -/
theorem accepted_start_is_rule_or_entry (text name : String) :
    let characters := Lines.unifyBreaks text.toList
    (∀ result, read text (some name) = .ok result →
      ∃ rules, Renders rules characters ∧
        result.rules = rules ++ [(entryName, .reference name)] ∧
        (name ∈ rules.map Prod.fst ↔ name ≠ entryName)) ∧
      ∀ rules, Renders rules characters →
        (name ∉ rules.map Prod.fst → name ≠ entryName →
          ∃ cause, read text (some name) = .error (.unfit cause)) ∧
        ((∃ result, read text (some entryName) = .ok result) ↔
          (rules.map Prod.fst).Nodup ∧ entryName ∉ rules.map Prod.fst ∧
            ∀ rule ∈ rules, ∀ mentioned ∈ rule.2.references,
              mentioned ∈ rules.map Prod.fst ∨ mentioned = entryName) := by
  intro characters
  refine ⟨?_, ?_⟩
  · intro result accepted
    rcases exists_renders_of_read accepted with ⟨rules, renders, fit, whole⟩
    exact ⟨rules, renders, whole, mem_names_iff_of_fit fit⟩
  · intro rules renders
    refine ⟨?_, (exists_read_iff renders).trans fit_entry_iff⟩
    intro absent other
    have unfit : Unfit rules (some name) := by
      apply Classical.byContradiction
      exact fun fit => absent ((mem_names_iff_of_fit fit).mpr other)
    rcases exists_fault_iff.mpr unfit with ⟨_, fault⟩
    rcases exists_firstFault fault with ⟨cause, first⟩
    refine ⟨cause, ?_⟩
    rw [(read_of_renders renders (some name)).2, first.assemble]

theorem rule_accepted_other_refused :
    read "a=\"x\";" (some "a") = .ok startedAtRule ∧
      (∃ rules, Renders rules (Lines.unifyBreaks "a=\"x\";".toList) ∧
        startedAtRule.rules = rules ++ [(entryName, .reference "a")] ∧
        ("a" ∈ rules.map Prod.fst ↔ "a" ≠ entryName)) ∧
      ∃ cause, read "a=\"x\";" (some "b") = .error (.unfit cause) := by
  have renders : Renders [("a", .terminal "x")] (Lines.unifyBreaks "a=\"x\";".toList) :=
    ⟨[], .more (rule_quoted []) .none, .none⟩
  refine ⟨read_startedAtRule, ?_, ?_⟩
  · exact (accepted_start_is_rule_or_entry "a=\"x\";" "a").1 startedAtRule read_startedAtRule
  · exact ((accepted_start_is_rule_or_entry "a=\"x\";" "b").2 _ renders).1 (by decide) (by decide)

/-- The same text is accepted to start at the entry rule, which it does not have. -/
theorem entry_accepted_without_rule :
    ∃ result, read "a=\"x\";" (some entryName) = .ok result ∧
      result.lookup? entryName = some (.reference entryName) ∧
      ∀ rules, Renders rules (Lines.unifyBreaks "a=\"x\";".toList) →
        entryName ∉ rules.map Prod.fst := by
  have renders : Renders [("a", .terminal "x")] (Lines.unifyBreaks "a=\"x\";".toList) :=
    ⟨[], .more (rule_quoted []) .none, .none⟩
  refine ⟨_, read_eq_ok_iff.mpr ⟨_, _, renders, rfl, rfl, rfl⟩, rfl, ?_⟩
  intro rules others
  rcases (exists_read_iff renders).mpr (fit_entry_iff.mpr (by decide)) with ⟨result, accepted⟩
  exact entry_not_mem_of_fit ((exists_read_iff others).mp ⟨result, accepted⟩)

end Ebnf

end OrderedChoice
