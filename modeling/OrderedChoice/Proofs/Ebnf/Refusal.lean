import Mathlib.Order.WellFounded
import OrderedChoice.Proofs.Ebnf.RoundTrip
import OrderedChoice.Proofs.Grammar.References
import OrderedChoice.Proofs.Machine.Found

/-! Why a grammar text is refused. A text that does not follow the notation is refused with the
lines of the log. A text that does is refused if something is wrong with its rules and the rule
to start at, and of several things that are wrong the reader names the one that it comes to
first. -/

namespace OrderedChoice

namespace Ebnf

/-! ## Faults -/

def startRule (start : Option String) : List (String × Expr) :=
  (start.map fun name => (entryName, Expr.reference name)).toList

section Faults

variable (rules : List (String × Expr)) (start : Option String)

/-- A name that some rule refers to, or the name to start at, leads nowhere: the text has no
rule of this name, and it is not the entry rule that comes with a rule to start at. -/
def Unmet (name : String) : Prop :=
  ((∃ rule ∈ rules, (Expr.reference name).PartOf rule.2) ∨ start = some name) ∧
    name ∉ rules.map Prod.fst ∧ ¬ (start.isSome ∧ name = entryName)

inductive Fault : GrammarError → Prop
  | repeated {before rule after} :
      rules = before ++ rule :: after → (before.map Prod.fst).Nodup →
      rule.1 ∈ before.map Prod.fst → Fault (.definedTwice rule.1)
  | taken {name} : start = some name → entryName ∈ rules.map Prod.fst → Fault (.entryTaken name)
  | nameless : start = some "" → Fault .namelessReference
  | missing : start = none → entryName ∉ rules.map Prod.fst → Fault .missingEntry
  /-- All names that lead nowhere, each once and in order. -/
  | unmet {names} :
      names ≠ [] → names.Pairwise (· < ·) → (∀ name, name ∈ names ↔ Unmet rules start name) →
      Fault (.undefinedReferences names)

def Unfit : Prop :=
  ¬ (rules.map Prod.fst).Nodup ∨
    (start.isSome ∧ entryName ∈ rules.map Prod.fst) ∨
    start = some "" ∨
    (start = none ∧ entryName ∉ rules.map Prod.fst) ∨
    ∃ name, Unmet rules start name

/-- The place of a fault in the order in which the reader looks for them. -/
def rank : GrammarError → Nat
  | .definedTwice _ => 0
  | .entryTaken _ => 1
  | .namelessReference => 2
  | .missingEntry => 3
  | .undefinedReferences _ => 4
  | .emptyComposite _ | .partNotExpr .. | .nameNotText _ | .definitionNotExpr .. |
    .misshapenTree => 5

structure FirstFault (cause : GrammarError) : Prop where
  fault : Fault rules start cause
  first : ∀ other, Fault rules start other → rank cause ≤ rank other

end Faults

variable {rules : List (String × Expr)} {start : Option String}

/-! ## Single faults -/

theorem exists_repeated {before rest : List (String × Expr)}
    (distinct : (before.map Prod.fst).Nodup)
    (repeats : ¬ ((before ++ rest).map Prod.fst).Nodup) :
    ∃ earlier rule after, before ++ rest = earlier ++ rule :: after ∧
      (earlier.map Prod.fst).Nodup ∧ rule.1 ∈ earlier.map Prod.fst := by
  induction rest generalizing before with
  | nil =>
      rw [List.append_nil] at repeats
      exact absurd distinct repeats
  | cons rule after induction =>
      by_cases member : rule.1 ∈ before.map Prod.fst
      · exact ⟨before, rule, after, rfl, distinct, member⟩
      · have longer : ((before ++ [rule]).map Prod.fst).Nodup := by
          rw [List.map_append, List.nodup_append]
          refine ⟨distinct, List.pairwise_singleton _ _, ?_⟩
          intro left leftMember right rightMember equal
          rw [equal, List.mem_singleton.mp rightMember] at leftMember
          exact member leftMember
        rw [List.append_cons] at repeats ⊢
        exact induction longer repeats

theorem Fault.repeats {name : String} (fault : Fault rules start (.definedTwice name)) :
    ¬ (rules.map Prod.fst).Nodup := by
  cases fault with
  | repeated split _ member =>
      rw [split, List.map_append, List.map_cons, List.nodup_append]
      intro distinct
      exact distinct.2.2 _ member _ List.mem_cons_self rfl

theorem eq_of_ascending {left right : List String} (leftAscends : left.Pairwise (· < ·))
    (rightAscends : right.Pairwise (· < ·)) (same : ∀ name, name ∈ left ↔ name ∈ right) :
    left = right := by
  have distinct : ∀ {names : List String}, names.Pairwise (· < ·) → names.Nodup := by
    intro names ascends
    apply ascends.imp
    rintro name other before rfl
    exact String.lt_irrefl name before
  have permuted : left.Perm right :=
    (List.perm_ext_iff_of_nodup (distinct leftAscends) (distinct rightAscends)).mpr same
  apply permuted.eq_of_pairwise _ leftAscends rightAscends
  intro first second _ _ before after
  exact absurd (String.lt_trans before after) (String.lt_irrefl first)

/-! ## Orders of faults -/

def NoneBefore (rules : List (String × Expr)) (start : Option String) (place : Nat) : Prop :=
  ∀ cause, Fault rules start cause → place ≤ rank cause

theorem exists_firstFault {cause : GrammarError} (fault : Fault rules start cause) :
    ∃ first, FirstFault rules start first := by
  rcases (measure rank).wf.has_min {cause | Fault rules start cause} ⟨cause, fault⟩ with
    ⟨first, fault, least⟩
  exact ⟨first, fault, fun other faulty => Nat.le_of_not_lt (least other faulty)⟩

namespace NoneBefore

variable {place : Nat} (early : NoneBefore rules start place)

include early

theorem distinct (late : 0 < place) : (rules.map Prod.fst).Nodup := by
  apply Classical.byContradiction
  intro repeats
  have none : (([] : List (String × Expr)).map Prod.fst).Nodup := List.nodup_nil
  rcases exists_repeated none repeats with
    ⟨before, rule, after, split, earlier, member⟩
  have reached := early _ (.repeated split earlier member)
  exact absurd late (Nat.not_lt_of_ge reached)

theorem not_taken (late : 1 < place) (started : start.isSome) :
    entryName ∉ rules.map Prod.fst := by
  intro present
  rcases Option.isSome_iff_exists.mp started with ⟨name, given⟩
  exact absurd late (Nat.not_lt_of_ge (early _ (.taken given present)))

theorem not_nameless (late : 2 < place) : start ≠ some "" :=
  fun nameless => absurd late (Nat.not_lt_of_ge (early _ (.nameless nameless)))

theorem not_missing (late : 3 < place) (absent : start = none) :
    entryName ∈ rules.map Prod.fst := by
  apply Classical.byContradiction
  intro missing
  exact absurd late (Nat.not_lt_of_ge (early _ (.missing absent missing)))

end NoneBefore

/-! ## Grammars with a rule to start at -/

def assemble (rules : List (String × Expr)) (start : Option String) :
    Except GrammarError Grammar :=
  rules.foldlM define .empty >>= (addStart · start) >>= validated

section Base

variable {base result : Grammar} (kept : base.rules = rules)

include kept

theorem addStart_taken (present : entryName ∈ rules.map Prod.fst) (name : String) :
    addStart base (some name) = .error (.entryTaken name) := by
  rw [← kept] at present
  exact if_pos present

theorem addStart_some (absent : entryName ∉ rules.map Prod.fst) (name : String) :
    addStart base (some name) =
      (Expr.reference? name).map fun entry => base.insert entryName entry := by
  rw [← kept] at absent
  have free : entryName ∉ base.names := absent
  simp only [addStart, if_neg free]
  cases Expr.reference? name <;> rfl

theorem exists_addStart (free : start.isSome → entryName ∉ rules.map Prod.fst)
    (named : start ≠ some "") :
    ∃ result, addStart base start = .ok result ∧ result.rules = rules ++ startRule start := by
  cases start with
  | none => exact ⟨base, rfl, kept.trans (List.append_nil _).symm⟩
  | some name =>
      have absent := free rfl
      have some : name.isEmpty = false := by
        apply Bool.eq_false_iff.mpr
        intro empty
        exact named (congrArg Option.some (String.isEmpty_iff.mp empty))
      refine ⟨base.insert entryName (.reference name), ?_, ?_⟩
      · rw [addStart_some kept absent, Expr.reference?, some]
        rfl
      · rw [← kept] at absent ⊢
        exact put_of_not_mem absent _

end Base

section Started

variable {result : Grammar} (whole : result.rules = rules ++ startRule start)

include whole

theorem mem_names_started {name : String} :
    name ∈ result.names ↔ name ∈ rules.map Prod.fst ∨ (start.isSome ∧ name = entryName) := by
  unfold Grammar.names startRule at *
  rw [whole]
  cases start <;> simp

theorem dangling_started {name : String} : result.Dangling name ↔ Unmet rules start name := by
  have referred : (∃ rule ∈ result.rules, (Expr.reference name).PartOf rule.2) ↔
      (∃ rule ∈ rules, (Expr.reference name).PartOf rule.2) ∨ start = some name := by
    rw [whole]
    unfold startRule
    cases start with
    | none => simp
    | some other =>
        have same : (Expr.reference name).PartOf (.reference other) ↔ other = name := by
          rw [← Expr.mem_references_iff]
          exact List.mem_singleton.trans eq_comm
        simp [or_and_right, exists_or, same]
  unfold Grammar.Dangling Unmet
  rw [referred, mem_names_started whole, not_or]

theorem validated_started
    (entry : entryName ∈ rules.map Prod.fst ∨ start.isSome) :
    validated result =
      if result.undefinedNames = [] then .ok result
      else .error (.undefinedReferences result.undefinedNames) := by
  have present : entryName ∈ result.names :=
    (mem_names_started whole).mpr (entry.imp_right fun started => ⟨started, rfl⟩)
  unfold validated
  rw [Grammar.validate_of_entry present]
  split <;> rfl

end Started

/-! ## Assembled grammars -/

theorem exists_started (distinct : (rules.map Prod.fst).Nodup)
    (free : start.isSome → entryName ∉ rules.map Prod.fst) (named : start ≠ some "") :
    ∃ result, assemble rules start = validated result ∧
      result.rules = rules ++ startRule start := by
  obtain ⟨base, folds, kept⟩ : ∃ base, rules.foldlM define .empty = .ok base ∧
      base.rules = rules := exists_foldlM_define distinct
  rcases exists_addStart kept free named with ⟨result, added, whole⟩
  refine ⟨result, ?_, whole⟩
  unfold assemble
  rw [folds]
  exact congrArg (· >>= validated) added

theorem NoneBefore.exists_validated (early : NoneBefore rules start 4) :
    ∃ result, result.rules = rules ++ startRule start ∧
      assemble rules start =
        if result.undefinedNames = [] then .ok result
        else .error (.undefinedReferences result.undefinedNames) := by
  rcases exists_started (early.distinct (by decide)) (early.not_taken (by decide))
    (early.not_nameless (by decide)) with ⟨result, same, whole⟩
  have entry : entryName ∈ rules.map Prod.fst ∨ start.isSome := by
    cases given : start with
    | none => exact .inl (early.not_missing (by decide) given)
    | some => exact .inr rfl
  exact ⟨result, whole, same.trans (validated_started whole entry)⟩

theorem mem_undefinedNames_started {result : Grammar}
    (whole : result.rules = rules ++ startRule start) (name : String) :
    name ∈ result.undefinedNames ↔ Unmet rules start name := by
  rw [Grammar.mem_undefinedNames_iff, dangling_started whole]

/-- What is wrong is what the reader complains of, if nothing is wrong before it. -/
theorem FirstFault.assemble {cause : GrammarError} (first : FirstFault rules start cause) :
    assemble rules start = .error cause := by
  have early := first.first
  cases first.fault with
  | repeated split distinct member =>
      unfold Ebnf.assemble
      rw [split, foldlM_define_eq_error distinct member]
      rfl
  | @taken name given present =>
      have early : NoneBefore rules start 1 := early
      obtain ⟨base, folds, kept⟩ : ∃ base, rules.foldlM define .empty = .ok base ∧
          base.rules = rules := exists_foldlM_define (early.distinct (by decide))
      unfold Ebnf.assemble
      rw [folds, given]
      exact congrArg (· >>= validated) (addStart_taken kept present name)
  | nameless given =>
      have early : NoneBefore rules start 2 := early
      obtain ⟨base, folds, kept⟩ : ∃ base, rules.foldlM define .empty = .ok base ∧
          base.rules = rules := exists_foldlM_define (early.distinct (by decide))
      have absent : entryName ∉ rules.map Prod.fst :=
        early.not_taken (by decide) (by rw [given]; rfl)
      unfold Ebnf.assemble
      rw [folds, given]
      exact congrArg (· >>= validated) (addStart_some kept absent "")
  | missing absent gone =>
      have early : NoneBefore rules start 3 := early
      have named : start ≠ some "" := early.not_nameless (by decide)
      rcases exists_started (early.distinct (by decide)) (fun _ => gone) named with
        ⟨result, same, whole⟩
      have missing : entryName ∉ result.names := by
        rw [mem_names_started whole, absent]
        simp [gone]
      rw [same]
      unfold validated Grammar.validate
      rw [if_pos missing]
      rfl
  | @unmet names some ascends members =>
      have early : NoneBefore rules start 4 := early
      rcases early.exists_validated with ⟨result, whole, same⟩
      have listed : result.undefinedNames = names := by
        -- both lists ascend, so it is enough that they have the same members
        apply eq_of_ascending result.pairwise_undefinedNames ascends
        intro name
        rw [mem_undefinedNames_started whole, members]
      rw [same, listed, if_neg some]

theorem exists_assemble (sound : ∀ cause, ¬ Fault rules start cause) :
    ∃ result, assemble rules start = .ok result ∧ result.rules = rules ++ startRule start := by
  have early : NoneBefore rules start 4 := fun cause fault => absurd fault (sound cause)
  rcases early.exists_validated with ⟨result, whole, same⟩
  have met : result.undefinedNames = [] := by
    apply Classical.byContradiction
    intro undefined
    exact sound _ (.unmet undefined result.pairwise_undefinedNames
      (mem_undefinedNames_started whole))
  rw [met, if_pos rfl] at same
  exact ⟨result, same, whole⟩

theorem assemble_eq_error_iff {cause : GrammarError} :
    assemble rules start = .error cause ↔ FirstFault rules start cause := by
  constructor
  · intro fails
    by_cases faulty : ∃ other, Fault rules start other
    · rcases faulty with ⟨_, fault⟩
      rcases exists_firstFault fault with ⟨other, first⟩
      have same := first.assemble.symm.trans fails
      cases same
      exact first
    · rcases exists_assemble (not_exists.mp faulty) with ⟨result, made, _⟩
      rw [fails] at made
      cases made
  · exact FirstFault.assemble

theorem exists_fault_iff : (∃ cause, Fault rules start cause) ↔ Unfit rules start := by
  constructor
  · rintro ⟨cause, fault⟩
    cases fault with
    | @repeated before rule after split distinct member =>
        have fault : Fault rules start (.definedTwice rule.1) := .repeated split distinct member
        exact .inl fault.repeats
    | taken given present => exact .inr (.inl ⟨by rw [given]; rfl, present⟩)
    | nameless given => exact .inr (.inr (.inl given))
    | missing absent gone => exact .inr (.inr (.inr (.inl ⟨absent, gone⟩)))
    | unmet some _ members =>
        rcases List.exists_mem_of_ne_nil _ some with ⟨name, member⟩
        exact .inr (.inr (.inr (.inr ⟨name, (members name).mp member⟩)))
  · intro unfit
    apply Classical.byContradiction
    intro sound
    have early : NoneBefore rules start 5 := fun cause fault => absurd ⟨cause, fault⟩ sound
    rcases unfit with repeats | ⟨started, present⟩ | nameless | ⟨absent, gone⟩ | ⟨name, unmet⟩
    · exact repeats (early.distinct (by decide))
    · exact early.not_taken (by decide) started present
    · exact early.not_nameless (by decide) nameless
    · exact gone (early.not_missing (by decide) absent)
    · rcases exists_assemble (not_exists.mp sound) with ⟨result, made, whole⟩
      have undefined := (mem_undefinedNames_started whole name).mpr unmet
      exact sound ⟨_, .unmet (List.ne_nil_of_mem undefined) result.pairwise_undefinedNames
        (mem_undefinedNames_started whole)⟩

/-! ## Texts -/

variable {text : String}

theorem read_of_renders (renders : Renders rules (Lines.unifyBreaks text.toList))
    (start : Option String) :
    (parseText text).log = [] ∧
      read text start =
        match assemble rules start with
        | .ok result => .ok result
        | .error cause => .error (.unfit cause) := by
  have run : parseText text = parse grammar (.ofCharacters (Lines.unifyBreaks text.toList)) :=
    rfl
  rcases renders.exists_reads with ⟨tree, reads, holds⟩
  have good := isOk_of_reads reads
  have made : ofTree (parseText text).tree start >>= validated = assemble rules start := by
    rw [run, (shows_of_reads reads).2.1, ofTree_eq_bind holds]
    rfl
  rw [← run] at good
  refine ⟨List.isEmpty_iff.mp good, ?_⟩
  cases outcome : assemble rules start <;> simp only [read, good, if_true, made, outcome]

theorem exists_renders (clear : (parseText text).log = []) :
    ∃ rules, Renders rules (Lines.unifyBreaks text.toList) := by
  have good : (parseText text).isOk = true := List.isEmpty_iff.mpr clear
  rcases exists_reads_of_isOk good with ⟨tree, reads⟩
  rcases exists_rules_of_reads reads with ⟨rules, last, areRules, layed, _⟩
  exact ⟨rules, last, areRules, layed⟩

theorem read_of_log_ne_nil (lines : (parseText text).log ≠ []) :
    read text start = .error (.syntaxErrors ((parseText text).logLines (.ofText text))) := by
  have bad : (parseText text).isOk = false := by simpa [Machine.State.isOk] using lines
  simp only [read, bad]
  rfl

/-- A grammar text is refused for what is wrong with it and for nothing else. It is refused with
the lines of the log exactly if there are any. Otherwise it renders rules, and it is refused
exactly if a name comes up twice among them, if there is a rule to start at although they have
an entry rule, or one without a name, if there is none although they have no entry rule, or if
some name leads nowhere. Of these the reader names the first in this order. Where nothing is
wrong it gives the rules of the text in their order, and the entry rule after them that refers
to the rule to start at. -/
theorem read_names_first_fault (text : String) (start : Option String) :
    let run := parseText text
    ((∃ lines, read text start = .error (.syntaxErrors lines)) ↔ run.log ≠ []) ∧
      (run.log ≠ [] →
        read text start = .error (.syntaxErrors (run.logLines (.ofText text)))) ∧
      (run.log = [] → ∃ rules, Renders rules (Lines.unifyBreaks text.toList)) ∧
      ∀ rules, Renders rules (Lines.unifyBreaks text.toList) →
        run.log = [] ∧
        (∀ cause, read text start = .error (.unfit cause) ↔ FirstFault rules start cause) ∧
        ((∃ cause, read text start = .error (.unfit cause)) ↔ Unfit rules start) ∧
        (¬ Unfit rules start →
          ∃ result, read text start = .ok result ∧ result.rules = rules ++ startRule start) := by
  intro run
  refine ⟨⟨?_, ?_⟩, read_of_log_ne_nil, exists_renders, ?_⟩
  · rintro ⟨lines, refused⟩ clear
    rcases exists_renders clear with ⟨rules, renders⟩
    rw [(read_of_renders renders start).2] at refused
    cases made : assemble rules start <;> rw [made] at refused <;> cases refused
  · exact fun lines => ⟨_, read_of_log_ne_nil lines⟩
  · intro rules renders
    rcases read_of_renders renders start with ⟨clear, same⟩
    have refused : ∀ cause, read text start = .error (.unfit cause) ↔
        FirstFault rules start cause := by
      intro cause
      rw [same, ← assemble_eq_error_iff]
      cases assemble rules start <;> simp
    refine ⟨clear, refused, ?_, ?_⟩
    · rw [← exists_fault_iff]
      constructor
      · rintro ⟨cause, unfit⟩
        exact ⟨cause, ((refused cause).mp unfit).fault⟩
      · rintro ⟨cause, fault⟩
        rcases exists_firstFault fault with ⟨first, isFirst⟩
        exact ⟨first, (refused first).mpr isFirst⟩
    · intro fit
      rw [← exists_fault_iff, not_exists] at fit
      rcases exists_assemble fit with ⟨result, made, whole⟩
      refine ⟨result, ?_, whole⟩
      rw [same, made]

theorem fault_named_before_others :
    ((parseText "a").log ≠ [] ∧
      read "a" none = .error (.syntaxErrors ((parseText "a").logLines (.ofText "a")))) ∧
    (Fault [("a", .terminal "x"), ("a", .terminal "x")] (some "") .namelessReference ∧
      read "a=\"x\";a=\"x\";" (some "") = .error (.unfit (.definedTwice "a"))) ∧
    (¬ Unfit [("a", .terminal "x")] (some "a") ∧
      ∃ result, read "a=\"x\";" (some "a") = .ok result ∧
        result.rules = [("a", .terminal "x"), (entryName, .reference "a")]) := by
  have lines : (parseText "a").log ≠ [] := by
    have ends : let final := Machine.stateAt grammar (Input.ofText "a") 61
        final.stopped = true ∧ final.isOk = false := by decide +kernel
    rcases ends with ⟨stopped, bad⟩
    rw [Machine.stateAt_eq_parse stopped] at bad
    intro clear
    have good : (parseText "a").isOk = true := List.isEmpty_iff.mpr clear
    exact Bool.false_ne_true (bad.symm.trans good)
  have once : Renders [("a", .terminal "x")] (Lines.unifyBreaks "a=\"x\";".toList) :=
    ⟨[], .more (rule_quoted []) .none, .none⟩
  have twice : Renders [("a", .terminal "x"), ("a", .terminal "x")]
      (Lines.unifyBreaks "a=\"x\";a=\"x\";".toList) :=
    ⟨[], .more (rule_quoted _) (.more (rule_quoted []) .none), .none⟩
  have repeated : FirstFault [("a", .terminal "x"), ("a", .terminal "x")] (some "")
      (.definedTwice "a") := by
    constructor
    · have split : [("a", Expr.terminal "x"), ("a", .terminal "x")] =
          [("a", .terminal "x")] ++ ("a", .terminal "x") :: [] := rfl
      exact .repeated split (by decide) (by decide)
    · exact fun other _ => Nat.zero_le _
  have fit : ¬ Unfit [("a", .terminal "x")] (some "a") := by
    rintro (repeats | ⟨_, present⟩ | nameless | ⟨absent, _⟩ | ⟨name, leads, nowhere, _⟩)
    · revert repeats
      decide
    · revert present
      decide
    · revert nameless
      decide
    · cases absent
    · rcases leads with ⟨rule, member, within⟩ | given
      · rw [List.mem_singleton.mp member] at within
        cases within
      · cases given
        exact nowhere List.mem_cons_self
  refine ⟨⟨lines, ?_⟩, ⟨.nameless rfl, ?_⟩, fit, ?_⟩
  · exact (read_names_first_fault "a" none).2.1 lines
  · exact (((read_names_first_fault _ (some "")).2.2.2 _ twice).2.1 _).mpr repeated
  · exact ((read_names_first_fault _ (some "a")).2.2.2 _ once).2.2.2 fit

end Ebnf

end OrderedChoice
