import OrderedChoice.Proofs.Ebnf.Accounting
import OrderedChoice.Proofs.Ebnf.Rendering
import OrderedChoice.Proofs.Grammar.Validation
import OrderedChoice.Proofs.Text.Lines

/-! Printing a grammar that was read and reading it again. The same grammar comes back
unless one of its patterns has a double quote, which gets a second backslash in print. -/

namespace OrderedChoice

namespace Ebnf

open OrderedChoice.Expr (content)
open OrderedChoice.Lines (not_mem_unifyBreaks unifyBreaks_of_not_mem)

/-! ## Grammars that were read -/

theorem rules_of_addStart {base result : Grammar} {start : Option String}
    (starts : addStart base start = .ok result) :
    result = base ∨ ∃ name, result.rules = base.rules ++ [(entryName, .reference name)] := by
  cases start with
  | none =>
      cases starts
      exact .inl rfl
  | some name =>
      simp only [addStart] at starts
      by_cases taken : entryName ∈ base.names
      · rw [if_pos taken] at starts
        cases starts
      · rw [if_neg taken] at starts
        obtain ⟨entry, named, added⟩ := bind_eq_ok_iff.mp starts
        cases added
        unfold Expr.reference? at named
        split at named
        · cases named
        · cases named
          exact .inr ⟨name, put_of_not_mem taken _⟩

theorem isName_entryName : IsName entryName.toList := by
  have letters : IsName ['E', 'N', 'T', 'R', 'Y'] := by
    refine ⟨by decide +kernel, ?_⟩
    simp only [List.forall_mem_cons]
    exact ⟨by decide +kernel, by decide +kernel, by decide +kernel, by decide +kernel,
      List.forall_mem_nil _⟩
  exact letters

/-- The rules of a grammar that was read are readable. The rule to start at is one of them,
and so has a name that the notation has room for. -/
theorem readable_of_read {text : String} {start : Option String} {result : Grammar}
    (reads : read text start = .ok result) : ∀ rule ∈ result.rules, ReadableRule rule := by
  obtain ⟨rules, base, renders, folds, starts, valid⟩ := read_eq_ok_iff.mp reads
  have same : base.rules = rules := rules_of_foldlM_define folds
  have readable : ∀ rule ∈ base.rules, ReadableRule rule := by
    rw [same]
    exact renders.readable (not_mem_unifyBreaks _)
  obtain rfl | ⟨name, added⟩ := rules_of_addStart starts
  · exact readable
  · have isName : IsName name.toList := by
      have mentioned : name ∈ result.references := by
        apply Grammar.mem_references.mpr
        refine ⟨(entryName, .reference name), ?_, List.mem_singleton_self name⟩
        rw [added]
        exact List.mem_append_right _ List.mem_cons_self
      have defined := (Grammar.validate_eq_ok_iff.mp valid).2 name mentioned
      unfold Grammar.names at defined
      rw [added, List.map_append, List.mem_append] at defined
      obtain earlier | entry := defined
      · obtain ⟨rule, member, equal⟩ := List.mem_map.mp earlier
        rw [← equal]
        exact (readable rule member).1
      · rw [List.mem_singleton.mp entry]
        exact isName_entryName
    intro rule member
    rw [added, List.mem_append] at member
    obtain earlier | last := member
    · exact readable rule earlier
    · rw [List.mem_singleton.mp last]
      exact ⟨isName_entryName, .reference isName⟩

/-! ## Reading what was printed -/

theorem quote_not_mem_contents_iff {grammar : Grammar} :
    '"' ∉ contents grammar.rules ↔ ∀ pattern ∈ grammar.patterns, '"' ∉ pattern.toList := by
  constructor
  · intro unquoted pattern member inside
    obtain ⟨rule, among, written⟩ := List.mem_flatMap.mp member
    exact unquoted (mem_contents among written inside)
  · intro unquoted member
    obtain ⟨rule, among, inside⟩ := List.mem_flatMap.mp member
    obtain inContent | semicolon := List.mem_append.mp inside
    · obtain ⟨pattern, written, inPattern⟩ := List.mem_flatMap.mp inContent
      exact unquoted pattern (List.mem_flatMap.mpr ⟨rule, among, written⟩) inPattern
    · revert semicolon
      decide

/-- The printed form of a grammar that was read is read as the same grammar, rule by rule,
if and only if no pattern in it has a double quote. -/
theorem read_printed_iff {text : String} {start : Option String} {result : Grammar}
    (reads : read text start = .ok result) :
    read (CommandLine.printed result.describe) none = .ok result ↔
      ∀ pattern ∈ result.patterns, '"' ∉ pattern.toList := by
  have readable := readable_of_read reads
  obtain ⟨_, _, _, _, _, valid⟩ := read_eq_ok_iff.mp reads
  rw [read_none_eq_ok_iff, toList_printed_describe, unifyBreaks_of_not_mem (not_mem_page readable),
    ← quote_not_mem_contents_iff]
  constructor
  · exact fun again => again.1.quote_not_mem readable
  · exact fun unquoted => ⟨renders_page readable unquoted, valid⟩

def startedAtRule : Grammar := .ofRules [("a", .terminal "x"), (entryName, .reference "a")]

def quotedMark : Grammar := .ofRules [(entryName, .terminal "\\\"")]

theorem read_startedAtRule : read "a=\"x\";" (some "a") = .ok startedAtRule := by
  have renders : Renders [("a", .terminal "x")] (Lines.unifyBreaks "a=\"x\";".toList) :=
    ⟨[], .more (rule_quoted []) .none, .none⟩
  exact read_eq_ok_iff.mpr ⟨_, _, renders, rfl, rfl, rfl⟩

theorem read_quotedMark : read "ENTRY=\"\\\"\";" none = .ok quotedMark := by
  have item : Item false (.terminal "\\\"") ('"' :: (['\\', '"'] ++ '"' :: [';'])) [';'] :=
    .quoted (.escape (by decide) .nil)
  have body : Body (.terminal "\\\"") ('"' :: (['\\', '"'] ++ '"' :: [';'])) [';'] :=
    .branches (.items .none item .none) .none
  have isRule : Rule (entryName, .terminal "\\\"") "ENTRY=\"\\\"\";".toList [] :=
    .rule (.none : Layout _ ("ENTRY".toList ++ _)) isName_entryName .none body .none
  have renders : Renders [(entryName, .terminal "\\\"")]
      (Lines.unifyBreaks "ENTRY=\"\\\"\";".toList) :=
    ⟨[], .more isRule .none, .none⟩
  exact read_none_eq_ok_iff.mpr ⟨renders, rfl⟩

theorem plain_comes_back_quoted_does_not :
    (read "a=\"x\";" (some "a") = .ok startedAtRule ∧
      read (CommandLine.printed startedAtRule.describe) none = .ok startedAtRule) ∧
    (read "ENTRY=\"\\\"\";" none = .ok quotedMark ∧
      read (CommandLine.printed quotedMark.describe) none ≠ .ok quotedMark) := by
  refine ⟨⟨read_startedAtRule, ?_⟩, ⟨read_quotedMark, ?_⟩⟩
  · exact (read_printed_iff read_startedAtRule).mpr (by decide)
  · intro again
    have unquoted := (read_printed_iff read_quotedMark).mp again
    revert unquoted
    decide

end Ebnf

end OrderedChoice
