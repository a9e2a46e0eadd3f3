import OrderedChoice.Proofs.Ebnf.Refusal
import OrderedChoice.Proofs.Ebnf.Truncation
import OrderedChoice.Proofs.Machine.Definedness
import OrderedChoice.Proofs.Machine.Diagnosis

/-! What becomes of texts that do not follow the notation. Rules are taken as long as there are
any, and the layout after them; whatever is left is given back, however much of a rule it may
begin with. So a run over any text ends with a tree, and it is the tree of a text that follows
the notation: of the part that was taken. -/

namespace OrderedChoice

namespace Ebnf

open Machine
open OrderedChoice.Lines (not_mem_unifyBreaks unifyBreaks_of_not_mem)

variable {characters part tail text rest : List Char} {tree : Tree Char}

/-! ## What is taken -/

theorem not_opensLayout_of_reads (reads : Reads grammar characters entry text tree rest) :
    ¬ OpensLayout rest := by
  rcases reads_pair_iff.mp reads with ⟨_, _, laid, _, lays, _⟩
  exact ((passes_layout_iff lays.inside).mp ⟨laid, lays⟩).2

theorem ne_absent_of_reads (reads : Reads grammar characters entry text tree rest) :
    tree ≠ .absent := by
  rcases reads_pair_iff.mp reads with ⟨_, _, _, _, _, rfl⟩
  exact nofun

theorem renders_of_reads (reads : Reads grammar part entry part tree []) :
    ∃ rules, Renders rules part ∧ Holds tree rules := by
  rcases exists_rules_of_reads reads with ⟨rules, last, areRules, layed, holds⟩
  exact ⟨rules, ⟨last, areRules, layed⟩, holds⟩

theorem ofTree_cases {rules : List (String × Expr)} (holds : Holds tree rules) :
    (∃ result, ofTree tree none = .ok result ∧ result.rules = rules) ∨
      ∃ before rule after, rules = before ++ rule :: after ∧ rule.1 ∈ before.map Prod.fst ∧
        ofTree tree none = .error (.definedTwice rule.1) := by
  rw [ofTree_eq holds]
  by_cases distinct : (rules.map Prod.fst).Nodup
  · exact .inl (exists_foldlM_define distinct)
  · have none : (([] : List (String × Expr)).map Prod.fst).Nodup := List.nodup_nil
    rcases exists_repeated none distinct with ⟨before, rule, after, split, earlier, member⟩
    have whole : rules = before ++ rule :: after := split
    refine .inr ⟨before, rule, after, whole, member, ?_⟩
    rw [whole]
    exact foldlM_define_eq_error earlier member

/-! ## Runs -/

theorem validate_grammar : grammar.validate = .ok () := by
  rw [Grammar.validate_eq_ok_iff]
  decide +kernel

theorem exists_concludes (reads : Reads grammar characters entry characters tree rest) :
    ∃ last, Concludes grammar (.ofCharacters characters) last (.found tree) ∧
      parse grammar (.ofCharacters characters) =
        stateAt grammar (.ofCharacters characters) (last + 1) := by
  rcases exists_concludes_of_valid validate_grammar (.ofCharacters characters) with
    ⟨last, outcome, concludes, ended⟩
  have shown : (parse grammar (.ofCharacters characters)).tree = tree :=
    (shows_of_reads reads).2.1
  rw [ended] at shown
  cases outcome with
  | found other =>
      rw [concludes.found.tree] at shown
      rw [shown] at concludes
      exact ⟨last, concludes, ended⟩
  | missed =>
      rw [concludes.missed.tree] at shown
      exact absurd shown.symm (ne_absent_of_reads reads)

theorem offsetOf_append (part tail : List Char) :
    offsetOf (part ++ tail) tail = part.length := by
  unfold offsetOf
  rw [List.length_append, Nat.add_sub_cancel]

theorem exists_cons_of_holds {character : Char}
    (holds : (Input.ofCharacters (part ++ tail)).Holds part.length character) :
    ∃ others, tail = character :: others := by
  have present : (part ++ tail).toArray[part.length]? = some character := holds.2
  rw [List.getElem?_toArray, List.getElem?_append_right (Nat.le_refl _), Nat.sub_self] at present
  cases tail with
  | nil => cases present
  | cons first others =>
      cases present
      exact ⟨others, rfl⟩

theorem parseText_ofList (unreturned : '\r' ∉ characters) :
    parseText (String.ofList characters) = parse grammar (.ofCharacters characters) := by
  have run : parseText (String.ofList characters) =
      parse grammar (.ofCharacters (Lines.unifyBreaks (String.ofList characters).toList)) := rfl
  rw [run, String.toList_ofList, unifyBreaks_of_not_mem unreturned]

/-- A run over the part of a text that a run has taken goes well, and has the same tree. -/
theorem parse_taken (reads : Reads grammar (part ++ tail) entry (part ++ tail) tree tail) :
    (parse grammar (.ofCharacters part)).log = [] ∧
      (parse grammar (.ofCharacters part)).tree = tree := by
  have whole := reads_taken reads
  exact ⟨List.isEmpty_iff.mp (isOk_of_reads whole), (shows_of_reads whole).2.1⟩

/-! ## Texts -/

/-- A run over any text, whether it follows the notation or not, finds the outermost frame. So
there is a tree, and nothing is in the log, or one line about the first character that is left.
That character is no blank and does not begin a comment. A run over nothing but the part before
it goes well and has an equal tree. In either case the tree is that of rules: the reader makes a
grammar of them, or turns down one that has the name of an earlier one. -/
theorem parseText_takes_rules (text : String) :
    let characters := Lines.unifyBreaks text.toList
    let run := parseText text
    let taken := characters.take run.cursor
    (∃ last, Concludes grammar (.ofText text) last (.found run.tree) ∧
        run = stateAt grammar (.ofText text) (last + 1)) ∧
      run.tree ≠ .absent ∧ ReportsFound (.ofText text) run ∧
      (run.log ≠ [] → ∃ character rest, characters = taken ++ character :: rest ∧
        run.log = [.expectedEnd character run.cursor] ∧
        isBlank character = false ∧ ¬ OpensComment (character :: rest)) ∧
      (parseText (String.ofList taken)).log = [] ∧
      (parseText (String.ofList taken)).tree = run.tree ∧
      ∃ rules, Renders rules taken ∧
        ((∃ result, ofTree run.tree none = .ok result ∧ result.rules = rules) ∨
          ∃ before rule after, rules = before ++ rule :: after ∧
            rule.1 ∈ before.map Prod.fst ∧
            ofTree run.tree none = .error (.definedTwice rule.1)) := by
  intro characters run taken
  rcases exists_reads_entry characters with ⟨tree, rest, reads⟩
  rcases shows_of_reads reads with ⟨_, shown, cursor, _⟩
  have runTree : run.tree = tree := shown
  rcases exists_concludes reads with ⟨last, concludes, ended⟩
  have runEnded : run = stateAt grammar (.ofText text) (last + 1) := ended
  have reports : ReportsFound (.ofText text) run := by
    rw [runEnded]
    exact concludes.reportsFound
  rcases reads.after with ⟨part, split⟩
  have runCursor : run.cursor = part.length := by
    have stop : run.cursor = offsetOf characters rest := cursor
    rw [stop, ← split, offsetOf_append]
  have takenPart : taken = part := by
    unfold taken
    rw [runCursor, ← split, List.take_left]
  have unreturned : '\r' ∉ part := by
    intro member
    apply not_mem_unifyBreaks text.toList
    change '\r' ∈ characters
    rw [← split]
    exact List.mem_append_left rest member
  rw [runTree, takenPart, parseText_ofList unreturned]
  -- from here on the text is cut where the run has stopped
  rw [← split] at reads
  rcases parse_taken reads with ⟨clear, same⟩
  rcases renders_of_reads (reads_taken reads) with ⟨rules, renders, holds⟩
  refine ⟨⟨last, concludes, runEnded⟩, ne_absent_of_reads reads, reports, ?_, clear, same,
    rules, renders, ofTree_cases holds⟩
  intro lines
  cases reports with
  | whole _ none => exact absurd none lines
  | left character held log _ =>
      have present : (Input.ofCharacters characters).Holds run.cursor character := held
      rw [runCursor, ← split] at present
      rcases exists_cons_of_holds present with ⟨others, rfl⟩
      -- a blank or a comment there would have been taken as layout
      have closed := not_opensLayout_of_reads reads
      have unblank : isBlank character = false :=
        Bool.eq_false_iff.mpr fun blank => closed (.inl ⟨character, rfl, blank⟩)
      exact ⟨character, others, split.symm, log, unblank, fun opens => closed (.inr opens)⟩

theorem begun_rule_given_back :
    (parseText "a=\"x\"; b").log ≠ [] ∧
      (parseText "a=\"x\"; b").log = [.expectedEnd 'b' 7] ∧ isBlank 'b' = false ∧
      (parseText "a=\"x\"; ").log = [] ∧
      (parseText "a=\"x\"; ").tree = (parseText "a=\"x\"; b").tree := by
  have ends : let final := stateAt grammar (Input.ofText "a=\"x\"; b") 349
      final.stopped = true ∧ final.isOk = false ∧ final.cursor = 7 := by decide +kernel
  rcases ends with ⟨stopped, bad, cursor⟩
  have run := stateAt_eq_parse stopped
  have lines : (parseText "a=\"x\"; b").log ≠ [] := by
    intro clear
    have good : (parseText "a=\"x\"; b").isOk = true := List.isEmpty_iff.mpr clear
    rw [run] at bad
    exact Bool.false_ne_true (bad.symm.trans good)
  have place : (parseText "a=\"x\"; b").cursor = 7 := by
    rw [run] at cursor
    exact cursor
  have whole : Lines.unifyBreaks "a=\"x\"; b".toList = "a=\"x\"; b".toList := rfl
  have taken : "a=\"x\"; b".toList.take 7 = "a=\"x\"; ".toList := rfl
  rcases parseText_takes_rules "a=\"x\"; b" with ⟨_, _, _, left, clear, same, _⟩
  rw [whole, place, taken] at left clear same
  rw [String.ofList_toList] at clear same
  rcases left lines with ⟨character, rest, split, log, unblank, _⟩
  cases split
  exact ⟨lines, log, unblank, clear, same⟩

end Ebnf

end OrderedChoice
