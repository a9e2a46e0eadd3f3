import OrderedChoice.Proofs.Ebnf.Completeness
import OrderedChoice.Proofs.Ebnf.Existence

/-! From trees of rules to rules. A rule that is found is one, a rule that is there is
found, and its tree has its name and its body where the reader looks for them. -/

namespace OrderedChoice

namespace Ebnf

variable {characters text rest : List Char} {tree : Tree Char}

/-! ## Names -/

theorem join_spell (characters : List Char) :
    String.join (characters.map Element.spell) = String.ofList characters := by
  induction characters with
  | nil => rfl
  | cons first others induction =>
      rw [List.map_cons, String.join_cons, induction]
      have spelled : Element.spell first = String.ofList [first] := String.singleton_eq_ofList
      rw [spelled, ← String.ofList_append]
      rfl

theorem text_name {name : List Char}
    (reads : Reads grammar characters (.reference "name") (name ++ rest) tree rest) :
    tree.text = String.ofList name := by
  have elements := List.append_cancel_right reads.text_eq
  unfold Tree.text
  rw [join_spell, ← elements]

/-! ## Single rules -/

def IsRuleTree (tree : Tree Char) (rule : String × Expr) : Prop :=
  ∃ definition, ruleParts? tree = some (rule.1, definition) ∧ expr? definition = some rule.2

theorem exists_rule_of_reads
    (reads : Reads grammar characters (.reference "rule") text tree rest) :
    ∃ rule, Rule rule text rest ∧ IsRuleTree tree rule := by
  rcases (reads_reference_iff rule_defined).mp reads with ⟨part, readsPart, rfl⟩
  rcases reads_sequence_iff.mp readsPart with ⟨_, whole, rfl⟩
  rcases readsItems_cons_iff.mp whole with ⟨_, _, _, lays, fromName, rfl⟩
  rcases readsItems_cons_iff.mp fromName with ⟨name, _, _, readsName, pastName, rfl⟩
  rcases readsItems_cons_iff.mp pastName with ⟨_, _, _, laysEquals, fromEquals, rfl⟩
  rcases readsItems_cons_iff.mp fromEquals with ⟨_, _, _, readsEquals, fromBody, rfl⟩
  rcases readsItems_cons_iff.mp fromBody with ⟨definition, _, _, readsBody, pastBody, rfl⟩
  rcases readsItems_cons_iff.mp pastBody with ⟨_, _, _, laysEnd, fromEnd, rfl⟩
  rcases readsItems_single_iff.mp fromEnd with ⟨_, readsEnd, rfl⟩
  have layed := layout_of_reads lays
  have layedEquals := layout_of_reads laysEquals
  have layedEnd := layout_of_reads laysEnd
  rw [eq_cons_of_reads (tests_toString '=') readsEquals] at layedEquals
  rw [eq_cons_of_reads (tests_toString ';') readsEnd] at layedEnd
  rcases (passes_name_iff readsName.inside).mp ⟨name, readsName⟩ with ⟨letters, isName, rfl, _⟩
  rcases exists_body_of_reads readsBody with ⟨body, isBody, denotes⟩
  refine ⟨(String.ofList letters, body), .rule layed isName layedEquals isBody layedEnd,
    definition, ?_, denotes⟩
  rw [ruleParts?, text_name readsName]

theorem Rule.exists_reads {rule : String × Expr} (isRule : Rule rule text rest)
    (inside : text <:+ characters) :
    ∃ tree, Reads grammar characters (.reference "rule") text tree rest ∧
      IsRuleTree tree rule := by
  cases isRule with
  | @rule name body text afterName definition afterBody rest layed isName layedEquals isBody
      layedEnd =>
      -- each part is found as far as it goes, so it matters what cannot go on behind it
      have closedName : ¬ OpensLayout (name ++ afterName) :=
        (Item.name isName).not_opensLayout
      have closedWord : ¬ OpensWord afterName :=
        layedEquals.not_opensWord (not_opensWord_mark (by decide))
      have closedEquals : ¬ OpensLayout ('=' :: definition) :=
        not_opensLayout_mark (by decide) (by decide)
      have ends : Ends bodyMarks afterBody := ⟨';', by decide, rest, layedEnd⟩
      have closedEnd : ¬ OpensLayout (';' :: rest) := not_opensLayout_mark (by decide) (by decide)
      obtain ⟨laid, lays⟩ : Passes grammar characters layout text (name ++ afterName) :=
        (passes_layout_iff inside).mpr ⟨layed, closedName⟩
      obtain ⟨nameTree, readsName⟩ :
          Passes grammar characters (.reference "name") (name ++ afterName) afterName :=
        (passes_name_iff lays.rest_inside).mpr ⟨name, isName, rfl, closedWord⟩
      obtain ⟨laidEquals, laysEquals⟩ :
          Passes grammar characters layout afterName ('=' :: definition) :=
        (passes_layout_iff readsName.rest_inside).mpr ⟨layedEquals, closedEquals⟩
      obtain ⟨equals, readsEquals⟩ :
          Passes grammar characters (.terminal "=") ('=' :: definition) definition :=
        (passes_literal_iff (tests_toString '=') laysEquals.rest_inside).mpr rfl
      rcases isBody.exists_reads readsEquals.rest_inside ends with
        ⟨bodyTree, readsBody, denotes⟩
      obtain ⟨laidEnd, laysEnd⟩ : Passes grammar characters layout afterBody (';' :: rest) :=
        (passes_layout_iff readsBody.rest_inside).mpr ⟨layedEnd, closedEnd⟩
      obtain ⟨semicolon, readsEnd⟩ : Passes grammar characters (.terminal ";") (';' :: rest) rest :=
        (passes_literal_iff (tests_toString ';') laysEnd.rest_inside).mpr rfl
      -- the items of the rule are put together from the last to the first
      have fromEnd := readsItems_single_iff.mpr ⟨semicolon, readsEnd, rfl⟩
      have pastBody := readsItems_cons_iff.mpr ⟨laidEnd, _, _, laysEnd, fromEnd, rfl⟩
      have fromBody := readsItems_cons_iff.mpr ⟨bodyTree, _, _, readsBody, pastBody, rfl⟩
      have fromEquals := readsItems_cons_iff.mpr ⟨equals, _, _, readsEquals, fromBody, rfl⟩
      have pastName := readsItems_cons_iff.mpr ⟨laidEquals, _, _, laysEquals, fromEquals, rfl⟩
      have fromName := readsItems_cons_iff.mpr ⟨nameTree, _, _, readsName, pastName, rfl⟩
      have whole := readsItems_cons_iff.mpr ⟨laid, _, _, lays, fromName, rfl⟩
      have part := reads_sequence_iff.mpr ⟨_, whole, rfl⟩
      refine ⟨_, (reads_reference_iff rule_defined).mpr ⟨_, part, rfl⟩, bodyTree, ?_, denotes⟩
      rw [ruleParts?, text_name readsName]

/-! ## Several rules -/

theorem advances_rule : Advances grammar characters (.reference "rule") := by
  have mark : Advances grammar characters (.terminal "=") :=
    advances_single grammar characters (tests_toString '=')
  exact (mark.sequence (by simp)).reference rule_defined

theorem exists_rules_of_reads_rounds {trees : List (Tree Char)}
    (reads : ReadsRounds grammar characters (.reference "rule") text trees rest) :
    ∃ rules, Rules rules text rest ∧ List.Forall₂ IsRuleTree trees rules := by
  induction trees generalizing text with
  | nil =>
      rcases advances_rule.readsRounds_iff.mp reads with
        ⟨_, _, rfl⟩ | ⟨_, _, _, _, _, equal⟩
      · exact ⟨[], .none, .nil⟩
      · cases equal
  | cons tree others induction =>
      rcases advances_rule.readsRounds_iff.mp reads with
        ⟨_, equal, _⟩ | ⟨round, middle, further, readsRound, rounds, equal⟩
      · cases equal
      · cases equal
        rcases exists_rule_of_reads readsRound with ⟨rule, isRule, isTree⟩
        rcases induction rounds with ⟨rules, areRules, areTrees⟩
        exact ⟨rule :: rules, .more isRule areRules, .cons isTree areTrees⟩

theorem not_opensLayout_nil : ¬ OpensLayout [] := by
  rintro (⟨_, head, _⟩ | ⟨_, whole⟩)
  · cases head
  · cases whole

theorem rejects_rule (inside : text <:+ characters) (layed : Layout text []) :
    Rejects grammar characters (.reference "rule") text := by
  have lays : Passes grammar characters layout text [] :=
    (passes_layout_iff inside).mpr ⟨layed, not_opensLayout_nil⟩
  have name : Rejects grammar characters (.reference "name") [] :=
    rejects_name lays.rest_inside nofun
  apply (rejects_reference_iff rule_defined).mpr
  apply rejects_sequence_cons_iff.mpr
  exact .inr ⟨[], lays, rejects_sequence_cons_iff.mpr (.inl name)⟩

theorem Rules.exists_reads {rules : List (String × Expr)} (areRules : Rules rules text rest)
    (inside : text <:+ characters) (layed : Layout rest []) :
    ∃ trees, ReadsRounds grammar characters (.reference "rule") text trees rest ∧
      List.Forall₂ IsRuleTree trees rules := by
  induction areRules with
  | none =>
      have rejects := rejects_rule inside layed
      exact ⟨[], advances_rule.readsRounds_iff.mpr (.inl ⟨rejects, rfl, rfl⟩), .nil⟩
  | more isRule _ induction =>
      rcases isRule.exists_reads inside with ⟨tree, reads, isTree⟩
      rcases induction reads.rest_inside layed with ⟨trees, rounds, areTrees⟩
      exact ⟨tree :: trees,
        advances_rule.readsRounds_iff.mpr (.inr ⟨tree, _, trees, reads, rounds, rfl⟩),
        .cons isTree areTrees⟩

end Ebnf

end OrderedChoice
