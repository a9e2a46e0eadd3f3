import Mathlib.Data.List.Chain
import OrderedChoice.Proofs.Ebnf.Printing

/-! Where the semicolons and backslashes of a grammar text come from. They belong to the
rules and patterns that the text denotes, or stand in comments. If every line ends with a
semicolon, a comment has one as well, so a text with no semicolon to spare has no comments
and no backslash to spare either. -/

namespace OrderedChoice

namespace Ebnf

open OrderedChoice.Expr (content)

variable {text rest : List Char}

/-! ## Lines that end with semicolons -/

/-- A text whose lines all end with a semicolon, but for empty ones, and whose last line
is ended. -/
def Tidy (text : List Char) : Prop :=
  text.IsChain (fun earlier later => later = '\n' → earlier = ';' ∨ earlier = '\n') ∧
    ∀ last ∈ text.getLast?, last = '\n'

theorem Tidy.of_suffix (tidy : Tidy text) (suffix : rest <:+ text) : Tidy rest := by
  refine ⟨tidy.1.suffix suffix, ?_⟩
  intro last member
  obtain ⟨before, rfl⟩ := suffix
  apply tidy.2
  rw [List.getLast?_append, member]
  rfl

theorem Tidy.semicolon_mem {first : Char} {others : List Char}
    (tidy : Tidy (first :: others ++ rest)) (unbroken : '\n' ∉ first :: others)
    (ends : ∀ character ∈ rest.head?, character = '\n') : ';' ∈ first :: others := by
  obtain ⟨last, latest⟩ : ∃ last, (first :: others).getLast? = some last :=
    Option.isSome_iff_exists.mp (by simp)
  have member : last ∈ first :: others := List.mem_of_getLast? latest
  have different : last ≠ '\n' := fun equal => unbroken (equal ▸ member)
  cases rest with
  | nil =>
      rw [List.append_nil] at tidy
      exact absurd (tidy.2 last latest) different
  | cons next more =>
      have chain := (List.isChain_append.mp tidy.1).2.2 last latest next rfl (ends next rfl)
      rw [← chain.resolve_right different]
      exact member

theorem tidy_line_append {rule : String × Expr} (readable : ReadableRule rule) (tidy : Tidy rest) :
    Tidy (line rule ++ '\n' :: rest) := by
  have inside : (line rule).IsChain
      fun earlier later => later = '\n' → earlier = ';' ∨ earlier = '\n' := by
    -- there is no line feed within the line
    apply List.Pairwise.isChain
    apply List.pairwise_of_forall_mem_list
    intro earlier _ later member equal
    exact absurd (equal ▸ member) readable.displays.unfed
  have ending : (line rule).getLast? = some ';' := by
    simp [line, List.getLast?_append, List.getLast?_cons]
  have after : ('\n' :: rest).IsChain
      fun earlier later => later = '\n' → earlier = ';' ∨ earlier = '\n' :=
    List.isChain_cons.mpr ⟨fun _ _ _ => .inr rfl, tidy.1⟩
  constructor
  · refine List.isChain_append.mpr ⟨inside, after, ?_⟩
    intro last latest _ _ _
    rw [ending] at latest
    exact .inl (Option.some.inj latest).symm
  · intro last latest
    rw [List.getLast?_append, List.getLast?_cons] at latest
    cases final : rest.getLast? with
    | none =>
        rw [final] at latest
        exact (Option.some.inj latest).symm
    | some other =>
        rw [final] at latest
        rw [← Option.some.inj latest]
        exact tidy.2 other final

theorem tidy_page {rules : List (String × Expr)}
    (readable : ∀ rule ∈ rules, ReadableRule rule) : Tidy (page rules) := by
  induction rules with
  | nil => exact ⟨.nil, nofun⟩
  | cons rule others induction =>
      rw [List.forall_mem_cons] at readable
      rw [page_cons]
      exact tidy_line_append readable.1 (induction readable.2)

/-! ## Accounts -/

/-- The semicolons and backslashes of a stretch of text are those of a content and of the
comments in it, and there is a semicolon in the comments if there are any. -/
def Accounts (content text rest : List Char) : Prop :=
  ∃ comments : List Char, (comments = [] ∨ ';' ∈ comments) ∧
    ∀ mark ∈ [';', '\\'],
      text.count mark = content.count mark + comments.count mark + rest.count mark

namespace Accounts

variable {content more text middle rest : List Char} {character : Char}

theorem refl (text : List Char) : Accounts [] text text :=
  ⟨[], .inl rfl, fun _ _ => by simp⟩

theorem trans (first : Accounts content text middle) (second : Accounts more middle rest) :
    Accounts (content ++ more) text rest := by
  obtain ⟨comments, marked, counts⟩ := first
  obtain ⟨others, otherMarked, otherCounts⟩ := second
  refine ⟨comments ++ others, ?_, ?_⟩
  · obtain rfl | member := marked
    · exact otherMarked
    · exact .inr (List.mem_append_left _ member)
  · intro mark member
    rw [counts mark member, otherCounts mark member, List.count_append, List.count_append]
    omega

theorem own (content rest : List Char) : Accounts content (content ++ rest) rest :=
  ⟨[], .inl rfl, fun _ _ => by simp [List.count_append]⟩

theorem plain (plain : character ≠ ';' ∧ character ≠ '\\') (rest : List Char) :
    Accounts [] (character :: rest) rest := by
  refine ⟨[], .inl rfl, ?_⟩
  intro mark member
  have different : character ≠ mark := by
    rintro rfl
    simp only [List.mem_cons, List.not_mem_nil, or_false] at member
    exact member.elim plain.1 plain.2
  rw [List.count_cons_of_ne different]
  simp

end Accounts

theorem Layout.accounts (tidy : Tidy text) (layed : Layout text rest) :
    Accounts [] text rest := by
  induction layed with
  | none => exact .refl _
  | @blank character text rest blank _ induction =>
      have plain : character ≠ ';' ∧ character ≠ '\\' := by
        constructor
        · rintro rfl
          rw [(marks_apart ';' (by decide)).1] at blank
          cases blank
        · rintro rfl
          rw [(marks_apart '\\' (by decide)).1] at blank
          cases blank
      exact (Accounts.plain plain text).trans (induction (tidy.of_suffix (List.suffix_cons _ _)))
  | @comment content text rest unbroken ends _ induction =>
      have unbrokenWhole : '\n' ∉ '/' :: '/' :: content := by
        simp only [List.mem_cons, not_or]
        exact ⟨by decide, by decide, fun member => unbroken _ member rfl⟩
      have semicolon : ';' ∈ '/' :: '/' :: content := tidy.semicolon_mem unbrokenWhole ends
      have comment : Accounts [] ('/' :: '/' :: (content ++ text)) text := by
        refine ⟨'/' :: '/' :: content, .inr semicolon, ?_⟩
        intro mark _
        rw [← List.cons_append, ← List.cons_append, List.count_append]
        simp
      have suffix : text <:+ '/' :: '/' :: (content ++ text) :=
        List.suffix_append ('/' :: '/' :: content) text
      exact comment.trans (induction (tidy.of_suffix suffix))

theorem Layout.accounts_cons {character : Char} (plain : character ≠ ';' ∧ character ≠ '\\')
    (tidy : Tidy text) (layed : Layout text (character :: rest)) : Accounts [] text rest :=
  (layed.accounts tidy).trans (.plain plain rest)

theorem IsName.accounts {name : List Char} (isName : IsName name) (rest : List Char) :
    Accounts [] (name ++ rest) rest := by
  have shown := isName.displays
  refine ⟨[], .inl rfl, ?_⟩
  simp [List.count_append, shown.semicolons, shown.backslashes]

theorem accounts_quoted (pattern rest : List Char) :
    Accounts pattern ('"' :: (pattern ++ '"' :: rest)) rest := by
  have plain : '"' ≠ ';' ∧ '"' ≠ '\\' := by decide
  have opens := Accounts.plain plain (pattern ++ '"' :: rest)
  have closes := (Accounts.own pattern ('"' :: rest)).trans (.plain plain rest)
  rw [List.append_nil] at closes
  exact opens.trans closes

theorem accounts_bracketed {opening closing : Char} {inner text stop rest : List Char}
    (opens : opening ≠ ';' ∧ opening ≠ '\\') (closes : closing ≠ ';' ∧ closing ≠ '\\')
    (tidy : Tidy stop) (inside : Accounts inner text stop)
    (layed : Layout stop (closing :: rest)) : Accounts inner (opening :: text) rest := by
  have ends := inside.trans (layed.accounts_cons closes tidy)
  rw [List.append_nil] at ends
  exact (Accounts.plain opens text).trans ends

theorem content_choiceOf (exprs : List Expr) :
    (choiceOf exprs).content = exprs.flatMap content := by
  unfold choiceOf
  split
  · exact (List.flatMap_singleton _ _).symm
  · exact Expr.content_patternsInAll exprs

theorem content_sequenceOf (exprs : List Expr) :
    (sequenceOf exprs).content = exprs.flatMap content := by
  unfold sequenceOf
  split
  · exact (List.flatMap_singleton _ _).symm
  · exact Expr.content_patternsInAll exprs

mutual
theorem Item.accounts {named : Bool} {item : Expr} {text rest : List Char}
    (tidy : Tidy text) : Item named item text rest → Accounts item.content text rest
  | .name isName => isName.accounts rest
  | @Item.quoted pattern rest _ => by
      have whole := accounts_quoted pattern rest
      simpa [content, Expr.patterns] using whole
  | .group isBody layed =>
      have inside := tidy.of_suffix (List.suffix_cons _ _)
      have within := isBody.accounts inside
      accounts_bracketed (by decide) (by decide) (inside.of_suffix isBody.suffix) within layed
  | .option isBody layed =>
      have inside := tidy.of_suffix (List.suffix_cons _ _)
      have within := isBody.accounts inside
      accounts_bracketed (by decide) (by decide) (inside.of_suffix isBody.suffix) within layed
  | .repetition isBody layed =>
      have inside := tidy.of_suffix (List.suffix_cons _ _)
      have within := isBody.accounts inside
      accounts_bracketed (by decide) (by decide) (inside.of_suffix isBody.suffix) within layed

theorem Items.accounts {named : Bool} {items : List Expr} {text rest : List Char}
    (tidy : Tidy text) : Items named items text rest →
      Accounts (items.flatMap content) text rest
  | .none => .refl _
  | .comma layed layedItem isItem areItems =>
      have fromComma := tidy.of_suffix (suffix_of_cons_suffix layed.suffix)
      have before := fromComma.of_suffix layedItem.suffix
      have after := before.of_suffix isItem.suffix
      have lead := (layed.accounts_cons (by decide) tidy).trans (layedItem.accounts fromComma)
      lead.trans ((isItem.accounts before).trans (areItems.accounts after))
  | .apart layed _ isItem areItems =>
      have before := tidy.of_suffix layed.suffix
      have after := before.of_suffix isItem.suffix
      (layed.accounts tidy).trans ((isItem.accounts before).trans (areItems.accounts after))

theorem Sequence.accounts {sequence : Expr} {text rest : List Char}
    (tidy : Tidy text) : Sequence sequence text rest → Accounts sequence.content text rest
  | @Sequence.items _ _ _ _ _ _ _ layed isItem areItems => by
      have before := tidy.of_suffix layed.suffix
      have after := before.of_suffix isItem.suffix
      rw [content_sequenceOf]
      exact (layed.accounts tidy).trans ((isItem.accounts before).trans (areItems.accounts after))

theorem Branches.accounts {branches : List Expr} {text rest : List Char}
    (tidy : Tidy text) : Branches branches text rest →
      Accounts (branches.flatMap content) text rest
  | .none => .refl _
  | .bar layed isSequence areBranches =>
      have before := tidy.of_suffix (suffix_of_cons_suffix layed.suffix)
      have after := before.of_suffix isSequence.suffix
      have lead := layed.accounts_cons (by decide) tidy
      lead.trans ((isSequence.accounts before).trans (areBranches.accounts after))

theorem Body.accounts {body : Expr} {text rest : List Char}
    (tidy : Tidy text) : Body body text rest → Accounts body.content text rest
  | @Body.branches _ _ _ _ _ isSequence areBranches => by
      have after := tidy.of_suffix isSequence.suffix
      rw [content_choiceOf]
      exact (isSequence.accounts tidy).trans (areBranches.accounts after)
end

/-! ## Rules -/

theorem Rule.accounts {rule : String × Expr} (isRule : Rule rule text rest)
    (tidy : Tidy text) : Accounts (rule.2.content ++ [';']) text rest := by
  cases isRule with
  | @rule name body _ afterName definition afterBody _ layed isName layedEquals isBody
      layedEnd =>
      have fromName := tidy.of_suffix layed.suffix
      have pastName := fromName.of_suffix (List.suffix_append name afterName)
      have pastEquals := pastName.of_suffix (suffix_of_cons_suffix layedEquals.suffix)
      have pastBody := pastEquals.of_suffix isBody.suffix
      have lead : Accounts [] text definition :=
        ((layed.accounts tidy).trans (isName.accounts afterName)).trans
          (layedEquals.accounts_cons (by decide) pastName)
      have ending : Accounts [';'] afterBody rest :=
        (layedEnd.accounts pastBody).trans (.own [';'] rest)
      exact lead.trans ((isBody.accounts pastEquals).trans ending)

theorem Rules.accounts {rules : List (String × Expr)} (areRules : Rules rules text rest)
    (tidy : Tidy text) : Accounts (contents rules) text rest := by
  induction areRules with
  | none => exact .refl _
  | more isRule _ induction =>
      have after := tidy.of_suffix isRule.suffix
      exact (isRule.accounts tidy).trans (induction after)

/-- If a printed page says what was printed, none of the patterns has a double quote. The
page has no semicolon to spare, so nothing of it is a comment, and then there is no backslash
to spare that could have been put before a double quote. -/
theorem Renders.quote_not_mem {rules : List (String × Expr)}
    (readable : ∀ rule ∈ rules, ReadableRule rule) (renders : Renders rules (page rules)) :
    '"' ∉ contents rules := by
  obtain ⟨last, areRules, layed⟩ := renders
  have tidy := tidy_page readable
  have after := tidy.of_suffix areRules.suffix
  have whole := (areRules.accounts tidy).trans (layed.accounts after)
  rw [List.append_nil] at whole
  obtain ⟨comments, marked, counts⟩ := whole
  obtain ⟨semicolons, backslashes⟩ := count_page readable
  -- all semicolons of the page are accounted for by its rules and patterns
  have spare : comments.count ';' = 0 := by
    have total := counts ';' (by decide)
    rw [semicolons] at total
    simpa using total
  have uncommented : comments = [] :=
    marked.resolve_right (List.count_eq_zero.mp spare)
  have total := counts '\\' (by decide)
  rw [backslashes, uncommented] at total
  apply List.count_eq_zero.mp
  simpa using total

end Ebnf

end OrderedChoice
