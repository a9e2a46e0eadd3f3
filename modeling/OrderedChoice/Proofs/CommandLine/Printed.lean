import OrderedChoice.CommandLine.Run

/-! Lines of a printed text. A text is printed line by line, but a line that holds line feeds
itself, as the name of a file may, makes several of them. So a line is looked for in the text
as a whole. The message that all went well is there if it was printed last, and it is not there
among lines that do not begin like it. -/

namespace OrderedChoice

theorem eq_of_append_cons_eq {α : Type} {mark : α} {first second after behind : List α}
    (firstFree : mark ∉ first) (secondFree : mark ∉ second)
    (equal : first ++ mark :: after = second ++ mark :: behind) :
    first = second ∧ after = behind := by
  induction first generalizing second with
  | nil =>
      cases second with
      | nil => exact ⟨rfl, (List.cons.inj equal).2⟩
      | cons other others =>
          have here : mark = other := (List.cons.inj equal).1
          exact absurd (here ▸ List.mem_cons_self) secondFree
  | cons head tail induction =>
      rw [List.mem_cons, not_or] at firstFree
      cases second with
      | nil => exact absurd (List.cons.inj equal).1.symm firstFree.1
      | cons other others =>
          rw [List.mem_cons, not_or] at secondFree
          obtain ⟨rfl, further⟩ := List.cons.inj equal
          obtain ⟨rfl, same⟩ := induction firstFree.2 secondFree.2 further
          exact ⟨rfl, same⟩

namespace CommandLine

/-! ## Lines of a text -/

/-- A line stands in a text: it begins where a line begins and ends where a line ends. -/
def HasLine (text line : String) : Prop :=
  '\n' :: (line.toList ++ ['\n']) <:+: '\n' :: text.toList

instance (text line : String) : Decidable (HasLine text line) :=
  inferInstanceAs (Decidable (_ <:+: _))

example : HasLine "x\nab\n" "ab" ∧ HasLine "ab\nc\n" "ab\nc" ∧ ¬ HasLine "xab\n" "ab" := by
  decide

theorem infix_of_unfed {line rest needle : List Char} (unfed : '\n' ∉ line)
    (stands : '\n' :: needle <:+: line ++ rest) : '\n' :: needle <:+: rest := by
  induction line with
  | nil => exact stands
  | cons first others induction =>
      rw [List.mem_cons, not_or] at unfed
      rw [List.cons_append, List.infix_cons_iff, List.cons_prefix_cons] at stands
      rcases stands with ⟨equal, _⟩ | later
      · exact absurd equal unfed.1
      · exact induction unfed.2 later

/-! ## Printing -/

theorem toList_printed_cons (line : String) (others : List String) :
    (printed (line :: others)).toList = line.toList ++ '\n' :: (printed others).toList := by
  simp [printed]

theorem toList_printed_append (lines others : List String) :
    (printed (lines ++ others)).toList = (printed lines).toList ++ (printed others).toList := by
  simp [printed]

theorem printed_eq_empty_iff {lines : List String} : printed lines = "" ↔ lines = [] := by
  rw [← String.toList_eq_nil_iff]
  cases lines with
  | nil => simp [printed]
  | cons line others => simp [toList_printed_cons]

theorem newline_suffix_printed (lines : List String) :
    ['\n'] <:+ '\n' :: (printed lines).toList := by
  induction lines with
  | nil => exact List.suffix_refl _
  | cons line others induction =>
      rw [toList_printed_cons]
      exact induction.trans (List.suffix_append ('\n' :: line.toList) _)

theorem hasLine_printed_concat (lines : List String) (line : String) :
    HasLine (printed (lines ++ [line])) line := by
  obtain ⟨before, ends⟩ := newline_suffix_printed lines
  refine ⟨before, [], ?_⟩
  calc before ++ '\n' :: (line.toList ++ ['\n']) ++ []
      = (before ++ ['\n']) ++ (line.toList ++ ['\n']) := by simp
    _ = '\n' :: (printed lines).toList ++ (line.toList ++ ['\n']) := by rw [ends]
    _ = '\n' :: (printed (lines ++ [line])).toList := by
        rw [toList_printed_append, toList_printed_cons]
        rfl

/-! ## Messages -/

def announcement : String := "Parsed without error: "

def message (path : String) : String := announcement ++ path

/-- A single line that is no such message, whatever the file. -/
structure Neutral (line : String) : Prop where
  unfed : '\n' ∉ line.toList
  unlike : ¬ announcement.toList <+: line.toList

theorem neutral_of_cons {line : String} {first : Char} {rest : List Char}
    (shape : line.toList = first :: rest) (other : first ≠ 'P') (unfed : '\n' ∉ line.toList) :
    Neutral line := by
  refine ⟨unfed, ?_⟩
  rw [shape]
  intro opens
  exact other (List.cons_prefix_cons.mp opens).1.symm

theorem neutral_of_word {line : String} {word rest : List Char} {next : Char}
    (shape : line.toList = word ++ ' ' :: next :: rest) (single : ' ' ∉ word)
    (other : next ≠ 'w') (unfed : '\n' ∉ line.toList) : Neutral line := by
  refine ⟨unfed, ?_⟩
  rw [shape]
  rintro ⟨more, equal⟩
  let opening := "Parsed".toList
  have split : announcement.toList ++ more =
    opening ++ ' ' :: 'w' :: ("ithout error: ".toList ++ more) := rfl
  rw [split] at equal
  have unbroken : ' ' ∉ opening := by decide
  have after := (eq_of_append_cons_eq unbroken single equal).2
  exact other (List.cons.inj after).1.symm

theorem Neutral.not_opened {line : String} (neutral : Neutral line) (rest : List Char) :
    ¬ announcement.toList <+: line.toList ++ '\n' :: rest := by
  intro opens
  have unfed : '\n' ∉ announcement.toList := by decide
  have whole : line.toList ++ ['\n'] <+: line.toList ++ '\n' :: rest :=
    (List.prefix_append_right_inj _).mpr ⟨rest, rfl⟩
  -- the announcement cannot go beyond the line, since it has no line feed
  rcases List.prefix_or_prefix_of_prefix opens whole with within | beyond
  · rcases List.prefix_concat_iff.mp within with equal | within
    · apply unfed
      rw [equal]
      exact List.mem_append_right _ List.mem_cons_self
    · exact neutral.unlike within
  · exact unfed (beyond.subset (List.mem_append_right _ List.mem_cons_self))

theorem not_hasLine_printed {lines : List String} (neutral : ∀ line ∈ lines, Neutral line)
    (path : String) : ¬ HasLine (printed lines) (message path) := by
  unfold HasLine
  induction lines with
  | nil =>
      intro stands
      have length := stands.length_le
      simp [printed] at length
  | cons line others induction =>
      rw [List.forall_mem_cons] at neutral
      rw [toList_printed_cons, List.infix_cons_iff, List.cons_prefix_cons, not_or]
      constructor
      · rintro ⟨_, here⟩
        have opens : announcement.toList <+: (message path).toList ++ ['\n'] := by
          rw [message, String.toList_append, List.append_assoc]
          exact List.prefix_append _ _
        exact neutral.1.not_opened _ (opens.trans here)
      · exact fun later => induction neutral.2 (infix_of_unfed neutral.1.unfed later)

end CommandLine

end OrderedChoice
