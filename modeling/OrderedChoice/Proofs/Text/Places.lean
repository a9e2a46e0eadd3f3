import Mathlib.Data.List.DropRight
import OrderedChoice.Proofs.Text.Lines
import OrderedChoice.Source

/-! Places in terms of texts as they were written. Unifying line breaks moves offsets, but line
and column stay what a reader of the written text counts: the line breaks before a place, each
counted once however it is written, and the characters since the last of them. -/

namespace OrderedChoice

namespace Lines

/-! ## Breaks as they were written -/

def breakCount : List Char → Nat
  | [] => 0
  | '\r' :: '\n' :: rest => breakCount rest + 1
  | '\r' :: rest => breakCount rest + 1
  | '\n' :: rest => breakCount rest + 1
  | _ :: rest => breakCount rest

def inLine (character : Char) : Bool :=
  character != '\r' && character != '\n'

def lastLine (characters : List Char) : List Char :=
  characters.rtakeWhile inLine

theorem inLine_eq_true_iff {character : Char} :
    inLine character = true ↔ character ≠ '\r' ∧ character ≠ '\n' := by
  simp [inLine]

theorem count_unifyBreaks (characters : List Char) :
    (unifyBreaks characters).count '\n' = breakCount characters := by
  fun_induction breakCount characters with
  | case1 => rfl
  | case2 rest induction => rw [unifyBreaks, List.count_cons_self, induction]
  | case3 rest alone induction =>
      have single : ¬ ('\r' = '\r' ∧ rest.head? = some '\n') := by
        rintro ⟨_, feed⟩
        rcases List.head?_eq_some_iff.mp feed with ⟨others, equal⟩
        exact alone others equal
      rw [unifyBreaks_cons single, if_pos rfl, List.count_cons_self, induction]
  | case4 rest induction =>
      rw [unifyBreaks_cons_of_ne (by decide), List.count_cons_self, induction]
  | case5 character rest _ noReturn noFeed induction =>
      rw [unifyBreaks_cons_of_ne noReturn, List.count_cons_of_ne noFeed, induction]

theorem exists_unifyBreaks_concat (characters : List Char) {mark : Char}
    (breaks : mark = '\r' ∨ mark = '\n') :
    ∃ lines, unifyBreaks (characters ++ [mark]) = lines ++ ['\n'] := by
  rcases breaks with rfl | rfl
  · have apart : ¬ CutsBreak characters ['\r'] := nofun
    exact ⟨_, unifyBreaks_append apart⟩
  · by_cases cuts : CutsBreak characters ['\n']
    · rcases List.getLast?_eq_some_iff.mp cuts.1 with ⟨before, rfl⟩
      have apart : ¬ CutsBreak before ['\r', '\n'] := nofun
      rw [List.append_assoc]
      exact ⟨_, unifyBreaks_append apart⟩
    · exact ⟨_, unifyBreaks_append cuts⟩

/-- The last line stays as it was written when breaks are unified, and what comes before it still
ends with a break. -/
theorem exists_unifyBreaks_lastLine (characters : List Char) :
    ∃ front, unifyBreaks characters = front ++ lastLine characters ∧
      (front = [] ∨ ∃ lines, front = lines ++ ['\n']) := by
  have within : ∀ character ∈ lastLine characters, inLine character = true :=
    fun character member => List.mem_rtakeWhile_imp member
  have apart (before : List Char) : ¬ CutsBreak before (lastLine characters) := by
    rintro ⟨_, feed⟩
    exact (inLine_eq_true_iff.mp (within '\n' (List.mem_of_mem_head? feed))).2 rfl
  have unreturned : '\r' ∉ lastLine characters :=
    fun member => (inLine_eq_true_iff.mp (within '\r' member)).1 rfl
  have split : characters.rdropWhile inLine ++ lastLine characters = characters :=
    List.rdropWhile_append_rtakeWhile
  refine ⟨unifyBreaks (characters.rdropWhile inLine), ?_, ?_⟩
  · rw [← unifyBreaks_of_not_mem unreturned, ← unifyBreaks_append (apart _), split]
  · rcases List.eq_nil_or_concat' (characters.rdropWhile inLine) with none | ⟨before, mark, some⟩
    · rw [none]
      exact .inl rfl
    · have present : characters.rdropWhile inLine ≠ [] := by
        rw [some]
        exact List.concat_ne_nil _ _
      have outside := List.rdropWhile_last_not inLine characters present
      simp only [some, List.getLast_concat, inLine_eq_true_iff, not_and_or, ne_eq,
        Classical.not_not] at outside
      rw [some]
      exact .inr (exists_unifyBreaks_concat before outside)

theorem locate_unifyBreaks {before behind : List Char} (apart : ¬ CutsBreak before behind) :
    locate (starts (unifyBreaks (before ++ behind))) (unifyBreaks before).length =
      ((breakCount before : Int), ((lastLine before).length : Int)) := by
  rcases exists_unifyBreaks_lastLine before with ⟨front, unified, fresh⟩
  have unbroken : '\n' ∉ lastLine before :=
    fun member => (inLine_eq_true_iff.mp (List.mem_rtakeWhile_imp member)).2 rfl
  have count : breakCount before = front.count '\n' := by
    rw [← count_unifyBreaks, unified, List.count_append, List.count_eq_zero.mpr unbroken,
      Nat.add_zero]
  rw [unifyBreaks_append apart, unified, locate_cut _ fresh unbroken, count]

end Lines

/-! ## Places in a source -/

namespace Source

/-- The source of a text is made of the sources of its parts, unless the cut falls into a line
break, and the offset of the cut is located by the line breaks and the characters before it in the
text as it was written. Offsets beyond the end count on in the last line. Unified text has no
carriage returns and is not changed when it comes in again, and later offsets have later places. -/
theorem places_as_written (text : String) (name : Option String) :
    let source := ofString text name
    (∀ before behind : String, text = before ++ behind →
        ¬ Lines.CutsBreak before.toList behind.toList →
        source.text = (ofString before name).text ++ (ofString behind name).text ∧
          source.locate (ofString before name).text.length =
            ((Lines.breakCount before.toList : Int),
              ((Lines.lastLine before.toList).length : Int))) ∧
      (∀ offset : Nat, source.size ≤ offset →
        source.locate offset =
          ((source.locate source.size).1, (source.locate source.size).2 + (offset - source.size))) ∧
      '\r' ∉ source.text.toList ∧
      ofString source.text name = source ∧
      (∀ first second : Nat, first < second →
        Prod.Lex (· < ·) (· < ·) (source.locate first) (source.locate second)) ∧
      Function.Injective fun offset : Nat => source.locate offset := by
  intro source
  have characters : source.text.toList = source.characters := String.toList_ofList
  have unreturned : '\r' ∉ source.characters := Lines.not_mem_unifyBreaks text.toList
  have increasing (first second : Nat) (less : first < second) :
      Prod.Lex (· < ·) (· < ·) (source.locate first) (source.locate second) :=
    Lines.locate_lt source.characters less
  refine ⟨?_, ?_, characters ▸ unreturned, ?_, increasing, ?_⟩
  · rintro before behind rfl apart
    have joined : source.characters =
        Lines.unifyBreaks before.toList ++ Lines.unifyBreaks behind.toList := by
      rw [← Lines.unifyBreaks_append apart, ← String.toList_append]
      rfl
    have place := Lines.locate_unifyBreaks apart
    rw [← String.toList_append] at place
    refine ⟨?_, ?_⟩
    · rw [Source.text, joined, String.ofList_append]
      rfl
    · rw [Source.text, String.length_ofList]
      exact place
  · exact fun offset beyond => Lines.locate_of_length_le beyond
  · rw [ofString, characters, Lines.unifyBreaks_of_not_mem unreturned]
    rfl
  · intro first second same
    have apart (less greater : Nat) (ordered : less < greater) :
        source.locate less ≠ source.locate greater := by
      intro equal
      have later := Prod.lex_def.mp (increasing less greater ordered)
      rw [equal] at later
      omega
    rcases Nat.lt_trichotomy first second with less | equal | greater
    · exact absurd same (apart first second less)
    · exact equal
    · exact absurd same.symm (apart second first greater)

theorem returns_placed_as_written :
    let source := ofString "a\r\nbc\r\rd" none
    ("a\r\nbc\r\rd" = "a\r\nbc\r" ++ "\rd" ∧
      ¬ Lines.CutsBreak "a\r\nbc\r".toList "\rd".toList ∧
      source.text = (ofString "a\r\nbc\r" none).text ++ (ofString "\rd" none).text ∧
      source.locate (ofString "a\r\nbc\r" none).text.length = (2, 0)) ∧
    (source.size ≤ 9 ∧ source.locate 9 = (3, 3)) ∧
    (4 < 5 ∧ Prod.Lex (· < ·) (· < ·) (source.locate 4) (source.locate 5)) := by
  intro source
  rcases places_as_written "a\r\nbc\r\rd" none with ⟨cuts, beyond, _, _, increasing, _⟩
  have apart : ¬ Lines.CutsBreak "a\r\nbc\r".toList "\rd".toList := by
    rintro ⟨_, feed⟩
    cases feed
  refine ⟨⟨rfl, apart, cuts "a\r\nbc\r" "\rd" rfl apart⟩, ⟨by decide, ?_⟩, ⟨by decide, ?_⟩⟩
  · exact beyond 9 (by decide)
  · exact increasing 4 5 (by decide)

end Source

end OrderedChoice
