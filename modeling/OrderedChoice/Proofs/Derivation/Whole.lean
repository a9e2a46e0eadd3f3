import OrderedChoice.Proofs.Derivation.Run
import OrderedChoice.Proofs.Derivation.Text

/-! Runs over characters. A run shows what is read at the beginning of the text, and it goes well
exactly if all of the text is read. -/

namespace OrderedChoice

namespace Machine

variable {grammar : Grammar} {definition : Expr} {characters rest : List Char} {tree : Tree Char}

theorem shows_of_reads (entry : grammar.lookup? entryName = some definition)
    (reads : Reads grammar characters definition characters tree rest) :
    Shows (.ofCharacters characters) (parse grammar (.ofCharacters characters))
      (.found tree (offsetOf characters rest)) := by
  have derives := reads.derives
  rw [offsetOf_self] at derives
  exact (parse_endsAs entry).shows (derives_iff_comesTo.mp derives)

/-- Where the definition of the entry rule comes to a finding, a run goes well exactly if the
definition is found and nothing of the text is left. -/
theorem isOk_iff_reads (entry : grammar.lookup? entryName = some definition)
    (derivable : Derivable grammar (.ofCharacters characters) definition 0) :
    (parse grammar (.ofCharacters characters)).isOk = true ↔
      ∃ tree, Reads grammar characters definition characters tree [] := by
  have size : (Input.ofCharacters characters).size = characters.length := List.size_toArray
  constructor
  · intro good
    rcases derivable with ⟨finding, derives⟩
    have shows := (parse_endsAs entry).shows (derives_iff_comesTo.mp derives)
    rcases shows.isOk_iff.mp good with ⟨tree, stop, rfl, reached⟩
    have start : offsetOf characters characters = 0 := offsetOf_self
    rw [← start] at derives
    rcases derives.exists_reads (List.suffix_refl characters) with ⟨rest, reads, rfl⟩
    have whole : rest = [] := by
      have inside := reads.after.length_le
      unfold offsetOf at reached
      rw [size] at reached
      apply List.eq_nil_of_length_eq_zero
      omega
    subst whole
    exact ⟨tree, reads⟩
  · rintro ⟨tree, reads⟩
    exact (shows_of_reads entry reads).isOk_iff.mpr ⟨tree, _, rfl, Nat.le_of_eq size⟩

end Machine

end OrderedChoice
