import OrderedChoice.Proofs.Ebnf.Phrase

/-! Every text is either found or missed by every rule of the notation. Only bodies
lead back to themselves, and only after an opening mark, so the input that is left
bounds how deep they go. -/

namespace OrderedChoice

namespace Ebnf

/-! ## Rules without bodies -/

section

variable (characters : List Char) (start : Nat)

theorem comment_derivable :
    DerivableFrom grammar (.ofCharacters characters) (.reference "comment") start := by
  apply derivableFrom_of_defined comment_defined [] rfl
  exact List.forall_mem_nil _

theorem layout_derivable : DerivableFrom grammar (.ofCharacters characters) layout start := by
  apply derivableFrom_of_defined layout_defined ["comment"] rfl
  rw [List.forall_mem_singleton]
  exact comment_derivable characters start

theorem name_derivable :
    DerivableFrom grammar (.ofCharacters characters) (.reference "name") start := by
  apply derivableFrom_of_defined name_defined [] rfl
  exact List.forall_mem_nil _

theorem character_derivable :
    DerivableFrom grammar (.ofCharacters characters) (.reference "character") start := by
  apply derivableFrom_of_defined character_defined [] rfl
  exact List.forall_mem_nil _

theorem term_derivable :
    DerivableFrom grammar (.ofCharacters characters) (.reference "term") start := by
  apply derivableFrom_of_defined term_defined ["character"] rfl
  rw [List.forall_mem_singleton]
  exact character_derivable characters start

end

/-! ## Bodies -/

variable {characters : List Char} {start : Nat}

theorem mark_bounds {mark : String} {first : Char} {tree : Tree Char} {stop : Nat}
    (tests : Pattern.tests mark = [(first == ·)])
    (derives : Derives grammar (.ofCharacters characters) (.terminal mark) start
      (.found tree stop)) :
    stop = start + 1 ∧ start < characters.length := by
  rcases derives_terminal_iff.mp derives with ⟨elements, meets, equal, _⟩
  have conditions : (Input.ofCharacters characters).tests mark = [(first == ·)] := tests
  rw [conditions] at meets
  have single : elements.length = 1 := meets.2.length_eq.symm
  have left := meets.1.length_le
  have size : (Input.ofCharacters characters).elements.toList.length = characters.length := rfl
  rw [single] at equal left
  rw [List.length_drop, size] at left
  exact ⟨equal, by omega⟩

theorem derivable_bracketed {opening closing : String} {first : Char}
    (testsFirst : Pattern.tests opening = [(first == ·)])
    (further : start < characters.length →
      DerivableFrom grammar (.ofCharacters characters) (.reference "alternatives") (start + 1)) :
    Derivable grammar (.ofCharacters characters) (bracketed opening closing) start := by
  apply ItemsDerivable.sequence
  apply itemsDerivable_cons (derivable_terminal opening start)
  -- The body matters only where the mark was found, and there an element is gone.
  intro tree middle derives
  rcases mark_bounds testsFirst derives with ⟨rfl, present⟩
  have closes : DerivableFrom grammar (.ofCharacters characters) (.terminal closing)
      (start + 1) := fun offset _ => derivable_terminal closing offset
  apply itemsDerivable_of_derivableFrom
  simpa using ⟨further present, layout_derivable characters (start + 1), closes⟩

theorem enclosed_derivable {label opening closing : String} {first : Char}
    (defined : grammar.lookup? label = some (bracketed opening closing))
    (testsFirst : Pattern.tests opening = [(first == ·)])
    (further : ∀ offset, start ≤ offset → offset < characters.length →
      DerivableFrom grammar (.ofCharacters characters) (.reference "alternatives") (offset + 1)) :
    DerivableFrom grammar (.ofCharacters characters) (.reference label) start := by
  intro offset after
  apply Derivable.reference defined
  exact derivable_bracketed testsFirst (further offset after)

theorem alternatives_derivable (characters : List Char) (start : Nat) :
    DerivableFrom grammar (.ofCharacters characters) (.reference "alternatives") start := by
  induction left : characters.length - start using Nat.strongRecOn generalizing start with
  | ind remaining induction =>
      have further : ∀ offset, start ≤ offset → offset < characters.length →
          DerivableFrom grammar (.ofCharacters characters) (.reference "alternatives")
            (offset + 1) := by
        intro offset after present
        have less : characters.length - (offset + 1) < remaining := by omega
        exact induction _ less _ rfl
      have laid := layout_derivable characters start
      have name := name_derivable characters start
      have term := term_derivable characters start
      have group := enclosed_derivable group_defined (tests_toString '(') further
      have option := enclosed_derivable option_defined (tests_toString '[') further
      have repetition := enclosed_derivable repeat_defined (tests_toString '\x7b') further
      have item : DerivableFrom grammar (.ofCharacters characters) (.reference "item") start := by
        apply derivableFrom_of_defined item_defined
          ["_", "name", "term", "group", "option", "repeat"] rfl
        simpa using ⟨laid, name, term, group, option, repetition⟩
      have sequence : DerivableFrom grammar (.ofCharacters characters) (.reference "sequence")
          start := by
        apply derivableFrom_of_defined sequence_defined ["item", "_", "item"] rfl
        simpa using ⟨item, laid, item⟩
      apply derivableFrom_of_defined alternatives_defined ["sequence", "_", "sequence"] rfl
      simpa using ⟨sequence, laid, sequence⟩

/-! ## Rules -/

theorem rule_defined : grammar.lookup? "rule" =
    some (.sequence [layout, .reference "name", layout, .terminal "=", .reference "alternatives",
      layout, .terminal ";"]) := rfl

def entry : Expr := .sequence [.repetition (.reference "rule"), layout]

theorem entry_defined : grammar.lookup? entryName = some entry := rfl

theorem entry_derivable (characters : List Char) :
    Derivable grammar (.ofCharacters characters) entry 0 := by
  have laid := layout_derivable characters 0
  have name := name_derivable characters 0
  have body := alternatives_derivable characters 0
  have rule : DerivableFrom grammar (.ofCharacters characters) (.reference "rule") 0 := by
    apply derivableFrom_of_defined rule_defined ["_", "name", "_", "alternatives", "_"] rfl
    simpa using ⟨laid, name, laid, body, laid⟩
  have parts : ∀ other ∈ ["rule", "_"],
      DerivableFrom grammar (.ofCharacters characters) (.reference other) 0 := by
    simpa using ⟨rule, laid⟩
  exact (derivableFrom_of_references entry parts).derivable

end Ebnf

end OrderedChoice
