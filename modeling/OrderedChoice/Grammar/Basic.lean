import OrderedChoice.Ascending
import OrderedChoice.Grammar.Error

/-! Grammars: rules with distinct names, in the order in which they were first
given. -/

namespace OrderedChoice

structure Grammar where
  rules : List (String × Expr)
  distinct : (rules.map Prod.fst).Nodup

namespace Grammar

instance : DecidableEq Grammar := fun left right =>
  if equal : left.rules = right.rules then
    .isTrue (by cases left; cases right; cases equal; rfl)
  else .isFalse (fun same => equal (congrArg rules same))

/-- Rules under way are looked up by name and offset. -/
instance : LawfulBEq (String × Nat) := inferInstance

/-! ## Construction -/

def empty : Grammar := ⟨[], List.nodup_nil⟩

/-- Give a rule its definition. A new rule goes to the end; a rule that is
there keeps its place. -/
def put (name : String) (definition : Expr) :
    List (String × Expr) → List (String × Expr)
  | [] => [(name, definition)]
  | rule :: rest =>
      if rule.1 = name then (name, definition) :: rest
      else rule :: put name definition rest

theorem names_put (name : String) (definition : Expr) (rules : List (String × Expr)) :
    (put name definition rules).map Prod.fst =
      if name ∈ rules.map Prod.fst then rules.map Prod.fst
      else rules.map Prod.fst ++ [name] := by
  induction rules with
  | nil => simp [put]
  | cons rule rest induction =>
      by_cases equal : rule.1 = name
      · simp [put, equal]
      · have different : name ≠ rule.1 := fun same => equal same.symm
        by_cases member : name ∈ rest.map Prod.fst <;>
          simp [put, equal, different, induction, member]

def insert (grammar : Grammar) (name : String) (definition : Expr) : Grammar where
  rules := put name definition grammar.rules
  distinct := by
    rw [names_put]
    split
    · exact grammar.distinct
    · next absent =>
        rw [List.nodup_append]
        refine ⟨grammar.distinct, by simp, ?_⟩
        intro left leftMember right rightMember equal
        rw [List.mem_singleton] at rightMember
        exact absent (rightMember ▸ equal ▸ leftMember)

/-- The grammar of a list of rules. Of two rules with one name the first gives
the place and the last the definition. -/
def ofRules (rules : List (String × Expr)) : Grammar :=
  rules.foldl (fun grammar rule => grammar.insert rule.1 rule.2) empty

/-! ## Queries -/

def size (grammar : Grammar) : Nat :=
  grammar.rules.length

def names (grammar : Grammar) : List String :=
  grammar.rules.map Prod.fst

def lookup? (grammar : Grammar) (name : String) : Option Expr :=
  grammar.rules.lookup name

theorem mem_names_of_lookup? {grammar : Grammar} {name : String} {definition : Expr}
    (found : grammar.lookup? name = some definition) : name ∈ grammar.names := by
  unfold lookup? at found
  unfold names
  generalize grammar.rules = rules at found
  induction rules with
  | nil => simp at found
  | cons rule rest induction =>
      rw [List.lookup_cons] at found
      by_cases equal : name = rule.1
      · simp [equal]
      · have different : (name == rule.1) = false := by simp [equal]
        rw [different] at found
        exact List.mem_cons_of_mem _ (induction found)

def references (grammar : Grammar) : List String :=
  Ascending.ofList (grammar.rules.flatMap fun rule => rule.2.references)

def undefinedNames (grammar : Grammar) : List String :=
  grammar.references.filter fun name => name ∉ grammar.names

def validate (grammar : Grammar) : Except GrammarError Unit :=
  if entryName ∉ grammar.names then .error .missingEntry
  else if grammar.undefinedNames.isEmpty then .ok ()
  else .error (.undefinedReferences grammar.undefinedNames)

/-! ## Written form -/

def describe (grammar : Grammar) : List String :=
  grammar.rules.map fun rule => s!"{rule.1} = {rule.2.describe} ;"

def summary (grammar : Grammar) : String :=
  s!"<Schema of {grammar.size} rules>"

end Grammar

end OrderedChoice
