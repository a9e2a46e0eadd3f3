import OrderedChoice.Grammar.Expr
import OrderedChoice.Tree.Basic

/-! The state of the parsing machine. The machine keeps a stack of frames, one
for each expression under way; the frame on top is the one that moves. What a
frame has achieved so far, and what became of the part it last waited for, are
kept in the frame itself, so a state says all there is to know about a run. -/

namespace OrderedChoice

inductive Diagnostic (α : Type) where
  | missingEntry
  | undefinedReference (name : String)
  | halted (offset : Nat)
  | expectedEnd (found : α) (offset : Nat)
  /-- Nothing was found, and this is the furthest element turned down. -/
  | unexpected (found : α) (offset : Nat)
  | unexpectedEnd (offset : Nat)
deriving DecidableEq, Repr

def Diagnostic.message [Element α] (input : Input α) : Diagnostic α → String
  | missingEntry => "[schema error] the schema has no \"ENTRY\" rule."
  | undefinedReference name => s!"[schema error] non-terminal \"{name}\" is not defined."
  | halted offset => located "parse halted before completion" offset
  | expectedEnd found offset =>
      located ("expected end of input, got: " ++ Element.display found) offset
  | unexpected found offset => located ("unexpected " ++ Element.display found) offset
  | unexpectedEnd offset => located "unexpected end of input" offset
where
  located (message : String) (offset : Nat) : String :=
    "[error] " ++ message ++ " @ " ++ input.position offset

namespace Machine

inductive Outcome (α : Type) where
  | found (tree : Tree α)
  | missed
deriving DecidableEq, Repr

/-- How far a frame has come. Whatever it has taken or gathered has the latest first. -/
inductive Progress (α : Type) where
  | fresh
  | taken (elements : List α)
  | entered
  | tried (count : Nat)
  | begun
  | gathered (children : List (Tree α))
  | repeated (children : List (Tree α))
deriving DecidableEq, Repr

structure Frame (α : Type) where
  expr : Expr
  entry : Nat
  progress : Progress α
  /-- What became of the part last waited for, until the frame moves again. -/
  outcome : Option (Outcome α)
deriving DecidableEq, Repr

def Frame.begin (expr : Expr) (entry : Nat) : Frame α :=
  ⟨expr, entry, .fresh, none⟩

/-- A run at the point between two moves. Its stack has the innermost frame first, and its tree is
absent until the outermost frame succeeds. -/
structure State (α : Type) where
  cursor : Nat
  furthest : Option Nat
  stack : List (Frame α)
  /-- The rules under way, each with the offset where it was entered. -/
  active : List (String × Nat)
  stopped : Bool
  steps : Nat
  tree : Tree α
  log : List (Diagnostic α)
deriving DecidableEq, Repr

namespace State

def depth (state : State α) : Nat := state.stack.length

def logLines [Element α] (input : Input α) (state : State α) : List String :=
  state.log.map (Diagnostic.message input)

def isOk (state : State α) : Bool := state.log.isEmpty

def push (state : State α) (expr : Expr) : State α :=
  { state with stack := Frame.begin expr state.cursor :: state.stack }

def stop (state : State α) : State α :=
  if state.stopped then state
  else if state.stack.isEmpty then { state with stopped := true }
  else { state with stopped := true, log := state.log ++ [.halted state.cursor] }

end State

end Machine

end OrderedChoice
