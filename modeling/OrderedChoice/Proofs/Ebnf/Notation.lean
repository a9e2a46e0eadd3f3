import OrderedChoice.Ebnf.Reader

/-! The notation for grammars as a reader of grammars sees it. Each relation holds
of a text and a rest of it if what stands between them has a certain form, and
names what that form denotes. Nothing here says how a text is to be searched for
such forms. -/

namespace OrderedChoice

namespace Ebnf

/-! ## Layout and words -/

def isBlank (character : Char) : Bool := CharClass.space.containsChar character

def isLead (character : Char) : Bool := CharClass.lead.containsChar character

def isWord (character : Char) : Bool := CharClass.word.containsChar character

/-- Any number of blanks and comments. A comment goes on up to a line feed or the
end of the text. -/
inductive Layout : List Char → List Char → Prop where
  | none {rest} : Layout rest rest
  | blank {character text rest} :
      isBlank character = true → Layout text rest → Layout (character :: text) rest
  | comment {content text rest} :
      (∀ character ∈ content, character ≠ '\n') → (∀ character ∈ text.head?, character = '\n') →
      Layout text rest →
      Layout ('/' :: '/' :: (content ++ text)) rest

def IsName : List Char → Prop
  | [] => False
  | first :: others =>
      isLead first = true ∧ ∀ character ∈ others, isWord character = true

def IsPlain (character : Char) : Prop :=
  isWord character = true ∨ character = ' ' ∨ character = '\t' ∨ character ∈ punctuation

inductive Quotable : List Char → Prop where
  | nil : Quotable []
  | escape {character pattern} :
      character ≠ '\n' → Quotable pattern → Quotable ('\\' :: character :: pattern)
  | plain {character pattern} :
      IsPlain character → Quotable pattern → Quotable (character :: pattern)

/-! ## Bodies of rules -/

mutual
/-- An item, and whether it is a name. -/
inductive Item : Bool → Expr → List Char → List Char → Prop where
  | name {name rest} :
      IsName name → Item true (.reference (String.ofList name)) (name ++ rest) rest
  | quoted {pattern rest} :
      Quotable pattern →
      Item false (.terminal (String.ofList pattern)) ('"' :: (pattern ++ '"' :: rest)) rest
  | group {body text stop rest} :
      Body body text stop → Layout stop (')' :: rest) → Item false body ('(' :: text) rest
  | option {body text stop rest} :
      Body body text stop → Layout stop (']' :: rest) →
      Item false (.optional body) ('[' :: text) rest
  | repetition {body text stop rest} :
      Body body text stop → Layout stop ('\x7d' :: rest) →
      Item false (.repetition body) ('\x7b' :: text) rest

/-- The items after one that is a name or not. Two names do not touch. -/
inductive Items : Bool → List Expr → List Char → List Char → Prop where
  | none {named rest} : Items named [] rest rest
  | comma {named next item items text middle start stop rest} :
      Layout text (',' :: middle) → Layout middle start → Item next item start stop →
      Items next items stop rest → Items named (item :: items) text rest
  | apart {named next item items text start stop rest} :
      Layout text start → (named = true → next = true → text ≠ start) →
      Item next item start stop → Items next items stop rest →
      Items named (item :: items) text rest

inductive Sequence : Expr → List Char → List Char → Prop where
  | items {named item items text start stop rest} :
      Layout text start → Item named item start stop → Items named items stop rest →
      Sequence (sequenceOf (item :: items)) text rest

inductive Branches : List Expr → List Char → List Char → Prop where
  | none {rest} : Branches [] rest rest
  | bar {branch branches text start stop rest} :
      Layout text ('|' :: start) → Sequence branch start stop → Branches branches stop rest →
      Branches (branch :: branches) text rest

inductive Body : Expr → List Char → List Char → Prop where
  | branches {branch branches text stop rest} :
      Sequence branch text stop → Branches branches stop rest →
      Body (choiceOf (branch :: branches)) text rest
end

/-! ## Rules -/

inductive Rule : String × Expr → List Char → List Char → Prop where
  | rule {name body text afterName definition afterBody rest} :
      Layout text (name ++ afterName) → IsName name →
      Layout afterName ('=' :: definition) → Body body definition afterBody →
      Layout afterBody (';' :: rest) → Rule (String.ofList name, body) text rest

inductive Rules : List (String × Expr) → List Char → List Char → Prop where
  | none {rest} : Rules [] rest rest
  | more {rule rules text next rest} :
      Rule rule text next → Rules rules next rest → Rules (rule :: rules) text rest

/-- A text consists of rules and the layout after them. -/
def Renders (rules : List (String × Expr)) (text : List Char) : Prop :=
  ∃ last, Rules rules text last ∧ Layout last []

end Ebnf

end OrderedChoice
