import OrderedChoice.Text.Quoted

/-! Plain data that stands where an expression or a name is expected. It is
never accepted there, but the diagnostic that refuses it shows it. -/

namespace OrderedChoice

inductive Datum where
  | none
  | boolean (value : Bool)
  | integer (value : Int)
  | text (value : String)
  | list (items : List Datum)
deriving Repr, Inhabited

namespace Datum

mutual
def written : Datum → String
  | none => "None"
  | boolean true => "True"
  | boolean false => "False"
  | integer value => toString value
  | text value => quote value
  | list items => "[" ++ ", ".intercalate (writtenAll items) ++ "]"

def writtenAll : List Datum → List String
  | [] => []
  | head :: tail => head.written :: writtenAll tail
end

end Datum

end OrderedChoice
