import OrderedChoice.Text.Printable

/-! Text in quotes, for diagnostics and outlines. Single quotes are preferred;
double quotes are taken when the text holds a single quote and no double one.
Whatever cannot be shown as it is becomes an escape sequence. -/

namespace OrderedChoice

namespace Quoted

def singleQuote : Char := '\x27'

def doubleQuote : Char := '\x22'

def hexadecimal (width value : Nat) : List Char :=
  let digits := Nat.toDigits 16 value
  List.replicate (width - digits.length) '0' ++ digits

/-- A code point as an escape sequence, in the shortest of the three forms that
can hold it. -/
def escapeCode (value : Nat) : List Char :=
  if value < 0x100 then '\\' :: 'x' :: hexadecimal 2 value
  else if value < 0x10000 then '\\' :: 'u' :: hexadecimal 4 value
  else '\\' :: 'U' :: hexadecimal 8 value

def escape (mark character : Char) : List Char :=
  if character = mark ∨ character = '\\' then ['\\', character]
  else if character = '\n' then ['\\', 'n']
  else if character = '\r' then ['\\', 'r']
  else if character = '\t' then ['\\', 't']
  else if isPrintable character then [character]
  else escapeCode character.toNat

/-- The quotation mark that a text is put between. -/
def markFor (characters : List Char) : Char :=
  if singleQuote ∈ characters ∧ doubleQuote ∉ characters then doubleQuote
  else singleQuote

end Quoted

def quote (text : String) : String :=
  let mark := Quoted.markFor text.toList
  String.ofList (mark :: text.toList.flatMap (Quoted.escape mark) ++ [mark])

end OrderedChoice
