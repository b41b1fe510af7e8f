import Quill.Tree.Basic

/-!
# Names and literals in C

Names that C keeps for itself get an underscore behind them. Literals keep their text, but for
zeros in front of a number, which C would read as octal.
-/
namespace Quill

/-- Words that a C program may not use for its own names, or that the generated code uses. -/
def cReserved : List String :=
  ["auto", "break", "case", "char", "const", "continue", "default", "do", "double", "else", "enum",
    "extern", "float", "for", "goto", "if", "inline", "int", "long", "register", "restrict",
    "return", "short", "signed", "sizeof", "static", "struct", "switch", "typedef", "union",
    "unsigned", "void", "volatile", "while", "bool", "true", "false", "main"]

/-- The C name of a local variable, parameter or field. -/
def cIdent (name : String) : String := if cReserved.contains name then name ++ "_" else name

/-- Decimal digits without zeros in front. -/
def cInteger (text : String) : String :=
  let digits := text.toList.dropWhile (· == '0')
  if digits.isEmpty then "0" else String.ofList digits

def Literal.cText : Literal → String
  | .bool true => "true"
  | .bool false => "false"
  | .int text => cInteger text
  | .float text => text
  | .string text | .chars text => "\"" ++ text ++ "\""
  | .char text => "'" ++ text ++ "'"

/-- Text of a literal as the inside of a format string. -/
def doublePercents (text : String) : String :=
  String.ofList (text.toList.flatMap fun c => if c = '%' then ['%', '%'] else [c])

/-- Template text as the inside of a format string; `escaped` if a backslash stands before it that
is not itself escaped. -/
def formatChars : (escaped : Bool) → List Char → List Char
  | _, [] => []
  | escaped, c :: cs =>
    let shown :=
      if c = '%' then ['%', '%']
      else if c = '\x22' ∧ !escaped then ['\x5c', '\x22']
      else if c = '\n' then ['\x5c', 'n']
      else [c]
    shown ++ formatChars (c == '\x5c' && !escaped) cs

def formatText (text : String) : String := String.ofList (formatChars false text.toList)

end Quill
