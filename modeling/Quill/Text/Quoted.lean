import Quill.Text.Printable

/-!
# Quoted text

Text between double quotes in which only characters that show on their own stay as they are.
-/
namespace Quill.Text

/-- One character inside quotes; what does not show is given by its code point to base 16. -/
def escape (c : Char) : List Char :=
  match c with
  | '\x00' => ['\x5c', '0']
  | '\t' => ['\x5c', 't']
  | '\n' => ['\x5c', 'n']
  | '\r' => ['\x5c', 'r']
  | '\x22' => ['\x5c', '\x22']
  | '\x5c' => ['\x5c', '\x5c']
  | _ =>
    if Printable.shows c then [c]
    else ['\x5c', 'u', '\x7b'] ++ Nat.toDigits 16 c.toNat ++ ['\x7d']

def quoted (text : String) : String :=
  "\"" ++ String.ofList (text.toList.flatMap escape) ++ "\""

end Quill.Text
