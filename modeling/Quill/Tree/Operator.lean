/-!
# Operators

The operators of the language are written the same way in C.
-/
namespace Quill

inductive BinaryOp where
  | add | sub | mul | div | rem
  | eq | ne | lt | le | gt | ge
  | and | or
  | bitAnd | bitOr | bitXor | shl | shr
  deriving DecidableEq, Repr

namespace BinaryOp

def symbol : BinaryOp → String
  | add => "+" | sub => "-" | mul => "*" | div => "/" | rem => "%"
  | eq => "==" | ne => "!=" | lt => "<" | le => "<=" | gt => ">" | ge => ">="
  | and => "&&" | or => "||"
  | bitAnd => "&" | bitOr => "|" | bitXor => "^" | shl => "<<" | shr => ">>"

/-- How tightly the operator binds; ranges bind at 1, below all of these. -/
def precedence : BinaryOp → Nat
  | or => 2
  | and => 3
  | bitOr => 4
  | bitXor => 5
  | bitAnd => 6
  | eq | ne => 7
  | lt | le | gt | ge => 8
  | shl | shr => 9
  | add | sub => 10
  | mul | div | rem => 11

def isComparison : BinaryOp → Bool
  | eq | ne | lt | le | gt | ge => true
  | _ => false

def isLogical : BinaryOp → Bool
  | and | or => true
  | _ => false

end BinaryOp

inductive UnaryOp where
  | not | neg | bitNot | addrOf | deref | preInc | preDec
  deriving DecidableEq, Repr

def UnaryOp.symbol : UnaryOp → String
  | not => "!" | neg => "-" | bitNot => "~" | addrOf => "&" | deref => "*"
  | preInc => "++" | preDec => "--"

/-- A step written after its operand. -/
inductive StepOp where
  | inc | dec
  deriving DecidableEq, Repr

def StepOp.symbol : StepOp → String
  | inc => "++" | dec => "--"

inductive AssignOp where
  | assign
  | add | sub | mul | div | rem
  | bitAnd | bitOr | bitXor | shl | shr
  deriving DecidableEq, Repr

def AssignOp.symbol : AssignOp → String
  | assign => "="
  | add => "+=" | sub => "-=" | mul => "*=" | div => "/=" | rem => "%="
  | bitAnd => "&=" | bitOr => "|=" | bitXor => "^=" | shl => "<<=" | shr => ">>="

end Quill
