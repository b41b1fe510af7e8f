import Quill.Parser.Basic

/-!
# Reading types

A type is a base with constructors after it, which apply from left to right. Each production is
given the parser for the types nested in it, and `typeAt` ties the knot for types of bounded depth.
-/
namespace Quill.Parser

/-- A type without constructors after it. -/
def typeBase (nested : Parser TypeExpr) : Parser TypeExpr := do
  let token ← peek
  match token.kind with
  | .void =>
    let _ ← advance
    return .void (← typeNodeAt token.span)
  | .scalar s =>
    let _ ← advance
    return .scalar (← typeNodeAt token.span) s
  | .identifier =>
    let name ← path
    return .named (← typeNodeFrom token.span) name []
  | .punct .leftParen =>
    let _ ← advance
    let items ← commaSeparated nested
    let _ ← mark .rightParen "')' to close the tuple type"
    return .tuple (← typeNodeFrom token.span) items
  | _ => expected "a type"

/-- Brackets after a type: `[]`, `[..]`, `[n]` with a number or a name. -/
def arraySuffix (type : TypeExpr) : Parser (Option TypeExpr) := do
  match ← kindAt 1, ← kindAt 2 with
  | .punct .rightBracket, _ =>
    update (State.advanceBy 2)
    return some (.array (← typeNodeFrom type.span) type none)
  | .punct .dotDot, .punct .rightBracket =>
    update (State.advanceBy 3)
    return some (.slice (← typeNodeFrom type.span) type)
  | .intLiteral, .punct .rightBracket | .identifier, .punct .rightBracket =>
    let _ ← advance
    let length ← advance
    let _ ← advance
    return some (.array (← typeNodeFrom type.span) type (some length.text))
  | _, _ => return none

/-- One constructor after a type, if one stands there. -/
def typeSuffix (nested : Parser TypeExpr) (type : TypeExpr) : Parser (Option TypeExpr) := do
  match ← kind with
  | .punct .star =>
    let _ ← advance
    return some (.pointer (← typeNodeFrom type.span) type)
  | .keyword .kMut =>
    if (← kindAt 1) == .punct .star then
      update (State.advanceBy 2)
      return some (.mutPointer (← typeNodeFrom type.span) type)
    else return none
  | .punct .leftBracket => arraySuffix type
  | .punct .less =>
    match type with
    | .named _ name [] =>
      let _ ← advance
      let arguments ← commaSeparated nested
      let _ ← mark .greater "'>' to close the generic argument list"
      return some (.named (← typeNodeFrom type.span) name arguments)
    | _ => return none
  | .punct .question =>
    let _ ← advance
    return some (.optional (← typeNodeFrom type.span) type)
  | .punct .bang =>
    let _ ← advance
    let failure ← typeBase nested
    return some (.result (← typeNodeFrom type.span) type failure)
  | _ => return none

def typeStep (nested : Parser TypeExpr) : Parser TypeExpr := do
  let ds ← directives
  let base ← typeBase nested
  let type ← extend (typeSuffix nested) base
  return if ds.isEmpty then type else type.withDirectives ds

def typeAt : (depth : Fuel) → Parser TypeExpr
  | [] => fail
  | _ :: depth => typeStep (typeAt depth)

/-- A type. Every level of nesting takes a token, so the tokens left bound the depth. -/
def type : Parser TypeExpr := fuelled typeAt

end Quill.Parser
