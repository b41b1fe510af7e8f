import Quill.Parser.Type

/-!
# Reading expressions

Binary operators are read by climbing precedence levels. A range binds loosest and does not chain.
Each production is given the parser for the expressions nested in it, and `binaryAt` ties the knot
for expressions of bounded depth.
-/
namespace Quill.Parser

/-- Whether the token after the next one is `k` and touches it. -/
def adjacent (k : TokenKind) : Parser Bool :=
  inspect fun s =>
    match s.rest with
    | current :: following :: _ =>
      following.kind == k && following.span.start == current.span.stop
    | _ => false

def binaryOp? : TokenKind → Option BinaryOp
  | .punct .plus => some .add
  | .punct .minus => some .sub
  | .punct .star => some .mul
  | .punct .slash => some .div
  | .punct .percent => some .rem
  | .punct .equalEqual => some .eq
  | .punct .bangEqual => some .ne
  | .punct .less => some .lt
  | .punct .lessEqual => some .le
  | .punct .greater => some .gt
  | .punct .greaterEqual => some .ge
  | .punct .ampAmp => some .and
  | .punct .pipePipe => some .or
  | .punct .amp => some .bitAnd
  | .punct .pipe => some .bitOr
  | .punct .caret => some .bitXor
  | .punct .lessLess => some .shl
  | _ => none

/-- The binary operator here and how many tokens it takes. Two `>` that touch are a shift, and a
`>` that touches `>=` starts an assignment. -/
def peekBinaryOp : Parser (Option (BinaryOp × Nat)) := do
  let k ← kind
  if k == .punct .greater then
    if ← adjacent (.punct .greater) then return some (.shr, 2)
    if ← adjacent (.punct .greaterEqual) then return none
  return (binaryOp? k).map (·, 1)

def unaryOp? : TokenKind → Option UnaryOp
  | .punct .bang => some .not
  | .punct .minus => some .neg
  | .punct .tilde => some .bitNot
  | .punct .amp => some .addrOf
  | .punct .star => some .deref
  | .punct .plusPlus => some .preInc
  | .punct .minusMinus => some .preDec
  | _ => none

def literal? (t : Token) : Option Literal :=
  match t.kind with
  | .keyword .kTrue => some (.bool true)
  | .keyword .kFalse => some (.bool false)
  | .intLiteral => some (.int t.text)
  | .floatLiteral => some (.float t.text)
  | .stringLiteral => some (.string t.inner)
  | .charLiteral => some (.char t.inner)
  | .charsLiteral => some (.chars t.inner)
  | _ => none

/-- The text of a template token as a part; empty text is none. -/
def textPart (t : Token) : List (TemplatePart Expr) :=
  if t.inner.isEmpty then [] else [.text t.inner]

/-- An interpolated expression with the template text after it, and whether that text is the
last. -/
def interpolation (expr : Parser Expr) : Parser (List (TemplatePart Expr) × Bool) := do
  let value ← expr
  let token ← peek
  match token.kind with
  | .templateMiddle =>
    let _ ← advance
    return (.expr value :: textPart token, false)
  | .templateEnd =>
    let _ ← advance
    return (.expr value :: textPart token, true)
  | _ => expected "'\x7d' to close the interpolation"

def template (expr : Parser Expr) : Parser Expr := do
  let first ← advance
  if first.kind == .templateStart then
    let (parts, _) ← extend
      (fun (parts, done) => do
        if done then return none
        let (more, last) ← interpolation expr
        return some (parts ++ more, last))
      (textPart first, false)
    return .template (← nodeFrom first.span) parts
  return .template (← nodeFrom first.span) (textPart first)

/-- An expression in parentheses, or a tuple if a comma follows it. -/
def paren (expr : Parser Expr) : Parser Expr := do
  let start := (← advance).span
  let first ← expr
  if ← eat (.punct .comma) then
    let more ← commaList (at? (.punct .rightParen)) expr
    let _ ← mark .rightParen "')' to close the tuple"
    return .tuple (← nodeFrom start) (first :: more)
  let _ ← mark .rightParen "')'"
  return first

/-- A struct initializer such as `.{ .x = 1 }`. -/
def structInit (expr : Parser Expr) : Parser Expr := do
  let start := (← advance).span
  let _ ← advance
  let fields ← commaList (at? (.punct .rightBrace)) do
    let fieldStart := (← mark .dot "'.' before a field name").span
    let name ← identifier "a field name"
    let _ ← mark .equal "'=' after the field name"
    let value ← expr
    return { name, span := ← spanFrom fieldStart, value : FieldInit Expr }
  let _ ← mark .rightBrace "'\x7d' to close the struct initializer"
  return .structInit (← nodeFrom start) fields

/-- An array initializer such as `[3]{ 1, 2 = 5 }`. -/
def arrayInit (expr : Parser Expr) : Parser Expr := do
  let start := (← advance).span
  let length ←
    if ← at? (.punct .rightBracket) then pure none else (do return some (← expr))
  let _ ← mark .rightBracket "']' after the array length"
  let _ ← mark .leftBrace "'\x7b' to open the array initializer"
  let elements ← commaList (at? (.punct .rightBrace)) do
    let first ← expr
    if ← eat (.punct .equal) then
      let value ← expr
      return { index := some first, value : ArrayElement Expr }
    return { index := none, value := first }
  let _ ← mark .rightBrace "'\x7d' to close the array initializer"
  return .arrayInit (← nodeFrom start) length elements

/-- What `item` reads, if a closing parenthesis stands after it. -/
def closed {α : Type} (item : Parser α) : Parser α := do
  let a ← item
  if ← at? (.punct .rightParen) then return a
  fail

/-- An operand of `sizeof` is read as a type if it can be. Where that type could also name a value
the same tokens are read as an expression too. -/
def sizeof (expr : Parser Expr) : Parser Expr := do
  let start := (← advance).span
  let _ ← mark .leftParen "'(' after sizeof"
  let opened ← inspect (·)
  match ← attempt (closed type) with
  | some type =>
    let operand ←
      if type.valueName?.isSome then reread opened (closed expr) else pure none
    let _ ← mark .rightParen "')' to close sizeof"
    return .sizeofType (← nodeFrom start) type operand
  | none =>
    let operand ← expr
    let _ ← mark .rightParen "')' to close sizeof"
    return .sizeofExpr (← nodeFrom start) operand

def cast (expr : Parser Expr) : Parser Expr := do
  let start := (← advance).span
  let _ ← mark .less "'<' after cast"
  let target ← type
  let _ ← mark .greater "'>' to close the cast type"
  let _ ← mark .leftParen "'(' before the cast operand"
  let operand ← expr
  let _ ← mark .rightParen "')' to close the cast operand"
  return .cast (← nodeFrom start) target operand

def primary (expr : Parser Expr) : Parser Expr := do
  let token ← peek
  match literal? token with
  | some value =>
    let _ ← advance
    return .literal (← nodeAt token.span) value
  | none =>
    match token.kind with
    | .identifier =>
      let name ← path
      return .ref (← nodeFrom token.span) name
    | .templateFull | .templateStart => template expr
    | .punct .leftParen => paren expr
    | .punct .dot =>
      if (← kindAt 1) == .punct .leftBrace then structInit expr else expected "an expression"
    | .punct .leftBracket => arrayInit expr
    | .keyword .kSizeof => sizeof expr
    | .keyword .kCast => cast expr
    | _ => expected "an expression"

/-- A field access after `target`, if a name follows the dot or arrow. -/
def fieldSuffix (target : Expr) (arrow : Bool) : Parser (Option Expr) := do
  if (← kindAt 1) == .identifier then
    let _ ← advance
    let name := (← advance).text
    return some (.field (← nodeFrom target.span) target name arrow)
  else return none

def stepSuffix (operand : Expr) (op : StepOp) : Parser (Option Expr) := do
  let _ ← advance
  return some (.step (← nodeFrom operand.span) op operand)

/-- A call, field access, index or step after an expression, if one stands there. -/
def suffix (expr : Parser Expr) (e : Expr) : Parser (Option Expr) := do
  match ← kind with
  | .punct .leftParen =>
    let _ ← advance
    let arguments ←
      if ← at? (.punct .rightParen) then pure [] else commaSeparated expr
    let _ ← mark .rightParen "')' to close the argument list"
    return some (.call (← nodeFrom e.span) e arguments)
  | .punct .dot => fieldSuffix e false
  | .punct .arrow => fieldSuffix e true
  | .punct .leftBracket =>
    let _ ← advance
    let position ← expr
    let _ ← mark .rightBracket "']' to close the index"
    return some (.index (← nodeFrom e.span) e position)
  | .punct .plusPlus => stepSuffix e .inc
  | .punct .minusMinus => stepSuffix e .dec
  | _ => return none

/-- Puts operators, outermost first, around an operand. -/
def applyUnary : List (UnaryOp × Span) → Expr → Parser Expr
  | [], e => return e
  | (op, span) :: ops, e => do
    let operand ← applyUnary ops e
    return .unary (← nodeAt (span.join operand.span)) op operand

/-- An operand with the operators in front of it and the suffixes after it. -/
def unary (expr : Parser Expr) : Parser Expr := do
  let ops ← many do
    match unaryOp? (← kind) with
    | some op => return some (op, (← advance).span)
    | none => return none
  let operand ← primary expr
  applyUnary ops (← extend (suffix expr) operand)

/-- An expression with the directives in front of it. -/
def exprOf (binary : Nat → Parser Expr) : Parser Expr := do
  let ds ← directives
  let e ← binary 0
  return if ds.isEmpty then e else e.withDirectives ds

/-- An operator of at least the given precedence and its right operand, if one stands there. -/
def operation (binary : Nat → Parser Expr) (least : Nat) (left : Expr) :
    Parser (Option Expr) := do
  match ← peekBinaryOp with
  | none => return none
  | some (op, width) =>
    if op.precedence < least then return none
    update (State.advanceBy width)
    let right ← binary (op.precedence + 1)
    return some (.binary (← nodeAt (left.span.join right.span)) op left right)

/-- Operands joined by operators of at least the given precedence; below precedence 2 a range may
follow. -/
def binaryStep (binary : Nat → Parser Expr) (least : Nat) : Parser Expr := do
  let first ← unary (exprOf binary)
  let left ← extend (operation binary least) first
  let k ← kind
  if least ≤ 1 && (k == .punct .dotDot || k == .punct .dotDotEqual) then
    let _ ← advance
    let right ← binary 2
    return .range (← nodeAt (left.span.join right.span)) left right (k == .punct .dotDotEqual)
  return left

def binaryAt : (depth : Fuel) → (least : Nat) → Parser Expr
  | [], _ => fail
  | _ :: depth, least => binaryStep (binaryAt depth) least

/-- An expression. Every level of nesting takes a token, so the tokens left bound the depth. -/
def expr : Parser Expr := fuelled fun depth => exprOf (binaryAt depth)

end Quill.Parser
