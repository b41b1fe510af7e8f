import Quill.Parser.Expr

/-!
# Reading statements

A statement that starts with none of the statement words is tried as a declaration, then as an
expression, then as an assignment. When a statement cannot be read the parser takes up again after
the next semicolon of the block or at its closing brace.
-/
namespace Quill.Parser

/-- The rest of a variable declaration after its type or `let`. -/
def varDeclEnd (start : Span) (isStatic : Bool) (type : Option TypeExpr) :
    Parser (Info × VarDecl) := do
  let mutable ← eat (.keyword .kMut)
  let name ← identifier "a variable name"
  let init ←
    if ← eat (.punct .equal) then (do return some (← expr)) else pure none
  let _ ← mark .semicolon "';' after variable declaration"
  return (← nodeFrom start, { isStatic, mutable, type, name, init })

def varDecl : Parser (Info × VarDecl) := do
  let start := (← peek).span
  let isStatic ← eat (.keyword .kStatic)
  if ← eat (.keyword .kLet) then varDeclEnd start isStatic none
  else varDeclEnd start isStatic (some (← type))

def varStmt : Parser Stmt := do
  let (info, decl) ← varDecl
  return .var info decl

def exprStmt : Parser Stmt := do
  let start := (← peek).span
  let value ← expr
  let _ ← mark .semicolon "';' after expression"
  return .expr (← nodeFrom start) value

def assignOp? : TokenKind → Option AssignOp
  | .punct .equal => some .assign
  | .punct .plusEqual => some .add
  | .punct .minusEqual => some .sub
  | .punct .starEqual => some .mul
  | .punct .slashEqual => some .div
  | .punct .percentEqual => some .rem
  | .punct .ampEqual => some .bitAnd
  | .punct .pipeEqual => some .bitOr
  | .punct .caretEqual => some .bitXor
  | .punct .lessLessEqual => some .shl
  | _ => none

/-- The assignment operator here, read. A `>` that touches `>=` is a shift. -/
def assignOp : Parser AssignOp := do
  let k ← kind
  if k == .punct .greater && (← adjacent (.punct .greaterEqual)) then
    update (State.advanceBy 2)
    return .shr
  match assignOp? k with
  | some op =>
    let _ ← advance
    return op
  | none => expected "';' or an assignment operator"

def assignment : Parser Stmt := do
  let start := (← peek).span
  let target ← expr
  let op ← assignOp
  let value ← expr
  let _ ← mark .semicolon "';' after assignment"
  return .assign (← nodeFrom start) op target value

def simpleStmt : Parser Stmt := do
  if let some s ← attempt varStmt then return s
  if let some s ← attempt exprStmt then return s
  assignment

/-- How many tokens to pass over before the next statement, `depth` braces deep in one that could
not be read. -/
def stmtResync : (depth : Nat) → List Token → Nat
  | _, [] => 0
  | depth, t :: ts =>
    match t.kind, depth with
    | .eof, _ => 0
    | .punct .semicolon, 0 => 1
    | .punct .rightBrace, 0 => 0
    | .punct .leftBrace, depth => stmtResync (depth + 1) ts + 1
    | .punct .rightBrace, depth + 1 => stmtResync depth ts + 1
    | _, depth => stmtResync depth ts + 1

/-- Takes up again after a statement that started with the tokens `before` left and could not be
read, at least one token further on. -/
def resyncStmt (before : List Token) : Parser Unit := update fun s =>
  let s := if s.rest.length == before.length then s.advance else s
  { (s.advanceBy (stmtResync 0 s.rest)).recovered with muted := false }

/-- The next statement of a block. At the end of the block there is none; one that cannot be read
counts as an item without a statement. -/
def blockItem (stmt : Parser Stmt) : Parser (Option (Option Stmt)) := do
  if (← at? (.punct .rightBrace)) || (← atEnd) then return none
  let before ← inspect (·.rest)
  match ← result? stmt with
  | some s =>
    update fun st => { st with muted := false }
    return some (some s)
  | none =>
    resyncStmt before
    return some none

def block (stmt : Parser Stmt) : Parser Block := do
  let start := (← mark .leftBrace "'\x7b'").span
  let items ← many (blockItem stmt)
  let _ ← mark .rightBrace "'\x7d' to close the block"
  return { info := ← nodeFrom start, body := items.filterMap (·) }

def blockStmt (stmt : Parser Stmt) : Parser Stmt := return (← block stmt).toStmt

def condStmt (stmt : Parser Stmt) : Parser Stmt := do
  let start := (← advance).span
  let test ← expr
  let onTrue ← blockStmt stmt
  let onFalse ←
    if ← eat (.keyword .kElse) then
      if ← at? (.keyword .kIf) then (do return some (← stmt))
      else (do return some (← blockStmt stmt))
    else pure none
  return .cond (← nodeFrom start) test onTrue onFalse

def loopStmt (stmt : Parser Stmt) : Parser Stmt := do
  let start := (← advance).span
  let test ← expr
  let body ← blockStmt stmt
  return .loop (← nodeFrom start) test body

def foreachStmt (stmt : Parser Stmt) : Parser Stmt := do
  let start := (← advance).span
  let binding ← identifier "a loop variable name"
  if ← at? (.punct .comma) then
    report .severalLoopVariables (← peek).span
    fail
  let _ ← expect (.keyword .kIn) "'in'"
  let iterable ← expr
  let body ← blockStmt stmt
  return .foreach (← nodeFrom start) binding iterable body

def returnStmt : Parser Stmt := do
  let start := (← advance).span
  let value ←
    if ← at? (.punct .semicolon) then pure none else (do return some (← expr))
  let _ ← mark .semicolon "';' after return"
  return .ret (← nodeFrom start) value

def deferStmt (stmt : Parser Stmt) : Parser Stmt := do
  let start := (← advance).span
  let body ← stmt
  return .defer (← nodeFrom start) body

def crashMessage : Parser (Option Expr) := do
  match ← kind with
  | .punct .semicolon => return none
  | .stringLiteral | .templateFull | .templateStart | .directive => return some (← expr)
  | _ => expected "a string or template string after 'crash'"

def crashStmt : Parser Stmt := do
  let start := (← advance).span
  let message ← crashMessage
  let _ ← mark .semicolon "';' after crash"
  return .crash (← nodeFrom start) message

/-- How many tokens it takes to close `depth` braces; none if the end comes first. -/
def braceLength? : (depth : Nat) → List Token → Option Nat
  | 0, _ => some 0
  | _ + 1, [] => none
  | depth + 1, t :: ts =>
    match t.kind with
    | .eof => none
    | .punct .leftBrace => (braceLength? (depth + 2) ts).map (· + 1)
    | .punct .rightBrace => (braceLength? depth ts).map (· + 1)
    | _ => (braceLength? (depth + 1) ts).map (· + 1)

/-- A switch; the tokens of its body are passed over. -/
def switchStmt : Parser Stmt := do
  let start := (← advance).span
  let scrutinee ← expr
  let _ ← mark .leftBrace "'\x7b' to open the switch body"
  let rest ← inspect (·.rest)
  match braceLength? 1 rest with
  | some n =>
    update (State.advanceBy n)
    return .switch (← nodeFrom start) scrutinee
  | none =>
    update (State.advanceBy rest.length)
    expected "'\x7d' to close the switch body"

def stmtStep (stmt : Parser Stmt) : Parser Stmt := do
  let ds ← directives
  let s ←
    match ← kind with
    | .punct .leftBrace => blockStmt stmt
    | .keyword .kIf => condStmt stmt
    | .keyword .kWhile => loopStmt stmt
    | .keyword .kForeach => foreachStmt stmt
    | .keyword .kReturn => returnStmt
    | .keyword .kDefer => deferStmt stmt
    | .keyword .kCrash => crashStmt
    | .keyword .kSwitch => switchStmt
    | .keyword .kStatic | .keyword .kLet => varStmt
    | _ => simpleStmt
  return if ds.isEmpty then s else s.withDirectives ds

def stmtAt : (depth : Fuel) → Parser Stmt
  | [] => fail
  | _ :: depth => stmtStep (stmtAt depth)

/-- A statement. Every level of nesting takes a token, so the tokens left bound the depth. -/
def stmt : Parser Stmt := fuelled stmtAt

end Quill.Parser
