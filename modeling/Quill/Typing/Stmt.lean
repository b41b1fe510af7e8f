import Quill.Typing.Expr

/-!
# Checking statements

Blocks, loops over a binding and function bodies open a scope. A variable is in scope after its own
declaration. Deferred statements must neither return nor defer.
-/
namespace Quill

mutual

/-- Whether a return or a defer occurs in the statement. -/
def Stmt.escapes : Stmt → Bool
  | .ret _ _ | .defer _ _ => true
  | .block _ body => Stmt.anyEscapes body
  | .cond _ _ onTrue onFalse => onTrue.escapes || Stmt.elseEscapes onFalse
  | .loop _ _ body | .foreach _ _ _ body => body.escapes
  | .var _ _ | .crash _ _ | .expr _ _ | .assign _ _ _ _ | .switch _ _ => false

def Stmt.anyEscapes : List Stmt → Bool
  | [] => false
  | s :: ss => s.escapes || Stmt.anyEscapes ss

def Stmt.elseEscapes : Option Stmt → Bool
  | none => false
  | some s => s.escapes

end

namespace Check

def varType (cx : Context) (info : Info) (decl : VarDecl) : Check (Option Ty) := do
  match decl.type, decl.init with
  | some written, init =>
    let type ← survey (Survey.resolveType cx.package none written)
    match type, init with
    | some t, some e => let _ ← value cx e t
    | none, some e => let _ ← expr cx e none
    | _, none => pure ()
    return type
  | none, some e =>
    match ← expr cx e none with
    | some .void =>
      reportType (.voidVariable decl.name) e.span
      return none
    | type => return type
  | none, none =>
    reportType (.uninferredVariable decl.name) info.span
    return none

def localVar (cx : Context) (info : Info) (decl : VarDecl) : Check Unit := do
  let type ← varType cx info decl
  if let some t := type then setType info.id t
  let quiet := Directive.present info.directives .unused || decl.name.startsWith "_"
  declareLocal { name := decl.name, type, mutable := decl.mutable, span := info.span, quiet }

def rangeCounter (cx : Context) (info : Info) (low high : Expr) : Check (Option Ty) := do
  if Directive.present info.directives .rangeUsize then
    let l ← value cx low .size
    let h ← value cx high .size
    return if l.isSome && h.isSome then some .size else none
  let (some l, some h) ← operands low high (expr cx low) (expr cx high) none | return none
  if let some counter ← unify l h then
    if counter.isInteger then return some counter
  reportType (.rangeBounds (← nameOf l) (← nameOf h)) info.span
  return none

/-- The type of the elements of an array whose length is known. -/
def elements (cx : Context) (e : Expr) : Check (Option Ty) := do
  match ← expr cx e none with
  | some (.array element (some _)) => return some element
  | some t =>
    report (.usage (.notIterable (← nameOf t))) e.span
    return none
  | none => return none

/-- The type of what a loop runs over: the counter of a range or the elements of an array. -/
def iterated (cx : Context) : Expr → Check (Option Ty)
  | .range info low high _ => typed info.id (rangeCounter cx info low high)
  | e => elements cx e

def returned (cx : Context) (info : Info) : Option Expr → Check Unit
  | none => do
    if !cx.result.isVoid then
      reportType (.missingReturnValue (← nameOf cx.result)) info.span
  | some e => do
    if cx.result.isVoid then
      let _ ← expr cx e none
      reportType .valueFromVoid e.span
    else
      let _ ← value cx e cx.result

/-- Checks a value that is put into a message. -/
def formatted (cx : Context) (e : Expr) : Check Unit := do
  match ← expr cx e none with
  | none | some (.scalar _) | some (.pointer _) | some (.mutPointer _) => return
  | some t => reportType (.notFormattable (← nameOf t)) e.span

def crashMessage (cx : Context) : Expr → Check Unit
  | .template info parts => do
    parts.forM fun
      | .text _ => pure ()
      | .expr e => formatted cx e
    setType info.id .text
  | e => do
    let _ ← value cx e .text

/-- Whether an assignment may combine a stored value of this type with another. -/
def assignable (op : AssignOp) (target : Ty) : Bool :=
  match op with
  | .assign => true
  | .add | .sub | .mul | .div => target.isNumeric
  | .rem | .bitAnd | .bitOr | .bitXor | .shl | .shr => target.isInteger

def pointerStep (cx : Context) (e : Expr) : Check Unit := do
  if let some t ← expr cx e none then
    if !t.isInteger then reportType (.pointerOffset (← nameOf t)) e.span

def assignment (cx : Context) (op : AssignOp) (target source : Expr) : Check Unit := do
  let some type ← expr cx target none
    | let _ ← expr cx source none
  match (← get).placeProblem? cx target with
  | some reason =>
    reportType (.immutable reason) target.span
    let _ ← expr cx source none
  | none =>
    if (op = .add ∨ op = .sub) ∧ type.isPointer then pointerStep cx source
    else if assignable op type then
      let _ ← value cx source type
    else
      reportType (.operand op.symbol (← nameOf type)) target.span
      let _ ← expr cx source none

mutual

def stmt (cx : Context) : Stmt → Check Unit
  | .block _ body => do
    pushScope
    stmts cx body
    popScope
  | .var info decl => localVar cx info decl
  | .cond _ test onTrue onFalse => do
    let _ ← value cx test .bool
    stmt cx onTrue
    orElse cx onFalse
  | .loop _ test body => do
    let _ ← value cx test .bool
    stmt cx body
  | .foreach info binding iterable body => do
    let type ← iterated cx iterable
    if let some t := type then setType info.id t
    pushScope
    declareLocal { name := binding, type, mutable := false, span := info.span, quiet := true }
    stmt cx body
    popScope
  | .ret info e => returned cx info e
  | .defer info body => do
    if body.escapes then report (.usage .deferEscapes) info.span
    stmt cx body
  | .crash _ none => return
  | .crash _ (some message) => crashMessage cx message
  | .expr _ e => do
    let _ ← expr cx e none
  | .assign _ op target source => assignment cx op target source
  | .switch info _ => report (.usage .switchStatement) info.span

def stmts (cx : Context) : List Stmt → Check Unit
  | [] => return
  | s :: ss => do
    stmt cx s
    stmts cx ss

def orElse (cx : Context) : Option Stmt → Check Unit
  | none => return
  | some s => stmt cx s

end

end Check
end Quill
