import Quill.Lower.Message

/-!
# Statements in C

Deferred statements are written out wherever control leaves their block. At the end of a block its
own ones run, the latest first; before a return those of all open blocks run, innermost block
first, after the returned value is computed.
-/
namespace Quill

mutual

def Stmt.defers : Stmt → Nat
  | .defer _ body => body.defers + 1
  | .block _ body => Stmt.allDefers body
  | .cond _ _ onTrue onFalse => onTrue.defers + Stmt.elseDefers onFalse
  | .loop _ _ body | .foreach _ _ _ body => body.defers
  | .ret _ _ | .var _ _ | .crash _ _ | .expr _ _ | .assign _ _ _ _ | .switch _ _ => 0

def Stmt.allDefers : List Stmt → Nat
  | [] => 0
  | s :: ss => s.defers + Stmt.allDefers ss

def Stmt.elseDefers : Option Stmt → Nat
  | none => 0
  | some s => s.defers

end

/-- Whether control never comes past the statement. -/
def Stmt.leaves : Stmt → Bool
  | .ret _ _ | .crash _ _ => true
  | _ => false

namespace Lower

/-- The state while a function body is lowered. -/
structure BodyState extends Lowering where
  temps : Nat := 0
  /-- Deferred statements of the open blocks, innermost block first and in each the latest first. -/
  frames : List (List Stmt) := []
  /-- Whether deferred statements were found to run without end. -/
  endless : Bool := false
  deriving Repr

abbrev Body := StateM BodyState

/-- What lowering reads inside a function. -/
structure FunctionContext extends Checked where
  result : Ty
  deriving Repr

/-- Runs a step that needs no more than the instances. -/
def plain {α : Type} (step : Lower α) : Body α := fun st =>
  match step st.toLowering with
  | (a, s) => (a, { st with toLowering := s })

def fresh (purpose : String) : Body String := do
  let st ← get
  set { st with temps := st.temps + 1 }
  return "__ql_" ++ purpose ++ "_" ++ toString st.temps

/-- Puts a statement off to the end of the innermost block. -/
def postpone (s : Stmt) : Body Unit :=
  modify fun st =>
    match st.frames with
    | [] => st
    | frame :: outer => { st with frames := (s :: frame) :: outer }

def inTurn (lower : Stmt → Body (List CStmt)) : List Stmt → Body (List CStmt)
  | [] => return []
  | s :: ss => return (← lower s) ++ (← inTurn lower ss)

/-- Lowers the statements of a block by `statements` and runs what they deferred, unless control
does not reach the end. -/
def inBlock (run : Stmt → Body (List CStmt)) (body : List Stmt)
    (statements : Body (List CStmt)) : Body (List CStmt) := do
  modify fun st => { st with frames := [] :: st.frames }
  let out ← statements
  let deferred := (← get).frames.headD []
  modify fun st => { st with frames := st.frames.tail }
  if out.getLast?.any (·.isReturn) || body.getLast?.any (·.leaves) then return out
  return out ++ (← inTurn run deferred)

def returned (cx : FunctionContext) (run : Stmt → Body (List CStmt)) (value : Option Expr) :
    Body (List CStmt) := do
  let pending := (← get).frames.flatten
  match value with
  | none =>
    if pending.isEmpty then return [.ret none]
    return [.block ((← inTurn run pending) ++ [.ret none])]
  | some e =>
    if pending.isEmpty then return [.ret (some (← plain (expr cx.toChecked e)))]
    let type ← plain (cType cx.toChecked cx.result e.span)
    let init ← plain (expr cx.toChecked e)
    let name ← fresh "ret"
    return [.block ([.var { type, name, init := some init }] ++ (← inTurn run pending) ++
      [.ret (some (.var name))])]

def localVar (cx : Checked) (info : Info) (decl : VarDecl) : Lower CStmt := do
  let type ← typeOf cx info
  let init ← initial? cx decl.init
  return .var { type, name := cIdent decl.name, init, isStatic := decl.isStatic }

/-- Room for a message that is put together on the stack. -/
def stackBuffer : CType := { name := "char", dims := [some 256] }

def crashMessage (cx : Checked) : Expr → Body (List CStmt)
  | .template info parts => do
    let (format, arguments) ← plain (template cx parts)
    if Directive.present info.directives .stackBuf then
      let name ← fresh "buf"
      return [.block [
        .var { type := stackBuffer, name, init := none },
        .expr (.callTo "snprintf"
          (.var name :: .sizeofExpr (.var name) :: formatLine format :: arguments)),
        .expr (.callTo "fputs" [.var name, .var "stderr"])]]
    return [printError format arguments]
  | .literal _ (.string text) | .literal _ (.chars text) =>
    return [printError (doublePercents text) []]
  | e => return [printError "%s" [← plain (expr cx e)]]

def crash (cx : Checked) (message : Option Expr) : Body (List CStmt) := do
  let printed ←
    match message with
    | some e => crashMessage cx e
    | none => pure []
  return printed ++ [.expr (.callTo "abort" [])]

/-- Counts from one bound to the other. The upper one is computed once. -/
def countRange (cx : Checked) (info : Info) (binding : String) (low high : Expr)
    (inclusive : Bool) (body : Body (List CStmt)) : Body (List CStmt) := do
  let type ← plain (typeOf cx info)
  let bound ← fresh "end"
  let high ← plain (expr cx high)
  let low ← plain (expr cx low)
  let body ← body
  let name := cIdent binding
  return [.block [
    .var { type, name := bound, init := some high },
    .count { type, name, init := some low }
      (.binary (if inclusive then .le else .lt) (.var name) (.var bound))
      (.step .inc (.var name)) body]]

def countElements (cx : Checked) (info : Info) (binding : String) (iterable : Expr)
    (body : Body (List CStmt)) : Body (List CStmt) := do
  let some (.array _ (some length)) := cx.resolution.typeOf? iterable.id
    | plain (report .unknownLength iterable.span)
      return []
  let type ← plain (typeOf cx info)
  let position ← fresh "i"
  let target ← plain (expr cx iterable)
  let body ← body
  let element : CVar :=
    { type, name := cIdent binding, init := some (.index target (.var position)) }
  return [.count
    { type := { name := Scalar.uptr.cName }, name := position, init := some (.literal "0") }
    (.binary .lt (.var position) (.literal (toString length)))
    (.step .inc (.var position)) (.var element :: body)]

/-- Takes off the braces that a block has of itself where the surroundings give it some. -/
def unbraced (source : Stmt) (out : List CStmt) : List CStmt :=
  match source, out with
  | .block _ _, [.block body] => body
  | _, _ => out

mutual

/-- Lowers a statement, with `run` for deferred ones. -/
def stmt (cx : FunctionContext) (run : Stmt → Body (List CStmt)) : Stmt → Body (List CStmt)
  | .block _ body => return [.block (← inBlock run body (stmts cx run body))]
  | .var info decl => return [← plain (localVar cx.toChecked info decl)]
  | .cond _ test onTrue onFalse => do
    let test ← plain (expr cx.toChecked test)
    let lowered ← stmt cx run onTrue
    return [.cond test (unbraced onTrue lowered) (← orElse cx run onFalse)]
  | .loop _ test body => do
    let test ← plain (expr cx.toChecked test)
    return [.loop test (unbraced body (← stmt cx run body))]
  | .foreach _ binding (.range info low high inclusive) body =>
    countRange cx.toChecked info binding low high inclusive
      (return unbraced body (← stmt cx run body))
  | .foreach info binding iterable body =>
    countElements cx.toChecked info binding iterable
      (return unbraced body (← stmt cx run body))
  | .ret _ value => returned cx run value
  | .defer _ body => do
    postpone body
    return []
  | .crash _ message => crash cx.toChecked message
  | .expr _ e => return [.expr (← plain (expr cx.toChecked e))]
  | .assign _ op target source => do
    let target ← plain (expr cx.toChecked target)
    let source ← plain (expr cx.toChecked source)
    return [.assign op target source]
  | s@(.switch info _) => do
    plain (report (.noCounterpart s.kindName) info.span)
    return []

def stmts (cx : FunctionContext) (run : Stmt → Body (List CStmt)) :
    List Stmt → Body (List CStmt)
  | [] => return []
  | s :: ss => return (← stmt cx run s) ++ (← stmts cx run ss)

def orElse (cx : FunctionContext) (run : Stmt → Body (List CStmt)) :
    Option Stmt → Body (Option (List CStmt))
  | none => return none
  | some s => return some (unbraced s (← stmt cx run s))

end

/-- Lowers a deferred statement that runs inside others. One that came to run inside itself would do
so again and again, for what was deferred around it the first time is still deferred then; so those
that run inside one another all differ, and `level` bounds how many there are. Where it is used up
the run has no end, and nothing more is run. -/
def deferred (cx : FunctionContext) : (level : Nat) → Stmt → Body (List CStmt)
  | 0, _ => do
    modify fun st => { st with endless := true }
    return []
  | level + 1, s => do
    if (← get).endless then return []
    stmt cx (deferred cx level) s

def functionBody (cx : FunctionContext) (body : List Stmt) : Lower (List CStmt) := fun st =>
  let run := deferred cx (Stmt.allDefers body)
  match (inBlock run body (stmts cx run body)).run { toLowering := st } with
  | (out, s) => (out, s.toLowering)

end Lower
end Quill
