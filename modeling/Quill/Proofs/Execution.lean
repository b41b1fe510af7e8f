import Quill.Lower.Stmt
import Quill.Proofs.Run
import Quill.Typing.Stmt

/-!
# Execution of function bodies

What a body does, in the language and in C: events that are known by the part of the tree they come
from, with either outcome for every condition. Deferred statements run at the end of their block,
the latest first, and on a return behind the value; a crash runs none.
-/
namespace Quill

open CStmt Run

inductive Event where
  /-- A variable declaration, an expression or an assignment. -/
  | plain (s : Stmt)
  | test (e : Expr) (outcome : Bool)
  | enter (loop : Stmt)
  | next (loop : Stmt) (outcome : Bool)
  | advance (loop : Stmt)
  | value (e : Expr)
  | leave
  | crash (message : Option Expr)

/-- Deferred statements of the open blocks, innermost block first and in each the latest first. -/
abbrev Frames := List (List (Run Unit Event))

namespace Run

def defer (d : Run Unit Event) : Run Frames Event :=
  update fun
    | [] => []
    | frame :: outer => (d :: frame) :: outer

def deferred (ds : List (Run Unit Event)) : Run Frames Event := sequence (ds.map (detached ()))

def inBlock (body : Run Frames Event) : Run Frames Event :=
  (update ([] :: ·)).andThen
    (body.andThen ((ofState fun frames => deferred (frames.headD [])).andThen (update List.tail)))

def leave : Run Frames Event :=
  (ofState fun frames => deferred frames.flatten).andThen ((emit .leave).andThen (stop .returned))

end Run

def Checked.cName? (cx : Checked) (info : Info) (path : List String) : Option String :=
  match cx.resolution.binding? info.id with
  | some .local => some (cIdent (path.getLast?.getD ""))
  | some (.global package name) | some (.function package name) => some (cx.mangle package name)
  | some (.foreign name) => some name
  | none => none

/-- Whether the expression is a call of the C function `abort`, which a program may declare as
external. It ends the run like a crash. -/
def Expr.callsAbort (cx : Checked) : Expr → Bool
  | .call _ (.ref info path) [] => cx.cName? info path == some "abort"
  | _ => false

mutual

def Stmt.exec (cx : Checked) : Stmt → Run Frames Event
  | .block _ body => .inBlock (Stmt.execAll cx body)
  | .cond _ test onTrue onFalse =>
    .test (.test test) (onTrue.exec cx) (Stmt.execElse cx onFalse)
  | .loop _ test body => .loop (.test test) (body.exec cx)
  | s@(.foreach _ _ _ body) =>
    (emit (.enter s)).andThen
      (.loop (.next s) ((body.exec cx).andThen (.emit (.advance s))))
  | .ret _ none => .leave
  | .ret _ (some e) => (emit (.value e)).andThen .leave
  | .defer _ body => .defer (.detached [] (body.exec cx))
  | .crash _ message => (emit (.crash message)).andThen (.stop .crashed)
  | s@(.expr _ e) =>
    (emit (.plain s)).andThen (if e.callsAbort cx then .stop .crashed else .done)
  | s@(.var _ _) | s@(.assign _ _ _ _) | s@(.switch _ _) => .emit (.plain s)

def Stmt.execAll (cx : Checked) : List Stmt → Run Frames Event
  | [] => .done
  | s :: ss => (s.exec cx).andThen (Stmt.execAll cx ss)

def Stmt.execElse (cx : Checked) : Option Stmt → Run Frames Event
  | none => .done
  | some s => s.exec cx

end

inductive CEvent where
  | declare (v : CVar)
  | eval (e : CExpr)
  | assign (op : AssignOp) (target value : CExpr)
  | test (e : CExpr) (outcome : Bool)
  | value (e : CExpr)

def CExpr.isAbort : CExpr → Bool
  | .call (.var name) [] => name == "abort"
  | _ => false

mutual

def CStmt.exec : CStmt → Run Unit CEvent
  | .block body => execAll body
  | .var v => .emit (.declare v)
  | .expr e => (emit (.eval e)).andThen (if e.isAbort then .stop .crashed else .done)
  | .assign op target value => .emit (.assign op target value)
  | .cond test onTrue onFalse => .test (.test test) (execAll onTrue) (execElse onFalse)
  | .loop test body => .loop (.test test) (execAll body)
  | .count init test advance body =>
    (emit (.declare init)).andThen
      (.loop (.test test) ((execAll body).andThen (.emit (.eval advance))))
  | .ret none => .stop .returned
  | .ret (some e) => (emit (.value e)).andThen (.stop .returned)

def CStmt.execAll : List CStmt → Run Unit CEvent
  | [] => .done
  | s :: ss => s.exec.andThen (execAll ss)

def CStmt.execElse : Option (List CStmt) → Run Unit CEvent
  | none => .done
  | some body => execAll body

end

theorem CStmt.execAll_append (as bs : List CStmt) :
    execAll (as ++ bs) = (execAll as).andThen (execAll bs) := by
  induction as with
  | nil => rw [List.nil_append, execAll, done_andThen]
  | cons a as ih => rw [List.cons_append, execAll, execAll, ih, andThen_assoc]

theorem CStmt.execAll_single (s : CStmt) : execAll [s] = s.exec := by
  rw [execAll, execAll, andThen_done]

/-- What a body does from the start on given outcomes of its conditions. -/
def Stmt.run (cx : Checked) (body : List Stmt) (outcomes : List Bool) : RunResult Frames Event :=
  (inBlock (Stmt.execAll cx body)).result [] outcomes

def CStmt.run (body : List CStmt) (outcomes : List Bool) : RunResult Unit CEvent :=
  (execAll body).result () outcomes

end Quill
