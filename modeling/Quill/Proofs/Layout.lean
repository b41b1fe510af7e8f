import Quill.Lower.Package
import Quill.Proofs.CScope
import Quill.Proofs.Sight

/-!
# The layout of names

Lowering a function body lays its names out in C. Here each is labelled with a local of the source,
a declaration with the one it comes from and a reference with the one it means.
-/
namespace Quill

open Stmt Mark

abbrev Marks := List (Mark (Option Origin))

def Checked.referenceMarks (cx : Checked) (env : Env) (info : Info) (path : List String) : Marks :=
  match cx.resolution.binding? info.id with
  | some .local =>
    [.uses (cIdent (path.getLast?.getD "")) (some (env.origin (path.getLast?.getD "")))]
  | some (.global package name) | some (.function package name) =>
    [.uses (cx.mangle package name) none]
  | some (.foreign name) => [.uses name none]
  | none => []

mutual

def Expr.marks (cx : Checked) (env : Env) : Expr → Marks
  | .ref info path => cx.referenceMarks env info path
  | .binary _ _ l r | .index _ l r => l.marks cx env ++ r.marks cx env
  | .unary _ _ e | .step _ _ e | .field _ e _ _ | .sizeofExpr _ e | .cast _ _ e => e.marks cx env
  | .call _ callee arguments => callee.marks cx env ++ Expr.allMarks cx env arguments
  | .structInit _ fields => Expr.fieldMarks cx env fields
  | .sizeofType info _ (some e) =>
    if (cx.resolution.written? info.id).isSome then [] else e.marks cx env
  | .literal _ _ | .arrayInit _ _ _ | .sizeofType _ _ none | .range _ _ _ _ | .tuple _ _
  | .template _ _ => []

def Expr.allMarks (cx : Checked) (env : Env) : List Expr → Marks
  | [] => []
  | e :: es => e.marks cx env ++ Expr.allMarks cx env es

def Expr.fieldMarks (cx : Checked) (env : Env) : List (FieldInit Expr) → Marks
  | [] => []
  | ⟨_, _, e⟩ :: fs => e.marks cx env ++ Expr.fieldMarks cx env fs

end

def Expr.elementMarks (cx : Checked) (env : Env) : List (ArrayElement Expr) → Marks
  | [] => []
  | ⟨none, e⟩ :: es => e.marks cx env ++ Expr.elementMarks cx env es
  | ⟨some i, e⟩ :: es => i.marks cx env ++ e.marks cx env ++ Expr.elementMarks cx env es

def Expr.initialMarks (cx : Checked) (env : Env) : Expr → Marks
  | .arrayInit _ _ items => Expr.elementMarks cx env items
  | e => e.marks cx env

def Expr.initialMarks? (cx : Checked) (env : Env) : Option Expr → Marks
  | none => []
  | some e => e.initialMarks cx env

def Expr.partMarks (cx : Checked) (env : Env) : List (TemplatePart Expr) → Marks
  | [] => []
  | .text _ :: ps => Expr.partMarks cx env ps
  | .expr e :: ps => e.marks cx env ++ Expr.partMarks cx env ps

structure Laid where
  /-- Without the scope of a block. -/
  marks : Marks
  returns : Bool := false
  braced : Bool := false

namespace Laid

def block (marks : Marks) : Laid := { marks, braced := true }

def full (l : Laid) : Marks := if l.braced then inScope l.marks else l.marks

def all (ls : List Laid) : Marks := ls.flatMap full

/-- What is left of statements where the surroundings give them a scope. -/
def unbraced : Stmt → List Laid → Marks
  | .block _ _, [l] => l.marks
  | _, ls => all ls

end Laid

/-- Layouts count the names made up. -/
abbrev Lay := StateM Nat

structure Postponed where
  env : Env
  body : Stmt

namespace Lay

def fresh (purpose : String) : Lay String := fun n =>
  ("__ql_" ++ purpose ++ "_" ++ toString n, n + 1)

def inTurn (run : Postponed → Lay (List Laid)) : List Postponed → Lay (List Laid)
  | [] => return []
  | p :: ps => return (← run p) ++ (← inTurn run ps)

def inBlock (run : Postponed → Lay (List Laid)) (own : List Postponed) (body : List Stmt)
    (statements : Lay (List Laid)) : Lay Marks := do
  let out ← statements
  if out.getLast?.any (·.returns) || body.getLast?.any (·.leaves) then return Laid.all out
  return Laid.all (out ++ (← inTurn run own))

def returned (cx : Checked) (run : Postponed → Lay (List Laid)) (pending : List Postponed)
    (env : Env) : Option Expr → Lay (List Laid)
  | none => do
    if pending.isEmpty then return [{ marks := [], returns := true }]
    return [.block (Laid.all (← inTurn run pending))]
  | some e => do
    if pending.isEmpty then return [{ marks := e.marks cx env, returns := true }]
    let name ← fresh "ret"
    return [.block ((.declares name none :: e.marks cx env) ++ Laid.all (← inTurn run pending) ++
      [.uses name none])]

def printError (arguments : Marks) : Laid :=
  { marks := .uses "fprintf" none :: .uses "stderr" none :: arguments }

section

variable (cx : Checked) (env : Env)

include cx env

def crashMessage : Expr → Lay (List Laid)
  | .template info parts => do
    if Directive.present info.directives .stackBuf then
      let name ← fresh "buf"
      return [.block (.declares name none :: .uses "snprintf" none :: .uses name none ::
        .uses name none :: Expr.partMarks cx env parts ++
        [.uses "fputs" none, .uses name none, .uses "stderr" none])]
    return [printError (Expr.partMarks cx env parts)]
  | .literal _ (.string _) | .literal _ (.chars _) => return [printError []]
  | e => return [printError (e.marks cx env)]

def crash (message : Option Expr) : Lay (List Laid) := do
  let printed ←
    match message with
    | some e => crashMessage cx env e
    | none => pure []
  return printed ++ [{ marks := [.uses "abort" none] }]

/-- The bound is made up and lies around the counter. -/
def countRange (origin : Origin) (binding : String) (low high : Expr) (body : Lay Marks) :
    Lay (List Laid) := do
  let bound ← fresh "end"
  let body ← body
  let name := cIdent binding
  let use : Mark (Option Origin) := .uses name (some origin)
  return [.block ((.declares bound none :: high.marks cx env) ++
    inScope ((.declares name (some origin) :: low.marks cx env) ++
      [use, .uses bound none, use] ++ inScope body))]

/-- The position is made up and lies around the element. -/
def countElements (origin : Origin) (binding : String) (iterable : Expr) (body : Lay Marks) :
    Lay (List Laid) := do
  let some (.array _ (some _)) := cx.resolution.typeOf? iterable.id | return []
  let position ← fresh "i"
  let body ← body
  return [{ marks := inScope ([.declares position none, .uses position none,
    .uses position none] ++ inScope (.declares (cIdent binding) (some origin) ::
      iterable.marks cx env ++ [.uses position none] ++ body)) }]

end

end Lay

def Stmt.postponed (env : Env) : Stmt → List Postponed
  | .defer _ body => [⟨env, body⟩]
  | _ => []

/-- What statements put off, the latest first, in front of what was put off before. -/
def Stmt.postponedBy : (env : Env) → (own : List Postponed) → List Stmt → List Postponed
  | _, own, [] => own
  | env, own, s :: ss => postponedBy (s.binds ++ env) (s.postponed env ++ own) ss

mutual

/-- Lays out a statement, with `run` for deferred ones; `pending` are those of all open blocks. -/
def Stmt.lay (cx : Checked) (run : Postponed → Lay (List Laid)) (pending : List Postponed)
    (env : Env) : Stmt → Lay (List Laid)
  | .block _ body =>
    return [.block (← Lay.inBlock run (postponedBy env [] body) body
      (layAll cx run pending [] env body))]
  | .var info decl =>
    return [{ marks := .declares (cIdent decl.name) (some (.node info.id)) ::
      Expr.initialMarks? cx env decl.init }]
  | .cond _ test onTrue onFalse => do
    let lowered ← onTrue.lay cx run pending env
    let orElse ← layElse cx run pending (onTrue.binds ++ env) onFalse
    return [{ marks :=
      test.marks cx env ++ inScope (Laid.unbraced onTrue lowered) ++ orElse }]
  | .loop _ test body => do
    let lowered ← body.lay cx run pending env
    return [{ marks := test.marks cx env ++ inScope (Laid.unbraced body lowered) }]
  | .foreach info binding (.range _ low high _) body =>
    .countRange cx env (.node info.id) binding low high
      (return Laid.unbraced body (← body.lay cx run pending ((binding, .node info.id) :: env)))
  | .foreach info binding iterable body =>
    .countElements cx env (.node info.id) binding iterable
      (return Laid.unbraced body (← body.lay cx run pending ((binding, .node info.id) :: env)))
  | .ret _ value => .returned cx run pending env value
  | .crash _ message => .crash cx env message
  | .expr _ e => return [{ marks := e.marks cx env }]
  | .assign _ _ target value => return [{ marks := target.marks cx env ++ value.marks cx env }]
  | .defer _ _ | .switch _ _ => return []

/-- Lays out the statements of a block, with what they deferred so far in `own`. -/
def Stmt.layAll (cx : Checked) (run : Postponed → Lay (List Laid)) (pending own : List Postponed)
    (env : Env) : List Stmt → Lay (List Laid)
  | [] => return []
  | s :: ss =>
    return (← s.lay cx run (own ++ pending) env) ++
      (← layAll cx run pending (s.postponed env ++ own) (s.binds ++ env) ss)

def Stmt.layElse (cx : Checked) (run : Postponed → Lay (List Laid)) (pending : List Postponed)
    (env : Env) : Option Stmt → Lay Marks
  | none => return []
  | some s => return inScope (Laid.unbraced s (← s.lay cx run pending env))

end

theorem Stmt.lay_foreach (cx : Checked) (run : Postponed → Lay (List Laid))
    (pending : List Postponed) (env : Env) {e : Expr} (info : Info) (x : String) (body : Stmt)
    (he : ∀ i low high inclusive, e ≠ .range i low high inclusive) :
    (foreach info x e body).lay cx run pending env =
      .countElements cx env (.node info.id) x e
        (return Laid.unbraced body (← body.lay cx run pending ((x, .node info.id) :: env))) := by
  cases e with
  | range i low high inclusive => exact absurd rfl (he i low high inclusive)
  | _ => rw [lay]; exact nofun

/-- A deferred statement where it runs. What it would itself defer or return from is no matter. -/
def Postponed.lay (cx : Checked) (p : Postponed) : Lay (List Laid) :=
  p.body.lay cx (fun _ => return []) [] p.env

def Param.marks : (index : Nat) → List Param → Marks
  | _, [] => []
  | index, p :: ps => .declares (cIdent p.name) (some (.param index)) :: marks (index + 1) ps

def functionMarks (cx : Checked) (params : List Param) (body : List Stmt) : Marks :=
  inScope (Param.marks 0 params ++
    (Lay.inBlock (Postponed.lay cx) (postponedBy (paramEnv params) [] body) body
      (layAll cx (Postponed.lay cx) [] [] (paramEnv params) body) 0).1)

end Quill
