import Quill.Proofs.Identity

/-!
# References and the locals in sight

A local can be seen from behind its own statement on, up to the end of the block around it.
-/
namespace Quill

/-- A local: a parameter by its place, a variable or the binding of a loop by its node. -/
inductive Origin where
  | param (index : Nat)
  | node (id : Nat)
  | nowhere
  deriving DecidableEq, Repr

abbrev Env := List (String × Origin)

def Env.origin (env : Env) (name : String) : Origin := (env.lookup name).getD .nowhere

mutual

def Expr.refs : Expr → List (Nat × List String)
  | .ref info path => [(info.id, path)]
  | .binary _ _ l r | .index _ l r | .range _ l r _ => l.refs ++ r.refs
  | .unary _ _ e | .step _ _ e | .field _ e _ _ | .sizeofExpr _ e | .cast _ _ e => e.refs
  | .call _ callee arguments => callee.refs ++ Expr.allRefs arguments
  | .tuple _ items => Expr.allRefs items
  | .structInit _ fields => Expr.fieldRefs fields
  | .arrayInit _ length elements => Expr.optionRefs length ++ Expr.elementRefs elements
  | .template _ parts => Expr.partRefs parts
  | .sizeofType _ _ operand => Expr.optionRefs operand
  | .literal _ _ => []

def Expr.allRefs : List Expr → List (Nat × List String)
  | [] => []
  | e :: es => e.refs ++ Expr.allRefs es

def Expr.optionRefs : Option Expr → List (Nat × List String)
  | none => []
  | some e => e.refs

def Expr.fieldRefs : List (FieldInit Expr) → List (Nat × List String)
  | [] => []
  | ⟨_, _, e⟩ :: fs => e.refs ++ Expr.fieldRefs fs

def Expr.elementRefs : List (ArrayElement Expr) → List (Nat × List String)
  | [] => []
  | ⟨none, e⟩ :: es => e.refs ++ Expr.elementRefs es
  | ⟨some i, e⟩ :: es => i.refs ++ e.refs ++ Expr.elementRefs es

def Expr.partRefs : List (TemplatePart Expr) → List (Nat × List String)
  | [] => []
  | .text _ :: ps => Expr.partRefs ps
  | .expr e :: ps => e.refs ++ Expr.partRefs ps

end

mutual

/-- The locals that can be seen behind a statement and not before it. -/
def Stmt.binds : Stmt → Env
  | .var info decl => [(decl.name, .node info.id)]
  | .cond _ _ onTrue onFalse => Stmt.elseBinds onFalse ++ onTrue.binds
  | .loop _ _ body | .defer _ body => body.binds
  | .block _ _ | .foreach _ _ _ _ | .ret _ _ | .crash _ _ | .expr _ _ | .assign _ _ _ _
  | .switch _ _ => []

def Stmt.elseBinds : Option Stmt → Env
  | none => []
  | some s => s.binds

end

def Stmt.allBinds : List Stmt → Env
  | [] => []
  | s :: ss => Stmt.allBinds ss ++ s.binds

structure Sighting where
  env : Env
  node : Nat
  path : List String

def Env.sightings (env : Env) (refs : List (Nat × List String)) : List Sighting :=
  refs.map fun (node, path) => ⟨env, node, path⟩

/-- Locals with parameters in front of them, counted from `index`; the first is declared first. -/
def Param.declareAll (env : Env) : (index : Nat) → List Param → Env
  | _, [] => env
  | index, p :: ps => declareAll ((p.name, .param index) :: env) (index + 1) ps

def paramEnv (params : List Param) : Env := Param.declareAll [] 0 params

mutual

/-- The references in a statement. The value of a switch is not looked at. -/
def Stmt.sightings (env : Env) : Stmt → List Sighting
  | .block _ body => Stmt.allSightings env body
  | .var _ decl => env.sightings (Expr.optionRefs decl.init)
  | .cond _ test onTrue onFalse =>
    env.sightings test.refs ++ onTrue.sightings env ++
      Stmt.elseSightings (onTrue.binds ++ env) onFalse
  | .loop _ test body => env.sightings test.refs ++ body.sightings env
  | .foreach info binding iterable body =>
    env.sightings iterable.refs ++ body.sightings ((binding, .node info.id) :: env)
  | .ret _ e | .crash _ e => env.sightings (Expr.optionRefs e)
  | .defer _ body => body.sightings env
  | .expr _ e => env.sightings e.refs
  | .assign _ _ target value => env.sightings target.refs ++ env.sightings value.refs
  | .switch _ _ => []

def Stmt.allSightings (env : Env) : List Stmt → List Sighting
  | [] => []
  | s :: ss => s.sightings env ++ Stmt.allSightings (s.binds ++ env) ss

def Stmt.elseSightings (env : Env) : Option Stmt → List Sighting
  | none => []
  | some s => s.sightings env

end

end Quill
