import Quill.Proofs.Sight

/-!
# Static scopes

In a scope the first declaration of a name takes effect and later ones do not. A name means the
declaration that takes effect in the innermost scope that has one in front of the place where the
name stands.
-/
namespace Quill

open Stmt

structure Declaration where
  name : String
  origin : Origin
  span : Span
  /-- Whether the local is reported if it is unused. -/
  loud : Bool
  deriving DecidableEq, Repr

namespace Declaration

/-- The declarations of a scope that take effect. The latest comes first, as in the scope. -/
def effective : List Declaration → List Declaration
  | [] => []
  | d :: ds => if ds.any (·.name == d.name) then effective ds else d :: effective ds

def ofVar (info : Info) (decl : VarDecl) : Declaration where
  name := decl.name
  origin := .node info.id
  span := info.span
  loud := !(Directive.present info.directives .unused || decl.name.startsWith "_")

def ofBinding (info : Info) (name : String) : Declaration := ⟨name, .node info.id, info.span, false⟩

def ofParam (index : Nat) (p : Param) : Declaration := ⟨p.name, .param index, p.span, false⟩

/-- A scope with parameters that are declared one after the other, counted from `index`. -/
def withParams (scope : List Declaration) : (index : Nat) → List Param → List Declaration
  | _, [] => scope
  | index, p :: ps => withParams (ofParam index p :: scope) (index + 1) ps

/-- The warnings for a scope in which no reference means the locals that are not `bound`. -/
def unused (bound : Origin → Bool) (scope : List Declaration) : List Diagnostic :=
  ((effective scope).reverse.filter fun d => d.loud && !bound d.origin).map fun d =>
    ⟨.unusedVariable d.name, d.span⟩

end Declaration

/-- The declarations in front of a place in the scopes that are open there, the innermost scope
first and in each the latest declaration first. -/
abbrev Scopes := List (List Declaration)

abbrev Reference := Nat × List String

structure View where
  scopes : Scopes
  node : Nat
  path : List String
  deriving DecidableEq, Repr

namespace Scopes

def find? (scopes : Scopes) (name : String) : Option Declaration :=
  (scopes.flatMap Declaration.effective).find? (·.name == name)

def knows (scopes : Scopes) (name : String) : Bool := (scopes.find? name).isSome

def declare (ds : List Declaration) : Scopes → Scopes
  | [] => []
  | scope :: outer => (ds ++ scope) :: outer

def views (scopes : Scopes) (refs : List Reference) : List View :=
  refs.map fun r => ⟨scopes, r.1, r.2⟩

end Scopes

/-- The declaration that a reference means, if it means a local. -/
def View.declaration? (v : View) : Option Declaration :=
  match v.path with
  | [name] => v.scopes.find? name
  | _ => none

mutual

/-- References that are looked at wherever the expression stands, given which names locals have. The
others are in values that are refused, in fields that are given twice, in lengths and places of array
elements, and in operands of `sizeof` that are taken for types. -/
def Expr.sure (knows : String → Bool) : Expr → List Reference
  | .ref info path => [(info.id, path)]
  | .binary _ _ l r | .index _ l r => l.sure knows ++ r.sure knows
  | .unary _ _ e | .step _ _ e | .field _ e _ _ | .sizeofExpr _ e | .cast _ _ e => e.sure knows
  | .call _ callee arguments => callee.sure knows ++ Expr.allSure knows arguments
  | .structInit _ fields => Expr.fieldSure knows [] fields
  | .arrayInit _ _ elements => Expr.elementSure knows elements
  | .sizeofType _ type (some e) => if type.valueName?.any knows then e.sure knows else []
  | .sizeofType _ _ none | .literal _ _ | .range _ _ _ _ | .template _ _ | .tuple _ _ => []

def Expr.allSure (knows : String → Bool) : List Expr → List Reference
  | [] => []
  | e :: es => e.sure knows ++ Expr.allSure knows es

def Expr.fieldSure (knows : String → Bool) (seen : List String) :
    List (FieldInit Expr) → List Reference
  | [] => []
  | ⟨name, _, e⟩ :: fs =>
    (if seen.contains name then [] else e.sure knows) ++ Expr.fieldSure knows (name :: seen) fs

def Expr.elementSure (knows : String → Bool) : List (ArrayElement Expr) → List Reference
  | [] => []
  | ⟨_, e⟩ :: es => e.sure knows ++ Expr.elementSure knows es

end

abbrev Pick := (String → Bool) → Expr → List Reference

namespace Pick

def all : Pick := fun _ => Expr.refs

def sure : Pick := Expr.sure

section

variable (pick : Expr → List Reference)

include pick

def option : Option Expr → List Reference
  | none => []
  | some e => pick e

/-- What a loop runs over is a range of two values or one value. -/
def iterable : Expr → List Reference
  | .range _ low high _ => pick low ++ pick high
  | e => pick e

def part : TemplatePart Expr → List Reference
  | .text _ => []
  | .expr e => pick e

/-- A message is put together from parts or one value. -/
def message : Option Expr → List Reference
  | none => []
  | some (.template _ parts) => parts.flatMap (part pick)
  | some e => pick e

end

end Pick

mutual

/-- What a statement declares in the scope around it, the latest first. -/
def Stmt.declarations : Stmt → List Declaration
  | .var info decl => [.ofVar info decl]
  | .cond _ _ onTrue onFalse => elseDeclarations onFalse ++ onTrue.declarations
  | .loop _ _ body | .defer _ body => body.declarations
  | .block _ _ | .foreach _ _ _ _ | .ret _ _ | .crash _ _ | .expr _ _ | .assign _ _ _ _
  | .switch _ _ => []

def Stmt.elseDeclarations : Option Stmt → List Declaration
  | none => []
  | some s => s.declarations

end

def Stmt.allDeclarations : List Stmt → List Declaration
  | [] => []
  | s :: ss => allDeclarations ss ++ s.declarations

mutual

/-- The references that are picked in a statement. The value of a switch is not looked at. -/
def Stmt.views (pick : Pick) (scopes : Scopes) : Stmt → List View
  | .block _ body => allViews pick ([] :: scopes) body
  | .var _ decl => scopes.views (Pick.option (pick scopes.knows) decl.init)
  | .cond _ test onTrue onFalse =>
    scopes.views (pick scopes.knows test) ++ onTrue.views pick scopes ++
      elseViews pick (scopes.declare onTrue.declarations) onFalse
  | .loop _ test body => scopes.views (pick scopes.knows test) ++ body.views pick scopes
  | .foreach info binding iterable body =>
    scopes.views (Pick.iterable (pick scopes.knows) iterable) ++
      body.views pick ([.ofBinding info binding] :: scopes)
  | .ret _ e => scopes.views (Pick.option (pick scopes.knows) e)
  | .crash _ e => scopes.views (Pick.message (pick scopes.knows) e)
  | .defer _ body => body.views pick scopes
  | .expr _ e => scopes.views (pick scopes.knows e)
  | .assign _ _ target value =>
    scopes.views (pick scopes.knows target ++ pick scopes.knows value)
  | .switch _ _ => []

def Stmt.allViews (pick : Pick) (scopes : Scopes) : List Stmt → List View
  | [] => []
  | s :: ss => s.views pick scopes ++ allViews pick (scopes.declare s.declarations) ss

def Stmt.elseViews (pick : Pick) (scopes : Scopes) : Option Stmt → List View
  | none => []
  | some s => s.views pick scopes

end

mutual

/-- The warnings for scopes inside a statement, in the order in which the scopes end. -/
def Stmt.unused (bound : Origin → Bool) : Stmt → List Diagnostic
  | .block _ body =>
    allUnused bound body ++ Declaration.unused bound (allDeclarations body)
  | .cond _ _ onTrue onFalse => onTrue.unused bound ++ elseUnused bound onFalse
  | .loop _ _ body | .defer _ body => body.unused bound
  | .foreach info binding _ body => body.unused bound ++
    Declaration.unused bound (body.declarations ++ [.ofBinding info binding])
  | .var _ _ | .ret _ _ | .crash _ _ | .expr _ _ | .assign _ _ _ _ | .switch _ _ => []

def Stmt.allUnused (bound : Origin → Bool) : List Stmt → List Diagnostic
  | [] => []
  | s :: ss => s.unused bound ++ allUnused bound ss

def Stmt.elseUnused (bound : Origin → Bool) : Option Stmt → List Diagnostic
  | none => []
  | some s => s.unused bound

end

end Quill
