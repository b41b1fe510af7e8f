import Quill.Directive
import Quill.Scalar

/-!
# Types as written

A written type keeps its identity, place and directives on every level, and array lengths as text.
-/
namespace Quill

/-- Identity, place and directives of a part of a tree. Types and nodes count their identities
separately. -/
structure Info where
  id : Nat
  span : Span
  directives : List Directive := []
  deriving DecidableEq, Repr

inductive TypeExpr where
  | void (info : Info)
  | scalar (info : Info) (s : Scalar)
  | named (info : Info) (path : List String) (arguments : List TypeExpr)
  | pointer (info : Info) (target : TypeExpr)
  | mutPointer (info : Info) (target : TypeExpr)
  | array (info : Info) (element : TypeExpr) (length : Option String)
  | slice (info : Info) (element : TypeExpr)
  | optional (info : Info) (value : TypeExpr)
  | result (info : Info) (value failure : TypeExpr)
  | tuple (info : Info) (items : List TypeExpr)
  deriving Repr

namespace TypeExpr

def info : TypeExpr → Info
  | void i | scalar i _ | named i _ _ | pointer i _ | mutPointer i _ | array i _ _ | slice i _
  | optional i _ | result i _ _ | tuple i _ => i

def span (t : TypeExpr) : Span := t.info.span

/-- The same type with other directives on its outermost level. -/
def withDirectives (ds : List Directive) : TypeExpr → TypeExpr
  | void i => void { i with directives := ds }
  | scalar i s => scalar { i with directives := ds } s
  | named i path args => named { i with directives := ds } path args
  | pointer i t => pointer { i with directives := ds } t
  | mutPointer i t => mutPointer { i with directives := ds } t
  | array i t n => array { i with directives := ds } t n
  | slice i t => slice { i with directives := ds } t
  | optional i t => optional { i with directives := ds } t
  | result i t e => result { i with directives := ds } t e
  | tuple i ts => tuple { i with directives := ds } ts

def kindName : TypeExpr → String
  | void _ => "void"
  | scalar _ _ => "scalar"
  | named _ _ _ => "named type"
  | pointer _ _ => "pointer"
  | mutPointer _ _ => "mutable pointer"
  | array _ _ _ => "array"
  | slice _ _ => "slice"
  | optional _ _ => "optional"
  | result _ _ _ => "result"
  | tuple _ _ => "tuple"

mutual

/-- The type as it may be written in a source. -/
def render : TypeExpr → String
  | void _ => "void"
  | scalar _ s => s.name
  | named _ path [] => "::".intercalate path
  | named _ path (a :: as) => "::".intercalate path ++ "<" ++ a.render ++ renderMore as ++ ">"
  | pointer _ t => t.render ++ "*"
  | mutPointer _ t => t.render ++ " mut*"
  | array _ t n => t.render ++ "[" ++ n.getD "" ++ "]"
  | slice _ t => t.render ++ "[..]"
  | optional _ t => t.render ++ "?"
  | result _ t e => t.render ++ "!" ++ e.render
  | tuple _ [] => "()"
  | tuple _ (t :: ts) => "(" ++ t.render ++ renderMore ts ++ ")"

def renderMore : List TypeExpr → String
  | [] => ""
  | t :: ts => ", " ++ t.render ++ renderMore ts

end

/-- The variable this type would name if it were read as `x` or `x[n]`. -/
def valueName? : TypeExpr → Option String
  | named _ [name] [] => some name
  | array _ element (some _) => element.valueName?
  | _ => none

mutual

/-- The type and the types nested in it with their depths, outermost first. -/
def levels (depth : Nat) : TypeExpr → List (Nat × TypeExpr)
  | t@(void _) | t@(scalar _ _) => [(depth, t)]
  | t@(named _ _ args) => (depth, t) :: levelsOf (depth + 1) args
  | t@(pointer _ u) | t@(mutPointer _ u) | t@(array _ u _) | t@(slice _ u) | t@(optional _ u) =>
    (depth, t) :: u.levels (depth + 1)
  | t@(result _ u e) => (depth, t) :: (u.levels (depth + 1) ++ e.levels (depth + 1))
  | t@(tuple _ items) => (depth, t) :: levelsOf (depth + 1) items

def levelsOf (depth : Nat) : List TypeExpr → List (Nat × TypeExpr)
  | [] => []
  | t :: ts => t.levels depth ++ levelsOf depth ts

end

/-- The type and all types nested in it, outermost first. -/
def parts (t : TypeExpr) : List TypeExpr := (t.levels 0).map (·.2)

end TypeExpr
end Quill
