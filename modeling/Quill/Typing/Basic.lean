import Quill.Ty.Relation
import Quill.Typing.Facts

/-!
# Checking

The state of a check: facts and problems so far, and the local variables in scope. An expression
that has no type is `none`; the problem has then been reported, and whatever holds the expression
stays quiet about it.
-/
namespace Quill

structure Local where
  name : String
  /-- None if the declared type has a problem. -/
  type : Option Ty
  mutable : Bool
  span : Span
  used : Bool := false
  /-- Never reported as unused. -/
  quiet : Bool
  deriving Repr

/-- Open scopes, innermost first, each with its latest variable first. -/
abbrev Locals := List (List Local)

namespace Locals

/-- The variable that a name means: the latest of the innermost scope that has it. -/
def find? (ls : Locals) (name : String) : Option Local := ls.flatten.find? (·.name == name)

/-- Sets the first variable of this name to used. -/
def useIn (name : String) : List Local → List Local
  | [] => []
  | l :: ls => if l.name == name then { l with used := true } :: ls else l :: useIn name ls

def use (name : String) : Locals → Locals
  | [] => []
  | scope :: outer =>
    if scope.any (·.name == name) then useIn name scope :: outer else scope :: use name outer

end Locals

/-- The package and the result type of the function being checked. -/
structure Context where
  package : PackageId
  result : Ty := .void
  deriving Repr

structure Checking extends Survey where
  facts : Facts
  locals : Locals := []
  deriving Repr

abbrev Check := StateM Checking

namespace Check

def report (problem : Problem) (span : Span) : Check Unit :=
  modify fun st => { st with problems := st.problems ++ [⟨problem, span⟩] }

def reportType (problem : TypeProblem) (span : Span) : Check Unit := report (.type problem) span

/-- Runs a step that needs only what is known of the packages. -/
def survey {α : Type} (step : StateM Survey α) : Check α := fun st =>
  match step st.toSurvey with
  | (a, s) => (a, { st with toSurvey := s })

def nameOf (t : Ty) : Check String := return (← get).globals.structs.nameOf t

def converts (src dst : Ty) : Check Bool := return (← get).globals.structs.converts src dst

/-- The type both operands convert to, if one of them converts to the other. -/
def unify (l r : Ty) : Check (Option Ty) := do
  if ← converts r l then return some l
  if ← converts l r then return some r
  return none

def setType (node : Nat) (t : Ty) : Check Unit :=
  modify fun st => { st with facts := { st.facts with types := st.facts.types.insert node t } }

def setBinding (node : Nat) (b : Binding) : Check Unit :=
  modify fun st =>
    { st with facts := { st.facts with bindings := st.facts.bindings.insert node b } }

def setWritten (node : Nat) (t : Ty) : Check Unit :=
  modify fun st =>
    { st with facts := { st.facts with written := st.facts.written.insert node t } }

def declareLocal (l : Local) : Check Unit := do
  match (← get).locals with
  | [] => return
  | scope :: outer =>
    if scope.any (·.name == l.name) then report (.name (.redeclaredInScope l.name)) l.span
    else modify fun st => { st with locals := (l :: scope) :: outer }

def pushScope : Check Unit := modify fun st => { st with locals := [] :: st.locals }

/-- Closes the innermost scope and reports its unused variables in the order of declaration. -/
def popScope : Check Unit := do
  match (← get).locals with
  | [] => return
  | scope :: outer =>
    modify fun st => { st with locals := outer }
    scope.reverse.forM fun l =>
      if l.used || l.quiet then pure () else report (.unusedVariable l.name) l.span

/-- Whether a name seen from the package means a variable or a function. -/
def namesValue (cx : Context) (name : String) : Check Bool := do
  let st ← get
  if (st.locals.find? name).isSome then return true
  match st.globals.lookup cx.package [name] with
  | .ok (.symbol s) => return s.isValue
  | _ => return false

end Check

/-- The variable in scope that a path names. -/
def Checking.local? (st : Checking) : List String → Option Local
  | [name] => st.locals.find? name
  | _ => none

/-- Why an expression is not storage that may be written; none if it is. Types of parts are taken
from the facts. -/
def Checking.placeProblem? (st : Checking) (cx : Context) : Expr → Option PlaceProblem
  | .ref _ path =>
    match st.local? path with
    | some l => if l.mutable then none else some (.immutableVariable l.name)
    | none =>
      match st.globals.lookup cx.package path with
      | .ok (.symbol { kind := .var _ true, .. }) => none
      | .ok (.symbol { kind := .var _ false, name, .. }) => some (.immutableGlobal name)
      | .ok (.symbol s) => some (.notAssignable s.name)
      | _ => some (.notAssignable ("::".intercalate path))
  | .field _ target _ false => st.placeProblem? cx target
  | .field _ target _ true | .unary _ .deref target =>
    match st.facts.types.get? target.id with
    | some (.mutPointer _) => none
    | _ => some .immutablePointer
  | .index _ target _ =>
    match st.facts.types.get? target.id with
    | some (.array _ _) => st.placeProblem? cx target
    | some (.mutPointer _) => none
    | _ => some .immutablePointer
  | e => some (.notAPlace e.kindName)

end Quill
