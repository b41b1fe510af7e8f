import Quill.C.Name
import Quill.Lower.Basic

/-!
# Expressions in C

Expressions keep their form. Names are replaced by the C names of what they refer to, and types by
their C types.
-/
namespace Quill.Lower

def reference (cx : Checked) (info : Info) (path : List String) : Lower CExpr := do
  match cx.resolution.binding? info.id with
  | some .local => return .var (cIdent (path.getLast?.getD ""))
  | some (.global package name) | some (.function package name) =>
    return .var (cx.mangle package name)
  | some (.foreign name) => return .var name
  | none =>
    report (.unresolved path) info.span
    return .literal "0"

/-- Reports an expression that C has no counterpart for. -/
def unsupported (problem : LoweringProblem) (span : Span) : Lower CExpr := do
  report problem span
  return .literal "0"

mutual

def expr (cx : Checked) : Expr → Lower CExpr
  | .literal _ value => return .literal value.cText
  | .ref info path => reference cx info path
  | .binary _ op l r => return .binary op (← expr cx l) (← expr cx r)
  | .unary _ op operand => return .unary op (← expr cx operand)
  | .step _ op operand => return .step op (← expr cx operand)
  | .call _ callee arguments => return .call (← expr cx callee) (← exprs cx arguments)
  | .field _ target name arrow => return .field (← expr cx target) (cIdent name) arrow
  | .index _ target position => return .index (← expr cx target) (← expr cx position)
  | .structInit info fields => return .compound (← typeOf cx info) (← fieldInits cx fields)
  | .arrayInit info _ _ => unsupported .arrayElsewhere info.span
  | .sizeofType info _ none => do
    match cx.resolution.written? info.id with
    | some t => return .sizeofType (← cType cx t info.span)
    | none => unsupported .untypedSizeof info.span
  | .sizeofType info _ (some operand) => do
    match cx.resolution.written? info.id with
    | some t => return .sizeofType (← cType cx t info.span)
    | none => return .sizeofExpr (← expr cx operand)
  | .sizeofExpr _ operand => return .sizeofExpr (← expr cx operand)
  | .cast info _ operand => return .cast (← typeOf cx info) (← expr cx operand)
  | e@(.range info _ _ _) | e@(.tuple info _) | e@(.template info _) =>
    unsupported (.noCounterpart e.kindName) info.span

def exprs (cx : Checked) : List Expr → Lower (List CExpr)
  | [] => return []
  | e :: es => return (← expr cx e) :: (← exprs cx es)

def fieldInits (cx : Checked) : List (FieldInit Expr) → Lower (List (String × CExpr))
  | [] => return []
  | ⟨name, _, value⟩ :: inits => return (cIdent name, ← expr cx value) :: (← fieldInits cx inits)

end

def elements (cx : Checked) : List (ArrayElement Expr) → Lower (List (Option CExpr × CExpr))
  | [] => return []
  | ⟨none, value⟩ :: es => return (none, ← expr cx value) :: (← elements cx es)
  | ⟨some position, value⟩ :: es =>
    return (some (← expr cx position), ← expr cx value) :: (← elements cx es)

/-- An initial value, the one place for array initializers. -/
def initial (cx : Checked) : Expr → Lower CExpr
  | .arrayInit _ _ items => return .elements (← elements cx items)
  | e => expr cx e

def initial? (cx : Checked) : Option Expr → Lower (Option CExpr)
  | none => return none
  | some e => return some (← initial cx e)

end Quill.Lower
