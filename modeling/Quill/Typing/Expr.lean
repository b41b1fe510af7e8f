import Quill.Typing.Basic

/-!
# Types of expressions

Every form of expression has a rule. A rule is given the checks of the parts, each waiting for the
type that is expected of the part, and decides in which order they run and what they are told.
Number literals take their type from what is expected.
-/
namespace Quill

namespace Expr

/-- Whether the type of the expression is left to its surroundings. -/
def untyped : Expr → Bool
  | literal _ (.int _) | literal _ (.float _) => true
  | unary _ .neg operand => operand.untyped
  | _ => false

def isAddressable : Expr → Bool
  | ref _ _ | field _ _ _ _ | index _ _ _ | unary _ .deref _ => true
  | _ => false

def intValue? : Expr → Option Nat
  | literal _ (.int text) => Decimal.read? text
  | _ => none

end Expr

def Literal.type (expected : Option Ty) : Literal → Ty
  | .bool _ => .bool
  | .int _ =>
    match expected with
    | some (.scalar s) => if s = .bool then .scalar .int else .scalar s
    | _ => .scalar .int
  | .float _ =>
    match expected with
    | some (.scalar s) => if s.isFloat then .scalar s else .scalar .float
    | _ => .scalar .float
  | .char _ => .scalar .char
  | .string _ | .chars _ => .text

namespace Check

/-- The check of a part, given the type expected of it. -/
abbrev Part := Option Ty → Check (Option Ty)

/-- Keeps the type that a check finds for a node. -/
def typed (node : Nat) (check : Check (Option Ty)) : Check (Option Ty) := do
  let some t ← check | return none
  setType node t
  return some t

/-- Checks a part that has to convert to a type. -/
def expectValue (part : Part) (span : Span) (expected : Ty) : Check (Option Ty) := do
  let some actual ← part (some expected) | return none
  if ← converts actual expected then return some actual
  reportType (.mismatch (← nameOf expected) (← nameOf actual)) span
  return none

/-- Checks two operands, first the one that knows its type, and tells it to the other. -/
def operands (l r : Expr) (left right : Part) (hint : Option Ty) :
    Check (Option Ty × Option Ty) := do
  if l.untyped && !r.untyped then
    let rt ← right hint
    let lt ← left (rt <|> hint)
    return (lt, rt)
  else
    let lt ← left hint
    let rt ← right (lt <|> hint)
    return (lt, rt)

/-- A name that is no variable in scope. -/
def packageReference (cx : Context) (info : Info) (path : List String) : Check (Option Ty) := do
  match (← get).globals.lookup cx.package path with
  | .ok (.package _) =>
    report (.name (.packageAsValue path)) info.span
    return none
  | .error reason =>
    report (.name (.lookup reason)) info.span
    return none
  | .ok (.symbol s) =>
    match s.kind with
    | .var type _ =>
      setBinding info.id (if s.foreign then .foreign s.name else .global s.package s.name)
      return some type
    | .function params result =>
      setBinding info.id (if s.foreign then .foreign s.name else .function s.package s.name)
      return some (.function params result)
    | .struct _ | .typedef _ =>
      report (.name (.typeAsValue path)) info.span
      return none

/-- Variables in scope come before what packages declare. -/
def reference (cx : Context) (info : Info) (path : List String) : Check (Option Ty) := do
  match (← get).local? path with
  | some l =>
    modify fun st => { st with locals := st.locals.use l.name }
    setBinding info.id .local
    return l.type
  | none => packageReference cx info path

/-- The type of an operation on operands of two types, if it has one. -/
def binaryResult (op : BinaryOp) (l r : Ty) : Check (Option Ty) := do
  match op with
  | .eq | .ne | .lt | .le | .gt | .ge =>
    if (← unify l r).isSome || (l.isPointer && r.isPointer) then return some .bool
    return none
  | .add =>
    if l.isPointer && r.isInteger then return some l
    if l.isInteger && r.isPointer then return some r
    if l.isNumeric && r.isNumeric then unify l r else return none
  | .sub =>
    if l.isPointer && r.isInteger then return some l
    if l.isPointer && r.isPointer then return some (.scalar .iptr)
    if l.isNumeric && r.isNumeric then unify l r else return none
  | .mul | .div => if l.isNumeric && r.isNumeric then unify l r else return none
  | .rem | .bitAnd | .bitOr | .bitXor =>
    if l.isInteger && r.isInteger then unify l r else return none
  | .shl | .shr => return if l.isInteger && r.isInteger then some l else none
  | .and | .or => return none

def binary (info : Info) (op : BinaryOp) (l r : Expr) (left right : Part)
    (expected : Option Ty) : Check (Option Ty) := do
  if op.isLogical then
    let lt ← expectValue left l.span .bool
    let rt ← expectValue right r.span .bool
    return if lt.isSome && rt.isSome then some .bool else none
  let hint := if op.isComparison then none else expected.filter (·.isNumeric)
  let (some lt, some rt) ← operands l r left right hint | return none
  let result ← binaryResult op lt rt
  if result.isNone then
    reportType (.operands op.symbol (← nameOf lt) (← nameOf rt)) info.span
  return result

/-- Checks the operand of a step up or down. -/
def step (cx : Context) (operand : Expr) (part : Part) : Check (Option Ty) := do
  let some t ← part none | return none
  if !t.isInteger && !t.isPointer then
    reportType (.notSteppable (← nameOf t)) operand.span
    return none
  if let some reason := (← get).placeProblem? cx operand then
    reportType (.immutable reason) operand.span
    return none
  return some t

def unary (cx : Context) (info : Info) (op : UnaryOp) (operand : Expr) (part : Part)
    (expected : Option Ty) : Check (Option Ty) := do
  match op with
  | .not => return (← expectValue part operand.span .bool).map fun _ => .bool
  | .neg | .bitNot =>
    let some t ← part (expected.filter (·.isNumeric)) | return none
    if if op = .neg then t.isNumeric else t.isInteger then return some t
    reportType (.operand op.symbol (← nameOf t)) info.span
    return none
  | .addrOf =>
    let some t ← part none | return none
    if !operand.isAddressable then
      reportType .temporaryAddress info.span
      return none
    if ((← get).placeProblem? cx operand).isSome then return some (.pointer t)
    return some (.mutPointer t)
  | .deref =>
    match ← part none with
    | some (.pointer t) | some (.mutPointer t) => return some t
    | some t =>
      reportType (.notDereferenceable (← nameOf t)) info.span
      return none
    | none => return none
  | .preInc | .preDec => step cx operand part

/-- The struct whose field is taken from a value of type `t`. -/
def fieldBase (info : Info) (t : Ty) (arrow : Bool) : Check (Option Ty) := do
  match t, arrow with
  | .pointer u, true | .mutPointer u, true => return some u
  | _, true =>
    reportType (.arrowWithoutPointer (← nameOf t)) info.span
    return none
  | .pointer _, false | .mutPointer _, false =>
    reportType .dotThroughPointer info.span
    return none
  | _, false => return some t

def field (info : Info) (name : String) (arrow : Bool) (target : Part) : Check (Option Ty) := do
  let some t ← target none | return none
  let some base ← fieldBase info t arrow | return none
  let some type := (← get).globals.structs.fieldType? base name
    | reportType (.noField (← nameOf base) name) info.span
      return none
  return some type

def index (target position : Expr) (targetPart positionPart : Part) : Check (Option Ty) := do
  let t ← targetPart none
  let at? ← positionPart none
  let (some t, some i) := (t, at?) | return none
  if !i.isInteger then
    reportType (.notAnIndex (← nameOf i)) position.span
    return none
  let some element := t.element?
    | reportType (.notIndexable (← nameOf t)) target.span
      return none
  return some element

def sizeofWritten (cx : Context) (info : Info) (type : TypeExpr) : Check (Option Ty) := do
  let some t ← survey (Survey.resolveType cx.package none type) | return none
  setWritten info.id t
  return some .size

def cast (cx : Context) (info : Info) (type : TypeExpr) (operand : Part) :
    Check (Option Ty) := do
  let target ← survey (Survey.resolveType cx.package none type)
  let source ← operand (target.filter (·.isNumeric))
  let (some target, some source) := (target, source) | return none
  if (← get).globals.structs.casts source target then return some target
  reportType (.cast (← nameOf source) (← nameOf target)) info.span
  return none

/-- A field of a struct initializer, after the fields in `seen`. -/
def initField (struct : Ty) (seen : List String) (name : String) (span valueSpan : Span)
    (value : Part) : Check Unit := do
  if seen.contains name then report (.name (.fieldInitializedTwice name)) span
  else
    match (← get).globals.structs.fieldType? struct name with
    | some type => let _ ← expectValue value valueSpan type
    | none =>
      reportType (.noField (← nameOf struct) name) span
      let _ ← value none

/-- The index of an element in an array initializer. -/
def initIndex (span : Span) (position : Part) : Check Unit := do
  if let some t ← position (some .size) then
    if !t.isInteger then reportType (.notAnIndex (← nameOf t)) span

mutual

/-- The type of an expression of which a type may be expected. -/
def expr (cx : Context) : Expr → Part
  | .literal info value, expected => typed info.id (return some (value.type expected))
  | .ref info path, _ => typed info.id (reference cx info path)
  | .binary info op l r, expected =>
    typed info.id (binary info op l r (expr cx l) (expr cx r) expected)
  | .unary info op operand, expected =>
    typed info.id (unary cx info op operand (expr cx operand) expected)
  | .step info _ operand, _ => typed info.id (step cx operand (expr cx operand))
  | .call info callee arguments, _ => typed info.id do
    match ← expr cx callee none with
    | some (.function params result) =>
      if arguments.length = params.length then
        passed cx arguments params
      else
        reportType (.argumentCount params.length arguments.length) info.span
        each cx arguments
      return some result
    | some t =>
      reportType (.notAFunction (← nameOf t)) callee.span
      each cx arguments
      return none
    | none =>
      each cx arguments
      return none
  | .field info target name arrow, _ => typed info.id (field info name arrow (expr cx target))
  | .index info target position, _ =>
    typed info.id (index target position (expr cx target) (expr cx position))
  | .structInit info fields, expected => typed info.id do
    match expected.filter (·.isStruct) with
    | some struct =>
      fieldInits cx struct [] fields
      return some struct
    | none =>
      fieldValues cx fields
      reportType .uninferredStruct info.span
      return none
  | .arrayInit info length elements, expected => typed info.id do
    match expected with
    | some (.array element declared) =>
      let written ← initLength cx length
      elementInits cx element elements
      return some (.array element (declared <|> written <|> some elements.length))
    | _ =>
      elementValues cx elements
      reportType .uninferredArray info.span
      return none
  | .sizeofType info type none, _ => typed info.id (sizeofWritten cx info type)
  | .sizeofType info type (some operand), _ => typed info.id do
    let isValue ←
      match type.valueName? with
      | some name => namesValue cx name
      | none => pure false
    if isValue then return (← expr cx operand none).map fun _ => .size
    else sizeofWritten cx info type
  | .sizeofExpr info operand, _ =>
    typed info.id (return (← expr cx operand none).map fun _ => .size)
  | .cast info type operand, _ => typed info.id (cast cx info type (expr cx operand))
  | .range info _ _ _, _ => do
    report (.usage .rangeValue) info.span
    return none
  | .template info _, _ => do
    report (.usage .templateValue) info.span
    return none
  | .tuple info _, _ => do
    report (.usage .tupleValue) info.span
    return none

def each (cx : Context) : List Expr → Check Unit
  | [] => return
  | e :: es => do
    let _ ← expr cx e none
    each cx es

/-- Checks arguments against the parameters they are passed for. -/
def passed (cx : Context) : List Expr → List Ty → Check Unit
  | e :: es, t :: ts => do
    let _ ← expectValue (expr cx e) e.span t
    passed cx es ts
  | _, _ => return

def fieldInits (cx : Context) (struct : Ty) (seen : List String) :
    List (FieldInit Expr) → Check Unit
  | [] => return
  | ⟨name, span, value⟩ :: inits => do
    initField struct seen name span value.span (expr cx value)
    fieldInits cx struct (name :: seen) inits

def fieldValues (cx : Context) : List (FieldInit Expr) → Check Unit
  | [] => return
  | ⟨_, _, value⟩ :: inits => do
    let _ ← expr cx value none
    fieldValues cx inits

/-- The length written in an array initializer, if it is a literal. -/
def initLength (cx : Context) : Option Expr → Check (Option Nat)
  | none => return none
  | some e => do
    let _ ← expectValue (expr cx e) e.span .size
    return e.intValue?

def elementInits (cx : Context) (element : Ty) : List (ArrayElement Expr) → Check Unit
  | [] => return
  | ⟨none, value⟩ :: elements => do
    let _ ← expectValue (expr cx value) value.span element
    elementInits cx element elements
  | ⟨some position, value⟩ :: elements => do
    initIndex position.span (expr cx position)
    let _ ← expectValue (expr cx value) value.span element
    elementInits cx element elements

def elementValues (cx : Context) : List (ArrayElement Expr) → Check Unit
  | [] => return
  | ⟨_, value⟩ :: elements => do
    let _ ← expr cx value none
    elementValues cx elements

end

def value (cx : Context) (e : Expr) (expected : Ty) : Check (Option Ty) :=
  expectValue (expr cx e) e.span expected

end Check
end Quill
