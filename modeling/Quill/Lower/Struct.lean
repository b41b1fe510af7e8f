import Quill.C.Name
import Quill.Graph
import Quill.Lower.Basic
import Quill.Scope.Embedding

/-!
# Structs in C

A package defines the structs it declares and all instances of generic structs that it uses, itself
or through fields. Every struct is announced before the first is defined, and defined behind the
structs it stores inline.
-/
namespace Quill.Lower

/-- A struct waiting to be defined. -/
structure Definition where
  name : String
  fields : List (String × Ty)
  isInstance : Bool
  span : Span
  deriving Repr

mutual

/-- The instances of generic structs that a type mentions, inner ones first. -/
def mentioned : Ty → List (StructId × List Ty)
  | .instance decl arguments _ =>
    if Ty.anyGenerics arguments then [] else mentionedIn arguments ++ [(decl, arguments)]
  | .pointer t | .mutPointer t | .array t _ => mentioned t
  | _ => []

def mentionedIn : List Ty → List (StructId × List Ty)
  | [] => []
  | t :: ts => mentioned t ++ mentionedIn ts

end

def mentionedInFields (fields : List (String × Ty)) : List (StructId × List Ty) :=
  fields.flatMap fun (_, type) => mentioned type

/-- The number of definitions in a package that further instances are looked for with. Structs that
mention ever larger instances of themselves go beyond it. -/
def maxDefinitions : Nat := 1024

/-- The name and the fields of the first instance in the queue that is not defined, and the rest of
the queue. -/
def nextInstance (cx : Checked) (defs : List Definition) : List (StructId × List Ty) →
    Lower (Option (String × List (String × Ty) × List (StructId × List Ty)))
  | [] => return none
  | (decl, arguments) :: rest => do
    let name ← instanceName cx decl arguments
    if defs.any (·.name == name) then nextInstance cx defs rest
    else return some (name, cx.structs.fieldsWith decl arguments, rest)

/-- Adds the instances waiting to be defined and those that their fields mention, up to `budget` of
them. -/
def withInstances (cx : Checked) (span : Span) : (budget : Nat) → (defs : List Definition) →
    (pending : List (StructId × List Ty)) → Lower (Option (List Definition))
  | _, defs, [] => return some defs
  | 0, _, _ :: _ => do
    report .endlessInstances span
    return none
  | budget + 1, defs, waiting :: pending => do
    let some (name, fields, rest) ← nextInstance cx defs (waiting :: pending)
      | return some defs
    withInstances cx span budget (defs ++ [{ name, fields, isInstance := true, span }])
      (rest ++ mentionedInFields fields)

def declaredStructs (cx : Checked) (package : PackageId) (file : File) : List Definition :=
  file.decls.filterMap fun
    | .struct info _ =>
      match cx.resolution.typeOf? info.id with
      | some (.struct id) =>
        let decl := cx.structs.get id
        if decl.generics.isEmpty then
          some { name := cx.mangle package decl.name, fields := decl.fields
                 isInstance := false, span := info.span }
        else none
      | _ => none
    | _ => none

def declaredAbstract (cx : Checked) (file : File) : List CItem :=
  file.decls.filterMap fun
    | .typedef info _ _ =>
      match cx.resolution.typeOf? info.id with
      | some (.abstract name owner false) => some (.forward (cx.mangle owner name))
      | _ => none
    | _ => none

def usedInstances (cx : Checked) (package : PackageId) : List (StructId × List Ty) :=
  (cx.resolution.globals.scope package).instances.filterMap fun (decl, version) =>
    (cx.resolution.globals.instances.get? decl version).map fun i => (i.decl, i.arguments)

/-- The C name of the struct that a field of this type stores inline. -/
def storedName (cx : Checked) (t : Ty) : Lower (Option String) := do
  match t.stored? with
  | none => return none
  | some _ => return (← cType? cx t).map (·.name)

/-- The fields of a definition in C, and the places of the definitions they store inline. -/
def definitionFields (cx : Checked) (defs : List Definition) (span : Span) :
    List (String × Ty) → Lower (List (CType × String) × List Nat)
  | [] => return ([], [])
  | (name, type) :: fields => do
    let c ← cType cx type span
    let needed := (← storedName cx type).bind fun stored => defs.findIdx? (·.name == stored)
    let (more, moreNeeded) ← definitionFields cx defs span fields
    return ((c, cIdent name) :: more, needed.toList ++ moreNeeded)

/-- An item that several files may hold and only the first to be read counts. -/
def guarded (guard : String) (item : CItem) : List CItem :=
  [.ifNotDefined guard, .define guard, item, .endIf]

def Definition.announce (d : Definition) : List CItem :=
  if d.isInstance then guarded ("QL_FORWARD_" ++ d.name) (.forward d.name)
  else [.forward d.name]

def Definition.define (d : Definition) (fields : List (CType × String)) : List CItem :=
  let item := .struct d.name fields
  if d.isInstance then guarded ("QL_INSTANCE_" ++ d.name) item else [item]

def types (cx : Checked) (package : PackageId) (file : File) : Lower (List CItem) := do
  let unknown := declaredAbstract cx file
  let declared := declaredStructs cx package file
  let pending := declared.flatMap (mentionedInFields ·.fields) ++ usedInstances cx package
  let budget := maxDefinitions + 1 - declared.length
  let some defs ← withInstances cx file.info.span budget declared pending | return unknown
  let lowered ← defs.mapM fun d => definitionFields cx defs d.span d.fields
  let graph : Graph := ⟨(lowered.map (·.2)).toArray⟩
  match graph.order (List.range defs.length) with
  | .error cycle =>
    if let some d := cycle.head?.bind (defs[·]?) then report (.storedInItself d.name) d.span
    return unknown
  | .ok order =>
    let defined := order.flatMap fun i =>
      match defs[i]?, lowered[i]? with
      | some d, some (fields, _) => d.define fields
      | _, _ => []
    return unknown ++ defs.flatMap (·.announce) ++ defined

end Quill.Lower
