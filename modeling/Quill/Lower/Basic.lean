import Quill.C.Basic
import Quill.Typing.Facts

/-!
# Types in C

Lowering turns checked packages into C. It starts with the instances of generic structs that
typing gave out, and gives out more where fields of instances need them.
-/
namespace Quill

structure Lowering where
  instances : Instances
  problems : List Diagnostic := []
  deriving Repr

/-- What lowering reads: the packages and all that is known about them. -/
structure Checked where
  table : PackageTable
  resolution : Resolution
  deriving Repr

abbrev Lower := StateM Lowering

namespace Checked

def structs (cx : Checked) : StructTable := cx.resolution.globals.structs

def mangle (cx : Checked) (package : PackageId) (name : String) : String :=
  (cx.table.pathOf package).mangle name

end Checked

namespace Lower

def report (problem : LoweringProblem) (span : Span) : Lower Unit :=
  modify fun st => { st with problems := st.problems ++ [⟨.lowering problem, span⟩] }

def instanceName (cx : Checked) (decl : StructId) (arguments : List Ty) : Lower String := do
  let st ← get
  let (version, instances) := st.instances.instantiate decl arguments
  set { st with instances }
  let info := cx.structs.get decl
  return cx.mangle info.package info.name ++ "__" ++ toString version

def cType? (cx : Checked) : Ty → Lower (Option CType)
  | .void => return some { name := "void" }
  | .scalar s => return some { name := s.cName }
  | .pointer t | .mutPointer t => do
    let some inner ← cType? cx t | return none
    if inner.isArray then return none
    return some { inner with stars := inner.stars + 1 }
  | .array t length => do
    let some inner ← cType? cx t | return none
    return some { inner with dims := length :: inner.dims }
  | .struct decl =>
    let info := cx.structs.get decl
    return if info.generics.isEmpty then some { name := cx.mangle info.package info.name }
      else none
  | .instance decl arguments _ => do
    if Ty.anyGenerics arguments then return none
    return some { name := ← instanceName cx decl arguments }
  | .abstract name package native =>
    return some { name := if native then name else cx.mangle package name }
  | .generic _ _ _ | .function _ _ | .package _ => return none

/-- The C type for a type; one that C cannot spell is reported. -/
def cType (cx : Checked) (t : Ty) (span : Span) : Lower CType := do
  let some c ← cType? cx t
    | report (.noSpelling (cx.resolution.typeName t)) span
      return { name := "int" }
  return c

def typeOf (cx : Checked) (info : Info) : Lower CType := do
  match cx.resolution.typeOf? info.id with
  | some t => cType cx t info.span
  | none =>
    report .untyped info.span
    return { name := "int" }

end Lower
end Quill
