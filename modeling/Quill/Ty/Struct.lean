import Quill.Ty.Basic

/-!
# Structs and their instances

Struct declarations are numbered as they are met. Every use of a generic struct with a new list of
arguments gets the next version of that struct.
-/
namespace Quill

structure StructInfo where
  name : String
  package : PackageId
  /-- The declaring node, which owns the generic parameters. -/
  node : Nat
  generics : List String
  fields : List (String × Ty)
  deriving Repr

namespace StructInfo

def field? (info : StructInfo) (name : String) : Option Ty :=
  (info.fields.find? (·.1 == name)).map (·.2)

/-- Stands in for a struct that is not in the table. -/
def missing : StructInfo := ⟨"", 0, 0, [], []⟩

end StructInfo

structure StructTable where
  structs : Array StructInfo := #[]
  deriving Repr

namespace StructTable

def size (t : StructTable) : Nat := t.structs.size

def add (t : StructTable) (info : StructInfo) : StructId × StructTable :=
  (t.size, ⟨t.structs.push info⟩)

def get (t : StructTable) (id : StructId) : StructInfo := t.structs[id]?.getD .missing

def setFields (t : StructTable) (id : StructId) (fields : List (String × Ty)) : StructTable :=
  ⟨t.structs.modify id fun info => { info with fields }⟩

/-- The type of a field of a struct, with the arguments of an instance in place. -/
def fieldType? (t : StructTable) (type : Ty) (field : String) : Option Ty :=
  match type with
  | .struct id => (t.get id).field? field
  | .instance id arguments _ =>
    ((t.get id).field? field).map (·.substitute (t.get id).node arguments)
  | _ => none

end StructTable

/-- One use of a generic struct. The weight of the arguments is kept to tell most instances apart
without comparing them. -/
structure Instance where
  decl : StructId
  arguments : List Ty
  version : Nat
  weight : Nat := Ty.weightAll arguments
  weight_eq : weight = Ty.weightAll arguments := by rfl
  deriving DecidableEq, Repr

structure Instances where
  list : Array Instance := #[]
  deriving Repr

namespace Instances

def size (is : Instances) : Nat := is.list.size

def find? (is : Instances) (decl : StructId) (arguments : List Ty) : Option Instance :=
  let weight := Ty.weightAll arguments
  is.list.find? fun i =>
    i.decl == decl && i.weight == weight && Ty.beqAll i.arguments arguments

/-- The version of `decl` with these arguments, the next free one on first use. -/
def instantiate (is : Instances) (decl : StructId) (arguments : List Ty) : Nat × Instances :=
  match is.find? decl arguments with
  | some i => (i.version, is)
  | none =>
    let version := (is.list.filter (·.decl == decl)).size
    (version, ⟨is.list.push { decl, arguments, version }⟩)

def get? (is : Instances) (decl : StructId) (version : Nat) : Option Instance :=
  is.list.find? fun i => i.decl == decl && i.version == version

end Instances

namespace StructTable

mutual

def nameOf (t : StructTable) : Ty → String
  | .void => "void"
  | .scalar s => s.name
  | .pointer u => t.nameOf u ++ "*"
  | .mutPointer u => t.nameOf u ++ " mut*"
  | .array u (some n) => t.nameOf u ++ "[" ++ toString n ++ "]"
  | .array u none => t.nameOf u ++ "[]"
  | .function ps r => t.nameOf r ++ "(" ++ ", ".intercalate (t.namesOf ps) ++ ")"
  | .struct id => (t.get id).name
  | .instance id as _ => (t.get id).name ++ "<" ++ ", ".intercalate (t.namesOf as) ++ ">"
  | .generic name _ _ | .abstract name _ _ => name
  | .package id => "<package #" ++ toString id ++ ">"

def namesOf (t : StructTable) : List Ty → List String
  | [] => []
  | u :: us => t.nameOf u :: t.namesOf us

end

end StructTable
end Quill
