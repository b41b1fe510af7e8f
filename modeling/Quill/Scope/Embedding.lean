import Quill.Ty.Struct

/-!
# Structs inside structs

A struct embeds another one if a value of it stores a value of the other inline: as a field, in an
array, or through a further struct.
-/
namespace Quill

/-- The struct that a value of this type stores inline, with its arguments. -/
def Ty.stored? : Ty → Option (StructId × List Ty)
  | .array element _ => element.stored?
  | .struct decl => some (decl, [])
  | .instance decl arguments _ => some (decl, arguments)
  | _ => none

namespace StructTable

/-- The fields of a struct with arguments in place of its parameters. -/
def fieldsWith (t : StructTable) (decl : StructId) (arguments : List Ty) : List (String × Ty) :=
  (t.get decl).fields.map fun (name, type) => (name, type.substitute (t.get decl).node arguments)

/-- Whether a value of the type stores one of struct `target` inline. Only the structs in `unopened`
are looked into: one that is met again on the way lies on a cycle of its own. -/
def embeds (t : StructTable) (target : StructId) (unopened : List StructId) (type : Ty) : Bool :=
  match type.stored? with
  | none => false
  | some (decl, arguments) =>
    if decl = target then true
    else if decl ∈ unopened then
      (t.fieldsWith decl arguments).any fun (_, field) =>
        t.embeds target (unopened.erase decl) field
    else false
termination_by unopened.length
decreasing_by
  rename_i h
  have := List.length_erase_of_mem h
  have := List.length_pos_of_mem h
  omega

end StructTable
end Quill
