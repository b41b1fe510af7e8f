import Quill.Ty.Struct

/-!
# Well-formed types

A struct without parameters is used as it is declared, one with parameters only with an argument for
each of them. A closed type is well formed and holds no parameter.
-/
namespace Quill.Ty

open List

mutual

/-- Every struct in the type is in the table and is used with as many arguments as it has
parameters. -/
def Formed (structs : StructTable) : Ty → Prop
  | pointer t | mutPointer t | array t _ => t.Formed structs
  | function ps r => AllFormed structs ps ∧ r.Formed structs
  | struct id => id < structs.size ∧ (structs.get id).generics = []
  | .instance id as _ => id < structs.size ∧ (structs.get id).generics ≠ [] ∧
      as.length = (structs.get id).generics.length ∧ AllFormed structs as
  | void | scalar _ | generic _ _ _ | abstract _ _ _ | package _ => True

def AllFormed (structs : StructTable) : List Ty → Prop
  | [] => True
  | t :: ts => t.Formed structs ∧ AllFormed structs ts

end

variable {structs : StructTable}

theorem Formed.plain {id : StructId} (h : (struct id).Formed structs) :
    (structs.get id).generics = [] := h.2

theorem Formed.generic {id : StructId} {as : List Ty} {v : Nat}
    (h : (Ty.instance id as v).Formed structs) : (structs.get id).generics ≠ [] := h.2.1

theorem Formed.apart {i j : StructId} {as : List Ty} {v : Nat} (hi : (struct i).Formed structs)
    (hj : (Ty.instance j as v).Formed structs) :
    (structs.get i).generics ≠ (structs.get j).generics := fun h =>
  hj.generic (h.symm.trans hi.plain)

theorem Formed.arguments {id : StructId} {as : List Ty} {v : Nat}
    (h : (Ty.instance id as v).Formed structs) : AllFormed structs as := h.2.2.2

theorem allFormed_iff {ts : List Ty} : AllFormed structs ts ↔ ∀ t ∈ ts, t.Formed structs := by
  induction ts with
  | nil => exact ⟨fun _ _ h => absurd h not_mem_nil, fun _ => trivial⟩
  | cons t ts ih => rw [AllFormed, ih, forall_mem_cons]

theorem anyGenerics_eq_false_iff {ts : List Ty} :
    anyGenerics ts = false ↔ ∀ t ∈ ts, t.hasGenerics = false := by
  induction ts with
  | nil => simp [anyGenerics]
  | cons t ts ih => rw [anyGenerics, Bool.or_eq_false_iff, ih, forall_mem_cons]

theorem substituteAll_eq_map (owner : Nat) (arguments ts : List Ty) :
    substituteAll owner arguments ts = ts.map (substitute owner arguments) := by
  induction ts with
  | nil => rfl
  | cons t ts ih => rw [substituteAll, ih, map_cons]

mutual

/-- Every parameter in the type is one of the `count` that `owner` declares. -/
def Within (owner count : Nat) : Ty → Prop
  | generic _ index o => o = owner ∧ index < count
  | pointer t | mutPointer t | array t _ => t.Within owner count
  | function ps r => AllWithin owner count ps ∧ r.Within owner count
  | .instance _ as _ => AllWithin owner count as
  | void | scalar _ | struct _ | abstract _ _ _ | package _ => True

def AllWithin (owner count : Nat) : List Ty → Prop
  | [] => True
  | t :: ts => t.Within owner count ∧ AllWithin owner count ts

end

theorem allWithin_iff {owner count : Nat} {ts : List Ty} :
    AllWithin owner count ts ↔ ∀ t ∈ ts, t.Within owner count := by
  induction ts with
  | nil => exact ⟨fun _ _ h => absurd h not_mem_nil, fun _ => trivial⟩
  | cons t ts ih => rw [AllWithin, ih, forall_mem_cons]

mutual

theorem within_of_hasGenerics {owner count : Nat} {t : Ty} (h : t.hasGenerics = false) :
    t.Within owner count := by
  match t with
  | void | scalar _ | struct _ | abstract _ _ _ | package _ => trivial
  | pointer t | mutPointer t | array t _ => exact within_of_hasGenerics (t := t) h
  | function ps r =>
    rw [hasGenerics, Bool.or_eq_false_iff] at h
    exact ⟨allWithin_of_anyGenerics h.1, within_of_hasGenerics h.2⟩
  | .instance _ as _ => exact allWithin_of_anyGenerics (l := as) h

theorem allWithin_of_anyGenerics {owner count : Nat} {l : List Ty} (h : anyGenerics l = false) :
    AllWithin owner count l := by
  match l with
  | [] => trivial
  | t :: l =>
    rw [anyGenerics, Bool.or_eq_false_iff] at h
    exact ⟨within_of_hasGenerics h.1, allWithin_of_anyGenerics h.2⟩

end

mutual

theorem Within.hasGenerics {owner : Nat} {t : Ty} (h : t.Within owner 0) :
    t.hasGenerics = false := by
  match t with
  | void | scalar _ | struct _ | abstract _ _ _ | package _ => rfl
  | pointer t | mutPointer t | array t _ => exact Within.hasGenerics (t := t) h
  | function ps r => exact Bool.or_eq_false_iff.mpr ⟨AllWithin.anyGenerics h.1, h.2.hasGenerics⟩
  | .instance _ as _ => exact AllWithin.anyGenerics (l := as) h
  | .generic _ _ _ => exact absurd h.2 (Nat.not_lt_zero _)

theorem AllWithin.anyGenerics {owner : Nat} {l : List Ty} (h : AllWithin owner 0 l) :
    anyGenerics l = false := by
  match l with
  | [] => rfl
  | t :: l => exact Bool.or_eq_false_iff.mpr ⟨h.1.hasGenerics, AllWithin.anyGenerics h.2⟩

end

mutual

theorem Formed.substitute {owner : Nat} {arguments : List Ty} (ha : AllFormed structs arguments)
    {t : Ty} (h : t.Formed structs) : (t.substitute owner arguments).Formed structs := by
  match t with
  | void | scalar _ | abstract _ _ _ | package _ => trivial
  | struct _ => exact h
  | pointer t | mutPointer t | array t _ => exact .substitute ha (t := t) h
  | function ps r => exact ⟨.substitute ha h.1, .substitute ha h.2⟩
  | .instance _ as _ =>
    refine ⟨h.1, h.2.1, ?_, .substitute ha h.2.2.2⟩
    rw [substituteAll_eq_map, length_map]
    exact h.2.2.1
  | .generic name index o =>
    rw [Ty.substitute]
    split
    · cases ht : arguments[index]? with
      | none => trivial
      | some a => exact allFormed_iff.mp ha a (mem_of_getElem? ht)
    · trivial

theorem AllFormed.substitute {owner : Nat} {arguments : List Ty}
    (ha : AllFormed structs arguments) {ts : List Ty} (h : AllFormed structs ts) :
    AllFormed structs (substituteAll owner arguments ts) := by
  match ts with
  | [] => trivial
  | t :: ts => exact ⟨.substitute ha h.1, .substitute ha h.2⟩

end

section

variable {owner other count : Nat} {arguments : List Ty}
  (ha : ∀ a ∈ arguments, a.Within other count)

include ha

mutual

/-- Types within some parameters put in place of all others leave only those. -/
theorem Within.through {t : Ty} (h : t.Within owner arguments.length) :
    (t.substitute owner arguments).Within other count := by
  match t with
  | void | scalar _ | struct _ | abstract _ _ _ | package _ => trivial
  | pointer t | mutPointer t | array t _ => exact .through (t := t) h
  | function ps r => exact ⟨.through h.1, .through h.2⟩
  | .instance _ as _ => exact AllWithin.through (l := as) h
  | .generic name index o =>
    obtain ⟨rfl, hindex⟩ := h
    rw [Ty.substitute, if_pos rfl, getElem?_eq_getElem hindex]
    exact ha _ (getElem_mem hindex)

theorem AllWithin.through {l : List Ty} (h : AllWithin owner arguments.length l) :
    AllWithin other count (substituteAll owner arguments l) := by
  match l with
  | [] => trivial
  | t :: l => exact ⟨.through h.1, .through h.2⟩

end

end

theorem Within.substitute {owner : Nat} {arguments : List Ty}
    (ha : ∀ a ∈ arguments, a.hasGenerics = false) {t : Ty} (h : t.Within owner arguments.length) :
    (t.substitute owner arguments).hasGenerics = false := by
  have closed : (t.substitute owner arguments).Within 0 0 :=
    h.through fun a hmem => within_of_hasGenerics (ha a hmem)
  exact closed.hasGenerics

mutual

/-- Putting types in place of all parameters and others in those is the same as doing so at once. -/
theorem substitute_substitute {owner other : Nat} {as bs : List Ty} {t : Ty}
    (h : t.Within owner as.length) :
    (t.substitute owner as).substitute other bs =
      t.substitute owner (substituteAll other bs as) := by
  match t with
  | void | scalar _ | struct _ | abstract _ _ _ | package _ => rfl
  | pointer t => exact congrArg pointer (substitute_substitute (t := t) h)
  | mutPointer t => exact congrArg mutPointer (substitute_substitute (t := t) h)
  | array t n => exact congrArg (array · n) (substitute_substitute (t := t) h)
  | function ps r =>
    rw [Ty.substitute, Ty.substitute, Ty.substitute, substituteAll_substituteAll h.1,
      substitute_substitute h.2]
  | .instance id args v =>
    exact congrArg (Ty.instance id · v) (substituteAll_substituteAll (l := args) h)
  | .generic name index o =>
    obtain ⟨rfl, hindex⟩ := h
    rw [Ty.substitute, Ty.substitute, if_pos rfl, if_pos rfl, substituteAll_eq_map,
      getElem?_map, getElem?_eq_getElem hindex]
    rfl

theorem substituteAll_substituteAll {owner other : Nat} {as bs l : List Ty}
    (h : AllWithin owner as.length l) :
    substituteAll other bs (substituteAll owner as l) =
      substituteAll owner (substituteAll other bs as) l := by
  match l with
  | [] => rfl
  | t :: l =>
    rw [substituteAll, substituteAll, substituteAll, substitute_substitute h.1,
      substituteAll_substituteAll h.2]

end

def Closed (structs : StructTable) (t : Ty) : Prop :=
  t.hasGenerics = false ∧ t.Formed structs

theorem closed_function {ps : List Ty} {r : Ty} :
    (function ps r).Closed structs ↔ (∀ p ∈ ps, p.Closed structs) ∧ r.Closed structs := by
  simp only [Closed, hasGenerics, Formed, Bool.or_eq_false_iff, anyGenerics_eq_false_iff,
    allFormed_iff]
  exact ⟨fun h => ⟨fun p hp => ⟨h.1.1 p hp, h.2.1 p hp⟩, h.1.2, h.2.2⟩,
    fun h => ⟨⟨fun p hp => (h.1 p hp).1, h.2.1⟩, fun p hp => (h.1 p hp).2, h.2.2⟩⟩

theorem Closed.arguments {id : StructId} {as : List Ty} {v : Nat}
    (h : (Ty.instance id as v).Closed structs) : ∀ a ∈ as, a.Closed structs := fun a ha =>
  ⟨anyGenerics_eq_false_iff.mp h.1 a ha, allFormed_iff.mp h.2.arguments a ha⟩

theorem Closed.substitute {owner : Nat} {arguments : List Ty}
    (ha : ∀ a ∈ arguments, a.Closed structs) {t : Ty} (hw : t.Within owner arguments.length)
    (h : t.Formed structs) : (t.substitute owner arguments).Closed structs :=
  ⟨Within.substitute (fun a hmem => (ha a hmem).1) hw,
    .substitute (allFormed_iff.mpr fun a hmem => (ha a hmem).2) h⟩

end Quill.Ty

namespace Quill

/-- The second table has all structs of the first, each with the same parameters. -/
structure StructTable.Grows (t t' : StructTable) : Prop where
  size : t.size ≤ t'.size
  package : ∀ id < t.size, (t'.get id).package = (t.get id).package
  node : ∀ id < t.size, (t'.get id).node = (t.get id).node
  generics : ∀ id < t.size, (t'.get id).generics = (t.get id).generics

namespace Ty

variable {structs structs' : StructTable}

mutual

theorem Formed.grow (h : structs.Grows structs') {t : Ty} (ht : t.Formed structs) :
    t.Formed structs' := by
  match t with
  | void | scalar _ | abstract _ _ _ | package _ | .generic _ _ _ => trivial
  | pointer t | mutPointer t | array t _ => exact .grow h (t := t) ht
  | function ps r => exact ⟨.grow h ht.1, .grow h ht.2⟩
  | struct id => exact ⟨Nat.lt_of_lt_of_le ht.1 h.size, (h.generics id ht.1).trans ht.2⟩
  | .instance id as _ =>
    rw [Formed, h.generics id ht.1]
    exact ⟨Nat.lt_of_lt_of_le ht.1 h.size, ht.2.1, ht.2.2.1, .grow h ht.2.2.2⟩

theorem AllFormed.grow (h : structs.Grows structs') {ts : List Ty} (hts : AllFormed structs ts) :
    AllFormed structs' ts := by
  match ts with
  | [] => trivial
  | t :: ts => exact ⟨.grow h hts.1, .grow h hts.2⟩

end

theorem Closed.grow (h : structs.Grows structs') {t : Ty} (ht : t.Closed structs) :
    t.Closed structs' := ⟨ht.1, ht.2.grow h⟩

end Ty
end Quill
