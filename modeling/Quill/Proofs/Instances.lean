import Mathlib.Logic.Relation
import Quill.Ty.Struct

/-!
# Versions of generic structs

A version once given out stays, and no other arguments of the same struct get it. Arguments count as
the same only with all the versions that are noted inside them.
-/
namespace Quill

open Array

open Relation (ReflTransGen)

namespace Instances

variable {is is' : Instances} {arguments : List Ty} {v : Nat} {decl : StructId}

/-- The version given out for a struct with these arguments. -/
def version? (is : Instances) (decl : StructId) (arguments : List Ty) : Option Nat :=
  (is.find? decl arguments).map (·.version)

theorem find?_eq (is : Instances) (decl : StructId) (arguments : List Ty) :
    is.find? decl arguments = is.list.find? fun i => i.decl = decl ∧ i.arguments = arguments := by
  unfold find?
  dsimp only
  congr 1
  funext i
  rw [Bool.eq_iff_iff, decide_eq_true_iff]
  constructor
  · intro h
    simp only [Bool.and_eq_true, beq_iff_eq] at h
    exact ⟨h.1.1, Ty.eq_of_beqAll h.2⟩
  · rintro ⟨rfl, rfl⟩
    simp [i.weight_eq, Ty.beqAll_self]

theorem exists_of_version? (h : is.version? decl arguments = some v) :
    ∃ i ∈ is.list, i.decl = decl ∧ i.arguments = arguments ∧ i.version = v := by
  obtain ⟨i, hi, hv⟩ := Option.map_eq_some_iff.mp h
  rw [find?_eq] at hi
  have hmatch := find?_some hi
  rw [decide_eq_true_eq] at hmatch
  exact ⟨i, mem_of_find?_eq_some hi, hmatch.1, hmatch.2, hv⟩

theorem instantiate_of_version? (h : is.version? decl arguments = some v) :
    is.instantiate decl arguments = (v, is) := by
  obtain ⟨i, hi, rfl⟩ := Option.map_eq_some_iff.mp h
  rw [instantiate, hi]

theorem instantiate_of_none (h : is.version? decl arguments = none) :
    is.instantiate decl arguments =
      ((is.list.filter (·.decl == decl)).size,
        ⟨is.list.push { decl, arguments, version := (is.list.filter (·.decl == decl)).size }⟩) := by
  rw [instantiate, Option.map_eq_none_iff.mp h]

theorem version?_instantiate (is : Instances) (decl other : StructId) (arguments bs : List Ty) :
    (is.instantiate decl arguments).2.version? other bs =
      if other = decl ∧ bs = arguments then some (is.instantiate decl arguments).1
      else is.version? other bs := by
  cases hv : is.version? decl arguments with
  | some v =>
    rw [instantiate_of_version? hv]
    split
    · rename_i h
      rw [h.1, h.2, hv]
    · rfl
  | none =>
    rw [instantiate_of_none hv]
    rw [version?, find?_eq] at hv
    simp only [version?, find?_eq, find?_push, decide_eq_true_eq, eq_comm (a := decl),
      eq_comm (a := arguments)]
    split
    · rename_i h
      rw [h.1, h.2, Option.map_eq_none_iff.mp hv]
      rfl
    · rw [Option.or_none]

/-- The versions of a struct are numbered, and none is given to two lists of arguments. -/
structure Regular (is : Instances) : Prop where
  below : ∀ i ∈ is.list, i.version < (is.list.filter (·.decl == i.decl)).size
  apart : ∀ i ∈ is.list, ∀ j ∈ is.list, i.decl = j.decl → i.version = j.version →
    i.arguments = j.arguments

theorem Regular.empty : Regular {} := ⟨nofun, nofun⟩

theorem Regular.instantiate (h : is.Regular) (decl : StructId) (arguments : List Ty) :
    (is.instantiate decl arguments).2.Regular := by
  cases hv : is.version? decl arguments with
  | some v => rwa [instantiate_of_version? hv]
  | none =>
    rw [instantiate_of_none hv]
    refine ⟨fun i hi => ?_, fun i hi j hj hdecl hversion => ?_⟩
    · rw [filter_push]
      rcases mem_push.mp hi with hi | rfl
      · have hbelow := h.below i hi
        split
        · rw [size_push]
          omega
        · exact hbelow
      · simp
    · rcases mem_push.mp hi with hi | rfl <;> rcases mem_push.mp hj with hj | rfl
      · exact h.apart i hi j hj hdecl hversion
      · have hbelow := h.below i hi
        rw [hdecl] at hbelow
        exact absurd hversion (Nat.ne_of_lt hbelow)
      · have hbelow := h.below j hj
        rw [← hdecl] at hbelow
        exact absurd hversion.symm (Nat.ne_of_lt hbelow)
      · rfl

theorem Regular.arguments_eq (h : is.Regular) {as bs : List Ty} (ha : is.version? decl as = some v)
    (hb : is.version? decl bs = some v) : as = bs := by
  obtain ⟨i, hi, hidecl, rfl, hiv⟩ := exists_of_version? ha
  obtain ⟨j, hj, hjdecl, rfl, hjv⟩ := exists_of_version? hb
  exact h.apart i hi j hj (hidecl.trans hjdecl.symm) (hiv.trans hjv.symm)

/-- The second is what the first becomes as versions are given out. -/
abbrev Leads : Instances → Instances → Prop :=
  ReflTransGen fun is is' => ∃ decl arguments, is' = (is.instantiate decl arguments).2

theorem Leads.single (is : Instances) (decl : StructId) (arguments : List Ty) :
    is.Leads (is.instantiate decl arguments).2 := ReflTransGen.single ⟨decl, arguments, rfl⟩

theorem Leads.regular (h : is.Leads is') (hr : is.Regular) : is'.Regular := by
  induction h with
  | refl => exact hr
  | tail _ hs ih =>
    obtain ⟨decl, arguments, rfl⟩ := hs
    exact ih.instantiate decl arguments

theorem Leads.version? (h : is.Leads is') (hv : is.version? decl arguments = some v) :
    is'.version? decl arguments = some v := by
  induction h with
  | refl => exact hv
  | tail _ hs ih =>
    obtain ⟨decl', arguments', rfl⟩ := hs
    rw [version?_instantiate]
    split
    · rename_i heq
      rw [← heq.1, ← heq.2, instantiate_of_version? ih]
    · exact ih

theorem version?_instantiate_self (is : Instances) (decl : StructId) (arguments : List Ty) :
    (is.instantiate decl arguments).2.version? decl arguments =
      some (is.instantiate decl arguments).1 := by
  rw [version?_instantiate, if_pos ⟨rfl, rfl⟩]

theorem instantiate_eq_iff (hr : is.Regular) {as : List Ty}
    (h : (is.instantiate decl as).2.Leads is') (bs : List Ty) :
    (is.instantiate decl as).1 = (is'.instantiate decl bs).1 ↔ as = bs := by
  have ha : is'.version? decl as = some (is.instantiate decl as).1 :=
    h.version? (version?_instantiate_self is decl as)
  constructor
  · intro heq
    have hr' : (is'.instantiate decl bs).2.Regular :=
      (h.regular (hr.instantiate decl as)).instantiate decl bs
    refine hr'.arguments_eq ((Leads.single is' decl bs).version? ha) ?_
    rw [heq]
    exact version?_instantiate_self is' decl bs
  · rintro rfl
    rw [instantiate_of_version? ha]

end Instances
end Quill
