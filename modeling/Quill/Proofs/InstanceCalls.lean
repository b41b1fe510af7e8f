import Mathlib.Data.List.Basic
import Mathlib.Data.List.Induction
import Mathlib.Data.List.Nodup
import Quill.Proofs.Instances

/-!
# Versions in order of first use

The versions of a struct number the lists of arguments that it was called with, in the order in
which they came up.
-/
namespace Quill.Instances

open List

/-- A request for an instance: a struct and its arguments. -/
abbrev Call := StructId × List Ty

/-- The versions given out for calls one after the other, and the instances after them. -/
def serve (is : Instances) : List Call → List Nat × Instances
  | [] => ([], is)
  | (decl, arguments) :: calls =>
    let (version, is) := is.instantiate decl arguments
    let (versions, is) := is.serve calls
    (version :: versions, is)

/-- Calls from the start, each with the version it gets. -/
def answers (calls : List Call) : List (Call × Nat) := calls.zip (serve {} calls).1

/-- The lists of arguments in the calls for a struct, each where it comes up first. -/
def uses (decl : StructId) (calls : List Call) : List (List Ty) :=
  ((calls.filter (·.1 == decl)).map (·.2)).eraseDups

/-- The instances of a struct with these lists of arguments, numbered in their order. -/
def numbered (decl : StructId) (uses : List (List Ty)) : List Instance :=
  uses.mapIdx fun version arguments =>
    let weight := Ty.weightAll arguments
    { decl, arguments, version, weight, weight_eq := rfl }

/-- The instances of each struct are the uses of it in the calls. -/
def Records (is : Instances) (calls : List Call) : Prop :=
  ∀ decl, is.list.toList.filter (·.decl == decl) = numbered decl (uses decl calls)

variable {calls : List Call} {arguments : List Ty} {decl : StructId}

theorem mem_uses : arguments ∈ uses decl calls ↔ (decl, arguments) ∈ calls := by
  simp [uses]

theorem uses_prefix (decl : StructId) (calls more : List Call) :
    uses decl calls <+: uses decl (calls ++ more) := by
  rw [uses, uses, filter_append, map_append, eraseDups_append]
  exact prefix_append _ _

theorem uses_concat (decl other : StructId) (calls : List Call) (arguments : List Ty) :
    uses other (calls ++ [(decl, arguments)]) =
      if decl = other ∧ arguments ∉ uses other calls then uses other calls ++ [arguments]
      else uses other calls := by
  simp only [mem_uses]
  rw [uses, uses, filter_append, map_append, eraseDups_append]
  by_cases hdecl : decl = other
  · subst hdecl
    by_cases hmem : (decl, arguments) ∈ calls <;>
      simp [hmem, cons_removeAll, eraseDups_cons]
  · simp [hdecl]

theorem uses_nodup (decl : StructId) (calls : List Call) : (uses decl calls).Nodup := by
  induction calls using List.reverseRecOn with
  | nil => exact .nil
  | append_singleton calls call ih =>
    obtain ⟨other, arguments⟩ := call
    rw [uses_concat]
    split
    · rename_i hnew
      exact concat_eq_append ▸ ih.concat hnew.2
    · exact ih

theorem uses_filter (decl : StructId) (calls : List Call) :
    uses decl (calls.filter (·.1 == decl)) = uses decl calls := by
  rw [uses, filter_filter, uses]
  simp

theorem getElem?_numbered (decl : StructId) (uses : List (List Ty)) (version : Nat) :
    (numbered decl uses)[version]? =
      uses[version]?.map fun arguments => { decl, arguments, version } := by
  rw [numbered, getElem?_mapIdx]

theorem find?_version_numbered (decl : StructId) (uses : List (List Ty)) (version : Nat) :
    (numbered decl uses).find? (·.version = version) =
      uses[version]?.map fun arguments => { decl, arguments, version } := by
  rw [← getElem?_numbered]
  by_cases h : version < (numbered decl uses).length
  · rw [getElem?_eq_getElem h, find?_eq_some_iff_getElem]
    refine ⟨by simp [numbered], version, h, rfl, fun j hj => ?_⟩
    simpa [numbered] using Nat.ne_of_lt hj
  · rw [getElem?_eq_none (Nat.le_of_not_lt h), find?_eq_none]
    intro i hi hversion
    obtain ⟨j, hj, rfl⟩ := getElem_of_mem hi
    simp only [numbered, getElem_mapIdx, decide_eq_true_eq] at hversion
    exact h (hversion ▸ hj)

theorem find?_arguments_numbered {uses : List (List Ty)} (h : arguments ∈ uses) :
    (numbered decl uses).find? (·.arguments = arguments) =
      some { decl, arguments, version := uses.idxOf arguments } := by
  have hlt : uses.idxOf arguments < uses.length := idxOf_lt_length_of_mem h
  rw [find?_eq_some_iff_getElem]
  refine ⟨decide_eq_true rfl, uses.idxOf arguments, by simpa [numbered] using hlt, ?_, ?_⟩
  · simp [numbered]
  · intro j hj
    simpa [numbered] using not_of_lt_findIdx hj

namespace Records

variable {is : Instances} {calls : List Call}

theorem empty : Records {} [] := fun _ => rfl

section

variable (h : is.Records calls)

include h

theorem find? (decl : StructId) (p : Instance → Prop) [DecidablePred p] :
    is.list.find? (fun i => i.decl = decl ∧ p i) =
      (numbered decl (uses decl calls)).find? (p ·) := by
  rw [← h decl, find?_filter, ← Array.find?_toList]
  simp

theorem get? (decl : StructId) (version : Nat) :
    is.get? decl version =
      (uses decl calls)[version]?.map fun arguments => { decl, arguments, version } := by
  rw [← find?_version_numbered, ← h.find? decl (·.version = version), Instances.get?]
  congr 1
  funext i
  rw [Bool.eq_iff_iff]
  simp

theorem version? (hmem : arguments ∈ uses decl calls) :
    is.version? decl arguments = some ((uses decl calls).idxOf arguments) := by
  rw [Instances.version?, find?_eq, h.find? decl (·.arguments = arguments),
    find?_arguments_numbered hmem, Option.map_some]

theorem version?_eq_none (hmem : arguments ∉ uses decl calls) :
    is.version? decl arguments = none := by
  rw [Instances.version?, find?_eq, h.find? decl (·.arguments = arguments), Option.map_eq_none_iff,
    find?_eq_none]
  intro i hi heq
  obtain ⟨j, hj, rfl⟩ := getElem_of_mem hi
  rw [decide_eq_true_eq] at heq
  refine hmem (heq ▸ ?_)
  simp [numbered]

theorem instantiate (decl : StructId) (arguments : List Ty) :
    (is.instantiate decl arguments).2.Records (calls ++ [(decl, arguments)]) ∧
      (is.instantiate decl arguments).1 =
        (uses decl (calls ++ [(decl, arguments)])).idxOf arguments := by
  by_cases hmem : arguments ∈ uses decl calls
  · rw [instantiate_of_version? (h.version? hmem)]
    have hsame (other : StructId) :
        uses other (calls ++ [(decl, arguments)]) = uses other calls := by
      rw [uses_concat, if_neg]
      rintro ⟨rfl, hnew⟩
      exact hnew hmem
    refine ⟨fun other => ?_, by rw [hsame]⟩
    rw [hsame]
    exact h other
  · have hversion : (is.list.filter (·.decl == decl)).size = (uses decl calls).length := by
      rw [← Array.length_toList, Array.toList_filter, h decl, numbered, length_mapIdx]
    rw [instantiate_of_none (h.version?_eq_none hmem), hversion]
    refine ⟨fun other => ?_, ?_⟩
    · rw [Array.toList_push, filter_append, h other, uses_concat]
      by_cases hdecl : decl = other
      · subst hdecl
        rw [if_pos ⟨rfl, hmem⟩, numbered, numbered, mapIdx_concat]
        simp
      · rw [if_neg fun hnew => hdecl hnew.1]
        simp [hdecl]
    · rw [uses_concat, if_pos ⟨rfl, hmem⟩, idxOf_append_of_notMem hmem, idxOf_cons_self]
      rfl

end

end Records

/-- What calls leave behind, and the numbers they get: each the place of its arguments among the
uses of its struct. -/
theorem serve_records {is : Instances} {before : List Call} (h : is.Records before) :
    (is.serve calls).2.Records (before ++ calls) ∧
      (is.serve calls).1 =
        calls.map fun call => (uses call.1 (before ++ calls)).idxOf call.2 := by
  induction calls generalizing is before with
  | nil => exact ⟨(append_nil before).symm ▸ h, rfl⟩
  | cons call calls ih =>
    obtain ⟨decl, arguments⟩ := call
    obtain ⟨hstep, hversion⟩ := h.instantiate decl arguments
    obtain ⟨hrest, hversions⟩ := ih hstep
    rw [append_assoc, singleton_append] at hrest hversions
    refine ⟨hrest, ?_⟩
    rw [serve, map_cons, List.cons.injEq]
    refine ⟨?_, hversions⟩
    obtain ⟨later, hlater⟩ := uses_prefix decl (before ++ [(decl, arguments)]) calls
    have hmem : arguments ∈ uses decl (before ++ [(decl, arguments)]) :=
      mem_uses.mpr (mem_append_right _ mem_cons_self)
    rw [append_assoc, singleton_append] at hlater
    rw [hversion, ← hlater, idxOf_append_of_mem hmem]

theorem answers_eq (calls : List Call) :
    answers calls = calls.map fun call => (call, (uses call.1 calls).idxOf call.2) := by
  rw [answers, (serve_records .empty).2, nil_append, map_prod_left_eq_zip]

theorem mem_answers {call : Call} {version : Nat} :
    (call, version) ∈ answers calls ↔
      call ∈ calls ∧ version = (uses call.1 calls).idxOf call.2 := by
  rw [answers_eq]
  aesop

theorem answers_filter (decl : StructId) (calls : List Call) :
    (answers calls).filter (·.1.1 == decl) = answers (calls.filter (·.1 == decl)) := by
  rw [answers_eq, answers_eq, filter_map]
  refine map_congr_left fun call hcall => ?_
  have hdecl : call.1 = decl := by simpa using (mem_filter.mp hcall).2
  rw [hdecl, uses_filter]

theorem exists_answer_iff {version : Nat} :
    (∃ arguments, ((decl, arguments), version) ∈ answers calls) ↔
      version < (uses decl calls).length := by
  simp only [mem_answers]
  constructor
  · rintro ⟨arguments, hmem, rfl⟩
    exact idxOf_lt_length_of_mem (mem_uses.mpr hmem)
  · intro hlt
    exact ⟨(uses decl calls)[version], mem_uses.mp (getElem_mem hlt),
      ((uses_nodup decl calls).idxOf_getElem version hlt).symm⟩

end Quill.Instances
