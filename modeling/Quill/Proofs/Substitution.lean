import Quill.Proofs.TypeEquality

/-!
# Substitution

Types that are the same stay so when arguments are put for parameters. The parameters of two structs
may be replaced in either order, as long as no argument brings in a parameter replaced later.
-/
namespace Quill

namespace Ty

mutual

def owners : Ty → List Nat
  | generic _ _ owner => [owner]
  | pointer t | mutPointer t | array t _ => t.owners
  | function ps r => allOwners ps ++ r.owners
  | .instance _ as _ => allOwners as
  | void | scalar _ | struct _ | abstract _ _ _ | package _ => []

def allOwners : List Ty → List Nat
  | [] => []
  | t :: ts => t.owners ++ allOwners ts

end

variable {owner other : Nat} {arguments others : List Ty}

mutual

theorem substitute_of_foreign {t : Ty} (h : owner ∉ t.owners) : t.substitute owner arguments = t := by
  match t with
  | void | scalar _ | struct _ | abstract _ _ _ | package _ => rfl
  | pointer t => exact congrArg pointer (substitute_of_foreign (t := t) h)
  | mutPointer t => exact congrArg mutPointer (substitute_of_foreign (t := t) h)
  | array t n => exact congrArg (array · n) (substitute_of_foreign (t := t) h)
  | function ps r =>
    obtain ⟨hps, hr⟩ : owner ∉ allOwners ps ∧ owner ∉ r.owners := by simpa [owners] using h
    rw [substitute, substituteAll_of_foreign hps, substitute_of_foreign hr]
  | .instance id as v => exact congrArg (Ty.instance id · v) (substituteAll_of_foreign (l := as) h)
  | .generic name index o => exact if_neg fun heq : o = owner => h (heq ▸ List.mem_singleton_self o)

theorem substituteAll_of_foreign {l : List Ty} (h : owner ∉ allOwners l) :
    substituteAll owner arguments l = l := by
  match l with
  | [] => rfl
  | t :: l =>
    obtain ⟨ht, hl⟩ : owner ∉ t.owners ∧ owner ∉ allOwners l := by simpa [allOwners] using h
    rw [substituteAll, substitute_of_foreign ht, substituteAll_of_foreign hl]

end

section

variable (hne : owner ≠ other) (hothers : ∀ u ∈ others, owner ∉ u.owners)

include hne hothers

mutual

theorem substitute_comm (t : Ty) :
    (t.substitute owner arguments).substitute other others =
      (t.substitute other others).substitute owner (substituteAll other others arguments) := by
  match t with
  | void | scalar _ | struct _ | abstract _ _ _ | package _ => rfl
  | pointer t => exact congrArg pointer (substitute_comm t)
  | mutPointer t => exact congrArg mutPointer (substitute_comm t)
  | array t n => exact congrArg (array · n) (substitute_comm t)
  | function ps r =>
    simp only [substitute, substituteAll_comm ps, substitute_comm r]
  | .instance id as v => exact congrArg (Ty.instance id · v) (substituteAll_comm as)
  | .generic name index o =>
    by_cases ho : o = owner
    · have ho' : o ≠ other := fun h => hne (ho.symm.trans h)
      simp only [substitute, if_pos ho, if_neg ho', substituteAll_eq_map, List.getElem?_map]
      cases arguments[index]? with
      | none => exact if_neg ho'
      | some a => rfl
    · by_cases ho' : o = other
      · simp only [substitute, if_neg ho, if_pos ho']
        cases hu : others[index]? with
        | none => exact (if_neg ho).symm
        | some u => exact (substitute_of_foreign (hothers u (List.mem_of_getElem? hu))).symm
      · simp only [substitute, if_neg ho, if_neg ho']

theorem substituteAll_comm (ts : List Ty) :
    substituteAll other others (substituteAll owner arguments ts) =
      substituteAll owner (substituteAll other others arguments) (substituteAll other others ts) := by
  match ts with
  | [] => rfl
  | t :: ts =>
    simp only [substituteAll, substitute_comm t, substituteAll_comm ts]

end

end

end Ty

namespace StructTable

variable {R : StructId → StructId → Bool} {owner : Nat} {arguments : List Ty}

mutual

theorem sameBy_substitute (hR : ∀ i, R i i = true) {a b : Ty} (h : sameBy R a b = true) :
    sameBy R (a.substitute owner arguments) (b.substitute owner arguments) = true := by
  cases a with
  | pointer a | mutPointer a =>
    cases b with
    | pointer b | mutPointer b => exact sameBy_substitute hR (a := a) (b := b) h
    | _ => simp [sameBy] at h
  | array a m =>
    cases b with
    | array b n =>
      simp only [sameBy, Ty.substitute, Bool.and_eq_true] at h ⊢
      exact ⟨h.1, sameBy_substitute hR h.2⟩
    | _ => simp [sameBy] at h
  | function ps r =>
    cases b with
    | function qs s =>
      simp only [sameBy, Ty.substitute, Bool.and_eq_true] at h ⊢
      exact ⟨sameAllBy_substitute hR h.1, sameBy_substitute hR h.2⟩
    | _ => simp [sameBy] at h
  | struct i =>
    cases b with
    | struct j | «instance» j bs w => exact h
    | _ => simp [sameBy] at h
  | «instance» i as v =>
    cases b with
    | struct j => exact h
    | «instance» j bs w =>
      simp only [sameBy, Ty.substitute, Bool.and_eq_true] at h ⊢
      exact ⟨h.1, sameAllBy_substitute hR h.2⟩
    | _ => simp [sameBy] at h
  | generic x i o =>
    cases b with
    | generic y j p =>
      -- The same parameter becomes the same argument.
      simp only [sameBy, Bool.and_eq_true, beq_iff_eq] at h
      rw [h.1.1, h.1.2, h.2]
      exact sameBy_refl hR _
    | _ => simp [sameBy] at h
  | void | scalar | abstract | package => cases b <;> simp_all [sameBy, Ty.substitute]

theorem sameAllBy_substitute (hR : ∀ i, R i i = true) {as bs : List Ty}
    (h : sameAllBy R as bs = true) :
    sameAllBy R (Ty.substituteAll owner arguments as) (Ty.substituteAll owner arguments bs) = true := by
  match as, bs with
  | [], [] => rfl
  | a :: as, b :: bs =>
    simp only [sameAllBy, Ty.substituteAll, Bool.and_eq_true] at h ⊢
    exact ⟨sameBy_substitute hR h.1, sameAllBy_substitute hR h.2⟩
  | [], _ :: _ | _ :: _, [] => simp [sameAllBy] at h

end

/-- Putting arguments for parameters respects being the same, leaves no parameter where there is an
argument without parameters for each, and may be done for two owners in either order. -/
theorem substitution_laws (t : StructTable) (owner : Nat) (arguments : List Ty) (a : Ty) :
    (∀ b, t.same a b = true →
      t.same (a.substitute owner arguments) (b.substitute owner arguments) = true) ∧
    (a.Within owner arguments.length → (∀ u ∈ arguments, u.hasGenerics = false) →
      (a.substitute owner arguments).hasGenerics = false) ∧
    (∀ (other : Nat) (others : List Ty), owner ≠ other → (∀ u ∈ others, owner ∉ u.owners) →
      (a.substitute owner arguments).substitute other others =
        (a.substitute other others).substitute owner (arguments.map (·.substitute other others))) := by
  refine ⟨fun b h => sameBy_substitute (fun i => by simp [sameStruct]) h,
    fun within closed => within.substitute closed, fun other others hne hothers => ?_⟩
  rw [← Ty.substituteAll_eq_map]
  exact Ty.substitute_comm hne hothers a

/-- A function over the parameters of two structs. The second owner's arguments are for a parameter too
many, and one of the first owner's is a parameter of the second. -/
theorem substitution_laws_nested :
    let table : StructTable := ⟨#[⟨"Box", 0, 3, ["T"], [("v", .generic "T" 0 3)]⟩]⟩
    let left : Ty := .instance 0 [.generic "T" 0 3] 0
    let a : Ty := .function [.pointer left, .generic "U" 1 5] (.array (.generic "T" 2 3) (some 4))
    let b : Ty := .function [.mutPointer (.struct 0), .generic "U" 1 5]
      (.array (.generic "T" 2 3) (some 4))
    let arguments : List Ty := [.pointer (.generic "U" 0 5)]
    let others : List Ty := [.scalar .int, .void]
    (table.same a b = true ∧
      table.same (a.substitute 3 arguments) (b.substitute 3 arguments) = true) ∧
    (left.Within 3 others.length ∧ (left.substitute 3 others).hasGenerics = false) ∧
    (3 ≠ 5 ∧ (∀ u ∈ others, 3 ∉ u.owners) ∧
      (a.substitute 3 arguments).substitute 5 others =
        (a.substitute 5 others).substitute 3 (arguments.map (·.substitute 5 others))) := by
  intro table left a b arguments others
  have same : table.same a b = true := by decide
  have within : left.Within 3 others.length := ⟨⟨rfl, by decide⟩, trivial⟩
  have foreign : ∀ u ∈ others, 3 ∉ u.owners := by decide
  exact ⟨⟨same, (substitution_laws table 3 arguments a).1 b same⟩,
    ⟨within, (substitution_laws table 3 others left).2.1 within (by decide)⟩, by decide, foreign,
    (substitution_laws table 3 arguments a).2.2 5 others (by decide) foreign⟩

end StructTable
end Quill
