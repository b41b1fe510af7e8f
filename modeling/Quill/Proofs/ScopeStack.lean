import Mathlib.Data.List.Forall2
import Quill.Proofs.ReferenceTrail

/-!
# Static scopes and the stack of locals

The stack of locals stands for the static scopes at a place. A name then means the local of the
declaration that it means statically, and a scope that ends reports the unused declarations in it.
-/
namespace Quill

open List Declaration Scopes

variable {ds : List Declaration} {views : List View} {ls : Locals} {scopes : Scopes}

def meant (views : List View) (o : Origin) : Bool :=
  views.any fun v => v.declaration?.any (·.origin == o)

theorem meant_append (views views' : List View) (o : Origin) :
    meant (views ++ views') o = (meant views o || meant views' o) := any_append

theorem meant_eq_false {o : Origin} (h : ∀ v ∈ views, ∀ d, v.declaration? = some d → d.origin ≠ o) :
    meant views o = false := by
  rw [meant, any_eq_false]
  intro v hv
  cases hd : v.declaration? with
  | none => simp
  | some d => simpa using h v hv d hd

/-- The type of a local, given those of the parameters. -/
def Facts.localType? (facts : Facts) (params : List Ty) : Origin → Option Ty
  | .param i => params[i]?
  | .node id => facts.types.get? id
  | .nowhere => none

/-- What a reference means, as a reference and as a value. -/
def View.meaning (v : View) (package : PackageId) (params : List Ty) (g : Globals) (facts : Facts) :
    Option Binding × Option Ty :=
  match v.declaration? with
  | some d => (some .local, facts.localType? params d.origin)
  | none => g.meaning package v.path

namespace Declaration

theorem effective_sublist (scope : List Declaration) : (effective scope).Sublist scope := by
  induction scope with
  | nil => exact .slnil
  | cons d ds ih =>
    rw [effective]
    split
    · exact ih.cons d
    · exact ih.cons_cons d

theorem any_effective (name : String) (scope : List Declaration) :
    (effective scope).any (·.name == name) = scope.any (·.name == name) := by
  induction scope with
  | nil => rfl
  | cons d ds ih =>
    rw [effective]
    split
    · rename_i hbefore
      rw [ih, any_cons]
      cases hname : d.name == name with
      | false => rfl
      | true => rwa [beq_iff_eq.mp hname] at hbefore
    · rw [any_cons, any_cons, ih]

end Declaration

namespace Scopes

def origins (scopes : Scopes) : List Origin := scopes.flatten.map (·.origin)

theorem origins_cons (scope : List Declaration) (outer : Scopes) :
    origins (scope :: outer) = scope.map (·.origin) ++ outer.origins := by
  simp [origins]

theorem effective_origins (scopes : Scopes) :
    ((scopes.flatMap effective).map (·.origin)).Sublist scopes.origins := by
  induction scopes with
  | nil => exact .slnil
  | cons scope outer ih =>
    rw [flatMap_cons, map_append, origins_cons]
    exact ((effective_sublist scope).map _).append ih

end Scopes

theorem View.mem_origins {v : View} {d : Declaration} (h : v.declaration? = some d) :
    d.origin ∈ v.scopes.origins := by
  unfold View.declaration? at h
  split at h
  · exact v.scopes.effective_origins.subset (mem_map_of_mem (mem_of_find?_eq_some h))
  · cases h

structure Local.Is (type : Origin → Option Ty) (used : Origin → Bool) (d : Declaration) (l : Local) :
    Prop where
  name : l.name = d.name
  type : l.type = type d.origin
  span : l.span = d.span
  quiet : l.quiet = !d.loud
  used : l.used = used d.origin

namespace Locals

variable {type type' : Origin → Option Ty} {used used' : Origin → Bool}

abbrev Are (type : Origin → Option Ty) (used : Origin → Bool) : List Declaration → List Local → Prop :=
  List.Forall₂ (Local.Is type used)

abbrev StandFor (type : Origin → Option Ty) (used : Origin → Bool) : Scopes → Locals → Prop :=
  List.Forall₂ fun scope => Are type used (effective scope)

section

variable {ls : List Local} (h : Are type used ds ls)

include h

theorem Are.congr (htype : ∀ d ∈ ds, type' d.origin = type d.origin)
    (hused : ∀ d ∈ ds, used' d.origin = used d.origin) : Are type' used' ds ls := by
  induction h with
  | nil => exact .nil
  | @cons d l ds ls hl _ ih =>
    obtain ⟨type_d, types⟩ := forall_mem_cons.mp htype
    obtain ⟨used_d, uses⟩ := forall_mem_cons.mp hused
    exact .cons ⟨hl.name, hl.type.trans type_d.symm, hl.span, hl.quiet, hl.used.trans used_d.symm⟩
      (ih types uses)

theorem Are.any_name (name : String) : ls.any (·.name == name) = ds.any (·.name == name) := by
  induction h with
  | nil => rfl
  | cons hl _ ih => rw [any_cons, any_cons, ih, hl.name]

theorem Are.find?_type (name : String) :
    (ls.find? (·.name == name)).map Local.type =
      (ds.find? (·.name == name)).map fun d => type d.origin := by
  induction h with
  | nil => rfl
  | @cons d l ds ls hl _ ih =>
    rw [find?_cons, find?_cons, hl.name]
    split
    · exact congrArg some hl.type
    · exact ih

theorem Are.useIn (apart : (ds.map (·.origin)).Nodup) (name : String) :
    Are type (fun o => used o || (ds.find? (·.name == name)).any (·.origin == o)) ds
      (useIn name ls) := by
  induction h with
  | nil => exact .nil
  | @cons d l ds ls hl hls ih =>
    obtain ⟨hd, hds⟩ : d.origin ∉ ds.map (·.origin) ∧ (ds.map (·.origin)).Nodup :=
      nodup_cons.mp apart
    rw [Locals.useIn, hl.name]
    simp only [find?_cons]
    cases hname : d.name == name with
    | true =>
      rw [if_pos rfl]
      refine .cons ⟨rfl, hl.type, hl.span, hl.quiet, by simp⟩ (Are.congr hls (fun _ _ => rfl) ?_)
      intro d' hd'
      have other : d.origin ≠ d'.origin := fun heq => hd (heq ▸ mem_map_of_mem hd')
      simp [other]
    | false =>
      rw [if_neg (by simp)]
      refine .cons ⟨hl.name, hl.type, hl.span, hl.quiet, ?_⟩ (ih hds)
      cases hfound : ds.find? (·.name == name) with
      | none => simpa using hl.used
      | some d' =>
        have other : d'.origin ≠ d.origin := fun heq =>
          hd (heq ▸ mem_map_of_mem (mem_of_find?_eq_some hfound))
        rw [Option.any_some, beq_false_of_ne other, Bool.or_false]
        exact hl.used

end

section

variable (h : StandFor type used scopes ls)

include h

theorem StandFor.flatten : Are type used (scopes.flatMap effective) ls.flatten := by
  induction h with
  | nil => exact .nil
  | cons hscope _ ih => exact rel_append hscope ih

theorem StandFor.congr (htype : ∀ o ∈ scopes.origins, type' o = type o)
    (hused : ∀ o ∈ scopes.origins, used' o = used o) : StandFor type' used' scopes ls := by
  induction h with
  | nil => exact .nil
  | @cons scope own outer ls hscope _ ih =>
    rw [origins_cons] at htype hused
    obtain ⟨inner, types⟩ := forall_mem_append.mp htype
    obtain ⟨marks, uses⟩ := forall_mem_append.mp hused
    have part {d} (hd : d ∈ effective scope) : d.origin ∈ scope.map (·.origin) :=
      mem_map_of_mem ((effective_sublist scope).subset hd)
    exact .cons (hscope.congr (fun d hd => inner _ (part hd)) fun d hd => marks _ (part hd))
      (ih types uses)

theorem StandFor.find?_type (name : String) :
    (ls.find? name).map Local.type = (scopes.find? name).map fun d => type d.origin :=
  h.flatten.find?_type name

theorem StandFor.use (apart : scopes.origins.Nodup) (name : String) :
    StandFor type (fun o => used o || (scopes.find? name).any (·.origin == o)) scopes
      (ls.use name) := by
  induction h with
  | nil => exact .nil
  | @cons scope own outer ls hscope houter ih =>
    rw [origins_cons] at apart
    obtain ⟨inner, outside, disjoint⟩ := nodup_append'.mp apart
    have front := (effective_sublist scope).map (·.origin)
    rw [Locals.use, hscope.any_name]
    simp only [Scopes.find?, flatMap_cons, find?_append]
    cases hfound : (effective scope).find? (·.name == name) with
    | none =>
      have absent : (effective scope).any (·.name == name) = false := by
        rw [← Bool.not_eq_true, any_eq_true]
        rintro ⟨d, hd, hname⟩
        exact find?_eq_none.mp hfound d hd hname
      rw [if_neg (by simp [absent])]
      refine .cons (hscope.congr (fun _ _ => rfl) ?_) (ih outside)
      intro d hd
      cases hmeant : (outer.flatMap effective).find? (·.name == name) with
      | none => simp
      | some d' =>
        have member : d'.origin ∈ origins outer := (effective_origins outer).subset
          (mem_map_of_mem (mem_of_find?_eq_some hmeant))
        have other : d'.origin ≠ d.origin := fun heq =>
          disjoint (front.subset (mem_map_of_mem hd)) (heq ▸ member)
        simp [other]
    | some d =>
      have present := mem_of_find?_eq_some hfound
      rw [if_pos (any_eq_true.mpr ⟨d, present, find?_some hfound⟩)]
      refine .cons ?_ (StandFor.congr houter (fun _ _ => rfl) ?_)
      · have marked := hscope.useIn (inner.sublist front) name
        rwa [hfound] at marked
      · intro o ho
        have other : d.origin ≠ o := fun heq =>
          disjoint (front.subset (mem_map_of_mem present)) (heq ▸ ho)
        simp [other]

end

theorem StandFor.mark (h : StandFor type (meant views) scopes ls) (apart : scopes.origins.Nodup)
    (r : Reference) : StandFor type (meant (views ++ scopes.views [r])) scopes (ls.mark r.2) := by
  have same (h : View.declaration? ⟨scopes, r.1, r.2⟩ = none) :
      ∀ o ∈ scopes.origins, meant (views ++ scopes.views [r]) o = meant views o := by
    intro o _
    rw [meant_append]
    simp [meant, Scopes.views, h]
  unfold Locals.mark
  split
  · rename_i name hpath
    refine (h.use apart name).congr (fun _ _ => rfl) fun o _ => ?_
    rw [meant_append]
    simp [meant, Scopes.views, View.declaration?, hpath]
  · rename_i hpath
    refine h.congr (fun _ _ => rfl) (same ?_)
    unfold View.declaration?
    split
    · exact absurd ‹_› (hpath _)
    · rfl

theorem StandFor.markAll (h : StandFor type (meant views) scopes ls) (apart : scopes.origins.Nodup)
    (trail : List Reference) :
    StandFor type (meant (views ++ scopes.views trail)) scopes (ls.markAll trail) := by
  induction trail generalizing ls views with
  | nil => simpa [Scopes.views, Locals.markAll] using h
  | cons r trail ih =>
    have rest := ih (h.mark apart r)
    rw [append_assoc] at rest
    exact rest

end Locals
end Quill
