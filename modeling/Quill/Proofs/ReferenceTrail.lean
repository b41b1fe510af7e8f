import Mathlib.Data.List.Basic
import Quill.Proofs.Scoping
import Quill.Proofs.SurveyLaw

/-!
# Trails of references

Checking an expression follows some of the references in it. Each is recorded with what it means and
its type, a local that it means is marked as used, and nothing else happens to locals.
-/
namespace Quill

open List hiding get

variable (ls : Locals) (cx : Context) (info : Info) (path : List String) (name : String)

def Table.record {α : Type} (t : Table α) (id : Nat) : Option α → Table α
  | none => t
  | some a => t.insert id a

theorem Table.get?_record {α : Type} (t : Table α) (id other : Nat) (value : Option α) :
    (t.record id value).get? other = if other = id then value <|> t.get? other else t.get? other := by
  cases value with
  | none => simp [record]
  | some a =>
    rw [record, get?_insert]
    rfl

/-- What a path means that is no local, as a reference and as a value. -/
def Globals.meaning (g : Globals) (package : PackageId) (path : List String) :
    Option Binding × Option Ty :=
  match g.lookup package path with
  | .ok (.symbol s) =>
    match s.kind with
    | .var type _ =>
      (some (if s.foreign then .foreign s.name else .global s.package s.name), some type)
    | .function params result =>
      (some (if s.foreign then .foreign s.name else .function s.package s.name),
        some (.function params result))
    | .struct _ | .typedef _ => (none, none)
  | .ok (.package _) | .error _ => (none, none)

theorem Globals.Settled.meaning {g g' : Globals} (h : g.Settled g') (package : PackageId)
    (path : List String) : g'.meaning package path = g.meaning package path := by
  rw [Globals.meaning, h.lookup, Globals.meaning]

namespace Locals

def mark (ls : Locals) : List String → Locals
  | [name] => ls.use name
  | _ => ls

theorem flatten_use (ls : Locals) : (ls.use name).flatten = useIn name ls.flatten := by
  have front (scope rest : List Local) (h : scope.any (·.name == name) = true) :
      useIn name (scope ++ rest) = useIn name scope ++ rest := by
    induction scope with
    | nil => cases h
    | cons l scope ih =>
      rw [cons_append, useIn, useIn]
      split
      · rfl
      · rename_i hl
        rw [ih (by simpa [hl] using h)]
        rfl
  have behind (scope rest : List Local) (h : scope.any (·.name == name) = false) :
      useIn name (scope ++ rest) = scope ++ useIn name rest := by
    induction scope with
    | nil => rfl
    | cons l scope ih =>
      obtain ⟨hl, hscope⟩ := Bool.or_eq_false_iff.mp h
      rw [cons_append, useIn, if_neg (by simp [hl]), ih hscope]
      rfl
  induction ls with
  | nil => rfl
  | cons scope outer ih =>
    rw [use]
    split
    · rename_i h
      rw [flatten_cons, flatten_cons, front scope _ h]
    · rename_i h
      rw [flatten_cons, flatten_cons, behind scope _ (by simpa using h), ih]

theorem find?_use (other : String) :
    (ls.use name).find? other = (ls.find? other).map fun l =>
      { l with used := l.used || name == other } := by
  rw [find?, find?, flatten_use]
  induction ls.flatten with
  | nil => rfl
  | cons l rest ih =>
    rw [useIn]
    by_cases hname : l.name = name
    · rw [if_pos (beq_iff_eq.mpr hname)]
      by_cases hother : l.name = other
      · simp [hother, ← hname]
      · have hne : (name == other) = false := beq_false_of_ne (hname ▸ hother)
        simp [hother, hne]
    · rw [if_neg (by simpa using hname)]
      by_cases hother : l.name = other
      · have hne : (name == other) = false :=
          beq_false_of_ne fun heq => hname (hother.trans heq.symm)
        subst hother
        simp [hne]
      · simpa [hother] using ih

theorem use_of_not_found {ls : Locals} {name : String} (h : ls.find? name = none) :
    ls.use name = ls := by
  induction ls with
  | nil => rfl
  | cons scope outer ih =>
    rw [find?, flatten_cons, find?_append, Option.or_eq_none_iff] at h
    rw [use, if_neg, ih h.2]
    simpa using h.1

theorem find?_mark :
    ((ls.mark path).find? name).map Local.type = (ls.find? name).map Local.type := by
  unfold mark
  split
  · rw [find?_use, Option.map_map]
    rfl
  · rfl

def markAll (ls : Locals) (trail : List Reference) : Locals :=
  trail.foldl (fun ls r => ls.mark r.2) ls

theorem find?_markAll (trail : List Reference) (name : String) :
    ((ls.markAll trail).find? name).map Local.type = (ls.find? name).map Local.type := by
  induction trail generalizing ls with
  | nil => rfl
  | cons r trail ih => exact (ih (ls.mark r.2)).trans (find?_mark ls r.2 name)

end Locals

namespace Checking

/-- The types of the locals in scope that a path may mean. -/
def localType? (st : Checking) (path : List String) : Option (Option Ty) :=
  (st.local? path).map Local.type

/-- What a path means, as a reference and as a value: a local, or else what packages declare. -/
def meaning (st : Checking) (package : PackageId) (path : List String) :
    Option Binding × Option Ty :=
  match st.localType? path with
  | some type => (some .local, type)
  | none => st.globals.meaning package path

def knows (st : Checking) (name : String) : Bool := (st.locals.find? name).isSome

structure Fresh (ids : List Nat) (st : Checking) : Prop where
  bindings : ∀ i ∈ ids, st.facts.bindings.get? i = none
  types : ∀ i ∈ ids, st.facts.types.get? i = none

theorem Fresh.of_subset {ids ids' : List Nat} {st : Checking} (h : st.Fresh ids')
    (hids : ids ⊆ ids') : st.Fresh ids :=
  ⟨fun i hi => h.bindings i (hids hi), fun i hi => h.types i (hids hi)⟩

/-- Checking something with these nodes followed these references. -/
structure Tracks (package : PackageId) (ids : List Nat) (trail : List Reference)
    (st st' : Checking) : Prop where
  globals : st.globals.Settled st'.globals
  locals : st'.locals = st.locals.markAll trail
  problems : ∃ found, st'.problems = st.problems ++ found ∧ ∀ d ∈ found, d.isError = true
  inside : ∀ r ∈ trail, r.1 ∈ ids
  bindings : ∀ i, (∀ r ∈ trail, r.1 ≠ i) →
    st'.facts.bindings.get? i = st.facts.bindings.get? i
  types : ∀ i ∉ ids, st'.facts.types.get? i = st.facts.types.get? i
  /-- If nodes differ and nothing was recorded for them, references are recorded with what they
  mean. -/
  recorded : ids.Nodup → st.Fresh ids → ∀ r ∈ trail,
    (st'.facts.bindings.get? r.1, st'.facts.types.get? r.1) = st.meaning package r.2

namespace Tracks

variable {package : PackageId} {ids ids' : List Nat} {trail trail' : List Reference}
  {st st' st'' : Checking}

theorem refl (st : Checking) : Tracks package [] [] st st where
  globals := .refl _
  locals := rfl
  problems := ⟨[], by simp⟩
  inside := by simp
  bindings _ _ := rfl
  types _ _ := rfl
  recorded _ _ := by simp

theorem localType?_eq (h : Tracks package ids trail st st') (path : List String) :
    st'.localType? path = st.localType? path := by
  unfold localType? local?
  split
  · rw [h.locals, Locals.find?_markAll]
  · rfl

theorem meaning_eq (h : Tracks package ids trail st st') (path : List String) :
    st'.meaning package path = st.meaning package path := by
  rw [meaning, h.localType?_eq, h.globals.meaning, meaning]

theorem knows_eq (h : Tracks package ids trail st st') : st'.knows = st.knows := by
  funext name
  have types := h.localType?_eq [name]
  simp only [localType?, local?] at types
  rw [knows, knows, ← Option.isSome_map (f := Local.type), types, Option.isSome_map]

theorem fresh (h : Tracks package ids trail st st') (hids : ∀ i ∈ ids', i ∉ ids)
    (hfresh : st.Fresh ids') : st'.Fresh ids' where
  bindings i hi := by
    rw [h.bindings i fun r hr heq => hids i hi (heq ▸ h.inside r hr)]
    exact hfresh.bindings i hi
  types i hi := by
    rw [h.types i (hids i hi)]
    exact hfresh.types i hi

theorem trans (h : Tracks package ids trail st st') (h' : Tracks package ids' trail' st' st'') :
    Tracks package (ids ++ ids') (trail ++ trail') st st'' where
  globals := h.globals.trans h'.globals
  locals := by rw [h'.locals, h.locals, Locals.markAll, Locals.markAll, Locals.markAll, foldl_append]
  problems := by
    obtain ⟨found, hfound, errors⟩ := h.problems
    obtain ⟨found', hfound', errors'⟩ := h'.problems
    refine ⟨found ++ found', ?_, forall_mem_append.mpr ⟨errors, errors'⟩⟩
    rw [hfound', hfound, append_assoc]
  inside := by
    refine forall_mem_append.mpr ⟨fun r hr => ?_, fun r hr => ?_⟩
    · exact mem_append_left _ (h.inside r hr)
    · exact mem_append_right _ (h'.inside r hr)
  bindings i hi := by
    obtain ⟨first, second⟩ := forall_mem_append.mp hi
    rw [h'.bindings i second, h.bindings i first]
  types i hi := by
    obtain ⟨first, second⟩ := not_or.mp (mem_append.not.mp hi)
    rw [h'.types i second, h.types i first]
  recorded nodup hfresh := by
    obtain ⟨left, right, apart⟩ := nodup_append'.mp nodup
    refine forall_mem_append.mpr ⟨fun r hr => ?_, fun r hr => ?_⟩
    · have away : r.1 ∉ ids' := fun hmem => apart (h.inside r hr) hmem
      rw [h'.bindings r.1 fun r' hr' heq => away (heq ▸ h'.inside r' hr'), h'.types r.1 away]
      exact h.recorded left (hfresh.of_subset (subset_append_left _ _)) r hr
    · have later : st'.Fresh ids' := h.fresh (fun i hi hmem => apart hmem hi)
        (hfresh.of_subset (subset_append_right _ _))
      rw [h'.recorded right later r hr, h.meaning_eq]

theorem mono (h : Tracks package ids trail st st') (hids : ids.Subperm ids') :
    Tracks package ids' trail st st' where
  globals := h.globals
  locals := h.locals
  problems := h.problems
  inside r hr := hids.subset (h.inside r hr)
  bindings := h.bindings
  types i hi := h.types i fun hmem => hi (hids.subset hmem)
  recorded nodup hfresh := by
    obtain ⟨part, perm, sublist⟩ := hids
    have inside : ids ⊆ ids' := List.Subset.trans perm.symm.subset sublist.subset
    exact h.recorded (perm.nodup_iff.mp (nodup.sublist sublist)) (hfresh.of_subset inside)

end Tracks
end Checking

namespace Check

open Checking

/-- Checking follows some of the references, and among them those that are sure. -/
def Goes {α : Type} (package : PackageId) (ids : List Nat)
    (sure : (String → Bool) → List Reference) (refs : List Reference) (step : Check α) : Prop :=
  ∀ st, ∃ trail, sure st.knows ⊆ trail ∧ trail ⊆ refs ∧ Tracks package ids trail st (step st).2

/-- No reference is looked at, and nothing is recorded. -/
abbrev Still {α : Type} (package : PackageId) (step : Check α) : Prop :=
  Goes package [] (fun _ => []) [] step

namespace Goes

variable {α β : Type} {package : PackageId} {ids ids' : List Nat}
  {sure sure' : (String → Bool) → List Reference} {refs refs' : List Reference} {step : Check α}

theorem of_tracks (h : ∀ st, Tracks package ids [] st (step st).2) :
    Goes package ids (fun _ => []) [] step :=
  fun st => ⟨[], nil_subset _, nil_subset _, h st⟩

theorem pure {a : α} : Still package (Pure.pure a : Check α) := of_tracks fun st => .refl st

theorem bind {f : α → Check β} (hx : Goes package ids sure refs step)
    (hf : ∀ a, Goes package ids' sure' refs' (f a)) :
    Goes package (ids ++ ids') (fun knows => sure knows ++ sure' knows) (refs ++ refs')
      (step >>= f) := by
  intro st
  obtain ⟨trail, hsure, hrefs, first⟩ := hx st
  obtain ⟨trail', hsure', hrefs', second⟩ := hf (step st).1 (step st).2
  rw [first.knows_eq] at hsure'
  refine ⟨trail ++ trail', ?_, ?_, first.trans second⟩
  · exact append_subset.mpr ⟨subset_append_of_subset_left _ hsure,
      subset_append_of_subset_right _ hsure'⟩
  · exact append_subset.mpr ⟨subset_append_of_subset_left _ hrefs,
      subset_append_of_subset_right _ hrefs'⟩

theorem mono (h : Goes package ids sure refs step) (hids : ids.Subperm ids')
    (hsure : ∀ knows, sure' knows ⊆ sure knows) (hrefs : refs ⊆ refs') :
    Goes package ids' sure' refs' step := by
  intro st
  obtain ⟨trail, before, behind, follows⟩ := h st
  exact ⟨trail, List.Subset.trans (hsure _) before, List.Subset.trans behind hrefs,
    follows.mono hids⟩

theorem after {f : α → Check β} (hx : Still package step)
    (hf : ∀ a, Goes package ids sure refs (f a)) : Goes package ids sure refs (step >>= f) :=
  bind hx hf

theorem before {f : α → Check β} (hx : Goes package ids sure refs step)
    (hf : ∀ a, Still package (f a)) : Goes package ids sure refs (step >>= f) := by
  simpa using bind hx hf

theorem ignore (h : Goes package ids sure refs step) :
    Goes package ids sure refs (do let _ ← step) := h.before fun _ => .pure

theorem get {f : Checking → Check β} (h : ∀ now, Goes package ids sure refs (f now)) :
    Goes package ids sure refs (MonadState.get >>= f) := fun st => h st st

theorem ite {c : Prop} [Decidable c] {other : Check α} (h : Goes package ids sure refs step)
    (h' : Goes package ids sure refs other) :
    Goes package ids sure refs (if c then step else other) := by
  split
  · exact h
  · exact h'

theorem skip (h : Still package step) (ids : List Nat) (refs : List Reference) :
    Goes package ids (fun _ => []) refs step :=
  h.mono (nil_subperm) (fun _ => List.Subset.refl _) (nil_subset _)

end Goes

section Steps

variable {package : PackageId}

theorem report_still {problem : Problem} (h : problem.isError = true) (span : Span) :
    Still package (report problem span) := by
  refine .of_tracks fun st => ⟨.refl _, rfl, ⟨[⟨problem, span⟩], rfl, ?_⟩, by simp, fun _ _ => rfl,
    fun _ _ => rfl, fun _ _ => by simp⟩
  exact forall_mem_singleton.mpr h

theorem setType_goes (node : Nat) (t : Ty) :
    Goes package [node] (fun _ => []) [] (setType node t) := by
  refine .of_tracks fun st => ⟨.refl _, rfl, ⟨[], (append_nil _).symm, by simp⟩, by simp, fun _ _ => rfl, ?_,
    fun _ _ => by simp⟩
  intro i hi
  show (st.facts.types.insert node t).get? i = _
  rw [Table.get?_insert, if_neg (by simpa using hi)]

theorem setWritten_still (node : Nat) (t : Ty) : Still package (setWritten node t) :=
  .of_tracks fun _ => ⟨.refl _, rfl, ⟨[], (append_nil _).symm, by simp⟩, by simp, fun _ _ => rfl,
    fun _ _ => rfl, fun _ _ => by simp⟩

theorem stepErrors {before : List Diagnostic} {s s' : Survey}
    (h : Survey.Step package s s')
    (hs : ∃ found, s.problems = before ++ found ∧ ∀ d ∈ found, d.isError = true) :
    ∃ found, s'.problems = before ++ found ∧ ∀ d ∈ found, d.isError = true := by
  cases h with
  | @report problem error span =>
    obtain ⟨found, hfound, errors⟩ := hs
    refine ⟨found ++ [⟨problem, span⟩], ?_, ?_⟩
    · show s.problems ++ _ = _
      rw [hfound, append_assoc]
    · exact forall_mem_append.mpr ⟨errors, forall_mem_singleton.mpr error⟩
  | use => exact hs

theorem resolveType_still (t : TypeExpr) :
    Still package (survey (Survey.resolveType package none t)) := by
  refine .of_tracks fun st => ⟨?_, rfl, ?_, by simp, fun _ _ => rfl, fun _ _ => rfl,
    fun _ _ => by simp⟩
  · exact (Survey.resolveType_later package none t st.toSurvey).onward.toSettled
  · exact Survey.resolveType_keeps package none t st.toSurvey stepErrors ⟨[], by simp⟩

/-- The check of a part follows references whatever is expected. -/
def Part.Goes (package : PackageId) (ids : List Nat) (sure : (String → Bool) → List Reference)
    (refs : List Reference) (part : Part) : Prop :=
  ∀ expected, Check.Goes package ids sure refs (part expected)

variable {ids ids' : List Nat} {sure sure' : (String → Bool) → List Reference}
  {refs refs' : List Reference}

theorem typed_goes {check : Check (Option Ty)} (h : Goes package ids sure refs check) (node : Nat) :
    Goes package (ids ++ [node]) sure refs (typed node check) := by
  have noted : Goes package (ids ++ [node]) (fun knows => sure knows ++ []) (refs ++ [])
      (typed node check) := by
    refine .bind h fun r => ?_
    cases r with
    | none => exact .skip .pure _ _
    | some t => exact .before (setType_goes node t) fun _ => .pure
  exact noted.mono (.refl _) (fun _ => by simp) (by simp)

theorem packageReference_run (st : Checking) :
    ∃ found : List Diagnostic, (∀ d ∈ found, d.isError = true) ∧
      packageReference cx info path st = ((st.globals.meaning cx.package path).2,
        { st with
          problems := st.problems ++ found
          facts := { st.facts with
            bindings := st.facts.bindings.record info.id (st.globals.meaning cx.package path).1 } }) := by
  have refused (problem : Problem) (error : problem.isError = true) :
      ∀ d ∈ [(⟨problem, info.span⟩ : Diagnostic)], d.isError = true :=
    forall_mem_singleton.mpr error
  unfold packageReference Globals.meaning
  simp only [bind, StateT.bind, get, getThe, MonadStateOf.get, StateT.get, pure]
  rcases st.globals.lookup cx.package path with reason | s | id
  · exact ⟨_, refused (.name (.lookup reason)) rfl, rfl⟩
  · obtain ⟨name, package, node, span, kind, foreign⟩ := s
    cases kind with
    | struct | typedef => exact ⟨_, refused (.name (.typeAsValue path)) rfl, rfl⟩
    | function | var => exact ⟨[], by simp, by rw [append_nil]; rfl⟩
  · exact ⟨_, refused (.name (.packageAsValue path)) rfl, rfl⟩

theorem reference_run (st : Checking) :
    ∃ found : List Diagnostic, (∀ d ∈ found, d.isError = true) ∧
      (typed info.id (reference cx info path) st).2 =
        { st with
          problems := st.problems ++ found
          facts := { st.facts with
            bindings := st.facts.bindings.record info.id (st.meaning cx.package path).1
            types := st.facts.types.record info.id (st.meaning cx.package path).2 }
          locals := st.locals.mark path } := by
  have kept (found : List Diagnostic) (binding : Option Binding) (type : Option Ty)
      (locals : Locals)
      (hrun : reference cx info path st = (type,
        { st with
          problems := st.problems ++ found
          facts := { st.facts with bindings := st.facts.bindings.record info.id binding }
          locals })) :
      (typed info.id (reference cx info path) st).2 =
        { st with
          problems := st.problems ++ found
          facts := { st.facts with
            bindings := st.facts.bindings.record info.id binding
            types := st.facts.types.record info.id type }
          locals } := by
    unfold typed
    simp only [bind, StateT.bind, hrun]
    cases type <;> rfl
  cases hlocal : st.local? path with
  | some l =>
    obtain ⟨name, rfl, hname⟩ : ∃ name, path = [name] ∧ l.name = name := by
      unfold local? at hlocal
      split at hlocal
      · exact ⟨_, rfl, by simpa using find?_some hlocal⟩
      · cases hlocal
    refine ⟨[], by simp, ?_⟩
    simp only [meaning, localType?, hlocal, Option.map_some]
    refine kept [] (some .local) l.type _ ?_
    simp only [reference, bind, StateT.bind, get, getThe, MonadStateOf.get, StateT.get, pure, hlocal]
    rw [append_nil, ← hname]
    rfl
  | none =>
    obtain ⟨found, errors, run⟩ := packageReference_run cx info path st
    refine ⟨found, errors, ?_⟩
    have unmarked : st.locals.mark path = st.locals := by
      unfold Locals.mark
      split
      · exact Locals.use_of_not_found hlocal
      · rfl
    simp only [meaning, localType?, hlocal, Option.map_none, unmarked]
    refine kept found _ _ _ ?_
    simp only [reference, bind, StateT.bind, get, getThe, MonadStateOf.get, StateT.get, pure, hlocal]
    exact run

theorem reference_goes :
    Goes cx.package [info.id] (fun _ => [(info.id, path)]) [(info.id, path)]
      (typed info.id (reference cx info path)) := by
  intro st
  obtain ⟨found, errors, run⟩ := reference_run cx info path st
  refine ⟨_, List.Subset.refl _, List.Subset.refl _, ?_⟩
  rw [run]
  refine ⟨.refl _, rfl, ⟨found, rfl, errors⟩, by simp, ?_, ?_, ?_⟩
  · intro i hi
    have away : i ≠ info.id := (forall_mem_singleton.mp hi).symm
    exact (Table.get?_record _ _ _ _).trans (if_neg away)
  · intro i hi
    exact (Table.get?_record _ _ _ _).trans (if_neg (by simpa using hi))
  · intro _ hfresh
    have unbound := hfresh.bindings info.id (mem_singleton_self _)
    have untyped := hfresh.types info.id (mem_singleton_self _)
    refine forall_mem_singleton.mpr ?_
    simp [Table.get?_record, unbound, untyped]

end Steps
end Check
end Quill
