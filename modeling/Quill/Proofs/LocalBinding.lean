import Mathlib.Data.List.Flatten
import Quill.Proofs.Complete
import Quill.Proofs.SymbolSource
import Quill.Proofs.TypingWalk

/-!
# References to locals

What checking records as a reference to a local sees a local of its name: the open scopes of a check
have the names of the locals in sight, in the same order.
-/
namespace Quill

open List Stmt Env

variable {file : File} {p : PackageId} {name : String}

theorem Expr.refs_sublist (e : Expr) : (e.refs.map (·.1)).Sublist (e.ids .node) := by
  induction e using Expr.parts_induction with
  | h e ih =>
    by_cases hr : ∃ info path, e = .ref info path
    · obtain ⟨info, path, rfl⟩ := hr
      exact List.Sublist.refl _
    · rw [Expr.refs_parts fun info path h => hr ⟨info, path, h⟩, map_flatMap, e.ids_parts]
      exact (List.Sublist.flatMap_right _ ih).trans (sublist_append_left _ _)

theorem Expr.optionRefs_sublist (e : Option Expr) :
    ((Expr.optionRefs e).map (·.1)).Sublist (Expr.optionIds .node e) := by
  cases e with
  | none => exact nil_sublist _
  | some e => exact e.refs_sublist

theorem Env.map_node_sightings (env : Env) (refs : List (Nat × List String)) :
    (env.sightings refs).map (·.node) = refs.map (·.1) := by
  rw [sightings, map_map]
  rfl

mutual

theorem Stmt.sightings_sublist (env : Env) (s : Stmt) :
    ((s.sightings env).map (·.node)).Sublist (s.ids .node) := by
  cases s with
  | block info body =>
    exact (allSightings_sublist env body).trans (sublist_append_left _ _)
  | var info decl =>
    rw [sightings, map_node_sightings]
    exact ((Expr.optionRefs_sublist decl.init).trans (sublist_append_right _ _)).trans
      (sublist_append_left _ _)
  | cond info test onTrue onFalse =>
    rw [sightings, map_append, map_append, map_node_sightings]
    exact ((test.refs_sublist.append (onTrue.sightings_sublist env)).append
      (elseSightings_sublist _ onFalse)).trans (sublist_append_left _ _)
  | loop info test body =>
    rw [sightings, map_append, map_node_sightings]
    exact (test.refs_sublist.append (body.sightings_sublist env)).trans
      (sublist_append_left _ _)
  | foreach info binding iterable body =>
    rw [sightings, map_append, map_node_sightings]
    exact (iterable.refs_sublist.append (body.sightings_sublist _)).trans
      (sublist_append_left _ _)
  | ret info e | crash info e =>
    rw [sightings, map_node_sightings]
    exact (Expr.optionRefs_sublist e).trans (sublist_append_left _ _)
  | defer info body => exact (body.sightings_sublist env).trans (sublist_append_left _ _)
  | expr info e =>
    rw [sightings, map_node_sightings]
    exact e.refs_sublist.trans (sublist_append_left _ _)
  | assign info op target value =>
    rw [sightings, map_append, map_node_sightings, map_node_sightings]
    exact (target.refs_sublist.append value.refs_sublist).trans (sublist_append_left _ _)
  | switch info e => exact nil_sublist _

theorem Stmt.allSightings_sublist (env : Env) (ss : List Stmt) :
    ((allSightings env ss).map (·.node)).Sublist (allIds .node ss) := by
  cases ss with
  | nil => exact nil_sublist _
  | cons s ss =>
    rw [allSightings, map_append]
    exact (s.sightings_sublist env).append (allSightings_sublist _ ss)

theorem Stmt.elseSightings_sublist (env : Env) (s : Option Stmt) :
    ((elseSightings env s).map (·.node)).Sublist (optionIds .node s) := by
  cases s with
  | none => exact nil_sublist _
  | some s => exact s.sightings_sublist env

end

def Decl.sightings : Decl → List Sighting
  | .function _ sig body => allSightings (paramEnv sig.params) body.body
  | .var _ decl => Env.sightings [] (Expr.optionRefs decl.init)
  | _ => []

theorem Decl.sightings_sublist (d : Decl) : (d.sightings.map (·.node)).Sublist (d.ids .node) := by
  cases d with
  | function info sig body =>
    have inBody := (allSightings_sublist (paramEnv sig.params) body.body).trans
      (sublist_append_left _ (body.info.nodeIds .node))
    exact (inBody.trans (sublist_append_right _ _)).trans (sublist_append_left _ _)
  | var info decl =>
    rw [Decl.sightings, map_node_sightings]
    exact ((Expr.optionRefs_sublist decl.init).trans (sublist_append_right _ _)).trans
      (sublist_append_left _ _)
  | _ => exact nil_sublist _

namespace Locals

def names (ls : Locals) : List (List String) := ls.map (·.map (·.name))

theorem names_useIn (name : String) (ls : List Local) :
    (useIn name ls).map (·.name) = ls.map (·.name) := by
  induction ls with
  | nil => rfl
  | cons l ls ih =>
    rw [useIn]
    split
    · rfl
    · rw [map_cons, ih, map_cons]

theorem names_use (name : String) (ls : Locals) : (ls.use name).names = ls.names := by
  induction ls with
  | nil => rfl
  | cons scope outer ih =>
    rw [use]
    split
    · exact congrArg (· :: names outer) (names_useIn name scope)
    · exact congrArg (scope.map (·.name) :: ·) ih

end Locals

theorem Env.isSome_lookup {env : Env} (h : name ∈ env.map (·.1)) :
    (env.lookup name).isSome = true := by
  induction env with
  | nil => cases h
  | cons b env ih =>
    rw [lookup_cons]
    split
    · rfl
    · rename_i hne
      rw [beq_eq_false_iff_ne] at hne
      exact ih (((mem_cons.mp h).resolve_left hne))

/-- The open scopes have the names of these locals, and what is recorded as a local is a reference
that sees one of its name. -/
structure Checking.Sighted (Ref : Sighting → Prop) (scopes : List Env) (st : Checking) : Prop where
  locals : st.locals.names = scopes.map (·.map (·.1))
  bindings : ∀ node, st.facts.bindings.get? node = some .local →
    ∃ env n, Ref ⟨env, node, [n]⟩ ∧ (env.lookup n).isSome = true

namespace Checking.Sighted

variable {Ref : Sighting → Prop} {scopes : List Env} {st : Checking}

theorem lookup (h : st.Sighted Ref scopes) {path : List String} {l : Local}
    (hl : st.local? path = some l) :
    ∃ n, path = [n] ∧ (scopes.flatten.lookup n).isSome = true := by
  unfold local? at hl
  split at hl
  · rename_i n
    refine ⟨n, rfl, isSome_lookup ?_⟩
    have named : l.name = n := beq_iff_eq.mp (find?_some (p := fun l : Local => l.name == n) hl)
    have known : n ∈ st.locals.names.flatten := by
      rw [Locals.names, ← map_flatten]
      exact named ▸ mem_map_of_mem (mem_of_find?_eq_some hl)
    rwa [h.locals, ← map_flatten] at known
  · cases hl

theorem of_eq (h : st.Sighted Ref scopes) {st' : Checking} (hlocals : st'.locals = st.locals)
    (hfacts : st'.facts.bindings = st.facts.bindings) : st'.Sighted Ref scopes :=
  ⟨hlocals ▸ h.locals, hfacts ▸ h.bindings⟩

end Checking.Sighted

def sightLaw (Ref : Sighting → Prop) (package : PackageId) : TypingLaw package where
  Sound scopes st := Diagnostic.Clean st.problems → st.Sighted Ref scopes
  Good _ _ := True
  Node _ := True
  Own _ := True
  Ref := Ref
  mono _ _ := trivial
  scalar _ _ := trivial
  pointer := Iff.rfl
  mutPointer := Iff.rfl
  array := Iff.rfl
  function := @TypingLaw.function_of_all
  field _ _ _ := trivial
  symbol _ _ _ _ := trivial
  resolve := @fun scopes st t hs => by
    refine ⟨fun clean => ?_, fun _ _ => trivial⟩
    have later := Survey.resolveType_later package none t st.toSurvey
    exact (hs (clean.of_prefix later.problems)).of_eq rfl rfl
  report problem span hs clean := (hs (clean.of_prefix (prefix_append _ _))).of_eq rfl rfl
  type hs _ _ clean := (hs clean).of_eq rfl rfl
  written hs _ _ clean := (hs clean).of_eq rfl rfl
  own hs _ _ _ _ _ clean := (hs clean).of_eq rfl rfl
  near := @fun scopes st node path l hs href hl => by
    refine ⟨fun _ _ => trivial, fun clean => ?_⟩
    have sighted := hs clean
    obtain ⟨n, rfl, hseen⟩ := sighted.lookup hl
    refine ⟨(Locals.names_use l.name st.locals).trans sighted.locals, fun other hother => ?_⟩
    rw [show (Check.setBinding node .local { st with locals := st.locals.use l.name }).2.facts.bindings =
      st.facts.bindings.insert node .local from rfl, Table.get?_insert] at hother
    split at hother
    · rename_i heq
      exact ⟨scopes.flatten, n, heq ▸ href, hseen⟩
    · exact sighted.bindings other hother
  far := @fun scopes st node path s b hs _ _ _ hbound clean => by
    have sighted := hs clean
    refine ⟨sighted.locals, fun other hother => ?_⟩
    rw [show (Check.setBinding node b st).2.facts.bindings =
      st.facts.bindings.insert node b from rfl, Table.get?_insert] at hother
    split at hother
    · cases hbound <;> cases hother
    · exact sighted.bindings other hother
  opened hs clean := ⟨congrArg (List.cons []) (hs clean).locals, (hs clean).bindings⟩
  closed := @fun scope scopes st hs clean => by
    have sighted := hs clean
    refine ⟨?_, sighted.bindings⟩
    rw [Locals.names, map_tail]
    exact congrArg List.tail sighted.locals
  declared := @fun scope scopes st l o hs _ clean => by
    rcases Check.declareLocal_cases l st with ⟨hnil, h⟩ | ⟨own, outer, hlocals, ⟨-, h⟩ | ⟨-, h⟩⟩
    · rw [h] at clean
      have none := (hs clean).locals
      rw [hnil] at none
      cases none
    · rw [h] at clean
      exact absurd clean (Diagnostic.not_clean_report _ rfl _)
    · rw [h] at clean ⊢
      have sighted := hs clean
      refine ⟨?_, sighted.bindings⟩
      have names := sighted.locals
      rw [hlocals] at names
      obtain ⟨hown, houter⟩ := List.cons.inj names
      exact congrArg₂ List.cons (congrArg (List.cons l.name) hown) houter

def PackageTable.Sights (table : PackageTable) (σ : Sighting) : Prop :=
  ∃ p file d, table.sourceOf? p = some file ∧ d ∈ file.decls ∧ σ ∈ d.sightings

section Resolve

variable {table : PackageTable} {files : List File} (holds : table.Holds files)
  (nodup : ∀ f ∈ files, (f.declIds .node).Nodup)

include holds nodup

theorem Globals.Sourced.madeFor {g : Globals} (sourced : g.Sourced table)
    (source : table.sourceOf? p = some file) {d : Decl} (hd : d ∈ file.decls) {s : Symbol}
    (hs : (g.scope p).symbol? name = some s) (hnode : s.node = d.id) :
    ∃ package, table.get? p = some package ∧ s.MadeFor package.isForeign d := by
  obtain ⟨-, path, file', isEntry, header, hget, ⟨d', hd', made⟩, -⟩ := sourced p name s hs
  have source' : table.sourceOf? p = some file' := by
    rw [PackageTable.sourceOf?, hget]
    rfl
  have hi : d.id ∈ d'.ids .node := hnode ▸ made.node ▸ d'.id_mem_ids
  obtain ⟨-, rfl⟩ := PackageTable.Holds.decl_eq holds nodup source hd source' hd' d.id_mem_ids hi
  exact ⟨_, hget, made⟩

theorem Globals.Sourced.arity {g : Globals} (sourced : g.Sourced table)
    (source : table.sourceOf? p = some file) {info : Info} {sig : Signature} {body : Block}
    (hd : .function info sig body ∈ file.decls) {s : Symbol}
    (hs : (g.scope p).symbol? name = some s) (hnode : s.node = info.id) {types : List Ty}
    {result : Ty} (hkind : s.kind = .function types result) : types.length = sig.params.length := by
  obtain ⟨_, -, made⟩ := sourced.madeFor holds nodup source hd hs hnode
  obtain ⟨params, result', hkind', arity⟩ := made.fits
  rw [hkind] at hkind'
  cases hkind'
  exact arity

theorem resolve_sighted {order : List PackageId} {nodes : Nat}
    (clean : Diagnostic.Clean (resolve table order nodes).2)
    (source : table.sourceOf? p = some file) {d : Decl} (hd : d ∈ file.decls) :
    ∀ σ ∈ d.sightings, (resolve table order nodes).1.binding? σ.node = some .local →
      ∃ n, σ.path = [n] ∧ (σ.env.lookup n).isSome = true := by
  let start : Checking := { Survey.ofPackages table order with facts := .ofSize nodes }
  have sourced := Survey.ofPackages_sourced table order
  have started : Diagnostic.Clean start.problems → start.Sighted table.Sights [] := by
    refine fun _ => ⟨rfl, fun node h => ?_⟩
    rw [show start.facts.bindings = .ofSize nodes from rfl, Table.get?_ofSize] at h
    cases h
  have admitted : ∀ p ∈ order, ∀ file, table.sourceOf? p = some file → ∀ d ∈ file.decls,
      (sightLaw table.Sights p).AdmitsDecl start.globals d := by
    intro p _ file source d hd
    cases d with
    | function info sig body =>
      intro s types result hs hkind hnode
      have arity := sourced.arity holds nodup source hd hs hnode hkind
      refine ⟨trivial, fun _ _ => trivial, fun σ hσ => ⟨p, file, _, source, hd, ?_⟩⟩
      rwa [arity, take_length] at hσ
    | var info decl =>
      refine ⟨trivial, fun _ _ => trivial, fun r hr => ⟨p, file, _, source, hd, ?_⟩⟩
      exact mem_map_of_mem hr
    | _ => trivial
  have sighted := (TypingLaw.packages_sound (sightLaw table.Sights) (fun _ _ => Iff.rfl) started
    admitted).1 clean
  intro σ hσ hlocal
  obtain ⟨env, n, ⟨p', file', d', source', hd', hσ'⟩, hseen⟩ := sighted.bindings σ.node hlocal
  have hi := d.sightings_sublist.subset (mem_map_of_mem hσ)
  have hi' := d'.sightings_sublist.subset (mem_map_of_mem hσ')
  obtain ⟨-, rfl⟩ := PackageTable.Holds.decl_eq holds nodup source hd source' hd' hi hi'
  have apart : (d.sightings.map (·.node)).Nodup :=
    ((nodup_flatMap.mp (nodup file (holds.among p file source))).1 d hd).sublist
      d.sightings_sublist
  have same := inj_on_of_nodup_map apart hσ hσ' rfl
  rw [same]
  exact ⟨n, rfl, hseen⟩

end Resolve

end Quill
