import Quill.Proofs.IdRange
import Quill.Proofs.PackageBuckets
import Quill.Proofs.SectionItems

/-!
# Table accesses

From the import graph to the C files, every number that a stage takes from an earlier one is that of
something there, whether or not the stages before found an error.
-/
namespace Quill

open List Graph

namespace PackageTable

/-- The ends of all imports are packages of the table. -/
structure ImportState.InRange (st : ImportState) : Prop where
  size : st.graph.size ≤ st.table.size
  needs : ∀ v d, st.graph.Needs v d → d < st.table.size

namespace ImportState.InRange

variable {st : ImportState}

theorem start (t : PackageTable) : InRange ⟨t, .ofSize t.size, []⟩ where
  size := by simp [Graph.ofSize, Graph.size]
  needs v d h := absurd h needs_ofSize

theorem importStep (h : st.InRange) {id : PackageId} (hid : id < st.table.size) (path : PackagePath)
    (d : Decl) : (importStep id path st d).InRange ∧
      st.table.size ≤ (PackageTable.importStep id path st d).table.size := by
  cases d with
  | imports info decl =>
    unfold PackageTable.importStep
    dsimp only
    generalize path.importTarget decl.kind decl.segments = target
    have grows := st.table.size_le_resolve target
    obtain ⟨package, hget⟩ := st.table.get?_resolved target
    have inside := lt_size_of_get? hget
    split
    · refine ⟨⟨?_, fun v d hneeds => ?_⟩, grows⟩
      · rw [size_addEdge]
        apply Nat.max_le.mpr
        exact ⟨Nat.le_trans h.size grows, Nat.max_lt.mpr ⟨Nat.lt_of_lt_of_le hid grows, inside⟩⟩
      · rcases needs_addEdge.mp hneeds with old | ⟨-, rfl⟩
        · exact Nat.lt_of_lt_of_le (h.needs v d old) grows
        · exact inside
    · exact ⟨⟨Nat.le_trans h.size grows,
        fun v d hneeds => Nat.lt_of_lt_of_le (h.needs v d hneeds) grows⟩, grows⟩
  | _ => exact ⟨h, Nat.le_refl _⟩

theorem importSteps (h : st.InRange) {id : PackageId} (hid : id < st.table.size)
    (path : PackagePath) (ds : List Decl) : (ds.foldl (PackageTable.importStep id path) st).InRange := by
  induction ds generalizing st with
  | nil => exact h
  | cons d ds ih =>
    obtain ⟨next, grows⟩ := h.importStep hid path d
    exact ih next (Nat.lt_of_lt_of_le hid grows)

theorem packageImports (h : st.InRange) (id : PackageId) : (packageImports st id).InRange := by
  unfold PackageTable.packageImports
  split
  · rename_i hget
    exact h.importSteps (lt_size_of_get? hget) _ _
  · exact h

end ImportState.InRange

theorem imports_inRange (t : PackageTable) : t.imports.InRange := by
  suffices h : ∀ (ids : List PackageId) (st : ImportState), st.InRange →
      (ids.foldl packageImports st).InRange from h t.sourced _ (.start t)
  intro ids
  induction ids with
  | nil => exact fun _ h => h
  | cons id ids ih => exact fun st h => ih _ (h.packageImports id)

theorem ImportState.InRange.reachable {st : ImportState} (h : st.InRange) {vertices : List PackageId}
    (hvertices : ∀ v ∈ vertices, v < st.table.size) {v : PackageId}
    (hv : st.graph.ReachableFrom vertices v) : v < st.table.size := by
  obtain ⟨u, hu, steps⟩ := hv
  rcases Relation.ReflTransGen.cases_tail steps with rfl | ⟨w, -, needs⟩
  · exact hvertices v hu
  · exact h.needs w v needs

end PackageTable

namespace Lower

variable {cx : Checked}

theorem definitionFields_places (defs : List Definition) (span : Span)
    (fields : List (String × Ty)) (st : Lowering) :
    ∀ i ∈ (definitionFields cx defs span fields st).1.2, i < defs.length := by
  induction fields generalizing st with
  | nil =>
    intro i hi
    cases hi
  | cons f fields ih =>
    obtain ⟨name, type⟩ := f
    rw [definitionFields]
    simp only [bind, StateT.bind]
    intro i hi
    rcases mem_append.mp hi with hi | hi
    · obtain ⟨stored, -, hfound⟩ := Option.bind_eq_some_iff.mp (Option.mem_toList.mp hi)
      exact (findIdx?_eq_some_iff_getElem.mp hfound).1
    · exact ih _ i hi

/-- The members of all definitions, with the places of the definitions they store inline. -/
def members (cx : Checked) (defs : List Definition) : Lower (List (List (CType × String) × List Nat)) :=
  defs.mapM fun d => definitionFields cx defs d.span d.fields

theorem length_mapM {σ α β : Type} (f : α → StateM σ β) (as : List α) (s : σ) :
    ((as.mapM f) s).1.length = as.length := by
  induction as generalizing s with
  | nil => rfl
  | cons a as ih =>
    rw [mapM_cons]
    exact congrArg (· + 1) (ih _)

theorem members_places (defs : List Definition) (st : Lowering) :
    (members cx defs st).1.length = defs.length ∧
      ∀ m ∈ (members cx defs st).1, ∀ i ∈ m.2, i < defs.length := by
  refine ⟨length_mapM _ defs st, fun m hm => ?_⟩
  obtain ⟨k, hk⟩ := getElem?_of_mem hm
  obtain ⟨d, st', -, rfl⟩ := getElem?_mapM hk
  exact definitionFields_places defs d.span d.fields st'

theorem reachable_places {lowered : List (List (CType × String) × List Nat)} {n : Nat}
    (h : ∀ m ∈ lowered, ∀ i ∈ m.2, i < n) {i : Nat}
    (hi : (mk (lowered.map (·.2)).toArray).ReachableFrom (range n) i) : i < n := by
  obtain ⟨u, hu, steps⟩ := hi
  rcases Relation.ReflTransGen.cases_tail steps with rfl | ⟨w, -, needs⟩
  · exact mem_range.mp hu
  · cases hm : lowered[w]? with
    | none => simp [Needs, dependencies, hm] at needs
    | some m =>
      simp only [Needs, dependencies, getElem?_toArray, getElem?_map, hm,
        Option.map_some, Option.getD_some] at needs
      exact h m (mem_of_getElem? hm) i needs

def rangeLoweringLaw {cx : Checked} {packages : Nat} (h : cx.resolution.InRange packages) :
    LoweringLaw cx where
  Sound st := st.instances.InRange cx.structs.size packages
  Uses u := u.1 < cx.structs.size ∧ Ty.AllInRange cx.structs.size packages u.2
  Gaps := True
  instantiate hst hu := hst.instantiate hu.1 hu.2
  report _ _ hst := hst
  types ht := (h.types _ _ ht).mentioned
  heads ht := by
    obtain ⟨hparams, hresult⟩ := h.types _ _ ht
    refine forall_mem_cons.mpr ⟨hresult.mentioned, fun t hmem => ?_⟩
    exact (Ty.allInRange_iff.mp hparams t hmem).mentioned
  written ht := (h.written _ _ ht).mentioned
  declared d hd u hu := by
    obtain ⟨info, decl, id, -, -, -, rfl⟩ := mem_declaredStructs hd
    obtain ⟨f, hf, hmentioned⟩ := mem_flatMap.mp hu
    exact (h.globals.fields id f hf).mentioned u hmentioned
  used u hu := by
    obtain ⟨⟨decl, version⟩, -, hu⟩ := mem_filterMap.mp hu
    obtain ⟨i, hi, rfl⟩ := Option.map_eq_some_iff.mp hu
    exact h.globals.instances i (Instances.mem_of_get? hi).1
  fields hu w hw := by
    obtain ⟨f, hf, hw⟩ := mem_flatMap.mp hw
    obtain ⟨pattern, hpattern, rfl⟩ := mem_map.mp hf
    exact (Ty.InRange.substitute hu.2 (h.globals.fields _ pattern hpattern)).mentioned w hw

end Lower

/-- Whatever the sources and whatever problems they have, all numbers that stages hand on are in
range. The import graph has no vertices but packages; the order, or the cycle found instead, lists
packages. After packages have been declared and checked in any order there is a scope for each
package, all packages and structs in scopes, types, instances and meanings of names are there, and
every version that a package is noted to use is found. Lowering any of the packages gives out
instances of structs that are there. And whatever definitions are put into order, their places are
places among them. -/
theorem Sources.numbers_in_range (sources : Sources) (options : Options) :
    let table := sources.table options
    let graph := (sources.imports options).graph
    (graph.size ≤ table.size ∧ ∀ v d, graph.Needs v d → v < table.size ∧ d < table.size) ∧
    (∀ order, graph.order table.sourced = .ok order → ∀ p ∈ order, p < table.size) ∧
    (∀ cycle, graph.order table.sourced = .error cycle → ∀ p ∈ cycle, p < table.size) ∧
    ∀ order,
      let cx := sources.checked options order
      let start : Lowering := { instances := cx.resolution.globals.instances }
      (Survey.ofPackages table order).globals.InRange table.size ∧
      cx.resolution.InRange table.size ∧
      (∀ ids, (Lower.files cx ids start).2.instances.InRange cx.structs.size table.size) ∧
      ∀ defs st,
        let lowered := (Lower.members cx defs st).1
        let places : Graph := ⟨(lowered.map (·.2)).toArray⟩
        lowered.length = defs.length ∧ (∀ m ∈ lowered, ∀ i ∈ m.2, i < defs.length) ∧
        (∀ order, places.order (List.range defs.length) = .ok order → ∀ i ∈ order, i < defs.length) ∧
        ∀ cycle, places.order (List.range defs.length) = .error cycle →
          ∀ i ∈ cycle, i < defs.length := by
  intro table graph
  have imported : (sources.imports options).InRange := PackageTable.imports_inRange _
  have sourced : ∀ v ∈ table.sourced, v < table.size := fun v hv =>
    List.mem_range.mp (List.mem_of_mem_filter hv)
  refine ⟨⟨imported.size, fun v d needs => ?_⟩, fun order hordered p hp => ?_,
    fun cycle hcycle p hp => ?_, fun order => ?_⟩
  · exact ⟨Nat.lt_of_lt_of_le (Graph.lt_size_of_needs needs) imported.size, imported.needs v d needs⟩
  · exact imported.reachable sourced ((Graph.finished_of_order hordered).1.reached p hp)
  · exact imported.reachable sourced ((Graph.isCycle_of_order hcycle).2 p hp)
  · intro cx start
    have resolved : cx.resolution.InRange table.size := resolve_inRange table order _
    refine ⟨Survey.ofPackages_inRange table order, resolved, fun ids => ?_,
      fun defs st => ?_⟩
    · have kept : Keeps (Lower.rangeLoweringLaw resolved).Sound (Lower.files cx ids) :=
        LoweringLaw.files_keeps fun _ _ _ _ _ _ => .inl trivial
      exact kept start resolved.globals.instances
    · intro lowered places
      obtain ⟨length, inside⟩ := @Lower.members_places cx defs st
      refine ⟨length, inside, fun order hordered i hi => ?_, fun cycle hcycle i hi => ?_⟩
      · exact Lower.reachable_places inside ((Graph.finished_of_order hordered).1.reached i hi)
      · exact Lower.reachable_places inside ((Graph.isCycle_of_order hcycle).2 i hi)

end Quill
