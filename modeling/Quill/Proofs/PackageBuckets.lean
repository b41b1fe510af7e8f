import Mathlib.Data.List.Nodup
import Quill.Proofs.PackageSource

/-!
# Buckets of package tables

The buckets are an index over the packages, so looking a path up finds its place among all paths.
-/
namespace Quill

open List PackageTable

variable {id : PackageId} {p : PackagePath} {t : PackageTable}

theorem PackageTable.bucketOf_eq_zero_iff (t : PackageTable) (p : PackagePath) :
    t.bucketOf p = 0 ↔ p.segments = [] := by
  unfold bucketOf PackagePath.isAnonymous
  split
  · rename_i h
    exact ⟨fun _ => List.isEmpty_iff.mp h, fun _ => rfl⟩
  · rename_i h
    constructor
    · intro h'
      omega
    · intro h'
      exact absurd (List.isEmpty_iff.mpr h') h

namespace PackageTable

def paths (t : PackageTable) : List PackagePath := t.packages.toList.map (·.path)

def bucket (t : PackageTable) (b : Nat) : List PackageId := t.buckets[b]?.getD []

/-- No path occurs twice, and each bucket lists the packages that belong there. -/
structure WellFormed (t : PackageTable) : Prop where
  enough : 2 ≤ t.bucketCount
  bucket : ∀ b < t.bucketCount, t.bucket b = t.ids.filter fun id => t.bucketOf (t.pathOf id) = b
  distinct : t.paths.Nodup

theorem length_paths (t : PackageTable) : t.paths.length = t.size := by
  simp [paths, size]

theorem getElem?_paths (t : PackageTable) (id : PackageId) :
    t.paths[id]? = (t.get? id).map (·.path) := by
  simp [paths, get?]

theorem pathOf_eq (t : PackageTable) (h : id < t.paths.length) : t.pathOf id = t.paths[id] := by
  rw [pathOf, ← getElem?_paths, getElem?_eq_getElem h, Option.getD_some]

theorem bucketOf_lt (h : 2 ≤ t.bucketCount) (p : PackagePath) : t.bucketOf p < t.bucketCount := by
  unfold bucketOf
  split
  · omega
  · have := Nat.mod_lt p.hash.toNat (show t.bucketCount - 1 > 0 by omega)
    omega

theorem bucketOf_congr {t' : PackageTable} (h : t'.bucketCount = t.bucketCount) (p : PackagePath) :
    t'.bucketOf p = t.bucketOf p := by
  rw [bucketOf, bucketOf, h]

theorem path_of_lookup (h : t.lookup p = some id) : t.paths[id]? = some p := by
  have found := find?_some h
  rw [getElem?_paths]
  cases hget : t.get? id with
  | none => simp [hget] at found
  | some package => simpa [hget] using found

namespace WellFormed

variable {t : PackageTable} (h : t.WellFormed)

include h

theorem mem_bucket {b id : Nat} : id ∈ t.bucket b ↔ id < t.size ∧ b = t.bucketOf (t.pathOf id) := by
  by_cases hb : b < t.bucketCount
  · rw [h.bucket b hb, mem_filter, ids, mem_range, decide_eq_true_iff, eq_comm]
  · have outside : t.bucket b = [] := by
      rw [PackageTable.bucket, Array.getElem?_eq_none (Nat.le_of_not_lt hb), Option.getD_none]
    rw [outside]
    refine ⟨fun hid => absurd hid not_mem_nil, fun hid => ?_⟩
    exact absurd (hid.2 ▸ bucketOf_lt h.enough _) hb

theorem nodup_bucket (b : Nat) : (t.bucket b).Nodup := by
  by_cases hb : b < t.bucketCount
  · rw [h.bucket b hb]
    exact nodup_range.filter _
  · rw [PackageTable.bucket, Array.getElem?_eq_none (Nat.le_of_not_lt hb), Option.getD_none]
    exact nodup_nil

theorem lookup_eq_some_iff : t.lookup p = some id ↔ t.paths[id]? = some p := by
  refine ⟨path_of_lookup, fun hid => ?_⟩
  obtain ⟨hlt, heq⟩ := List.getElem?_eq_some_iff.mp hid
  have path : t.pathOf id = p := (t.pathOf_eq hlt).trans heq
  have here : id ∈ t.bucket (t.bucketOf p) :=
    h.mem_bucket.mpr ⟨t.length_paths ▸ hlt, by rw [path]⟩
  have matching : (t.get? id).any (·.path == p) = true := by
    rw [getElem?_paths, Option.map_eq_some_iff] at hid
    obtain ⟨package, hget, rfl⟩ := hid
    simp [hget]
  cases hfound : t.lookup p with
  | none => exact absurd matching (find?_eq_none.mp hfound id here)
  | some other =>
    obtain ⟨hlt', heq'⟩ := List.getElem?_eq_some_iff.mp (path_of_lookup hfound)
    rw [(List.Nodup.getElem_inj_iff h.distinct).mp (heq'.trans heq.symm)]

theorem lookup_eq_none_iff : t.lookup p = none ↔ p ∉ t.paths := by
  rw [mem_iff_getElem?, Option.eq_none_iff_forall_ne_some]
  simp only [h.lookup_eq_some_iff, ne_eq, not_exists]

theorem resolve_fst (p : PackagePath) : (t.resolve p).1 = (t.paths ++ [p]).idxOf p := by
  unfold resolve
  cases hfound : t.lookup p with
  | none =>
    have new := h.lookup_eq_none_iff.mp hfound
    rw [idxOf_append, if_neg new, idxOf_cons_self, Nat.zero_add, t.length_paths]
  | some id =>
    obtain ⟨hlt, heq⟩ := List.getElem?_eq_some_iff.mp (h.lookup_eq_some_iff.mp hfound)
    have known : p ∈ t.paths := heq ▸ getElem_mem hlt
    rw [idxOf_append, if_pos known, ← heq, h.distinct.idxOf_getElem id hlt]

theorem paths_resolve (p : PackagePath) :
    (t.resolve p).2.paths = if p ∈ t.paths then t.paths else t.paths ++ [p] := by
  unfold resolve
  cases hfound : t.lookup p with
  | none =>
    rw [if_neg (h.lookup_eq_none_iff.mp hfound)]
    simp [paths]
  | some id =>
    rw [if_pos (mem_of_getElem? (h.lookup_eq_some_iff.mp hfound))]

end WellFormed

theorem get?_resolve_of_lt (p : PackagePath) (h : id < t.size) :
    (t.resolve p).2.get? id = t.get? id := by
  rcases t.get?_resolve p id with heq | ⟨-, hnone, -⟩
  · exact heq
  · rw [get?, Array.getElem?_eq_getElem h] at hnone
    cases hnone

theorem size_le_resolve (t : PackageTable) (p : PackagePath) : t.size ≤ (t.resolve p).2.size := by
  unfold resolve
  split
  · exact Nat.le_refl _
  · simp [size]

theorem bucketCount_resolve (t : PackageTable) (p : PackagePath) :
    (t.resolve p).2.bucketCount = t.bucketCount := by
  unfold resolve
  split
  · rfl
  · exact Array.size_modify

theorem bucket_resolve (hnew : t.lookup p = none) {b : Nat} (hb : b < t.bucketCount) :
    (t.resolve p).2.bucket b = t.bucket b ++ if t.bucketOf p = b then [t.size] else [] := by
  have inside : b < t.buckets.size := hb
  simp only [resolve, hnew, bucket, Array.getElem?_modify]
  split
  · rw [Array.getElem?_eq_getElem inside]
    rfl
  · rw [append_nil]

theorem WellFormed.resolve (h : t.WellFormed) (p : PackagePath) : (t.resolve p).2.WellFormed := by
  cases hfound : t.lookup p with
  | some id =>
    rw [PackageTable.resolve, hfound]
    exact h
  | none =>
    refine ⟨?_, fun b hb => ?_, ?_⟩
    · rw [bucketCount_resolve]
      exact h.enough
    · rw [bucketCount_resolve] at hb
      have size : (t.resolve p).2.size = t.size + 1 := by
        simp [PackageTable.resolve, hfound, PackageTable.size]
      have last : (t.resolve p).2.pathOf t.size = p := by
        simp [PackageTable.resolve, hfound, pathOf, get?, PackageTable.size]
      have old : ∀ id ∈ List.range t.size, (t.resolve p).2.pathOf id = t.pathOf id := by
        intro id hid
        rw [pathOf, pathOf, get?_resolve_of_lt p (mem_range.mp hid)]
      rw [bucket_resolve hfound hb, h.bucket b hb, ids, ids, size, range_succ,
        filter_append]
      simp only [bucketOf_congr (bucketCount_resolve t p)]
      congr 1
      · exact filter_congr fun id hid => by rw [old id hid]
      · rw [filter_singleton, last, Bool.cond_decide]
    · have new := h.lookup_eq_none_iff.mp hfound
      rw [h.paths_resolve, if_neg new, nodup_append]
      refine ⟨h.distinct, nodup_singleton p, fun a ha b hb heq => new ?_⟩
      rw [← mem_singleton.mp hb, ← heq]
      exact ha

theorem ofBuckets_wellFormed (count : Nat) : (ofBuckets count).WellFormed := by
  refine ⟨?_, fun b hb => ?_, ?_⟩
  · rw [bucketCount, ofBuckets, Array.size_replicate]
    exact Nat.le_max_right count 2
  · have inside : b < max count 2 := by simpa [bucketCount, ofBuckets] using hb
    simp [bucket, ofBuckets, ids, size, inside]
  · simp [paths, ofBuckets]

def resolveAll (t : PackageTable) : List PackagePath → List PackageId × PackageTable
  | [] => ([], t)
  | p :: ps =>
    let (id, t) := t.resolve p
    let (ids, t) := t.resolveAll ps
    (id :: ids, t)

theorem WellFormed.resolveAll (h : t.WellFormed) (ps : List PackagePath) :
    (t.resolveAll ps).2.WellFormed := by
  induction ps generalizing t with
  | nil => exact h
  | cons p ps ih => exact ih (h.resolve p)

theorem eraseDups_of_nodup {α : Type} [DecidableEq α] {l : List α} (h : l.Nodup) :
    l.eraseDups = l := by
  induction l with
  | nil => rfl
  | cons a l ih =>
    obtain ⟨new, rest⟩ := nodup_cons.mp h
    have others : l.filter (fun b => !b == a) = l := by
      refine filter_eq_self.mpr fun b hb => ?_
      have hne : b ≠ a := fun heq => new (heq ▸ hb)
      simp [hne]
    rw [eraseDups_cons, others, ih rest]

theorem WellFormed.eraseDups_resolve (h : t.WellFormed) (p : PackagePath) (ps : List PackagePath) :
    ((t.resolve p).2.paths ++ ps).eraseDups = (t.paths ++ p :: ps).eraseDups := by
  rw [h.paths_resolve]
  split
  · rename_i known
    rw [eraseDups_append, eraseDups_append]
    simp [List.removeAll, known]
  · rw [append_assoc, singleton_append]

theorem WellFormed.paths_resolveAll (h : t.WellFormed) (ps : List PackagePath) :
    (t.resolveAll ps).2.paths = (t.paths ++ ps).eraseDups := by
  induction ps generalizing t with
  | nil => rw [append_nil, eraseDups_of_nodup h.distinct, PackageTable.resolveAll]
  | cons p ps ih => exact (ih (h.resolve p)).trans (h.eraseDups_resolve p ps)

theorem WellFormed.resolveAll_fst (h : t.WellFormed) (ps : List PackagePath) :
    (t.resolveAll ps).1 = ps.map (t.paths ++ ps).eraseDups.idxOf := by
  induction ps generalizing t with
  | nil => rfl
  | cons p ps ih =>
    have first : (t.resolve p).1 = (t.paths ++ p :: ps).eraseDups.idxOf p := by
      have known : p ∈ (t.resolve p).2.paths := by
        rw [h.paths_resolve]
        split
        · assumption
        · exact mem_append_right _ (mem_singleton_self p)
      rw [← h.eraseDups_resolve, eraseDups_append, eraseDups_of_nodup (h.resolve p).distinct,
        idxOf_append, if_pos known, h.resolve_fst, h.paths_resolve]
      split
      · rename_i old
        rw [idxOf_append, if_pos old]
      · rfl
    have rest := ih (h.resolve p)
    rw [h.eraseDups_resolve] at rest
    exact congrArg₂ List.cons first rest

theorem get?_resolveAll_of_lt (ps : List PackagePath) (h : id < t.size) :
    (t.resolveAll ps).2.get? id = t.get? id := by
  induction ps generalizing t with
  | nil => rfl
  | cons p ps ih =>
    have later : id < (t.resolve p).2.size := Nat.lt_of_lt_of_le h (t.size_le_resolve p)
    exact (ih later).trans (get?_resolve_of_lt p h)

theorem WellFormed.modify (h : t.WellFormed) (id : PackageId) {f : Package → Package}
    (hf : ∀ package, (f package).path = package.path) :
    WellFormed { t with packages := t.packages.modify id f } := by
  have path (other : PackageId) :
      pathOf { t with packages := t.packages.modify id f } other = t.pathOf other := by
    simp only [pathOf, get?, Array.getElem?_modify]
    split
    · cases t.packages[other]? with
      | none => rfl
      | some package => simp [hf]
    · rfl
  have paths : paths { t with packages := t.packages.modify id f } = t.paths := by
    refine ext_getElem? fun other => ?_
    simp only [getElem?_paths, get?, Array.getElem?_modify]
    split
    · cases t.packages[other]? with
      | none => rfl
      | some package => simp [hf]
    · rfl
  refine ⟨h.enough, fun b hb => ?_, paths ▸ h.distinct⟩
  have size : size { t with packages := t.packages.modify id f } = t.size :=
    Array.size_modify
  rw [ids, size]
  simp only [path]
  exact h.bucket b hb

/-- The tables hold the same packages, each in its own buckets. -/
structure Alike (t t' : PackageTable) : Prop where
  packages : t'.packages = t.packages
  left : t.WellFormed
  right : t'.WellFormed

namespace Alike

variable {t t' : PackageTable} (h : t.Alike t')

include h

theorem get? (id : PackageId) : t'.get? id = t.get? id := by
  rw [PackageTable.get?, PackageTable.get?, h.packages]

theorem size : t'.size = t.size := congrArg Array.size h.packages

theorem pathOf : t'.pathOf = t.pathOf := by
  funext id
  rw [PackageTable.pathOf, PackageTable.pathOf, h.get?]

theorem isSourced : t'.isSourced = t.isSourced := by
  funext id
  rw [PackageTable.isSourced, PackageTable.isSourced, h.get?]

theorem sourced : t'.sourced = t.sourced := by
  rw [PackageTable.sourced, PackageTable.sourced, PackageTable.ids, PackageTable.ids, h.size,
    h.isSourced]

theorem hasEntry : t'.hasEntry = t.hasEntry := by
  rw [PackageTable.hasEntry, PackageTable.hasEntry, h.packages]

theorem lookup : t'.lookup = t.lookup := by
  funext p
  refine Option.ext fun id => ?_
  rw [h.right.lookup_eq_some_iff, h.left.lookup_eq_some_iff, getElem?_paths, getElem?_paths, h.get?]

theorem resolve (p : PackagePath) :
    (t'.resolve p).1 = (t.resolve p).1 ∧ (t.resolve p).2.Alike (t'.resolve p).2 := by
  have same := congrFun h.lookup p
  refine ⟨?_, ?_, h.left.resolve p, h.right.resolve p⟩ <;>
    unfold PackageTable.resolve <;> rw [same] <;> split
  · rfl
  · exact h.size
  · exact h.packages
  · rw [h.packages]

theorem attach (f : File) (isEntry : Bool) :
    (t'.attach f isEntry).2 = (t.attach f isEntry).2 ∧
      (t.attach f isEntry).1.Alike (t'.attach f isEntry).1 := by
  obtain ⟨number, alike⟩ := h.resolve ⟨f.packagePath?.getD []⟩
  unfold PackageTable.attach
  dsimp only
  rw [number, alike.isSourced]
  split
  · exact ⟨rfl, h⟩
  · split
    · exact ⟨rfl, alike⟩
    · refine ⟨rfl, ?_, alike.left.modify _ fun _ => rfl, alike.right.modify _ fun _ => rfl⟩
      rw [alike.packages]

theorem attachAll (entry : FileId) (seen : Bool) (fs : List File) :
    (attachAll entry seen t' fs).2 = (attachAll entry seen t fs).2 ∧
      (attachAll entry seen t fs).1.Alike
        (attachAll entry seen t' fs).1 := by
  induction fs generalizing seen t t' with
  | nil => exact ⟨rfl, h⟩
  | cons f fs ih =>
    obtain ⟨problem, alike⟩ := h.attach f (f.file == entry && !seen)
    obtain ⟨more, after⟩ := ih alike (seen || (f.file == entry && !seen))
    refine ⟨?_, after⟩
    rw [attachAll, attachAll]
    dsimp only
    rw [problem, more]

end Alike

/-- The imports gone through so far lead to the same graph and the same problems. -/
structure ImportState.Alike (st st' : ImportState) : Prop where
  table : st.table.Alike st'.table
  graph : st'.graph = st.graph
  problems : st'.problems = st.problems

theorem ImportState.Alike.importStep {st st' : ImportState} (h : st.Alike st') (id : PackageId)
    (path : PackagePath) (d : Decl) :
    (importStep id path st d).Alike (importStep id path st' d) := by
  cases d with
  | imports info decl =>
    obtain ⟨number, alike⟩ := h.table.resolve (path.importTarget decl.kind decl.segments)
    rw [PackageTable.importStep, PackageTable.importStep]
    dsimp only
    rw [number, alike.isSourced]
    split
    · exact ⟨alike, by rw [h.graph], h.problems⟩
    · exact ⟨alike, h.graph, by rw [h.problems]⟩
  | _ => exact h

theorem ImportState.Alike.packageImports {st st' : ImportState} (h : st.Alike st')
    (id : PackageId) :
    (packageImports st id).Alike (packageImports st' id) := by
  unfold PackageTable.packageImports
  rw [h.table.get?]
  split
  · rename_i path file isEntry header hget
    clear hget
    induction file.decls generalizing st st' with
    | nil => exact h
    | cons d ds ih => exact ih (h.importStep id path d)
  · exact h

theorem Alike.imports {t' : PackageTable} (h : t.Alike t') : t.imports.Alike t'.imports := by
  have start : ImportState.Alike ⟨t, .ofSize t.size, []⟩ ⟨t', .ofSize t'.size, []⟩ :=
    ⟨h, congrArg Graph.ofSize h.size, rfl⟩
  rw [PackageTable.imports, PackageTable.imports, h.sourced]
  generalize t.sourced = ids at *
  generalize (⟨t, .ofSize t.size, []⟩ : ImportState) = st at *
  generalize (⟨t', .ofSize t'.size, []⟩ : ImportState) = st' at *
  induction ids generalizing st st' with
  | nil => exact start
  | cons id ids ih => exact ih _ _ (start.packageImports id)

theorem ofBuckets_alike (count count' : Nat) : (ofBuckets count).Alike (ofBuckets count') :=
  ⟨rfl, ofBuckets_wellFormed count, ofBuckets_wellFormed count'⟩

end PackageTable
end Quill
