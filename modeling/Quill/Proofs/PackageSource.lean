import Quill.Package.Imports
import Quill.Proofs.Checking
import Quill.Proofs.GraphOrder
import Quill.Proofs.ReadIdentity

/-!
# Files and their packages

Each file is the source of a package of its own, and resolving paths changes no source.
-/
namespace Quill

namespace PackageTable

variable {id : PackageId} {t : PackageTable}

def sourceOf? (t : PackageTable) (id : PackageId) : Option File := (t.get? id).bind (·.source)

theorem isSourced_eq (t : PackageTable) (id : PackageId) :
    t.isSourced id = (t.sourceOf? id).isSome := by
  unfold isSourced sourceOf?
  cases t.get? id <;> rfl

theorem get?_resolve (t : PackageTable) (p : PackagePath) (id : PackageId) :
    (t.resolve p).2.get? id = t.get? id ∨
      (t.resolve p).1 = id ∧ t.get? id = none ∧ (t.resolve p).2.get? id = some { path := p } := by
  unfold resolve
  split
  · exact .inl rfl
  · by_cases h : id = t.packages.size
    · right
      subst h
      refine ⟨rfl, ?_, ?_⟩
      · simp [get?]
      · simp [get?]
    · left
      simp [get?, Array.getElem?_push, h]

theorem get?_of_lookup {p : PackagePath} (h : t.lookup p = some id) :
    ∃ package, t.get? id = some package := by
  have hany := List.find?_some h
  cases hget : t.get? id with
  | none => simp [hget] at hany
  | some package => exact ⟨package, rfl⟩

theorem get?_resolved (t : PackageTable) (p : PackagePath) :
    ∃ package, (t.resolve p).2.get? (t.resolve p).1 = some package := by
  unfold resolve
  split
  · rename_i id hid
    exact get?_of_lookup hid
  · exact ⟨{ path := p }, by simp [get?, size]⟩

/-- Every file is the source of some package, and no two packages share a node. -/
structure Holds (t : PackageTable) (files : List File) : Prop where
  placed : ∀ f ∈ files, ∃ id, t.sourceOf? id = some f
  among : ∀ id f, t.sourceOf? id = some f → f ∈ files
  apart : ∀ id id' f f', t.sourceOf? id = some f → t.sourceOf? id' = some f' → id ≠ id' →
    (f.declIds .node).Disjoint (f'.declIds .node)

theorem Holds.of_sourceOf? {t' : PackageTable} {files : List File} (h : t.Holds files)
    (hs : ∀ id, t'.sourceOf? id = t.sourceOf? id) : t'.Holds files where
  placed f hf := by
    obtain ⟨id, hid⟩ := h.placed f hf
    exact ⟨id, (hs id).trans hid⟩
  among id f hid := h.among id f ((hs id).symm.trans hid)
  apart id id' f f' hid hid' := h.apart id id' f f' ((hs id).symm.trans hid) ((hs id').symm.trans hid')

theorem lt_size_of_sourceOf? {f : File} (h : t.sourceOf? id = some f) : id < t.size := by
  refine Nat.lt_of_not_le fun hle => ?_
  rw [sourceOf?, get?, Array.getElem?_eq_none hle] at h
  cases h

theorem mem_sourced {f : File} (h : t.sourceOf? id = some f) : id ∈ t.sourced := by
  refine List.mem_filter.mpr ⟨List.mem_range.mpr (lt_size_of_sourceOf? h), ?_⟩
  rw [isSourced_eq, h]
  rfl

end PackageTable

end Quill
