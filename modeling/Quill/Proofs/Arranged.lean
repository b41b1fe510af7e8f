import Quill.Proofs.Accepted
import Quill.Proofs.Registration

/-!
# Arranged packages

Each file with a package is the source of the package that it names, and one file at most makes its
package the entry: the first of the entry source. Imports add packages without source only.
-/
namespace Quill

namespace PackageTable

/-- Packages have the paths that their files name, and no other package than the one of the file
`entry` is an entry. -/
structure Arranged (t : PackageTable) (entry : Option File) : Prop extends WellFormed t where
  path : ∀ i p, t.get? i = some p → ∀ f, p.source = some f → p.path = f.path
  source : ∀ i p, t.get? i = some p → p.isEntry = true → ∃ f, entry = some f ∧ p.source = some f
  unique : ∀ i j p q, t.get? i = some p → t.get? j = some q → p.isEntry = true →
    q.isEntry = true → i = j

theorem Registered.arranged {id : FileId} {files : List File} {t t' : PackageTable} {found : List Diagnostic}
    (h : Registered id files t found) (grows : t.Grows t') : t'.Arranged (files.find? (·.file == id)) := by
  have sourced {i : PackageId} {p : Package} (hp : t'.get? i = some p) (hsource : p.source ≠ none ∨ p.isEntry = true) :
      t.get? i = some p := by
    rcases grows.get? i with heq | ⟨-, path, hnew⟩
    · exact heq ▸ hp
    · rw [hnew] at hp
      cases hp
      simp at hsource
  have first {i : PackageId} {p : Package} (hp : t'.get? i = some p) (he : p.isEntry = true) :
      ∃ f, files.find? (·.file == id) = some f ∧ p.source = some f := by
    obtain ⟨f, -, hf, -⟩ := h.source i p (sourced hp (.inr he))
    exact ⟨f, ((h.isEntry i p (sourced hp (.inr he))).mp he).symm.trans hf, hf⟩
  refine ⟨grows.wellFormed h.toWellFormed, fun i p hp f hf => ?_, fun i p => first, fun i j p q hp hq hpe hqe => ?_⟩
  · obtain ⟨g, -, hg, hpath⟩ := h.source i p (sourced hp (.inl (hf ▸ nofun)))
    exact hpath.trans (Option.some.inj (hf.symm.trans hg) ▸ rfl)
  · obtain ⟨f, hf, hpf⟩ := first hp hpe
    obtain ⟨g, hg, hqg⟩ := first hq hqe
    cases hf.symm.trans hg
    refine h.unique (f := f) ?_ ?_
    · rw [sourceOf?, sourced hp (.inr hpe)]
      exact hpf
    · rw [sourceOf?, sourced hq (.inr hqe)]
      exact hqg

end PackageTable

theorem Sources.arranged (sources : Sources) (options : Options) :
    (sources.table options).Arranged
      ((parse sources.numbered).program.files.find? (·.file == options.entry)) :=
  (parse_registered sources.numbered options.entry options.buckets).arranged (PackageTable.grows_imports _)

end Quill
