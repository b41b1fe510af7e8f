import Quill.Proofs.Arranged
import Quill.Proofs.TextPlaces

/-!
# The entry package

The package of the first file of the entry source is the entry, and compiling misses the entry only
where there is no such source.
-/
namespace Quill

open List

theorem parseText_file (file : FileId) (text : String) (ids : Identities) :
    (parseText file text ids).1 ≠ [] ∧ ∀ f ∈ (parseText file text ids).1, f.file = file := by
  obtain ⟨fs, u, hrun, some, steps, -⟩ :=
    Parser.Steps.files (.start file (Token.kept (Lexer.scan file text)) ids.nodes ids.types)
  have hfiles : (parseText file text ids).1 = fs := by
    unfold parseText parseTokens
    dsimp only
    rw [hrun]
    rfl
  rw [hfiles]
  refine ⟨some, fun f hf => ?_⟩
  obtain ⟨_, _, v, before, closed⟩ := steps.closed nofun (mem_map_of_mem hf)
  have on := (before.onPage nofun (start_onPage file text ids.nodes ids.types)).1
  exact (congrArg File.file (Option.some.inj closed)).symm.trans on.file

theorem exists_file {texts : List (FileId × String)} {r : FileId × String} (hr : r ∈ texts) :
    ∃ f ∈ (parse texts).program.files, f.file = r.1 := by
  have among : ∀ (texts : List (FileId × String)) (ids : Identities), r ∈ texts →
      ∃ f ∈ (parseTexts texts ids).1, f.file = r.1 := by
    intro texts
    induction texts with
    | nil => exact fun _ hr => absurd hr not_mem_nil
    | cons text more ih =>
      intro ids hr
      rw [parseTexts]
      rcases mem_cons.mp hr with rfl | hr
      · obtain ⟨some, own⟩ := parseText_file r.1 r.2 ids
        obtain ⟨f, hf⟩ := exists_mem_of_ne_nil _ some
        exact ⟨f, mem_append_left _ hf, own f hf⟩
      · obtain ⟨f, hf, own⟩ := ih _ hr
        exact ⟨f, mem_append_right _ hf, own⟩
  exact among texts {} hr

theorem Sources.hasEntry {sources : Sources} {options : Options} (there : options.entry < sources.length)
    (clean : Diagnostic.hasErrors (sources.registered options).2 = false) :
    (sources.table options).hasEntry = true := by
  have registered := parse_registered sources.numbered options.entry options.buckets
  have numbered : (options.entry, sources.get ⟨_, there⟩) ∈ sources.numbered := by
    refine mem_of_getElem? (i := options.entry) ?_
    rw [Sources.numbered, getElem?_zip_eq_some, getElem?_range there]
    exact ⟨rfl, getElem?_eq_getElem there⟩
  obtain ⟨f, hf, own⟩ := exists_file numbered
  obtain ⟨g, hg⟩ := Option.isSome_iff_exists.mp
    (find?_isSome.mpr ⟨f, hf, beq_iff_eq.mpr own⟩ :
      ((parse sources.numbered).program.files.find? (·.file == options.entry)).isSome)
  obtain ⟨i, hi⟩ := registered.placed clean (mem_of_find?_eq_some hg)
  obtain ⟨p, hp, hsource⟩ := Option.bind_eq_some_iff.mp hi
  have isEntry := (registered.isEntry i p hp).mpr (hsource.trans hg.symm)
  have stays : (sources.table options).get? i = some p := by
    rcases (PackageTable.grows_imports (sources.registered options).1).get? i with heq | ⟨hnone, -⟩
    · exact heq.trans hp
    · cases hnone.symm.trans hp
  exact Array.any_eq_true'.mpr ⟨p, Array.mem_of_getElem? stays, isEntry⟩

/-- Each file that was read has a package of its own or one problem that says why not; of the files
with a name it is the first that gets the package, and the first of the entry source gives the entry.
Compiling misses the entry if and only if there is no such source. -/
theorem registered_or_reported :
    (∀ (texts : List (FileId × String)) (entry : FileId) (buckets : Nat),
      let files := (parse texts).program.files
      let (t, found) := (PackageTable.ofBuckets buckets).registerFiles (parse texts).program entry
      (∃ os, List.Forall₂ t.Accounts files os ∧ found = os.filterMap Sum.getRight? ∧
        (os.filterMap Sum.getLeft?).Nodup) ∧
      (∀ f ∈ files, f.path.isAnonymous = false →
        ∃ i p, t.get? i = some p ∧ p.path = f.path ∧ p.source = files.find? (·.path == f.path)) ∧
      (∀ i p, t.get? i = some p → (p.isEntry = true ↔ p.source = files.find? (·.file == entry))) ∧
      ∀ i j p q, t.get? i = some p → t.get? j = some q → p.isEntry = true → q.isEntry = true → i = j) ∧
    ∀ (sources : Sources) (options : Options),
      compile sources options = .error .missingEntry ↔ sources.length ≤ options.entry := by
  refine ⟨fun texts entry buckets => ?_, fun sources options => ⟨fun h => ?_, fun h => ?_⟩⟩
  · have registered := parse_registered texts entry buckets
    refine ⟨registered.outcome, fun f hf named => ?_, registered.isEntry, (registered.arranged (.refl _)).unique⟩
    obtain ⟨i, p, hp, path⟩ := registered.named f hf named
    exact ⟨i, p, hp, path, path ▸ registered.first i p hp (path ▸ named)⟩
  · by_contra there
    unfold compile at h
    rw [if_neg there] at h
    obtain ⟨-, h⟩ := stopOnError_bind h nofun
    obtain ⟨hfound, h⟩ := stopOnError_bind h nofun
    simp only [Diagnostic.hasErrors, List.any_append, Bool.or_eq_false_iff] at hfound
    have entry := Sources.hasEntry (Nat.lt_of_not_le there) hfound.1.2
    dsimp only at h
    split at h
    · rename_i missing
      simp only [Bool.not_eq_true'] at missing
      exact absurd entry (Bool.eq_false_iff.mp missing)
    split at h
    · cases h
    obtain ⟨-, h⟩ := stopOnError_bind h nofun
    obtain ⟨-, h⟩ := stopOnError_bind h nofun
    cases h
  · unfold compile
    rw [if_pos h]
    rfl

end Quill
