import Mathlib.Data.List.Forall2
import Quill.Proofs.PackageBuckets
import Quill.Proofs.TreeIdentity

/-!
# Registered files

A file gets a package of its own, or there is one problem with it and the table stays as it is. The
first file of a path is the one that gets the package.
-/
namespace Quill

open List PackageTable Option

variable {f : File} {p : Package} {i : PackageId} {t t' : PackageTable}

def File.path (f : File) : PackagePath := ⟨f.packagePath?.getD []⟩

namespace PackageTable

/-- A file is the source of this package alone, or of none and this is reported. -/
def Accounts (t : PackageTable) (f : File) : PackageId ⊕ Diagnostic → Prop
  | .inl id => ∀ i, t.sourceOf? i = some f ↔ i = id
  | .inr d => (∀ i, t.sourceOf? i ≠ some f) ∧ ∃ reason, d = ⟨.package reason, f.info.span⟩

/-- What a table holds after files were registered in it. -/
structure Registered (entry : FileId) (files : List File) (t : PackageTable) (found : List Diagnostic) : Prop
    extends WellFormed t where
  /-- Each file has a package or a problem, no two the same package, and there are no other problems. -/
  outcome : ∃ os, List.Forall₂ t.Accounts files os ∧ found = os.filterMap Sum.getRight? ∧
    (os.filterMap Sum.getLeft?).Nodup
  source : ∀ i p, t.get? i = some p → ∃ f ∈ files, p.source = some f ∧ p.path = f.path
  named : ∀ f ∈ files, f.path.isAnonymous = false → ∃ i p, t.get? i = some p ∧ p.path = f.path
  first : ∀ i p, t.get? i = some p → p.path.isAnonymous = false → p.source = files.find? (·.path == p.path)
  isEntry : ∀ i p, t.get? i = some p → (p.isEntry = true ↔ p.source = files.find? (·.file == entry))

theorem Registered.ofBuckets (entry : FileId) (count : Nat) : Registered entry [] (ofBuckets count) [] := by
  have hnone (i : PackageId) : (PackageTable.ofBuckets count).get? i = none := by
    simp [get?, PackageTable.ofBuckets]
  refine ⟨ofBuckets_wellFormed count, ⟨[], .nil, rfl, .nil⟩, fun i p h => ?_, by simp, fun i p h => ?_, fun i p h => ?_⟩ <;>
    · rw [hnone] at h
      cases h

theorem WellFormed.attach (h : t.WellFormed) (f : File) (isEntry : Bool) :
    (t.attach f isEntry).1.WellFormed := by
  unfold PackageTable.attach
  dsimp only
  split
  · exact h
  split
  · exact h.resolve _
  · exact (h.resolve _).modify _ fun _ => rfl

theorem attach_cases (h : t.WellFormed) (sourced : ∀ i p, t.get? i = some p → p.source.isSome)
    (f : File) (isEntry : Bool) :
    (∃ reason, t.attach f isEntry = (t, some reason) ∧
      (f.path.isAnonymous = true ∧ isEntry = false ∨ ∃ i p, t.get? i = some p ∧ p.path = f.path)) ∨
    (t.attach f isEntry).2 = none ∧ (∀ i p, t.get? i = some p → p.path ≠ f.path) ∧
      ∃ header, ∀ i, (t.attach f isEntry).1.get? i =
        if i = t.size then some ⟨f.path, some f, isEntry, header⟩ else t.get? i := by
  unfold attach
  dsimp only
  rw [show (⟨f.packagePath?.getD []⟩ : PackagePath) = f.path from rfl]
  by_cases hnamed : (f.path.isAnonymous && !isEntry) = true
  · rw [if_pos hnamed]
    exact .inl ⟨_, rfl, .inl (by simpa using hnamed)⟩
  rw [if_neg hnamed]
  cases hlookup : t.lookup f.path with
  | some id =>
    obtain ⟨p, hp, hpath⟩ := map_eq_some_iff.mp ((t.getElem?_paths id).symm.trans (path_of_lookup hlookup))
    have hresolve : t.resolve f.path = (id, t) := by rw [resolve, hlookup]
    rw [hresolve, if_pos (by simp [isSourced, hp, sourced id p hp])]
    exact .inl ⟨_, rfl, .inr ⟨id, p, hp, hpath⟩⟩
  | none =>
    have hnew := h.lookup_eq_none_iff.mp hlookup
    rw [resolve, hlookup]
    dsimp only
    rw [if_neg (by simp [isSourced, get?, size])]
    refine .inr ⟨rfl, fun i p hp hpath => hnew ?_,
      (Directive.find? f.packageDirectives .cHeader).bind (·.argument), fun i => ?_⟩
    · exact mem_of_getElem? (i := i) (by rw [getElem?_paths, hp, map_some, hpath])
    · rw [get?, Array.getElem?_modify, Array.getElem?_push]
      by_cases hi : i = t.size
      · rw [if_pos hi.symm, if_pos (show i = t.packages.size from hi), if_pos hi]
        rfl
      · rw [if_neg (Ne.symm hi), if_neg (show i ≠ t.packages.size from hi), if_neg hi]
        rfl

namespace Registered

variable {entry : FileId} {files : List File} {t : PackageTable} {found : List Diagnostic}

theorem mem_of_sourceOf? (h : Registered entry files t found) (hf : t.sourceOf? i = some f) :
    f ∈ files := by
  obtain ⟨p, hp, hsource⟩ := bind_eq_some_iff.mp hf
  obtain ⟨g, hg, hgsource, -⟩ := h.source i p hp
  exact some.inj (hsource.symm.trans hgsource) ▸ hg

theorem sourced (h : Registered entry files t found) (hp : t.get? i = some p) :
    p.source.isSome := by
  obtain ⟨g, -, hg, -⟩ := h.source i p hp
  rw [hg]
  rfl

theorem find?_push {q : File → Bool} (hp : p.source.isSome) (hsource : p.source = files.find? q) :
    p.source = (files ++ [f]).find? q := by
  rw [find?_append, ← hsource]
  cases hs : p.source with
  | none => simp [hs] at hp
  | some g => rfl

section

variable (h : Registered entry files t found) (new : f ∉ files)

include h new

theorem entry_push (hp : t.get? i = some p) :
    p.isEntry = true ↔ p.source = (files ++ [f]).find? (·.file == entry) := by
  obtain ⟨g, hg, hsource, -⟩ := h.source i p hp
  refine (h.isEntry i p hp).trans ⟨find?_push (hsource ▸ rfl), fun hfind => ?_⟩
  rw [find?_append] at hfind
  cases hfirst : files.find? (·.file == entry) with
  | some g' => rw [hfind, hfirst]; rfl
  | none =>
    rw [hfirst, hsource, none_or] at hfind
    exact absurd (mem_singleton.mp (mem_of_find?_eq_some hfind.symm) ▸ hg) new

theorem refused {reason : PackageProblem}
    (why : f.path.isAnonymous = true ∨ ∃ i p, t.get? i = some p ∧ p.path = f.path) :
    Registered entry (files ++ [f]) t (found ++ [⟨.package reason, f.info.span⟩]) := by
  obtain ⟨os, hos, hfound, distinct⟩ := h.outcome
  refine ⟨h.toWellFormed, ⟨os ++ [.inr ⟨.package reason, f.info.span⟩], ?_, ?_, ?_⟩, fun i p hp => ?_, ?_, fun i p hp hn => ?_, fun i p hp => ?_⟩
  · refine rel_append hos (.cons ⟨fun i hi => new (h.mem_of_sourceOf? hi), reason, rfl⟩ .nil)
  · simp [hfound]
  · simpa [filterMap_cons] using distinct
  · obtain ⟨g, hg, rest⟩ := h.source i p hp
    exact ⟨g, mem_append_left _ hg, rest⟩
  · refine forall_mem_append.mpr ⟨h.named, ?_⟩
    rintro _ (_ | ⟨_, ⟨⟩⟩) hn
    exact why.resolve_left (by simp [hn])
  · exact find?_push (h.sourced hp) (h.first i p hp hn)
  · exact entry_push h new hp

theorem accepted (wellFormed : t'.WellFormed) (free : ∀ i p, t.get? i = some p → p.path ≠ f.path)
    {header : Option String}
    (hget : ∀ i, t'.get? i = if i = t.size then some ⟨f.path, some f, f.file == entry && !files.any (·.file == entry), header⟩ else t.get? i)
    : Registered entry (files ++ [f]) t' found := by
  obtain ⟨os, hos, hfound, distinct⟩ := h.outcome
  have below {i p} (hp : t.get? i = some p) : i ≠ t.size := by
    rintro rfl
    simp [get?, size] at hp
  have hsource (i) : t'.sourceOf? i = if i = t.size then some f else t.sourceOf? i := by
    rw [sourceOf?, hget]
    split <;> rfl
  have old {i p} (hi : i ≠ t.size) (hp : t'.get? i = some p) : t.get? i = some p := by
    rwa [hget, if_neg hi] at hp
  have accounts {g o} (hg : g ∈ files) (ho : t.Accounts g o) : t'.Accounts g o := by
    have hne : some f ≠ some g := fun heq => new (some.inj heq ▸ hg)
    cases o with
    | inl id =>
      intro i
      rw [hsource]
      split
      · rename_i hi
        refine ⟨fun heq => absurd heq hne, fun hid => ?_⟩
        obtain ⟨p, hp, -⟩ := bind_eq_some_iff.mp ((ho i).mpr hid)
        exact absurd hi (below hp)
      · exact ho i
    | inr d =>
      refine ⟨fun i => ?_, ho.2⟩
      rw [hsource]
      split
      · exact hne
      · exact ho.1 i
  refine ⟨wellFormed, ⟨os ++ [.inl t.size], ?_, ?_, ?_⟩, fun i p hp => ?_, ?_, fun i p hp hn => ?_, fun i p hp => ?_⟩
  · refine rel_append ?_ (.cons (fun i => ?_) .nil)
    · exact forall₂_iff_get.mpr ⟨hos.length_eq, fun i h₁ h₂ =>
        accounts (get_mem _ _) (forall₂_iff_get.mp hos |>.2 i h₁ h₂)⟩
    · rw [hsource]
      split
      · rename_i hi
        exact ⟨fun _ => hi, fun _ => rfl⟩
      · rename_i hi
        exact ⟨fun hf => absurd (h.mem_of_sourceOf? hf) new, fun heq => absurd heq hi⟩
  · simp [hfound, filterMap_cons]
  · rw [filterMap_append]
    refine distinct.append (nodup_singleton _) fun i hi hi' => ?_
    obtain rfl : i = t.size := by simpa using hi'
    obtain ⟨o, ho, hleft⟩ := mem_filterMap.mp hi
    obtain ⟨n, rfl⟩ := mem_iff_get.mp ho
    obtain ⟨length, each⟩ := forall₂_iff_get.mp hos
    have account := each n (by omega) n.2
    rw [Sum.getLeft?_eq_some_iff.mp hleft] at account
    obtain ⟨p, hp, -⟩ := bind_eq_some_iff.mp ((account _).mpr rfl)
    exact below hp rfl
  · by_cases hi : i = t.size
    · rw [hget, if_pos hi] at hp
      cases hp
      exact ⟨f, by simp, rfl, rfl⟩
    · obtain ⟨g, hg, rest⟩ := h.source i p (old hi hp)
      exact ⟨g, mem_append_left _ hg, rest⟩
  · refine forall_mem_append.mpr ⟨fun g hg hn => ?_, ?_⟩
    · obtain ⟨i, p, hp, hpath⟩ := h.named g hg hn
      exact ⟨i, p, by rw [hget, if_neg (below hp), hp], hpath⟩
    · rintro _ (_ | ⟨_, ⟨⟩⟩) -
      exact ⟨t.size, _, by rw [hget, if_pos rfl], rfl⟩
  · by_cases hi : i = t.size
    · rw [hget, if_pos hi] at hp
      cases hp
      have none : files.find? (·.path == f.path) = none := by
        refine find?_eq_none.mpr fun g hg heq => ?_
        obtain ⟨i, p, hp, hpath⟩ := h.named g hg (by rw [beq_iff_eq.mp heq]; exact hn)
        exact free i p hp (hpath.trans (beq_iff_eq.mp heq))
      rw [find?_append, none]
      simp
    · exact find?_push (h.sourced (old hi hp)) (h.first i p (old hi hp) hn)
  · by_cases hi : i = t.size
    · rw [hget, if_pos hi] at hp
      cases hp
      dsimp only
      rw [find?_append]
      cases hfirst : files.find? (·.file == entry) with
      | some g =>
        have hg := mem_of_find?_eq_some hfirst
        have any : files.any (·.file == entry) = true := any_eq_true.mpr ⟨g, hg, find?_some (p := fun x : File => x.file == entry) hfirst⟩
        simp only [any, Bool.not_true, Bool.and_false, Bool.false_eq_true, some_or, some.injEq, false_iff]
        rintro rfl
        exact new hg
      | none =>
        have none : files.any (·.file == entry) = false := by
          simpa [find?_eq_none] using hfirst
        cases hfile : f.file == entry <;> simp [none, hfile]
    · exact entry_push h new (old hi hp)

theorem attach :
    let r := t.attach f (f.file == entry && !files.any (·.file == entry))
    Registered entry (files ++ [f]) r.1
      (found ++ (r.2.map fun reason => (⟨.package reason, f.info.span⟩ : Diagnostic)).toList) := by
  intro r
  rcases attach_cases h.toWellFormed (fun i p => h.sourced) f (f.file == entry && !files.any (·.file == entry)) with
    ⟨reason, hr, why⟩ | ⟨hnone, free, header, hget⟩
  · rw [show r = (t, some reason) from hr]
    exact h.refused new (why.imp_left (·.1))
  · rw [show r.2 = none from hnone, map_none, toList_none, append_nil]
    exact h.accepted new (h.toWellFormed.attach _ _) free hget

end

theorem attachAll (fs : List File) {done : List File} (h : Registered entry done t found) (distinct : (done ++ fs).Nodup) :
    Registered entry (done ++ fs) (attachAll entry (done.any (·.file == entry)) t fs).1
      (found ++ (attachAll entry (done.any (·.file == entry)) t fs).2) := by
  induction fs generalizing done t found with
  | nil => simpa [attachAll] using h
  | cons f fs ih =>
    have new : f ∉ done := fun hf => (nodup_append.mp distinct).2.2 f hf f mem_cons_self rfl
    have next := ih (h.attach new) (by rwa [append_assoc])
    have seen : (done ++ [f]).any (·.file == entry) =
        (done.any (·.file == entry) || (f.file == entry && !done.any (·.file == entry))) := by
      rw [any_append, any_cons, any_nil, Bool.or_false]
      cases done.any (·.file == entry) <;> simp
    rw [seen, append_assoc, append_assoc] at next
    exact next

section

variable (h : Registered entry files t found)

include h

theorem accounts (hf : f ∈ files) : ∃ o, t.Accounts f o ∧ (∀ d, o = .inr d → d ∈ found) := by
  obtain ⟨os, hos, rfl, -⟩ := h.outcome
  obtain ⟨n, rfl⟩ := mem_iff_get.mp hf
  obtain ⟨length, each⟩ := forall₂_iff_get.mp hos
  exact ⟨_, each n n.2 (length ▸ n.2), fun d hd => mem_filterMap.mpr ⟨.inr d, hd ▸ get_mem _ _, rfl⟩⟩

theorem unique {j : PackageId} (hi : t.sourceOf? i = some f) (hj : t.sourceOf? j = some f) :
    i = j := by
  obtain ⟨o, account, -⟩ := h.accounts (h.mem_of_sourceOf? hi)
  cases o with
  | inl id => exact ((account i).mp hi).trans ((account j).mp hj).symm
  | inr d => exact absurd hi (account.1 i)

theorem placed (clean : Diagnostic.hasErrors found = false) (hf : f ∈ files) :
    ∃ i, t.sourceOf? i = some f := by
  obtain ⟨o, account, reported⟩ := h.accounts hf
  cases o with
  | inl id => exact ⟨id, (account id).mpr rfl⟩
  | inr d =>
    obtain ⟨-, reason, rfl⟩ := account
    exact absurd (any_eq_true.mpr ⟨_, reported _ rfl, rfl⟩) (Bool.eq_false_iff.mp clean)

end

end Registered

structure Grows (t t' : PackageTable) : Prop where
  wellFormed : t.WellFormed → t'.WellFormed
  get? : ∀ i, t'.get? i = t.get? i ∨ t.get? i = none ∧ ∃ path, t'.get? i = some { path }

theorem Grows.refl (t : PackageTable) : t.Grows t := ⟨id, fun _ => .inl rfl⟩

theorem Grows.trans {t'' : PackageTable} (h : t.Grows t') (h' : t'.Grows t'') : t.Grows t'' := by
  refine ⟨h'.wellFormed ∘ h.wellFormed, fun i => ?_⟩
  rcases h'.get? i with heq | ⟨hnone, hnew⟩
  · rw [heq]
    exact h.get? i
  · rcases h.get? i with heq | ⟨-, path, hsome⟩
    · exact .inr ⟨heq ▸ hnone, hnew⟩
    · rw [hnone] at hsome
      cases hsome

theorem Grows.resolve (t : PackageTable) (path : PackagePath) : t.Grows (t.resolve path).2 :=
  ⟨fun h => h.resolve path, fun i => (t.get?_resolve path i).imp_right fun h => ⟨h.2.1, path, h.2.2⟩⟩

theorem Grows.foldl {α : Type} (step : ImportState → α → ImportState)
    (h : ∀ (st : ImportState) a, st.table.Grows (step st a).table) (as : List α) (st : ImportState) :
    st.table.Grows (as.foldl step st).table := by
  induction as generalizing st with
  | nil => exact .refl _
  | cons a as ih => exact (h st a).trans (ih _)

theorem grows_imports (t : PackageTable) : t.Grows t.imports.table := by
  refine .foldl packageImports (fun st package => ?_) t.sourced ⟨t, .ofSize t.size, []⟩
  unfold packageImports
  split
  · refine .foldl (importStep package _) (fun st d => ?_) _ st
    cases d with
    | imports info decl =>
      rw [importStep]
      dsimp only
      split <;> exact .resolve _ _
    | _ => exact .refl _
  · exact .refl _

theorem Grows.sourceOf? (h : t.Grows t') (i : PackageId) : t'.sourceOf? i = t.sourceOf? i := by
  unfold PackageTable.sourceOf?
  rcases h.get? i with heq | ⟨hnone, path, hnew⟩
  · rw [heq]
  · rw [hnone, hnew]
    rfl

end PackageTable

theorem parse_files_nodup (texts : List (FileId × String)) : (parse texts).program.files.Nodup := by
  have apart := (nodup_flatMap.mp (parseTexts_own texts {}).apart.nodup).2
  refine apart.imp fun {f g} disjoint heq => ?_
  subst heq
  exact disjoint (a := f.info.id) (by simp [File.ids, Info.nodeIds]) (by simp [File.ids, Info.nodeIds])

theorem parse_registered (texts : List (FileId × String)) (entry : FileId) (buckets : Nat) :
    let r := (ofBuckets buckets).registerFiles (parse texts).program entry
    Registered entry (parse texts).program.files r.1 r.2 :=
  (PackageTable.Registered.ofBuckets entry buckets).attachAll _ (parse_files_nodup texts)

theorem PackageTable.registered_nodup {texts : List (FileId × String)} {buckets : Nat}
    {entry : FileId} {id : PackageId} (h : ((ofBuckets buckets).registerFiles (parse texts).program
      entry).1.imports.table.sourceOf? id = some f) : (f.declIds .node).Nodup := by
  rw [(grows_imports _).sourceOf?] at h
  exact (nodup_flatMap.mp (parse_numbered .node texts).nodup).1 f ((parse_registered texts entry buckets).mem_of_sourceOf? h)

theorem PackageTable.registered_holds {texts : List (FileId × String)} {buckets : Nat} {entry : FileId}
    (h : Diagnostic.Clean ((ofBuckets buckets).registerFiles (parse texts).program entry).2) :
    ((ofBuckets buckets).registerFiles (parse texts).program entry).1.imports.table.Holds
      (parse texts).program.files := by
  have registered := parse_registered texts entry buckets
  refine Holds.of_sourceOf? ⟨fun f => registered.placed h, fun i f => registered.mem_of_sourceOf?, ?_⟩ (grows_imports _).sourceOf?
  intro i j f g hi hj hne
  have distinct : f ≠ g := fun heq => hne (registered.unique hi (heq ▸ hj))
  have : Std.Symm (Function.onFun List.Disjoint (File.declIds .node)) := ⟨fun _ _ h _ hi hj => h hj hi⟩
  exact (nodup_flatMap.mp (parse_numbered .node texts).nodup).2.forall
    (registered.mem_of_sourceOf? hi) (registered.mem_of_sourceOf? hj) distinct

end Quill
