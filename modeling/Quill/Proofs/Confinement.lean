import Quill.Command.Run
import Quill.Proofs.Entities
import Quill.Proofs.NormalPath
import Quill.Proofs.OutputFiles

/-!
# Where a run writes

A run that comes to its end before the generated files are written leaves all files alone. Otherwise
it makes the output directory and changes nothing but files of generated names in it.
-/
namespace Quill

open List

variable {files : List Generated} {name : String}

/-! ## Names of generated files -/

/-- A name that stands for a file in a directory and leads nowhere else. -/
structure IsFileName (name : String) : Prop where
  single : '/' ∉ name.toList
  nonempty : name ≠ ""
  notSelf : name ≠ "."
  notParent : name ≠ ".."

theorem IsFileName.of_getLast? (h : '/' ∉ name.toList) {c : Char}
    (hlast : name.toList.getLast? = some c) (hc : c ≠ '.') : IsFileName name where
  single := h
  nonempty := by rintro rfl; exact absurd hlast (by simp)
  notSelf := by rintro rfl; exact hc (by simpa using hlast.symm)
  notParent := by rintro rfl; exact hc (by simpa using hlast.symm)

theorem slash_notMem_joined {names : List String} (h : ∀ name ∈ names, IsWord name) :
    '/' ∉ ("_".intercalate names).toList := by
  have hword {name : String} (hname : IsWord name) : '/' ∉ name.toList := fun hmem =>
    absurd (hname.chars _ hmem) (by decide)
  rw [String.toList_intercalate]
  induction names with
  | nil => exact not_mem_nil
  | cons name names ih =>
    obtain ⟨hname, hnames⟩ := forall_mem_cons.mp h
    cases names with
    | nil => simpa using hword hname
    | cons next names =>
      rw [map_cons, map_cons, intercalate_cons_cons]
      simpa [hword hname] using ih hnames

theorem slash_notMem_stem {path : PackagePath} (h : ∀ segment ∈ path.segments, IsWord segment) :
    '/' ∉ path.stem.toList := by
  rw [PackagePath.stem]
  split
  · decide
  · exact slash_notMem_joined h

theorem compile_fileNames {sources : Sources} {options : Options} {artifact : Artifact}
    (h : compile sources options = .ok artifact) : ∀ f ∈ artifact.files, IsFileName f.name := by
  obtain ⟨accepted, -, generated, -⟩ := accepted_of_compile h
  rw [generated, accepted.generated_eq]
  intro f hf
  obtain ⟨c, hc, rfl⟩ := mem_map.mp hf
  obtain ⟨l, hl, hc⟩ := mem_flatMap.mp hc
  have hpath : (sources.table options).pathOf l.id = l.path := by
    rw [PackageTable.pathOf, Accepted.get?_emitted hl]
    rfl
  have hstem : '/' ∉ l.path.stem.toList :=
    slash_notMem_stem (hpath ▸ accepted.segments_isWord (Sources.source_of_emitted hl))
  have hname : c.name ∈ l.cFiles.map (·.name) := mem_map_of_mem hc
  rw [Lower.Emitted.names] at hname
  split at hname
  · rw [mem_singleton] at hname
    refine .of_getLast? (c := 'c') ?_ ?_ (by decide) <;> simp [CFile.render, hname]
  · rcases mem_pair.mp hname with hname | hname
    · refine .of_getLast? (c := 'h') ?_ ?_ (by decide) <;> simp [CFile.render, hname, hstem]
    · refine .of_getLast? (c := 'c') ?_ ?_ (by decide) <;> simp [CFile.render, hname, hstem]

namespace Location

def namesIn (text : String) : List String :=
  ((Path.segments text.toList).map String.ofList).filter fun name => name != "" && name != "."

theorem namesIn_slash (front text : String) :
    namesIn (front ++ "/" ++ text) = namesIn front ++ namesIn text := by
  have htext : (front ++ "/" ++ text).toList = front.toList ++ '/' :: text.toList := by simp
  rw [namesIn, htext, Path.segments_append_slash, map_append, filter_append]
  rfl

theorem namesIn_fileName (h : IsFileName name) : namesIn name = [name] := by
  rw [namesIn, Path.segments_of_notMem h.single]
  simp [h.nonempty, h.notSelf]

theorem isAbsolute_append {front : String} (h : front ≠ "") (text : String) :
    Path.isAbsolute (front ++ text).toList = Path.isAbsolute front.toList := by
  rw [String.toList_append, Path.isAbsolute, Path.isAbsolute, head?_append_of_ne_nil]
  simpa using h

theorem ofPath_eq (path : String) : ofPath path =
    (if Path.isAbsolute path.toList then ["/"] else []) ++ namesIn path := rfl

theorem ofPath_join (dir : String) (h : IsFileName name) :
    ofPath (join dir [name]) = ofPath dir ++ [name] := by
  by_cases hempty : dir = ""
  · have hjoin : join dir [name] = name := by simp [join, hempty]
    have hrelative : Path.isAbsolute name.toList = false := by
      rw [Path.isAbsolute, beq_eq_false_iff_ne]
      exact fun hhead => h.single (mem_of_mem_head? hhead)
    rw [hjoin, ofPath_eq, hrelative, namesIn_fileName h, hempty]
    rfl
  by_cases hends : dir.endsWith "/" = true
  · have hjoin : join dir [name] = dir ++ name := by simp [join, hends]
    obtain ⟨front, rfl⟩ : ∃ front : String, dir = front ++ "/" := by
      rw [String.endsWith_eq_endsWith_toSlice, String.Slice.endsWith_string_iff,
        String.copy_toSlice] at hends
      obtain ⟨front, hfront⟩ := hends
      exact ⟨String.ofList front, by rw [← String.toList_inj, ← hfront]; simp⟩
    have hdir : namesIn (front ++ "/") = namesIn front := by
      have hslash := namesIn_slash front ""
      rwa [String.append_empty, show namesIn "" = [] by decide, append_nil] at hslash
    rw [hjoin, ofPath_eq, isAbsolute_append hempty, namesIn_slash, namesIn_fileName h, ofPath_eq,
      hdir, append_assoc]
  · have hjoin : join dir [name] = dir ++ "/" ++ name := by simp [join, hempty, hends]
    rw [hjoin, ofPath_eq, namesIn_slash, namesIn_fileName h, String.append_assoc,
      isAbsolute_append hempty, ofPath_eq, append_assoc]

end Location

/-! ## Writing files -/

namespace FileTree

variable {t after : FileTree} {dir l : Location} {text : String}

theorem isDirectory_iff : t.isDirectory l ↔
    l = [] ∨ (∃ d ∈ t.directories, l <+: d) ∨
      ∃ f ∈ t.files, l <+: f.1 ∧ l.length < f.1.length := by
  simp [isDirectory, or_assoc]

theorem isDirectory_above (h : t.isDirectory dir) (hl : l <+: dir) : t.isDirectory l := by
  rw [isDirectory_iff] at h ⊢
  rcases h with rfl | ⟨d, hd, hdir⟩ | ⟨f, hf, hdir, hlt⟩
  · exact .inl (prefix_nil.mp hl)
  · exact .inr (.inl ⟨d, hd, hl.trans hdir⟩)
  · exact .inr (.inr ⟨f, hf, hl.trans hdir, Nat.lt_of_le_of_lt hl.length_le hlt⟩)

theorem write?_eq (h : t.write? dir text = some after) :
    after = { t with files := t.files.filter (·.1 != dir) ++ [(dir, some text)] } := by
  rw [write?] at h
  split at h
  · cases h
  · exact (Option.some.inj h).symm

theorem lookup_filter_ne {files : List (Location × Option String)} (h : l ≠ dir) :
    (files.filter (·.1 != dir)).lookup l = files.lookup l := by
  induction files with
  | nil => rfl
  | cons f files ih =>
    rw [filter_cons, lookup_cons]
    by_cases hf : f.1 = dir
    · have hother : (l == f.1) = false := beq_eq_false_iff_ne.mpr fun heq => h (heq.trans hf)
      rw [hother, if_neg (by simp [hf]), ih]
    · rw [if_pos (by simpa using hf), lookup_cons, ih]

theorem content?_write? (h : t.write? dir text = some after) (l : Location) :
    after.content? l = if l = dir then some (some text) else t.content? l := by
  rw [write?_eq h, content?, content?, lookup_append, lookup_cons,
    lookup_nil]
  by_cases heq : l = dir
  · have hgone : (t.files.filter (·.1 != dir)).lookup dir = none := by
      rw [lookup_eq_none_iff]
      intro f hf
      have hne : f.1 ≠ dir := by simpa using (mem_filter.mp hf).2
      exact bne_iff_ne.mpr hne.symm
    rw [if_pos heq, heq, hgone, beq_self_eq_true]
    rfl
  · rw [if_neg heq, lookup_filter_ne heq, beq_eq_false_iff_ne.mpr heq]
    exact Option.or_none

theorem isDirectory_write? (hdir : t.isDirectory dir)
    (h : t.write? (dir ++ [name]) text = some after) (l : Location) :
    after.isDirectory l ↔ t.isDirectory l := by
  rw [write?_eq h]
  constructor
  · intro hl
    rw [isDirectory_iff] at hl
    rcases hl with hl | hl | ⟨f, hf, hl, hlt⟩
    · exact isDirectory_iff.mpr (.inl hl)
    · exact isDirectory_iff.mpr (.inr (.inl hl))
    · rcases mem_append.mp hf with hf | hf
      · exact isDirectory_iff.mpr (.inr (.inr ⟨f, mem_of_mem_filter hf, hl, hlt⟩))
      · obtain rfl := mem_singleton.mp hf
        refine isDirectory_above hdir ((prefix_concat_iff.mp hl).resolve_left ?_)
        rintro rfl
        exact Nat.lt_irrefl _ hlt
  · intro hl
    rw [isDirectory_iff] at hl ⊢
    refine hl.imp_right (.imp_right ?_)
    rintro ⟨f, hf, hl, hlt⟩
    by_cases heq : f.1 = dir ++ [name]
    · exact ⟨_, mem_append_right _ mem_cons_self, heq ▸ hl, heq ▸ hlt⟩
    · exact ⟨f, mem_append_left _ (mem_filter.mpr ⟨hf, by simpa using heq⟩), hl, hlt⟩

theorem makeDirectory?_eq {path : String} (h : t.makeDirectory? path = some after) :
    after.files = t.files ∧
      ∀ l, after.isDirectory l ↔ t.isDirectory l ∨ l <+: Location.ofPath path := by
  rw [makeDirectory?] at h
  split at h
  · rename_i hthere
    obtain rfl := Option.some.inj h
    rw [leadsToDirectory, Bool.and_eq_true] at hthere
    exact ⟨rfl, fun l => ⟨.inl, fun hl => hl.elim id (isDirectory_above hthere.2)⟩⟩
  · split at h
    · cases h
    · obtain rfl := Option.some.inj h
      refine ⟨rfl, fun l => ?_⟩
      simp only [isDirectory_iff, mem_append, mem_singleton, or_and_right, exists_or,
        exists_eq_left]
      rw [or_assoc, or_assoc, or_assoc, or_comm (a := l <+: _)]

end FileTree

namespace Command

variable {dir : String} {tree : FileTree}

def RunError.beforeWriting : RunError → Bool
  | unreadable _ | noSources | failed _ => true
  | noDirectory _ | unwritable _ => false

theorem writeFiles_cons (dir : String) (tree : FileTree) (file : Generated)
    (files : List Generated) :
    writeFiles dir tree (file :: files) =
      (tree, some (.unwritable (Location.join dir [file.name]))) ∨
    ∃ next, tree.write? (.ofPath dir ++ [file.name]) file.contents = some next ∧
      writeFiles dir tree (file :: files) = writeFiles dir next files := by
  rw [writeFiles]
  split
  · exact .inl rfl
  · cases hwrite : tree.write? (.ofPath dir ++ [file.name]) file.contents with
    | none => exact .inl rfl
    | some next => exact .inr ⟨next, rfl, rfl⟩

theorem writeFiles_error {e : RunError} (h : (writeFiles dir tree files).2 = some e) :
    e.beforeWriting = false := by
  induction files generalizing tree with
  | nil => cases h
  | cons file files ih =>
    obtain hstop | ⟨next, -, hnext⟩ := writeFiles_cons dir tree file files
    · rw [hstop] at h
      cases h
      rfl
    · exact ih (hnext ▸ h)

theorem writeFiles_confined {l : Location} (h : ∀ f ∈ files, l ≠ .ofPath dir ++ [f.name]) :
    (writeFiles dir tree files).1.content? l = tree.content? l := by
  induction files generalizing tree with
  | nil => rfl
  | cons file files ih =>
    obtain ⟨hfile, hfiles⟩ := forall_mem_cons.mp h
    obtain hstop | ⟨next, hwrite, hnext⟩ := writeFiles_cons dir tree file files
    · rw [hstop]
    · rw [hnext, ih hfiles, FileTree.content?_write? hwrite, if_neg hfile]

theorem writeFiles_isDirectory (hdir : tree.isDirectory (.ofPath dir)) (l : Location) :
    (writeFiles dir tree files).1.isDirectory l ↔ tree.isDirectory l := by
  induction files generalizing tree with
  | nil => rfl
  | cons file files ih =>
    obtain hstop | ⟨next, hwrite, hnext⟩ := writeFiles_cons dir tree file files
    · rw [hstop]
    · have hsame := FileTree.isDirectory_write? hdir hwrite
      rw [hnext]
      exact (ih ((hsame _).mpr hdir)).trans (hsame l)

theorem writeFiles_content (h : (writeFiles dir tree files).2 = none) :
    ∀ f ∈ files, ∃ g ∈ files, g.name = f.name ∧
      (writeFiles dir tree files).1.content? (.ofPath dir ++ [f.name]) =
        some (some g.contents) := by
  induction files generalizing tree with
  | nil => exact fun _ => (absurd · not_mem_nil)
  | cons file files ih =>
    obtain hstop | ⟨next, hwrite, hnext⟩ := writeFiles_cons dir tree file files
    · rw [hstop] at h
      cases h
    rw [hnext] at h ⊢
    intro f hf
    by_cases hlater : ∃ g ∈ files, g.name = f.name
    · obtain ⟨g, hg, hname⟩ := hlater
      obtain ⟨last, hlast, hsame, hcontent⟩ := ih h g hg
      exact ⟨last, mem_cons_of_mem _ hlast, hsame.trans hname, hname ▸ hcontent⟩
    · obtain rfl : f = file := (mem_cons.mp hf).resolve_right fun hf => hlater ⟨f, hf, rfl⟩
      refine ⟨f, mem_cons_self, rfl, ?_⟩
      rw [writeFiles_confined, FileTree.content?_write? hwrite, if_pos rfl]
      intro g hg heq
      exact hlater ⟨g, hg, by simpa using heq.symm⟩

theorem writeOutputs_error {e : RunError} (h : (writeOutputs dir tree files).2 = some e) :
    e.beforeWriting = false := by
  rw [writeOutputs] at h
  split at h
  · cases h
    rfl
  · exact writeFiles_error h

theorem writeOutputs_of_none (h : (writeOutputs dir tree files).2 = none) :
    ∃ made, tree.makeDirectory? dir = some made ∧
      writeOutputs dir tree files = writeFiles dir made files := by
  rw [writeOutputs] at h ⊢
  split at h
  · cases h
  · rename_i made hmade
    exact ⟨made, hmade, rfl⟩

/-- The sources of a run, and the place of the entry among them. -/
def sourcePaths (tree : FileTree) (invocation : Invocation) : List String × Nat :=
  chooseEntry (invocation.inputs.flatMap (discover tree)) invocation.entry

theorem run_cases (tree : FileTree) (invocation : Invocation) :
    (run tree invocation).tree = tree ∧
      ((run tree invocation).error = none → invocation.format.getD .c ≠ .c) ∨
    ∃ sources artifact,
      readSources tree (sourcePaths tree invocation).1 = .ok sources ∧
      compile sources { entry := (sourcePaths tree invocation).2 } = .ok artifact ∧
      invocation.format.getD .c = .c ∧
      (run tree invocation).tree = (writeOutputs invocation.target tree artifact.files).1 ∧
      (run tree invocation).error = (writeOutputs invocation.target tree artifact.files).2 := by
  rcases hpaths : sourcePaths tree invocation with ⟨paths, entry⟩
  rw [sourcePaths] at hpaths
  simp only [run, hpaths]
  split
  · exact .inl ⟨rfl, nofun⟩
  split
  · exact .inl ⟨rfl, nofun⟩
  rename_i sources hread
  cases hformat : invocation.format.getD .c with
  | tokens =>
    refine .inl ?_
    cases dumpTokens sources entry <;> exact ⟨rfl, nofun⟩
  | tree =>
    refine .inl ?_
    cases dumpTree sources <;> exact ⟨rfl, nofun⟩
  | c =>
    cases hcompiled : compile sources { entry } with
    | error reason => exact .inl ⟨rfl, nofun⟩
    | ok artifact => exact .inr ⟨sources, artifact, hread, hcompiled, rfl, rfl, rfl⟩

/-- A run that shows tokens or trees leaves all files alone, and so does one that fails before it
writes files. A run that writes C files without an error has compiled what it read, and changes no
file but those of the generated names in the output directory; these names lead nowhere else, each
has generated contents then, and no directory is new but the output directory and those above it. -/
theorem run_confined (tree : FileTree) (invocation : Invocation) :
    let outcome := run tree invocation
    let dir := Location.ofPath invocation.target
    (invocation.format.getD .c ≠ .c → outcome.tree = tree) ∧
    (∀ e, outcome.error = some e → e.beforeWriting = true → outcome.tree = tree) ∧
    (invocation.format.getD .c = .c → outcome.error = none →
      ∃ sources artifact,
        readSources tree (sourcePaths tree invocation).1 = .ok sources ∧
        compile sources { entry := (sourcePaths tree invocation).2 } = .ok artifact ∧
        (∀ f ∈ artifact.files, '/' ∉ f.name.toList ∧ f.name ≠ "." ∧ f.name ≠ ".." ∧
          Location.ofPath (Location.join invocation.target [f.name]) = dir ++ [f.name]) ∧
        (∀ l, (∀ f ∈ artifact.files, l ≠ dir ++ [f.name]) →
          outcome.tree.content? l = tree.content? l) ∧
        (∀ f ∈ artifact.files, ∃ g ∈ artifact.files, g.name = f.name ∧
          outcome.tree.content? (dir ++ [f.name]) = some (some g.contents)) ∧
        ∀ l, outcome.tree.isDirectory l ↔ tree.isDirectory l ∨ l <+: dir) := by
  intro outcome dir
  obtain ⟨htree, hshown⟩ | ⟨sources, artifact, hread, hcompiled, hformat, htree, herror⟩ :=
    run_cases tree invocation
  · exact ⟨fun _ => htree, fun _ _ _ => htree, fun hformat hnone => absurd hformat (hshown hnone)⟩
  refine ⟨fun hother => absurd hformat hother, fun e he hbefore => ?_, fun _ hnone => ?_⟩
  · rw [writeOutputs_error (herror.symm.trans he)] at hbefore
    cases hbefore
  · obtain ⟨made, hmade, hwrite⟩ := writeOutputs_of_none (herror.symm.trans hnone)
    obtain ⟨hfiles, hdirectories⟩ := FileTree.makeDirectory?_eq hmade
    have hcontent (l : Location) : made.content? l = tree.content? l := by
      rw [FileTree.content?, hfiles, FileTree.content?]
    have hdir : made.isDirectory dir := (hdirectories dir).mpr (.inr (prefix_refl dir))
    rw [hwrite] at htree herror
    rw [show outcome.tree = _ from htree]
    refine ⟨sources, artifact, hread, hcompiled, fun f hf => ?_, fun l hl => ?_,
      writeFiles_content (herror.symm.trans hnone), fun l => ?_⟩
    · have hname := compile_fileNames hcompiled f hf
      exact ⟨hname.single, hname.notSelf, hname.notParent, Location.ofPath_join _ hname⟩
    · rw [writeFiles_confined hl, hcontent]
    · rw [writeFiles_isDirectory hdir, hdirectories]

/-- A source, and a file that was in the output directory before. -/
def desk : FileTree :=
  { files := [(["src", "a.ql"], some "void main() \x7b \x7d"), (["out", "note"], some "")] }

example :
    let outcome := run desk { inputs := ["src/a.ql"], outDir := some "out" }
    outcome.error.isNone ∧
      outcome.tree.files.map (·.1) = [["src", "a.ql"], ["out", "note"], ["out", "main.c"]] := by
  decide +kernel

end Command
end Quill
