import Quill.Proofs.Arranged
import Quill.Proofs.SectionItems

/-!
# Output files

Where the stems of libraries differ in more than the case of letters, none is `main`, and the entry
package defines `main` itself, files have different names, headers different guards, and just one
file starts the program.
-/
namespace Quill

open List Lower PackageTable Lower.Emitted

namespace PackagePath

variable {l : Emitted}

variable (p : PackagePath) (name : String)

theorem mangle_eq : p.mangle name = p.mangle "" ++ name := by
  unfold mangle
  split
  · rw [String.append_empty]
  · rw [String.append_empty]

theorem mangle_inj {p : PackagePath} {a b : String} : p.mangle a = p.mangle b ↔ a = b := by
  rw [p.mangle_eq a, p.mangle_eq b, String.append_right_inj]

theorem underscore_mem_mangle : '_' ∈ (p.mangle name).toList := by
  unfold mangle
  split <;> simp

theorem mangle_ne {other : String} (h : '_' ∉ other.toList) :
    p.mangle name ≠ other := fun heq => h (heq ▸ p.underscore_mem_mangle name)

end PackagePath

/-- A file, as the items of C that are written into it. -/
structure CFile where
  name : String
  items : List CItem

namespace CFile

def render (f : CFile) : Generated := ⟨f.name, CItem.render f.items⟩

/-- The name that keeps a header from being read twice. -/
def guard? (f : CFile) : Option String :=
  match f.items with
  | .ifNotDefined guard :: .define name :: _ => if guard = name then some guard else none
  | _ => none

def functions (f : CFile) : List String := f.items.filterMap CItem.defines?

end CFile

namespace Lower

theorem headerGuard_inj {a b : String} : headerGuard a = headerGuard b ↔ a.toUpper = b.toUpper := by
  rw [headerGuard, headerGuard, String.append_left_inj, String.append_right_inj]

namespace Emitted

def cFiles (l : Emitted) : List CFile :=
  if l.isEntry then [⟨"main.c", entryItems l.sections (l.path.mangle "main")⟩]
  else [⟨l.path.stem ++ ".h", headerItems l.sections l.path.stem⟩,
    ⟨l.path.stem ++ ".c", sourceItems l.sections l.path.stem⟩]

theorem files_eq (l : Emitted) : l.files = l.cFiles.map CFile.render := by
  unfold Emitted.files packageFiles cFiles
  split <;> rfl

theorem names (l : Emitted) : l.cFiles.map (·.name) =
    if l.isEntry then ["main.c"] else [l.path.stem ++ ".h", l.path.stem ++ ".c"] := by
  unfold cFiles
  split <;> rfl

end Emitted

theorem header_ne_source (a b : String) : a ++ ".h" ≠ b ++ ".c" := by
  intro h
  have last := congrArg (fun s : String => s.toList.getLast?) h
  simp at last

theorem header_ne_main (stem : String) : stem ++ ".h" ≠ "main.c" := header_ne_source stem "main"

theorem source_ne_main {stem : String} (h : stem ≠ "main") : stem ++ ".c" ≠ "main.c" :=
  fun heq => h ((String.append_left_inj ".c").mp (show stem ++ ".c" = "main" ++ ".c" from heq))

end Lower

def Sources.cFiles (sources : Sources) (options : Options) : List CFile :=
  (sources.emitted options (sources.order options)).flatMap (·.cFiles)

namespace Checked

/-- The packages that become a header and a source file. -/
def libraries (cx : Checked) : List PackageId :=
  cx.table.ids.filter fun p =>
    (cx.table.get? p).any fun package =>
      package.source.isSome && !package.isEntry && !package.isForeign

/-- The entry package defines its function `main`, and C code defines nothing under the C name of
it. -/
structure Starts (cx : Checked) (p : PackageId) (package : Package) : Prop where
  own : package.header = none
  defined : ∃ file ∈ package.source, ∃ f ∈ file.functions, f.1.name = "main"
  apart : ∀ file ∈ package.source, ∀ f ∈ file.functions,
    f.1.name = "main" ∨ f.1.name = package.path.mangle "main" → cx.isForeign p f.1.name = false

instance (cx : Checked) (p : PackageId) (package : Package) : Decidable (cx.Starts p package) :=
  decidable_of_iff
    (package.header = none ∧ (∃ file ∈ package.source, ∃ f ∈ file.functions, f.1.name = "main") ∧
      ∀ file ∈ package.source, ∀ f ∈ file.functions,
        f.1.name = "main" ∨ f.1.name = package.path.mangle "main" → cx.isForeign p f.1.name = false)
    ⟨fun h => ⟨h.1, h.2.1, h.2.2⟩, fun h => ⟨h.own, h.defined, h.apart⟩⟩

/-- Nothing that the files of a program are told apart by coincides. -/
structure FilesApart (cx : Checked) : Prop where
  stems : ∀ p ∈ cx.libraries, ∀ q ∈ cx.libraries,
    (cx.table.pathOf p).stem.toUpper = (cx.table.pathOf q).stem.toUpper → p = q
  reserved : ∀ p ∈ cx.libraries, (cx.table.pathOf p).stem ≠ "main"
  starts : ∀ p ∈ cx.table.ids, ∀ package ∈ cx.table.get? p, package.isEntry = true →
    cx.Starts p package

instance (cx : Checked) : Decidable cx.FilesApart :=
  decidable_of_iff
    ((∀ p ∈ cx.libraries, ∀ q ∈ cx.libraries,
        (cx.table.pathOf p).stem.toUpper = (cx.table.pathOf q).stem.toUpper → p = q) ∧
      (∀ p ∈ cx.libraries, (cx.table.pathOf p).stem ≠ "main") ∧
      ∀ p ∈ cx.table.ids, ∀ package ∈ cx.table.get? p, package.isEntry = true →
        cx.Starts p package)
    ⟨fun h => ⟨h.1, h.2.1, h.2.2⟩, fun h => ⟨h.stems, h.reserved, h.starts⟩⟩

end Checked

namespace Lower

variable {cx : Checked}

theorem emitted_ids (cx : Checked) (ids : List PackageId) (st : Lowering) :
    ((emitted cx ids st).1.map (·.id)).Sublist ids := by
  induction ids generalizing st with
  | nil => exact .slnil
  | cons id ids ih =>
    rw [emitted]
    rcases cx.table.get? id with _ | ⟨path, _ | file, isEntry, _ | header⟩
    case cons.some.some.none => exact (ih _).cons_cons id
    all_goals exact (ih st).cons id

theorem exists_emitted (cx : Checked) {ids : List PackageId} {id : PackageId} (hid : id ∈ ids)
    {path : PackagePath} {file : File} {isEntry : Bool}
    (hget : cx.table.get? id = some ⟨path, some file, isEntry, none⟩) (st : Lowering) :
    ∃ l ∈ (emitted cx ids st).1, l.id = id := by
  induction ids generalizing st with
  | nil => cases hid
  | cons first ids ih =>
    rw [emitted]
    rcases mem_cons.mp hid with rfl | hid
    · rw [hget]
      exact ⟨_, mem_cons_self, rfl⟩
    · rcases cx.table.get? first with _ | ⟨path, _ | file, isEntry, _ | header⟩
      case inr.some.some.none =>
        obtain ⟨l, hl, heq⟩ := ih hid _
        exact ⟨l, mem_cons_of_mem _ hl, heq⟩
      all_goals exact ih hid st

theorem package_eq (cx : Checked) (id : PackageId) (path : PackagePath) (isEntry : Bool) (file : File)
    (st : Lowering) : ∃ types st',
      (package cx id path isEntry file st).1 = { (decls cx id isEntry [] file.decls st').1 with
        includes := includes cx path file, types } ∧
      types = (Lower.types cx id file st).1 :=
  ⟨_, _, rfl, rfl⟩

theorem package_defines? {id : PackageId} {path : PackagePath} {isEntry : Bool} {file : File}
    {st : Lowering} {s : Sections} (h : s = (package cx id path isEntry file st).1) {item : CItem}
    (hitem : item ∈ s.includes ++ s.types ++ s.varDefs ++ s.prototypes) : item.defines? = none := by
  obtain ⟨types, st', hpackage, htypes⟩ := package_eq cx id path isEntry file st
  rw [h, hpackage] at hitem
  simp only [mem_append] at hitem
  rcases hitem with ((hitem | hitem) | hitem) | hitem
  · exact includes_defines? hitem
  · exact types_defines? (htypes ▸ hitem)
  · obtain ⟨d, -, known, st'', hitem⟩ :=
      exists_of_mem_decls (·.varDefs) rfl (fun _ _ => rfl) hitem
    exact ((decl_declares id isEntry known d st'').vars item (mem_append_right _ hitem)).1
  · obtain ⟨d, -, known, st'', hitem⟩ :=
      exists_of_mem_decls (·.prototypes) rfl (fun _ _ => rfl) hitem
    exact ((decl_declares id isEntry known d st'').prototypes item hitem).1

theorem Lowers.defines? {id : PackageId} {f : Signature × Block} {item : CItem}
    (h : Lowers cx id f item) : item.defines? = some (cx.functionName id f.1.name) := by
  obtain ⟨head, result, st, rfl, hname⟩ := h
  exact congrArg some hname

theorem filterMap_defines? {id : PackageId} {fs : List (Signature × Block)} {items : List CItem}
    (h : List.Forall₂ (Lowers cx id) fs items) :
    items.filterMap CItem.defines? = fs.map (cx.functionName id ·.1.name) := by
  induction h with
  | nil => rfl
  | cons h _ ih => rw [filterMap_cons_some h.defines?, ih, map_cons]

theorem exists_lowers {id : PackageId} {fs : List (Signature × Block)} {items : List CItem}
    (h : List.Forall₂ (Lowers cx id) fs items) {f : Signature × Block} (hf : f ∈ fs) :
    ∃ item ∈ items, Lowers cx id f item := by
  induction h with
  | nil => cases hf
  | cons h _ ih =>
    rcases mem_cons.mp hf with rfl | hf
    · exact ⟨_, mem_cons_self, h⟩
    · obtain ⟨item, hitem, lowers⟩ := ih hf
      exact ⟨item, mem_cons_of_mem _ hitem, lowers⟩

theorem run_mainFunction {entryMain : String} (h : entryMain ≠ "abort") :
    ∃ head body, mainFunction entryMain = .function head body ∧ head.name = "main" ∧
      ∀ outcomes, (CStmt.run body outcomes).exit = .returned ∧
        (CStmt.run body outcomes).events = [.eval (.callTo entryMain []), .value (.literal "0")] := by
  refine ⟨_, _, rfl, rfl, fun outcomes => ?_⟩
  have continues : (CExpr.callTo entryMain []).isAbort = false := beq_eq_false_iff_ne.mpr h
  rw [CStmt.run, CStmt.execAll, CStmt.exec, continues]
  exact ⟨rfl, rfl⟩

end Lower

section Accepted

variable {sources : Sources} {options : Options} {order : List PackageId}

namespace Accepted

/-- A package of accepted sources defines no two functions of one name: each of them would be the
one that the symbol of this name stands for. -/
theorem functions_nodup (h : Accepted sources options order) {id : PackageId} {file : File}
    (hid : id ∈ order) (source : (sources.table options).sourceOf? id = some file) :
    (file.functions.map (·.1.name)).Nodup := by
  have symbol {info : Info} {sig : Signature} {body : Block}
      (hd : Decl.function info sig body ∈ file.decls) :
      ∃ s, ((sources.resolved options order).1.globals.scope id).symbol? sig.name = some s ∧
        s.node = info.id := by
    obtain ⟨t, ht⟩ := Option.isSome_iff_exists.mp (h.package_complete hid source _ hd).1
    obtain ⟨s, hs, ⟨hnode, -⟩, -⟩ :=
      resolve_owned h.holds sources.nodes_apart order _ source hd rfl ht
    exact ⟨s, hs, hnode⟩
  have apart := (nodup_flatMap.mp
    (sources.nodes_apart file (h.holds.among id file source))).2
  rw [List.Nodup, pairwise_map, File.functions, pairwise_filterMap]
  refine apart.imp_of_mem fun {d d'} hd hd' disjoint f hf f' hf' heq => ?_
  obtain ⟨info, rfl⟩ := Decl.eq_of_function? hf
  obtain ⟨info', rfl⟩ := Decl.eq_of_function? hf'
  obtain ⟨s, hs, hnode⟩ := symbol hd
  obtain ⟨s', hs', hnode'⟩ := symbol hd'
  rw [← heq, hs] at hs'
  cases hs'
  refine disjoint (Decl.id_mem_ids _) ?_
  show info.id ∈ _
  rw [← hnode, hnode']
  exact Decl.id_mem_ids _

theorem get?_emitted {l : Emitted} (hl : l ∈ sources.emitted options order) :
    (sources.table options).get? l.id = some ⟨l.path, some l.file, l.isEntry, none⟩ :=
  (mem_emitted hl).2.1

theorem emitted_bodies (h : Accepted sources options order) {l : Emitted}
    (hl : l ∈ sources.emitted options order) :
    List.Forall₂ (Lowers (sources.checked options order) l.id) l.file.functions
      l.sections.bodies := by
  obtain ⟨hid, -, st, hsections⟩ := mem_emitted hl
  have source := Sources.source_of_emitted hl
  obtain ⟨types, st', hpackage, -⟩ := package_eq
    (sources.checked options order) l.id l.path l.isEntry l.file st
  rw [hsections, hpackage]
  exact decls_bodies l.id l.isEntry
    (fun info sig body hd => h.function_typed hid source hd) [] st'

theorem functions_entryItems (h : Accepted sources options order)
    (hl : l ∈ sources.emitted options order) (entryMain : String) :
    (entryItems l.sections entryMain).filterMap CItem.defines? =
      l.file.functions.map ((sources.checked options order).functionName l.id ·.1.name) ++
        ["main"] := by
  obtain ⟨-, -, st, hsections⟩ := mem_emitted hl
  have none_before : (l.sections.includes ++ l.sections.types ++ l.sections.varDefs ++
      l.sections.prototypes).filterMap CItem.defines? = [] :=
    filterMap_eq_nil_iff.mpr fun _ => package_defines? hsections
  rw [entryItems, filterMap_append, filterMap_append, none_before,
    nil_append, filterMap_defines? (h.emitted_bodies hl)]
  rfl

theorem mem_libraries (hl : l ∈ sources.emitted options order) (hlibrary : l.isEntry = false) :
    l.id ∈ (sources.checked options order).libraries ∧
      (sources.checked options order).table.pathOf l.id = l.path := by
  have hget : (sources.checked options order).table.get? l.id = _ := get?_emitted hl
  constructor
  · refine mem_filter.mpr ⟨mem_range.mpr ?_, ?_⟩
    · exact lt_size_of_sourceOf? (Sources.source_of_emitted hl)
    · simp [hget, hlibrary, Package.isForeign]
  · rw [pathOf, hget]
    rfl

theorem guard?_main (hl : l ∈ sources.emitted options order) (entryMain : String) :
    CFile.guard? ⟨"main.c", entryItems l.sections entryMain⟩ = none := by
  obtain ⟨-, -, st, hsections⟩ := mem_emitted hl
  obtain ⟨types, st', hpackage, -⟩ := package_eq
    (sources.checked options order) l.id l.path l.isEntry l.file st
  rw [hsections, hpackage]
  rfl

theorem guard?_emitted {l : Emitted} (hl : l ∈ sources.emitted options order) {f : CFile}
    (hf : f ∈ l.cFiles) : ∃ stem,
      f.name = stem ++ ".h" ∧ f.guard? = some (headerGuard stem) ∨
      f.name = stem ++ ".c" ∧ f.guard? = none := by
  unfold cFiles at hf
  split at hf
  · obtain rfl := mem_singleton.mp hf
    exact ⟨"main", .inr ⟨rfl, guard?_main hl _⟩⟩
  · refine ⟨l.path.stem, ?_⟩
    rcases mem_cons.mp hf with rfl | hf
    · exact .inl ⟨rfl, if_pos rfl⟩
    · obtain rfl := mem_singleton.mp hf
      exact .inr ⟨rfl, rfl⟩

theorem guards_emitted (hl : l ∈ sources.emitted options order) :
    l.cFiles.filterMap CFile.guard? =
      if l.isEntry then [] else [headerGuard l.path.stem] := by
  unfold cFiles
  split
  · rw [filterMap_cons_none (guard?_main hl _)]
    rfl
  · have header : CFile.guard? ⟨l.path.stem ++ ".h", headerItems l.sections l.path.stem⟩ =
        some (headerGuard l.path.stem) := if_pos rfl
    rw [filterMap_cons_some header]
    rfl

section

variable (apart : (sources.checked options order).FilesApart) {l' : Emitted}
  (hl : l ∈ sources.emitted options order) (hl' : l' ∈ sources.emitted options order)
  (hne : l.id ≠ l'.id)

include apart hl hl' hne

theorem names_disjoint : (l.cFiles.map (·.name)).Disjoint (l'.cFiles.map (·.name)) := by
  have reserved {l : Emitted} (hl : l ∈ sources.emitted options order)
      (hlibrary : l.isEntry = false) : l.path.stem ≠ "main" := by
    obtain ⟨hmem, hpath⟩ := mem_libraries hl hlibrary
    exact hpath ▸ apart.reserved l.id hmem
  cases hentry : l.isEntry <;> cases hentry' : l'.isEntry <;>
    simp only [names, hentry, hentry', Bool.false_eq_true, if_true, if_false]
  · obtain ⟨hmem, hpath⟩ := mem_libraries hl hentry
    obtain ⟨hmem', hpath'⟩ := mem_libraries hl' hentry'
    have stems : l.path.stem ≠ l'.path.stem := by
      intro heq
      exact hne (apart.stems l.id hmem l'.id hmem' (by rw [hpath, hpath', heq]))
    simp [header_ne_source, (header_ne_source _ _).symm, stems.symm]
  · have source := source_ne_main (reserved hl hentry)
    simp [(header_ne_main _).symm, source.symm]
  · have source := source_ne_main (reserved hl' hentry')
    simp [(header_ne_main _).symm, source.symm]
  · have := (sources.arranged options).unique l.id l'.id _ _ (get?_emitted hl) (get?_emitted hl') hentry hentry'
    exact absurd this hne

theorem guards_disjoint :
    (l.cFiles.filterMap CFile.guard?).Disjoint (l'.cFiles.filterMap CFile.guard?) := by
  rw [guards_emitted hl, guards_emitted hl']
  cases hentry : l.isEntry <;> cases hentry' : l'.isEntry <;>
    simp only [Bool.false_eq_true, if_true, if_false, disjoint_nil_left,
      disjoint_nil_right]
  obtain ⟨hmem, hpath⟩ := mem_libraries hl hentry
  obtain ⟨hmem', hpath'⟩ := mem_libraries hl' hentry'
  rw [disjoint_singleton, mem_singleton, headerGuard_inj]
  intro heq
  exact hne (apart.stems l.id hmem l'.id hmem' (by rw [hpath, hpath', heq]))

end

section

variable (h : Accepted sources options order)

include h

theorem emitted_apart : (sources.emitted options order).Pairwise fun l l' => l.id ≠ l'.id := by
  have nodup := (Graph.finished_of_order h.ordered).1.nodup
  exact pairwise_map.mp (nodup.sublist (emitted_ids _ order _))

theorem names_nodup (apart : (sources.checked options order).FilesApart) :
    ((sources.cFiles options).map (·.name)).Nodup := by
  rw [Sources.cFiles, h.order_eq, map_flatMap, nodup_flatMap]
  refine ⟨fun l _ => ?_, h.emitted_apart.imp_of_mem fun hl hl' hne =>
    names_disjoint apart hl hl' hne⟩
  rw [names]
  split
  · exact nodup_singleton _
  · simp

theorem guards_nodup (apart : (sources.checked options order).FilesApart) :
    ((sources.cFiles options).filterMap CFile.guard?).Nodup := by
  rw [Sources.cFiles, h.order_eq, filterMap_flatMap, nodup_flatMap]
  refine ⟨fun l hl => ?_, h.emitted_apart.imp_of_mem fun hl hl' hne =>
    guards_disjoint apart hl hl' hne⟩
  rw [guards_emitted hl]
  split
  · exact nodup_nil
  · exact nodup_singleton _

end

/-- Among the functions of the entry package only `main` gets the C name of `main`, and none that
of the C function `main`. -/
theorem functionName_of_starts {l : Emitted} (hl : l ∈ sources.emitted options order)
    (starts : (sources.checked options order).Starts l.id ⟨l.path, some l.file, l.isEntry, none⟩)
    {f : Signature × Block} (hf : f ∈ l.file.functions) :
    ((sources.checked options order).functionName l.id f.1.name = l.path.mangle "main" ↔
      f.1.name = "main") ∧
    (sources.checked options order).functionName l.id f.1.name ≠ "main" := by
  have own := starts.apart l.file rfl f hf
  have hpath : (sources.checked options order).mangle l.id f.1.name = l.path.mangle f.1.name := by
    have hget : (sources.checked options order).table.get? l.id = _ := get?_emitted hl
    rw [Checked.mangle, pathOf, hget]
    rfl
  rw [Checked.functionName, hpath]
  split
  · rename_i foreign
    have not_main : f.1.name ≠ "main" := fun heq => by simp [own (.inl heq)] at foreign
    have not_mangled : f.1.name ≠ l.path.mangle "main" := fun heq => by
      simp [own (.inr heq)] at foreign
    exact ⟨⟨fun heq => absurd heq not_mangled, fun heq => absurd heq not_main⟩, not_main⟩
  · exact ⟨PackagePath.mangle_inj, l.path.mangle_ne _ (by decide)⟩

section

variable (h : Accepted sources options order)

include h

theorem count_entryItems {l : Emitted}
    (hl : l ∈ sources.emitted options order)
    (starts : (sources.checked options order).Starts l.id ⟨l.path, some l.file, l.isEntry, none⟩)
    (entryMain : String) :
    let functions := (entryItems l.sections entryMain).filterMap CItem.defines?
    functions.count (l.path.mangle "main") = 1 ∧ functions.count "main" = 1 := by
  dsimp only
  rw [h.functions_entryItems hl, count_append, count_append]
  obtain ⟨hid, -⟩ := mem_emitted hl
  have nodup := h.functions_nodup hid (Sources.source_of_emitted hl)
  have named {f : Signature × Block} (hf : f ∈ l.file.functions) := functionName_of_starts hl starts hf
  obtain ⟨_, ⟨⟩, f, hf, hname⟩ := starts.defined
  constructor
  · have once : (l.file.functions.map
        ((sources.checked options order).functionName l.id ·.1.name)).count (l.path.mangle "main") =
        (l.file.functions.map (·.1.name)).count "main" := by
      rw [List.count, List.count, countP_map, countP_map]
      refine countP_congr fun f hf => ?_
      simpa using (named hf).1
    rw [once, count_eq_one_of_mem nodup (mem_map.mpr ⟨f, hf, hname⟩),
      count_eq_zero_of_not_mem]
    rw [mem_singleton]
    exact l.path.mangle_ne _ (by decide)
  · rw [count_eq_zero_of_not_mem]
    · rfl
    · intro hmem
      obtain ⟨f, hf, heq⟩ := mem_map.mp hmem
      exact (named hf).2 heq

theorem generated_eq :
    (generate (sources.table options) (sources.resolved options order).1).1 =
      (sources.cFiles options).map CFile.render := by
  rw [Sources.cFiles, h.order_eq]
  refine (congrArg (·.1) (files_eq (sources.checked options order) order _)).trans ?_
  rw [map_flatMap]
  exact flatMap_congr fun l _ => l.files_eq

theorem exists_entry (entry : (sources.table options).hasEntry = true)
    (apart : (sources.checked options order).FilesApart) :
    ∃ l ∈ sources.emitted options order, l.isEntry = true ∧
      (parse sources.numbered).program.files.find? (·.file == options.entry) = some l.file ∧
      (sources.checked options order).Starts l.id ⟨l.path, some l.file, l.isEntry, none⟩ := by
  obtain ⟨package, hmem, hentry⟩ := Array.any_eq_true'.mp entry
  obtain ⟨id, hid, hget⟩ := Array.mem_iff_getElem.mp hmem
  have hget : (sources.table options).get? id = some package := by
    rw [get?, Array.getElem?_eq_getElem hid, hget]
  have starts := apart.starts id (mem_range.mpr hid) package hget hentry
  obtain ⟨file, hfound, hsource⟩ := (sources.arranged options).source id package hget hentry
  obtain ⟨path, source, isEntry, header⟩ := package
  obtain rfl : header = none := starts.own
  obtain rfl : source = some file := hsource
  have hid : id ∈ order := Graph.mem_order h.ordered id
    (mem_sourced (congrArg (Option.bind · Package.source) hget))
  obtain ⟨l, hl, rfl⟩ := exists_emitted (sources.checked options order) hid hget
    { instances := (sources.checked options order).resolution.globals.instances }
  obtain ⟨⟩ := Option.some.inj (hget.symm.trans (get?_emitted hl))
  exact ⟨l, hl, hentry, hfound, starts⟩

end

end Accepted

/-- The files of compiled sources have different names and their headers different guards. One of
them is `main.c`; it is made of the package that the first file of the entry source belongs to,
defines what is lowered from the function `main` there and nothing else under its C name, and ends
with the only C function `main`, which calls that function once and returns. -/
theorem output_files {artifact : Artifact} (h : compile sources options = .ok artifact)
    (apart : (sources.checked options (sources.order options)).FilesApart) :
    let cx := sources.checked options (sources.order options)
    let files := sources.cFiles options
    artifact.files = files.map CFile.render ∧
    (files.map (·.name)).Nodup ∧
    (files.filterMap CFile.guard?).Nodup ∧
    (∀ f ∈ files, ∃ stem, f.name = stem ++ ".h" ∧ f.guard? = some (Lower.headerGuard stem) ∨
      f.name = stem ++ ".c" ∧ f.guard? = none) ∧
    ∃ l ∈ sources.emitted options (sources.order options), ∃ main,
      l.isEntry = true ∧
      (parse sources.numbered).program.files.find? (·.file == options.entry) = some l.file ∧
      l.cFiles = [main] ∧ main ∈ files ∧ (∀ f ∈ files, f.name = "main.c" ↔ f = main) ∧
      main.functions.count (l.path.mangle "main") = 1 ∧
      (∃ f ∈ l.file.functions, f.1.name = "main" ∧ ∃ item ∈ main.items,
        Lower.Lowers cx l.id f item ∧ item.defines? = some (l.path.mangle "main")) ∧
      main.functions.count "main" = 1 ∧
      ∃ head body, main.items.getLast? = some (.function head body) ∧ head.name = "main" ∧
        ∀ outcomes, (CStmt.run body outcomes).exit = .returned ∧
          (CStmt.run body outcomes).events =
            [.eval (.callTo (l.path.mangle "main") []), .value (.literal "0")] := by
  intro cx files
  obtain ⟨accepted, entry, generated, -⟩ := accepted_of_compile h
  have names : (files.map (·.name)).Nodup := accepted.names_nodup apart
  obtain ⟨l, hl, hentry, hfile, starts⟩ := accepted.exists_entry entry apart
  let main : CFile := ⟨"main.c", Lower.entryItems l.sections (l.path.mangle "main")⟩
  have hmain : l.cFiles = [main] := if_pos hentry
  have hmem : main ∈ files := mem_flatMap.mpr ⟨l, hl, hmain ▸ mem_singleton_self main⟩
  have counts := accepted.count_entryItems hl starts (l.path.mangle "main")
  refine ⟨generated.trans accepted.generated_eq, names, accepted.guards_nodup apart, fun f hf => ?_,
    l, hl, main, hentry, hfile, hmain, hmem, fun f hf => ⟨fun hname => ?_, fun heq => heq ▸ rfl⟩,
    counts.1, ?_, counts.2, ?_⟩
  · obtain ⟨l', hl', hf⟩ := mem_flatMap.mp hf
    exact Accepted.guard?_emitted hl' hf
  · exact inj_on_of_nodup_map names hf hmem hname
  · obtain ⟨_, ⟨⟩, f, hf, hname⟩ := starts.defined
    obtain ⟨item, hitem, lowers⟩ := Lower.exists_lowers (accepted.emitted_bodies hl) hf
    refine ⟨f, hf, hname, item, ?_, lowers, ?_⟩
    · exact mem_append_left _ (mem_append_right _ hitem)
    · exact lowers.defines?.trans
        (congrArg some ((Accepted.functionName_of_starts hl starts hf).1.mpr hname))
  · obtain ⟨head, body, hitem, run⟩ := Lower.run_mainFunction
      (l.path.mangle_ne "main" (show '_' ∉ "abort".toList by decide))
    refine ⟨head, body, ?_, run⟩
    rw [← hitem]
    exact getLast?_concat

end Accepted

/-- An entry package with a name, which also announces its `main` and calls a function of C code that
has the C name of a `main` without package, and two libraries. -/
def tower : Sources :=
  ["package app/start;\nimport a/b;\nimport ab;\nvoid main();\n@extern void main__main();\n" ++
      "void main() \x7b b::f(); ab::g(); main__main(); \x7d",
    "package a/b;\nvoid f() \x7b \x7d",
    "package ab;\nimport a/b;\nstruct W<T> \x7b T x \x7d\n" ++
      "void g() \x7b W<W<int>> w; b::f(); \x7d"]

theorem output_files_tower : ∃ artifact, compile tower {} = .ok artifact ∧
    (tower.checked {} (tower.order {})).FilesApart ∧
    artifact.files = (tower.cFiles {}).map CFile.render ∧
    ((tower.cFiles {}).map (·.name)).Nodup ∧
    ((tower.cFiles {}).filterMap CFile.guard?).Nodup ∧
    ∃ l ∈ tower.emitted {} (tower.order {}), ∃ main, l.cFiles = [main] ∧ main ∈ tower.cFiles {} ∧
      main.functions.count (l.path.mangle "main") = 1 ∧ main.functions.count "main" = 1 := by
  have compiles : (compile tower {}).toOption.isSome = true := by decide +kernel
  have apart : (tower.checked {} (tower.order {})).FilesApart := by decide +kernel
  cases h : compile tower {} with
  | error failure =>
    rw [h] at compiles
    cases compiles
  | ok artifact =>
    obtain ⟨files, names, guards, -, l, hl, main, -, -, hmain, hmem, -, own, -, start, -⟩ :=
      output_files h apart
    exact ⟨artifact, rfl, apart, files, names, guards, l, hl, main, hmain, hmem, own, start⟩

/-- Two libraries whose paths differ only in how they are divided. -/
def divided : Sources :=
  ["import a/b;\nimport a_b;\nvoid main() \x7b b::f(); a_b::g(); \x7d",
    "package a/b;\nvoid f() \x7b \x7d", "package a_b;\nvoid g() \x7b \x7d"]

def binding : Sources := ["@c_header(\"p.h\")\npackage p;\nvoid main() \x7b \x7d"]

/-- An entry package that announces `main` and does not define it. -/
def announcing : Sources := ["void main();"]

/-- Files are written twice under one name, no `main.c` is written, or the function that `main.c`
calls is not defined there. -/
theorem output_files_collide :
    ((compile divided {}).toOption.map fun artifact => artifact.files.map (·.name)) =
      some ["a_b.h", "a_b.c", "a_b.h", "a_b.c", "main.c"] ∧
    (divided.cFiles {}).filterMap CFile.guard? = ["QL_A_B_H", "QL_A_B_H"] ∧
    ((compile binding {}).toOption.map fun artifact => artifact.files) = some [] ∧
    ((compile announcing {}).toOption.map fun artifact => artifact.files.map (·.name)) =
      some ["main.c"] ∧
    (announcing.cFiles {}).map (·.functions) = [["main"]] := by
  decide +kernel

end Quill
