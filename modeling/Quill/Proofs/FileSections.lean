import Quill.Lower.Files

/-!
# What files are made of

The files of a program are those of its packages, one after the other, and the files of a package
are put together from its sections.
-/
namespace Quill.Lower

structure Emitted where
  id : PackageId
  path : PackagePath
  isEntry : Bool
  file : File
  sections : Sections

def Emitted.files (l : Emitted) : List Generated := packageFiles l.path l.isEntry l.sections

def emitted (cx : Checked) : List PackageId → Lower (List Emitted)
  | [] => return []
  | id :: ids => do
    match cx.table.get? id with
    | some { path, source := some file, isEntry, header := none } =>
      let sections ← package cx id path isEntry file
      return ⟨id, path, isEntry, file, sections⟩ :: (← emitted cx ids)
    | _ => emitted cx ids

theorem files_eq (cx : Checked) (ids : List PackageId) (st : Lowering) :
    files cx ids st =
      ((emitted cx ids st).1.flatMap (·.files), (emitted cx ids st).2) := by
  induction ids generalizing st with
  | nil => rfl
  | cons id ids ih =>
    rw [files, emitted]
    rcases cx.table.get? id with _ | ⟨path, _ | file, isEntry, _ | header⟩
    case cons.some.some.none =>
      simp only [bind, StateT.bind, ih]
      rfl
    all_goals exact ih st

theorem mem_emitted {cx : Checked} {ids : List PackageId} {st : Lowering} {l : Emitted}
    (h : l ∈ (emitted cx ids st).1) :
    l.id ∈ ids ∧ cx.table.get? l.id = some ⟨l.path, some l.file, l.isEntry, none⟩ ∧
      ∃ st', l.sections = (package cx l.id l.path l.isEntry l.file st').1 := by
  induction ids generalizing st with
  | nil => exact absurd h List.not_mem_nil
  | cons id ids ih =>
    have later {st' : Lowering} (h : l ∈ (emitted cx ids st').1) : l.id ∈ id :: ids ∧
        cx.table.get? l.id = some ⟨l.path, some l.file, l.isEntry, none⟩ ∧
        ∃ st', l.sections = (package cx l.id l.path l.isEntry l.file st').1 :=
      ⟨List.mem_cons_of_mem id (ih h).1, (ih h).2⟩
    rw [emitted] at h
    rcases hget : cx.table.get? id with _ | ⟨path, _ | file, isEntry, _ | header⟩ <;>
      rw [hget] at h
    case cons.some.some.none =>
      rcases List.mem_cons.mp h with rfl | h
      · exact ⟨List.mem_cons_self, hget, st, rfl⟩
      · exact later h
    all_goals exact later h

end Quill.Lower
