import Quill.C.Printer
import Quill.Lower.Package

/-!
# Generated files

Every package becomes a header and a source file, but the entry package one file `main.c` that ends
with the C function `main`. Packages that only bind C code become none.
-/
namespace Quill

structure Generated where
  /-- The name within the output directory. -/
  name : String
  contents : String
  deriving DecidableEq, Repr

namespace Lower

/-- The name that marks a header as read. -/
def headerGuard (stem : String) : String := "QL_" ++ stem.toUpper ++ "_H"

def headerItems (sections : Sections) (stem : String) : List CItem :=
  let guard := headerGuard stem
  [.ifNotDefined guard, .define guard] ++ sections.includes ++ sections.types ++
    sections.varDecls ++ sections.prototypes ++ [.endIf]

def sourceItems (sections : Sections) (stem : String) : List CItem :=
  [.inclusion (stem ++ ".h") false] ++ sections.varDefs ++ sections.bodies

/-- The C function `main`, which calls the one of the program. -/
def mainFunction (entryMain : String) : CItem :=
  .function { result := { name := "int" }, name := "main", params := [] }
    [.expr (.callTo entryMain []), .ret (some (.literal "0"))]

def entryItems (sections : Sections) (entryMain : String) : List CItem :=
  sections.includes ++ sections.types ++ sections.varDefs ++ sections.prototypes ++
    sections.bodies ++ [mainFunction entryMain]

def packageFiles (path : PackagePath) (isEntry : Bool) (sections : Sections) : List Generated :=
  if isEntry then
    [⟨"main.c", CItem.render (entryItems sections (path.mangle "main"))⟩]
  else
    [⟨path.stem ++ ".h", CItem.render (headerItems sections path.stem)⟩,
      ⟨path.stem ++ ".c", CItem.render (sourceItems sections path.stem)⟩]

def files (cx : Checked) : List PackageId → Lower (List Generated)
  | [] => return []
  | id :: ids => do
    match cx.table.get? id with
    | some { path, source := some file, isEntry, header := none } =>
      let sections ← package cx id path isEntry file
      return packageFiles path isEntry sections ++ (← files cx ids)
    | _ => files cx ids

end Lower

/-- The C files of a checked program, in dependency order, and the problems met. -/
def generate (table : PackageTable) (resolution : Resolution) :
    List Generated × List Diagnostic :=
  let (files, st) := (Lower.files { table, resolution } resolution.order).run
    { instances := resolution.globals.instances }
  (files, st.problems)

end Quill
