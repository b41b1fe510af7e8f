import Quill.Lower.Stmt
import Quill.Lower.Struct
import Quill.Tree.Outline

/-!
# Packages in C

A package becomes six sections of C. Which of them go into a header and which into a source file is
left to whoever puts the files together.
-/
namespace Quill.Lower

structure Sections where
  includes : List CItem := []
  types : List CItem := []
  /-- Declarations of variables for other files. -/
  varDecls : List CItem := []
  varDefs : List CItem := []
  prototypes : List CItem := []
  bodies : List CItem := []
  deriving Repr

def Sections.append (a b : Sections) : Sections where
  includes := a.includes ++ b.includes
  types := a.types ++ b.types
  varDecls := a.varDecls ++ b.varDecls
  varDefs := a.varDefs ++ b.varDefs
  prototypes := a.prototypes ++ b.prototypes
  bodies := a.bodies ++ b.bodies

instance : Append Sections := ⟨Sections.append⟩

/-- A header and whether it is one of the system. -/
abbrev Inclusion := String × Bool

/-- The header that an import brings in. -/
def importInclusion? (cx : Checked) (path : PackagePath) : Decl → Option Inclusion
  | .imports _ decl =>
    match (cx.table.lookup (path.importTarget decl.kind decl.segments)).bind cx.table.get? with
    | some { header := some header, .. } =>
      some (header, !(header.startsWith "./" || header.startsWith "../"))
    | some { source := some _, isEntry := false, path := target, .. } =>
      some (target.stem ++ ".h", false)
    | _ => none
  | _ => none

/-- Keeps the first of several inclusions of one header. -/
def firstInclusions : (seen : List String) → List Inclusion → List Inclusion
  | _, [] => []
  | seen, (path, system) :: rest =>
    if seen.contains path then firstInclusions seen rest
    else (path, system) :: firstInclusions (path :: seen) rest

def crashes (file : File) : Bool :=
  file.outline.nodes.any fun
    | .stmt (.crash _ _) => true
    | _ => false

def includes (cx : Checked) (path : PackagePath) (file : File) : List CItem :=
  let standard := [("stdint.h", true), ("stdbool.h", true)]
  let printing := if crashes file then [("stdio.h", true), ("stdlib.h", true)] else []
  let imported := file.decls.filterMap (importInclusion? cx path)
  (firstInclusions [] (standard ++ printing ++ imported)).map fun (path, system) =>
    .inclusion path system

def globalVar (cx : Checked) (package : PackageId) (isEntry : Bool) (info : Info)
    (decl : VarDecl) : Lower Sections := do
  let some t := cx.resolution.typeOf? info.id | return {}
  let type ← cType cx t info.span
  if Directive.present info.directives .external then
    let item := .varDecl { type, name := decl.name, init := none }
    return if isEntry then { varDefs := [item] } else { varDecls := [item] }
  let name := cx.mangle package decl.name
  let init ← initial? cx decl.init
  let shared := if decl.isStatic then [] else [.varDecl { type, name, init := none }]
  return { varDecls := shared, varDefs := [.varDef { type, name, init, isStatic := decl.isStatic }] }

def params (cx : Checked) : List Param → List Ty → Lower (List CParam)
  | p :: ps, t :: ts => do
    let type ← cType cx t p.span
    let restrict := Directive.present p.type.info.directives .restrict
    return { type, name := cIdent p.name, restrict } :: (← params cx ps ts)
  | _, _ => return []

/-- The head of a function that has a type. -/
def prototype? (cx : Checked) (package : PackageId) (info : Info) (sig : Signature) :
    Lower (Option CPrototype) := do
  let some (.function types result) := cx.resolution.typeOf? info.id | return none
  let isForeign := ((cx.resolution.globals.scope package).symbol? sig.name).any (·.foreign)
  let name := if isForeign then sig.name else cx.mangle package sig.name
  let result ← cType cx result info.span
  if result.isArray then report (.arrayReturned sig.name) info.span
  return some { result, name, params := ← params cx sig.params types }

/-- Lowers a declaration, given the names of the functions that have a prototype already. -/
def decl (cx : Checked) (package : PackageId) (isEntry : Bool) (known : List String) :
    Decl → Lower (List String × Sections)
  | .var info decl => return (known, ← globalVar cx package isEntry info decl)
  | .header info sig => do
    if known.contains sig.name then return (known, {})
    let head ← prototype? cx package info sig
    return (sig.name :: known, { prototypes := head.toList.map .prototype })
  | .function info sig body => do
    let some head ← prototype? cx package info sig | return (known, {})
    let some (.function _ result) := cx.resolution.typeOf? info.id | return (known, {})
    let body ← functionBody { cx with result } body.body
    let bodies := [.function head body]
    if known.contains sig.name then return (known, { bodies })
    return (sig.name :: known, { prototypes := [.prototype head], bodies })
  | _ => return (known, {})

def decls (cx : Checked) (package : PackageId) (isEntry : Bool) :
    (known : List String) → List Decl → Lower Sections
  | _, [] => return {}
  | known, d :: ds => do
    let (known, sections) ← decl cx package isEntry known d
    return sections ++ (← decls cx package isEntry known ds)

def package (cx : Checked) (id : PackageId) (path : PackagePath) (isEntry : Bool) (file : File) :
    Lower Sections := do
  let types ← types cx id file
  let rest ← decls cx id isEntry [] file.decls
  return { rest with includes := includes cx path file, types }

end Quill.Lower
