import Quill.Scope.Embedding
import Quill.Scope.Type

/-!
# Declarations of packages

Packages are gone through in dependency order. Within a package all struct names and unknown types
are declared first, then the other type names in the order of the source, and last fields,
functions and variables; so declarations may refer to each other in any order.
-/
namespace Quill.Survey

def declare (symbol : Symbol) : StateM Survey Unit := do
  if (((← get).globals.scope symbol.package).symbol? symbol.name).isSome then
    report (.name (.redeclaredInPackage symbol.name)) symbol.span
  else
    modify fun s =>
      { s with
        globals := s.globals.modifyScope symbol.package fun scope =>
          { scope with symbols := scope.symbols ++ [symbol] } }

/-- A package whose declarations are being gone through. -/
structure Site where
  id : PackageId
  path : PackagePath
  /-- Whether the package only binds C code. -/
  foreign : Bool
  deriving Repr

def Site.symbol (site : Site) (info : Info) (name : String) (kind : SymbolKind)
    (foreign : Bool) : Symbol :=
  { name, package := site.id, node := info.id, span := info.span, kind, foreign }

/-- Takes in an import. Targets that are not there have been reported with the import graph. -/
def declareImport (table : PackageTable) (site : Site) : Decl → StateM Survey Unit
  | .imports info decl => do
    let some target := table.lookup (site.path.importTarget decl.kind decl.segments)
      | return
    match decl.symbols, decl.wildcard, decl.segments.getLast? with
    | [], true, _ =>
      modify fun s =>
        { s with
          globals := s.globals.modifyScope site.id fun scope =>
            { scope with wildcards := scope.wildcards ++ [target] } }
    | [], false, some leaf =>
      modify fun s =>
        { s with
          globals := s.globals.modifyScope site.id fun scope =>
            { scope with packages := rebind scope.packages leaf target } }
    | [], false, none => return
    | [name], false, _ =>
      modify fun s =>
        { s with
          globals := s.globals.modifyScope site.id fun scope =>
            { scope with names := rebind scope.names name target } }
    | _, _, _ => report (.usage .nestedImport) info.span
  | _ => return

/-- Declares structs without their fields, and unknown types. -/
def declareShell (site : Site) : Decl → StateM Survey Unit
  | .struct info decl => do
    let (id, structs) := (← get).globals.structs.add
      { name := decl.name, package := site.id, node := info.id, generics := decl.generics
        fields := [] }
    modify fun s => { s with globals := { s.globals with structs } }
    declare (site.symbol info decl.name (.struct id) site.foreign)
  | .typedef info name none => do
    let isFile := Directive.present info.directives .cFile
    let type : Ty := .abstract (if isFile then "FILE" else name) site.id (site.foreign || isFile)
    declare (site.symbol info name (.typedef type) site.foreign)
  | _ => return

def declareAlias (site : Site) : Decl → StateM Survey Unit
  | .typedef info name (some written) => do
    let some type ← resolveType site.id none written | return
    declare (site.symbol info name (.typedef type) site.foreign)
  | _ => return

/-- The number of the struct that this node declares, unless its name went to another. -/
def ownStruct? (g : Globals) (package : PackageId) (node : Nat) (name : String) :
    Option StructId :=
  match (g.scope package).symbol? name with
  | some { kind := .struct id, .. } => if (g.structs.get id).node == node then some id else none
  | _ => none

/-- Resolves the fields of struct `self`; ones that cannot be had are reported and left out. -/
def structFields (site : Site) (params : GenericParams) (decl : StructDecl) (self : StructId) :
    (known : List (String × Ty)) → List Field → StateM Survey (List (String × Ty))
  | known, [] => return known
  | known, field :: fields => do
    if known.any (·.1 == field.name) then
      report (.name (.repeatedField field.name)) field.span
      structFields site params decl self known fields
    else
      match ← resolveType site.id (some params) field.type with
      | none => structFields site params decl self known fields
      | some type =>
        if type = .struct self then
          report (.usage (.structInItself decl.name)) field.span
          structFields site params decl self known fields
        else
          structFields site params decl self (known ++ [(field.name, type)]) fields

/-- The types of parameters, if all of them have a meaning; every problem is reported. -/
def paramTypes (package : PackageId) : List Param → StateM Survey (Option (List Ty))
  | [] => return some []
  | p :: ps => do
    let type ← resolveType package none p.type
    let types ← paramTypes package ps
    return type.bind fun t => types.map (t :: ·)

def isHeader (file : File) (node : Nat) : Bool :=
  file.decls.any fun
    | .header info _ => info.id == node
    | _ => false

/-- Declares a function of this kind. A header and a definition of the same type share one symbol,
which stays with the definition. -/
def declareSignature (site : Site) (file : File) (info : Info) (name : String) (hasBody : Bool)
    (kind : SymbolKind) : StateM Survey Unit := do
  match ((← get).globals.scope site.id).symbol? name with
  | none =>
    let foreign := site.foreign || Directive.present info.directives .external
    declare (site.symbol info name kind foreign)
  | some existing =>
    if existing.kind = kind ∧ (isHeader file existing.node ∨ !hasBody) then
      if hasBody then
        modify fun s =>
          { s with
            globals := s.globals.modifyScope site.id fun scope =>
              { scope with
                symbols := scope.symbols.map fun symbol =>
                  if symbol.name == name then
                    { symbol with node := info.id, span := info.span }
                  else symbol } }
    else
      report (.name (.redeclaredInPackage name)) info.span

def declareFunction (site : Site) (file : File) (info : Info) (sig : Signature)
    (hasBody : Bool) : StateM Survey Unit := do
  let params ← paramTypes site.id sig.params
  let result ← resolveType site.id none sig.result
  let (some params, some result) := (params, result) | return
  declareSignature site file info sig.name hasBody (.function params result)

/-- Declares functions and variables, and gives structs their fields. -/
def declareValue (site : Site) (file : File) : Decl → StateM Survey Unit
  | .struct info decl => do
    let some id := ownStruct? (← get).globals site.id info.id decl.name | return
    let fields ← structFields site ⟨info.id, decl.generics⟩ decl id [] decl.fields
    modify fun s =>
      { s with globals := { s.globals with structs := s.globals.structs.setFields id fields } }
  | .header info sig => declareFunction site file info sig false
  | .function info sig _ => declareFunction site file info sig true
  | .var info decl => do
    match decl.type with
    | none => report (.type (.untypedGlobal decl.name)) info.span
    | some written =>
      let some type ← resolveType site.id none written | return
      let foreign := site.foreign || Directive.present info.directives .external
      declare (site.symbol info decl.name (.var type decl.mutable) foreign)
  | _ => return

/-- Reports and takes out fields through which a struct would contain itself. -/
def breakCycles (site : Site) : Decl → StateM Survey Unit
  | .struct info decl => do
    let g := (← get).globals
    let some id := ownStruct? g site.id info.id decl.name | return
    let all := List.range g.structs.size
    let (cyclic, kept) :=
      (g.structs.get id).fields.partition fun (_, type) => g.structs.embeds id all type
    cyclic.forM fun (name, _) =>
      let span := ((decl.fields.find? (·.name == name)).map (·.span)).getD info.span
      report (.usage (.structThroughField decl.name name)) span
    modify fun s =>
      { s with globals := { s.globals with structs := s.globals.structs.setFields id kept } }
  | _ => return

def declarePackage (table : PackageTable) (id : PackageId) : StateM Survey Unit := do
  let some { path, source := some file, header, .. } := table.get? id | return
  let site : Site := { id, path, foreign := header.isSome }
  file.decls.forM (declareImport table site)
  file.decls.forM (declareShell site)
  file.decls.forM (declareAlias site)
  file.decls.forM (declareValue site file)
  file.decls.forM (breakCycles site)

/-- Declares everything in packages that come dependencies first. -/
def ofPackages (table : PackageTable) (order : List PackageId) : Survey :=
  ((order.forM (declarePackage table)).run { globals := Globals.ofSize table.size }).2

end Quill.Survey
