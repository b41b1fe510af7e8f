import Quill.Typing.Stmt

/-!
# Checking packages

Function bodies and initial values are checked after all packages are declared. The entry package
has to have a function `main` without parameters.
-/
namespace Quill

namespace Check

def ownSymbol? (package : PackageId) (name : String) : Check (Option Symbol) :=
  return ((← get).globals.scope package).symbol? name

def params : List Param → List Ty → Check Unit
  | p :: ps, t :: ts => do
    declareLocal
      { name := p.name, type := some t, mutable := p.mutable, span := p.span, quiet := true }
    params ps ts
  | _, _ => return

/-- Checks a declaration, unless its name went to another one. -/
def decl (package : PackageId) : Decl → Check Unit
  | .function info sig body => do
    let some { kind := .function types result, node, .. } ← ownSymbol? package sig.name | return
    if node != info.id then return
    setType info.id (.function types result)
    pushScope
    params sig.params types
    stmts { package, result } body.body
    popScope
  | .header info sig => do
    let some { kind := .function types result, .. } ← ownSymbol? package sig.name | return
    setType info.id (.function types result)
  | .var info decl => do
    let some { kind := .var type _, node, .. } ← ownSymbol? package decl.name | return
    if node != info.id then return
    setType info.id type
    if let some e := decl.init then
      let _ ← value { package } e type
  | .struct info decl => do
    let some { kind := .struct id, node, .. } ← ownSymbol? package decl.name | return
    if node == info.id then setType info.id (.struct id)
  | .typedef info name _ => do
    let some { kind := .typedef type, node, .. } ← ownSymbol? package name | return
    if node == info.id then setType info.id type
  | .separator _ | .package _ _ | .imports _ _ => return

def entryMain (package : PackageId) (file : File) : Check Unit := do
  match ← ownSymbol? package "main" with
  | some { kind := .function [] _, .. } => return
  | some s => reportType .mainShape s.span
  | none => report (.name .noMain) file.info.span

def package (table : PackageTable) (id : PackageId) : Check Unit := do
  let some { source := some file, isEntry, .. } := table.get? id | return
  file.decls.forM (decl id)
  if isEntry then entryMain id file

end Check

/-- Declares and checks packages that come dependencies first; `nodes` is the number of identities
in the program. -/
def resolve (table : PackageTable) (order : List PackageId) (nodes : Nat) :
    Resolution × List Diagnostic :=
  let survey := Survey.ofPackages table order
  let ((), st) := (order.forM (Check.package table)).run { survey with facts := .ofSize nodes }
  ({ globals := st.globals, facts := st.facts, order }, st.problems)

end Quill
