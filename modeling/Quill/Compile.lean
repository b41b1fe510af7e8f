import Quill.Lower.Files
import Quill.Package.Imports
import Quill.Parser.Decl
import Quill.Placement
import Quill.Tree.Printer
import Quill.Typing.Package

/-!
# Compiling

The way from sources to C files. Stages that only report problems run together before the first
look at what they found, so that one run tells as much as possible; a stage that builds on the
result of another runs only if that one found no error.
-/
namespace Quill

inductive Failure where
  /-- All problems found, warnings among them. -/
  | problems (found : List Diagnostic)
  | importCycle (packages : List PackagePath)
  | missingEntry
  deriving Repr

namespace Failure

def diagnostics : Failure → List Diagnostic
  | problems found => found
  | _ => []

def message : Failure → String
  | problems found =>
    "compilation failed with " ++ toString (found.countP (·.isError)) ++ " error(s)"
  | importCycle packages => "import cycle: " ++ " -> ".intercalate (packages.map (·.render))
  | missingEntry => "the entry file is not part of the compilation"

end Failure

/-- Source texts; a source is known by its place among them. -/
abbrev Sources := List String

def Sources.numbered (sources : Sources) : List (FileId × String) :=
  (List.range sources.length).zip sources

structure Options where
  entry : FileId := 0
  buckets : Nat := PackageTable.defaultBucketCount
  deriving Repr

structure Artifact where
  files : List Generated
  warnings : List Diagnostic
  deriving Repr

def stopOnError (found : List Diagnostic) : Except Failure Unit :=
  if Diagnostic.hasErrors found then .error (.problems found) else .ok ()

def compile (sources : Sources) (options : Options) : Except Failure Artifact := do
  if sources.length ≤ options.entry then throw .missingEntry
  let parsed := parse sources.numbered
  stopOnError parsed.diagnostics
  let program := parsed.program
  let (table, unregistered) :=
    (PackageTable.ofBuckets options.buckets).registerFiles program options.entry
  let imports := table.imports
  let found :=
    parsed.diagnostics ++ program.placementProblems ++ unregistered ++ imports.problems
  stopOnError found
  let table := imports.table
  if !table.hasEntry then throw .missingEntry
  match imports.graph.order table.sourced with
  | .error cycle => throw (.importCycle (cycle.map table.pathOf))
  | .ok order =>
    let (resolution, unresolved) := resolve table order parsed.ids.nodes
    let found := found ++ unresolved
    stopOnError found
    let (files, unlowered) := generate table resolution
    let found := found ++ unlowered
    stopOnError found
    return { files, warnings := found }

/-- The tokens of one source, a line each with number, class and text. -/
def dumpTokens (sources : Sources) (file : FileId) : Except Failure String := do
  let some text := sources[file]? | throw .missingEntry
  let tokens := Lexer.scan file text
  stopOnError (lexProblems tokens)
  return String.join ((Token.kept tokens).map fun t =>
    toString t.span.line ++ "\t" ++ t.kind.label ++ "\t" ++ t.text ++ "\n")

def dumpTree (sources : Sources) : Except Failure String := do
  let parsed := parse sources.numbered
  stopOnError parsed.diagnostics
  return parsed.program.outline.render

end Quill
