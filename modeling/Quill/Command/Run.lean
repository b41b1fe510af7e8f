import Quill.Command.Arguments
import Quill.Command.Files
import Quill.Compile

/-!
# Runs

A run finds the sources, compiles them or shows them in another form, and writes the generated
files. Nothing is written before everything else has succeeded.
-/
namespace Quill.Command

inductive RunError where
  | unreadable (path : String)
  | noSources
  | failed (reason : Failure)
  | noDirectory (path : String)
  | unwritable (path : String)
  deriving Repr

def RunError.message : RunError → String
  | unreadable path => "failed to read input file " ++ path
  | noSources => "no .ql sources found"
  | failed reason => reason.message
  | noDirectory path => "failed to create directory " ++ path
  | unwritable path => "failed to write output file " ++ path

/-- The paths of the sources that an input stands for. -/
def discover (tree : FileTree) (input : String) : List String :=
  if tree.leadsToDirectory input then
    (tree.sourcesBelow (Location.ofPath input)).map (Location.join input)
  else [input]

/-- The sources to read and the place of the entry among them. -/
def chooseEntry (paths : List String) : Option String → List String × Nat
  | none => (paths, 0)
  | some entry =>
    match paths.findIdx? fun path => Path.normalize path == Path.normalize entry with
    | some i => (paths, i)
    | none => (paths ++ [entry], paths.length)

def readSources (tree : FileTree) : List String → Except RunError Sources
  | [] => .ok []
  | path :: paths =>
    match tree.read? path with
    | none => .error (.unreadable path)
    | some text => (readSources tree paths).map (text :: ·)

/-- A problem as it is printed, with the path of its source. -/
def renderProblem (paths : List String) (d : Diagnostic) : String :=
  ((paths[d.span.file]?).map Path.normalize).getD "<unknown>" ++ ":" ++ toString d.span.line ++
    ": " ++ d.problem.heading ++ ": " ++ d.problem.message

def renderProblems (paths : List String) (ds : List Diagnostic) : String :=
  String.join (ds.map fun d => renderProblem paths d ++ "\n")

/-- Writes files into a directory, up to the first that cannot be written. -/
def writeFiles (dir : String) (tree : FileTree) : List Generated → FileTree × Option RunError
  | [] => (tree, none)
  | file :: files =>
    let path := Location.join dir [file.name]
    if !Location.isUsable path then (tree, some (.unwritable path))
    else
      match tree.write? (Location.ofPath dir ++ [file.name]) file.contents with
      | none => (tree, some (.unwritable path))
      | some tree => writeFiles dir tree files

def writeOutputs (dir : String) (tree : FileTree) (files : List Generated) :
    FileTree × Option RunError :=
  match tree.makeDirectory? dir with
  | none => (tree, some (.noDirectory dir))
  | some tree => writeFiles dir tree files

/-- What a run prints, the files after it, and why it failed if it did. -/
structure Outcome where
  stdout : String := ""
  stderr : String := ""
  tree : FileTree
  error : Option RunError := none
  deriving Repr

/-- The outcome of a run that comes to nothing for a reason found in the sources. -/
def Outcome.ofFailure (tree : FileTree) (paths : List String) (reason : Failure) : Outcome :=
  { tree, stderr := renderProblems paths reason.diagnostics, error := some (.failed reason) }

def present (tree : FileTree) (paths : List String) : Except Failure String → Outcome
  | .ok text => { tree, stdout := text }
  | .error reason => .ofFailure tree paths reason

def emitC (tree : FileTree) (paths : List String) (dir : String) :
    Except Failure Artifact → Outcome
  | .error reason => .ofFailure tree paths reason
  | .ok artifact =>
    let (after, error) := writeOutputs dir tree artifact.files
    { tree := after, stderr := renderProblems paths artifact.warnings, error }

def run (tree : FileTree) (invocation : Invocation) : Outcome :=
  let found := invocation.inputs.flatMap (discover tree)
  let (paths, entry) := chooseEntry found invocation.entry
  if paths.isEmpty then { tree, error := some .noSources }
  else
    match readSources tree paths with
    | .error e => { tree, error := some e }
    | .ok sources =>
      match invocation.format.getD .c with
      | .tokens => present tree paths (dumpTokens sources entry)
      | .tree => present tree paths (dumpTree sources)
      | .c => emitC tree paths invocation.target (compile sources { entry })

end Quill.Command
