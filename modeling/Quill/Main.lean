import Quill.Command.Run

/-!
# The program

Reads from disk what a run may look at, runs it, and writes back what it changed.
-/
namespace Quill.Command

/-- The files at a path and, if it is a directory, all below it. -/
partial def load (path : String) : IO FileTree := do
  let place := (← IO.currentDir) / path
  if ← place.isDir then
    let mut tree : FileTree := { files := [], directories := [Location.ofPath path] }
    for entry in ← place.readDir do
      let below ← load (Location.join path [entry.fileName])
      tree := ⟨tree.files ++ below.files, tree.directories ++ below.directories⟩
    return tree
  else if ← place.pathExists then
    return { files := [(Location.ofPath path, String.fromUTF8? (← IO.FS.readBinFile place))] }
  else
    return { files := [] }

/-- The files and directories that stand in the way of output to a path. -/
def loadTarget (path : String) : IO FileTree := do
  let place := (← IO.currentDir) / path
  if ← place.isDir then
    let l := Location.ofPath path
    let mut tree : FileTree := { files := [], directories := [l] }
    for entry in ← place.readDir do
      if ← entry.path.isDir then
        tree := { tree with directories := tree.directories ++ [l ++ [entry.fileName]] }
    return tree
  else
    let mut tree : FileTree := { files := [] }
    for n in List.range ((Location.ofPath path).length + 1) do
      let l := (Location.ofPath path).take n
      let step := (← IO.currentDir) / "/".intercalate l
      if !l.isEmpty && (← step.pathExists) && !(← step.isDir) then
        tree := { tree with files := tree.files ++ [(l, none)] }
    return tree

def usage : String :=
  "Usage: quill [OPTIONS] <PATH>...\n\n" ++
  "Compile sources to C. Directories are searched for *.ql files.\n\n" ++
  "Options:\n" ++
  "      --main <FILE>      Entry file (defaults to the first input)\n" ++
  "  -o, --out-dir <DIR>    Output directory [default: build]\n" ++
  "      --emit <FORMAT>    c, tokens or ast [default: c]\n" ++
  "  -v, --verbose          Say more (repeatable)\n" ++
  "  -h, --help             Print this text\n" ++
  "  -V, --version          Print the version\n"

def UsageError.message : UsageError → String
  | missingInput => "a source file or directory is missing"
  | unknownArgument => "an argument is not known"
  | invalidValue => "a value is missing or not valid"
  | repeatedOption => "an option is given twice"
  | unexpectedValue => "an option takes no value"
  | help | version => ""

def store (before after : FileTree) : IO Unit := do
  for (l, content) in after.files do
    if let some text := content then
      if before.content? l != some content then
        let path := "/".intercalate l
        IO.FS.createDirAll ("/".intercalate l.dropLast)
        IO.FS.writeFile path text

def execute (invocation : Invocation) : IO UInt32 := do
  let mut tree : FileTree := { files := [] }
  for path in invocation.inputs ++ invocation.entry.toList do
    let more ← load path
    tree := ⟨tree.files ++ more.files, tree.directories ++ more.directories⟩
  let target ← loadTarget invocation.target
  tree := ⟨tree.files ++ target.files, tree.directories ++ target.directories⟩
  let outcome := run tree invocation
  IO.print outcome.stdout
  IO.eprint outcome.stderr
  store tree outcome.tree
  match outcome.error with
  | none => return 0
  | some e =>
    IO.eprintln ("Error: " ++ e.message)
    return 1

end Quill.Command

def main (arguments : List String) : IO UInt32 := do
  match Quill.Command.readArguments arguments with
  | .ok invocation => Quill.Command.execute invocation
  | .error .help =>
    IO.print Quill.Command.usage
    return 0
  | .error .version =>
    IO.println "quill 0.1.0"
    return 0
  | .error e =>
    IO.eprintln ("error: " ++ e.message)
    return 2
