import Quill.Command.Path

/-!
# File trees

The files a run works on, by the names on the way to them from the working directory. A name that
stands on the way to something is a directory.
-/
namespace Quill

/-- Names from the working directory down; an absolute path starts with the name `/`. -/
abbrev Location := List String

namespace Location

/-- The way that a path describes. -/
def ofPath (path : String) : Location :=
  (if Path.isAbsolute path.toList then ["/"] else []) ++
    (((Path.segments path.toList).map String.ofList).filter fun name => name != "" && name != ".")

def asksDirectory (path : String) : Bool :=
  match (Path.segments path.toList).getLast? with
  | some last => last == [] || last == ['.']
  | none => true

/-- Whether the last thing that a path names is the dot of a directory. -/
def endsInDot (path : String) : Bool :=
  ((Path.segments path.toList).filter (· != [])).getLast? == some ['.']

/-- Whether a path can be looked up at all: it has at most 4095 bytes, and each name in it at most
255 and no null character. -/
def isUsable (path : String) : Bool :=
  path.utf8ByteSize ≤ 4095 &&
    (Path.segments path.toList).all fun name =>
      (String.ofList name).utf8ByteSize ≤ 255 && !name.contains '\x00'

/-- A path extended by names below it. -/
def join (path : String) (names : List String) : String :=
  if path.isEmpty || path.endsWith "/" then path ++ "/".intercalate names
  else path ++ "/" ++ "/".intercalate names

/-- Sorted by the first name in which they differ, a shorter one first. -/
def before : Location → Location → Bool
  | [], _ => true
  | _ :: _, [] => false
  | a :: as, b :: bs => a < b || (a == b && before as bs)

end Location

structure FileTree where
  /-- Contents are none where they are not text. -/
  files : List (Location × Option String)
  directories : List Location := []
  deriving Repr

namespace FileTree

def content? (t : FileTree) (l : Location) : Option (Option String) := t.files.lookup l

def isFile (t : FileTree) (l : Location) : Bool := (t.content? l).isSome

def isDirectory (t : FileTree) (l : Location) : Bool :=
  l.isEmpty || t.directories.any l.isPrefixOf ||
    t.files.any fun (file, _) => l.isPrefixOf file && l.length < file.length

def leadsToDirectory (t : FileTree) (path : String) : Bool :=
  Location.isUsable path && t.isDirectory (Location.ofPath path)

def read? (t : FileTree) (path : String) : Option String :=
  if Location.isUsable path && !Location.asksDirectory path then
    (t.content? (Location.ofPath path)).join
  else none

/-- Makes the directory that a path leads to and those on the way, unless they are there. A file on
the way prevents it. So does a dot at the end, which is a name inside a directory that has to be
there already. -/
def makeDirectory? (t : FileTree) (path : String) : Option FileTree :=
  if t.leadsToDirectory path then some t
  else if !Location.isUsable path || Location.endsInDot path ||
      t.files.any fun (file, _) => file.isPrefixOf (Location.ofPath path) then none
  else some { t with directories := t.directories ++ [Location.ofPath path] }

/-- Writes a file in place of any earlier one, unless a directory stands there. -/
def write? (t : FileTree) (l : Location) (text : String) : Option FileTree :=
  if t.isDirectory l then none
  else some { t with files := t.files.filter (·.1 != l) ++ [(l, some text)] }

/-- Whether a file name ends in `.ql` and has something before it. -/
def isSourceName (name : String) : Bool := name.endsWith ".ql" && name != ".ql"

/-- The sources below a directory: depth first, each directory in the order of its names. -/
def sourcesBelow (t : FileTree) (l : Location) : List Location :=
  let below := (t.files.map (·.1)).filter fun file =>
    l.isPrefixOf file && l.length < file.length && file.getLast?.any isSourceName
  (below.map (·.drop l.length)).mergeSort Location.before

end FileTree
end Quill
