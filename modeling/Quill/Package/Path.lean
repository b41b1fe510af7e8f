import Quill.Tree.Basic

/-!
# Package paths

A package is named by a path such as `std/io`; the empty path names the package of an entry file
that declares none.
-/
namespace Quill

structure PackagePath where
  segments : List String
  deriving DecidableEq, Repr

namespace PackagePath

def isAnonymous (p : PackagePath) : Bool := p.segments.isEmpty

/-- The segments before the last one. -/
def parent (p : PackagePath) : List String := p.segments.dropLast

def leaf? (p : PackagePath) : Option String := p.segments.getLast?

def render (p : PackagePath) : String :=
  if p.isAnonymous then "<main>" else "/".intercalate p.segments

/-- The FNV-1a hash of the bytes of all segments. -/
def hash (p : PackagePath) : UInt64 :=
  (p.segments.flatMap fun s => s.toList.flatMap String.utf8EncodeChar).foldl
    (fun h b => (h ^^^ b.toUInt64) * 0x100000001b3) 0xcbf29ce484222325

/-- Name of the C files of a package without their endings. -/
def stem (p : PackagePath) : String :=
  if p.isAnonymous then "main" else "_".intercalate p.segments

def mangle (p : PackagePath) (name : String) : String :=
  if p.isAnonymous then "main__" ++ name else "__".intercalate p.segments ++ "__" ++ name

/-- The path that an import in this package means. -/
def importTarget (importer : PackagePath) (kind : ImportKind) (segments : List String) :
    PackagePath :=
  match kind with
  | .plain | .root => ⟨segments⟩
  | .sibling => ⟨importer.parent ++ segments⟩

end PackagePath
end Quill
