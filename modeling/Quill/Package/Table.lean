import Quill.Package.Path
import Quill.Problem

/-!
# Package tables

Packages are numbered in the order in which their paths are first met. Their numbers lie in
buckets: the anonymous package in the first, every other one where the hash of its path says.
Asking for a path that is not there adds a package without source.
-/
namespace Quill

abbrev PackageId := Nat

structure Package where
  path : PackagePath
  source : Option File := none
  isEntry : Bool := false
  /-- The C header that the package stands for, if it only binds C code. -/
  header : Option String := none
  deriving Repr

def Package.isForeign (p : Package) : Bool := p.header.isSome

structure PackageTable where
  packages : Array Package
  buckets : Array (List PackageId)
  deriving Repr

namespace PackageTable

def defaultBucketCount : Nat := 64

/-- An empty table; at least two buckets, so that named paths have a place. -/
def ofBuckets (count : Nat) : PackageTable := ⟨#[], Array.replicate (max count 2) []⟩

def size (t : PackageTable) : Nat := t.packages.size

def bucketCount (t : PackageTable) : Nat := t.buckets.size

def bucketOf (t : PackageTable) (p : PackagePath) : Nat :=
  if p.isAnonymous then 0 else 1 + p.hash.toNat % (t.bucketCount - 1)

def get? (t : PackageTable) (id : PackageId) : Option Package := t.packages[id]?

/-- The path of a package; the anonymous one for a number that is not given out. -/
def pathOf (t : PackageTable) (id : PackageId) : PackagePath :=
  ((t.get? id).map (·.path)).getD ⟨[]⟩

def lookup (t : PackageTable) (p : PackagePath) : Option PackageId :=
  (t.buckets[t.bucketOf p]?.getD []).find? fun id => (t.get? id).any (·.path == p)

/-- The number of the package of this path, added without source if it is not there. -/
def resolve (t : PackageTable) (p : PackagePath) : PackageId × PackageTable :=
  match t.lookup p with
  | some id => (id, t)
  | none =>
    (t.size,
      { packages := t.packages.push { path := p }
        buckets := t.buckets.modify (t.bucketOf p) (· ++ [t.size]) })

def ids (t : PackageTable) : List PackageId := List.range t.size

def isSourced (t : PackageTable) (id : PackageId) : Bool := (t.get? id).any (·.source.isSome)

def sourced (t : PackageTable) : List PackageId := t.ids.filter t.isSourced

def hasEntry (t : PackageTable) : Bool := t.packages.any (·.isEntry)

/-- Attaches a file to its package, or says why it cannot. -/
def attach (t : PackageTable) (f : File) (isEntry : Bool) :
    PackageTable × Option PackageProblem :=
  let path : PackagePath := ⟨f.packagePath?.getD []⟩
  if path.isAnonymous && !isEntry then (t, some .unnamed)
  else
    let (id, t) := t.resolve path
    if t.isSourced id then (t, some (.repeated path.render))
    else
      let header := (Directive.find? f.packageDirectives .cHeader).bind (·.argument)
      ({ t with
          packages := t.packages.modify id fun p =>
            { p with source := some f, isEntry, header } }, none)

/-- Attaches files in order. The first file of the entry source is the entry, and only it may go
without a package declaration. -/
def attachAll (entry : FileId) : (entrySeen : Bool) → PackageTable → List File →
    PackageTable × List Diagnostic
  | _, t, [] => (t, [])
  | entrySeen, t, f :: fs =>
    let isEntry := f.file == entry && !entrySeen
    let (t, problem) := t.attach f isEntry
    let (t, more) := attachAll entry (entrySeen || isEntry) t fs
    (t, (problem.map fun reason => (⟨.package reason, f.info.span⟩ : Diagnostic)).toList ++ more)

def registerFiles (t : PackageTable) (p : Program) (entry : FileId) :
    PackageTable × List Diagnostic :=
  attachAll entry false t p.files

end PackageTable
end Quill
