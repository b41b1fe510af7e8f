import Quill.Problem
import Quill.Ty.Struct

/-!
# Scopes of packages

What each package declares and imports, and what a name means when it is seen from a package: its
own declarations come first, then names imported one by one, then those of packages imported whole
in the order of the imports, and last the imported packages themselves.
-/
namespace Quill

inductive SymbolKind where
  | struct (id : StructId)
  | typedef (type : Ty)
  | function (params : List Ty) (result : Ty)
  | var (type : Ty) (mutable : Bool)
  deriving DecidableEq, Repr

structure Symbol where
  name : String
  package : PackageId
  node : Nat
  span : Span
  kind : SymbolKind
  /-- Defined outside the program, and known in C by its plain name. -/
  foreign : Bool
  deriving DecidableEq, Repr

def Symbol.isValue (s : Symbol) : Bool :=
  match s.kind with
  | .function _ _ | .var _ _ => true
  | .struct _ | .typedef _ => false

structure Scope where
  /-- In the order of their declaration. -/
  symbols : List Symbol := []
  /-- Imported packages by the last segment of their paths. -/
  packages : List (String × PackageId) := []
  /-- Imported names and the packages they come from. -/
  names : List (String × PackageId) := []
  /-- Packages imported whole. -/
  wildcards : List PackageId := []
  /-- The versions of generic structs that the package uses, in order of first use. -/
  instances : List (StructId × Nat) := []
  deriving Repr

/-- Binds a name in place of any earlier binding of it. -/
def rebind (bindings : List (String × PackageId)) (name : String) (id : PackageId) :
    List (String × PackageId) :=
  bindings.filter (·.1 != name) ++ [(name, id)]

namespace Scope

def symbol? (s : Scope) (name : String) : Option Symbol := s.symbols.find? (·.name == name)

def package? (s : Scope) (name : String) : Option PackageId := s.packages.lookup name

def origin? (s : Scope) (name : String) : Option PackageId := s.names.lookup name

end Scope

/-- The scopes of all packages and the structs they share. -/
structure Globals where
  scopes : Array Scope
  structs : StructTable := {}
  instances : Instances := {}
  deriving Repr

inductive Found where
  | symbol (s : Symbol)
  | package (id : PackageId)
  deriving Repr

namespace Globals

def ofSize (packages : Nat) : Globals := { scopes := Array.replicate packages {} }

def scope (g : Globals) (id : PackageId) : Scope := g.scopes[id]?.getD {}

def modifyScope (g : Globals) (id : PackageId) (f : Scope → Scope) : Globals :=
  { g with scopes := g.scopes.modify id f }

/-- The meaning of a single name seen from package `observer`. -/
def lookupName (g : Globals) (observer : PackageId) (name : String) :
    Except LookupProblem Found :=
  let scope := g.scope observer
  match scope.symbol? name with
  | some s => .ok (.symbol s)
  | none =>
    match scope.origin? name with
    | some origin =>
      match (g.scope origin).symbol? name with
      | some s => .ok (.symbol s)
      | none => .error (.importedUndeclared name)
    | none =>
      match scope.wildcards.findSome? fun id => (g.scope id).symbol? name with
      | some s => .ok (.symbol s)
      | none =>
        match scope.package? name with
        | some id => .ok (.package id)
        | none => .error (.notInScope name)

/-- The meaning of a name, or of a name in an imported package, seen from package `observer`. -/
def lookup (g : Globals) (observer : PackageId) : List String → Except LookupProblem Found
  | [name] => g.lookupName observer name
  | [package, name] =>
    match (g.scope observer).package? package with
    | none => .error (.notImported package)
    | some id =>
      match (g.scope id).symbol? name with
      | some s => .ok (.symbol s)
      | none => .error (.noMember package name)
  | path => .error (.unresolvable path)

end Globals
end Quill
