import Quill.Scope.Declare
import Quill.Typing.Table

/-!
# Facts about nodes

What typing finds out: the type of every expression and declaration, what every name refers to,
and the types written in `sizeof`.
-/
namespace Quill

/-- What a name in an expression refers to. -/
inductive Binding where
  | local
  | global (package : PackageId) (name : String)
  | function (package : PackageId) (name : String)
  /-- Something outside the program, known by its plain name. -/
  | foreign (name : String)
  deriving DecidableEq, Repr

structure Facts where
  types : Table Ty := {}
  bindings : Table Binding := {}
  written : Table Ty := {}
  deriving Repr

def Facts.ofSize (nodes : Nat) : Facts := ⟨.ofSize nodes, .ofSize nodes, .ofSize nodes⟩

/-- A program with all that is known about it, its packages in dependency order. -/
structure Resolution where
  globals : Globals
  facts : Facts
  order : List PackageId
  deriving Repr

namespace Resolution

def typeOf? (r : Resolution) (node : Nat) : Option Ty := r.facts.types.get? node

def binding? (r : Resolution) (node : Nat) : Option Binding := r.facts.bindings.get? node

def written? (r : Resolution) (node : Nat) : Option Ty := r.facts.written.get? node

def typeName (r : Resolution) (t : Ty) : String := r.globals.structs.nameOf t

end Resolution
end Quill
