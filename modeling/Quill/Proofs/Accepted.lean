import Mathlib.Data.List.Basic
import Quill.Compile

/-!
# Accepted sources

Sources that get through reading, registering, the imports and checking without an error. What is
stated about them holds of all that is compiled.
-/
namespace Quill

open Diagnostic

namespace Sources

variable (sources : Sources) (options : Options)

/-- The packages as they are registered, and the files that could not be. -/
def registered : PackageTable × List Diagnostic :=
  (PackageTable.ofBuckets options.buckets).registerFiles (parse sources.numbered).program
    options.entry

def imports : PackageTable.ImportState := (sources.registered options).1.imports

/-- All packages, those that are only imported among them. -/
def table : PackageTable := (sources.imports options).table

/-- What checking the packages in this order finds out. -/
def resolved (order : List PackageId) : Resolution × List Diagnostic :=
  resolve (sources.table options) order (parse sources.numbered).ids.nodes

/-- The order that the packages are checked in; empty if they have none. -/
def order : List PackageId :=
  match (sources.imports options).graph.order (sources.table options).sourced with
  | .ok order => order
  | .error _ => []

end Sources

/-- No stage before lowering finds an error, and the packages can be put into this order. -/
structure Accepted (sources : Sources) (options : Options) (order : List PackageId) : Prop where
  read : hasErrors (parse sources.numbered).diagnostics = false
  registered : hasErrors (sources.registered options).2 = false
  imported : hasErrors (sources.imports options).problems = false
  ordered : (sources.imports options).graph.order (sources.table options).sourced = .ok order
  checked : hasErrors (sources.resolved options order).2 = false

instance (sources : Sources) (options : Options) (order : List PackageId) :
    Decidable (Accepted sources options order) :=
  decidable_of_iff
    (hasErrors (parse sources.numbered).diagnostics = false ∧
      hasErrors (sources.registered options).2 = false ∧
      hasErrors (sources.imports options).problems = false ∧
      (sources.imports options).graph.order (sources.table options).sourced = .ok order ∧
      hasErrors (sources.resolved options order).2 = false)
    ⟨fun h => ⟨h.1, h.2.1, h.2.2.1, h.2.2.2.1, h.2.2.2.2⟩,
      fun h => ⟨h.read, h.registered, h.imported, h.ordered, h.checked⟩⟩

theorem Accepted.order_eq {sources : Sources} {options : Options} {order : List PackageId}
    (h : Accepted sources options order) : sources.order options = order := by
  rw [Sources.order, h.ordered]

theorem stopOnError_bind {α : Type} {found : List Diagnostic}
    {next : Unit → Except Failure α} {r : Except Failure α} (h : (stopOnError found >>= next) = r)
    (other : r ≠ .error (.problems found)) : hasErrors found = false ∧ next () = r := by
  unfold stopOnError at h
  split at h
  · exact absurd h.symm other
  · rename_i hfound
    exact ⟨Bool.eq_false_iff.mpr hfound, h⟩

/-- What is compiled is accepted and lowered without an error, and the files are those generated
from it. -/
theorem accepted_of_compile {sources : Sources} {options : Options} {artifact : Artifact}
    (h : compile sources options = .ok artifact) :
    Accepted sources options (sources.order options) ∧ (sources.table options).hasEntry = true ∧
      artifact.files = (generate (sources.table options)
        (sources.resolved options (sources.order options)).1).1 ∧
      hasErrors (generate (sources.table options)
        (sources.resolved options (sources.order options)).1).2 = false := by
  unfold compile at h
  split at h
  · cases h
  obtain ⟨hread, h⟩ := stopOnError_bind h nofun
  obtain ⟨hfound, h⟩ := stopOnError_bind h nofun
  dsimp only at h
  split at h
  · cases h
  rename_i hentry
  split at h
  · cases h
  rename_i order hordered
  obtain ⟨hchecked, h⟩ := stopOnError_bind h nofun
  obtain ⟨hlowered, h⟩ := stopOnError_bind h nofun
  cases h
  simp only [hasErrors, List.any_append, Bool.or_eq_false_iff] at hfound hchecked hlowered
  have accepted : Accepted sources options order :=
    ⟨hread, hfound.1.2, hfound.2, hordered, hchecked.2⟩
  rw [accepted.order_eq]
  simp only [Bool.not_eq_true', Bool.not_eq_false] at hentry
  exact ⟨accepted, hentry, rfl, hlowered.2⟩

end Quill
