import Quill.Proofs.Accepted
import Quill.Proofs.SymbolSource

/-!
# Order of declarations

In whatever order a package declares its names, they get symbols of the same kinds. A function that
is declared more than once takes from one of the declarations whether it is foreign.
-/
namespace Quill

/-- What is left of a kind without its types. -/
def SymbolKind.shape : SymbolKind → SymbolKind
  | .struct _ => .struct 0
  | .typedef _ => .typedef .void
  | .function _ _ => .function [] .void
  | .var _ mutable => .var .void mutable

namespace Survey

/-- The package has the declarations of this file, and nothing is wrong with any. -/
structure Accepts (table : PackageTable) (order : List PackageId) (id : PackageId) (foreign : Bool)
    (file : File) : Prop where
  package : ∃ path isEntry header,
    table.get? id = some ⟨path, some file, isEntry, header⟩ ∧ header.isSome = foreign
  nodup : (file.declIds .node).Nodup
  clean : Diagnostic.Clean (ofPackages table order).problems
  visited : id ∈ order

/-- Whether the declarations of a name agree on where it is defined. -/
def Agreed (ds : List Decl) (name : String) : Prop :=
  ∀ d ∈ ds, ∀ d' ∈ ds, d.name? = some name → d'.name? = some name → d.external = d'.external

variable {table table' : PackageTable} {order order' : List PackageId} {id : PackageId}
  {foreign : Bool} {file file' : File} {name : String} {s : Symbol}

namespace Accepts

theorem source (h : Accepts table order id foreign file) : table.sourceOf? id = some file := by
  obtain ⟨path, isEntry, header, hget, -⟩ := h.package
  rw [PackageTable.sourceOf?, hget]
  rfl

theorem declares (h : Accepts table order id foreign file) {d : Decl} (hd : d ∈ file.decls) :
    (ofPackages table order).globals.Declares id d :=
  ofPackages_declared h.nodup h.clean h.visited h.source hd

theorem sourced (h : Accepts table order id foreign file)
    (hs : ((ofPackages table order).globals.scope id).symbol? name = some s) :
    (∃ d ∈ file.decls, s.MadeFor foreign d) ∧
      ∃ d ∈ file.decls, d.name? = some name ∧ s.foreign = (foreign || d.external) := by
  obtain ⟨path, isEntry, header, hget, rfl⟩ := h.package
  obtain ⟨-, _, _, _, _, hget', made⟩ := ofPackages_sourced table order id name s hs
  rw [hget] at hget'
  cases hget'
  rw [← Scope.name_of_symbol? hs]
  exact made

/-- Every symbol that one order gives is given by the other one. -/
theorem alike (h : Accepts table order id foreign file) (h' : Accepts table' order' id foreign file')
    (perm : file.decls.Perm file'.decls)
    (hs : ((ofPackages table order).globals.scope id).symbol? name = some s) :
    ∃ s', ((ofPackages table' order').globals.scope id).symbol? name = some s' ∧
      s.kind.shape = s'.kind.shape ∧ (Agreed file.decls name → s.foreign = s'.foreign) := by
  obtain ⟨⟨d, hd, made⟩, e, he, hname, hforeign⟩ := h.sourced hs
  have named : d.name? = some name := made.name.trans (congrArg some (Scope.name_of_symbol? hs))
  obtain ⟨s', hs', stands⟩ := h'.declares (perm.subset hd) name named
  obtain ⟨⟨d', hd', made'⟩, e', he', hname', hforeign'⟩ := h'.sourced hs'
  refine ⟨s', hs', ?_, fun agreed => ?_⟩
  · have fits := made.fits
    cases d with
    | struct | typedef =>
      obtain ⟨_, hkind⟩ := fits
      obtain ⟨-, _, hkind'⟩ := stands
      rw [hkind, hkind']
      rfl
    | header =>
      obtain ⟨_, _, hkind, -⟩ := fits
      obtain ⟨_, _, hkind'⟩ := stands
      rw [hkind, hkind']
      rfl
    | function =>
      obtain ⟨_, _, hkind, -⟩ := fits
      obtain ⟨-, _, _, hkind'⟩ := stands
      rw [hkind, hkind']
      rfl
    | var info decl =>
      -- Both symbols are at the node of this declaration, so it is the one that both are made for.
      obtain rfl : Decl.var info decl = d' := by
        by_contra hne
        refine File.decls_apart h'.nodup (perm.subset hd) hd' hne (Decl.id_mem_ids _) ?_
        have same : (Decl.var info decl).id = d'.id := stands.1.symm.trans made'.node
        exact same ▸ d'.id_mem_ids
      obtain ⟨⟨_, hkind⟩, -⟩ := fits
      obtain ⟨⟨_, hkind'⟩, -⟩ := made'.fits
      rw [hkind, hkind']
      rfl
    | separator | package | imports => cases named
  · rw [hforeign, hforeign', agreed e he e' (perm.symm.subset he') hname hname']

end Accepts

end Survey

/-- Declarations of every kind, with a function that is declared twice. -/
def shuffled : Sources :=
  ["struct S \x7b T t \x7d\nint g(S s);\nint mut n;\nint g(S s) \x7b return n; \x7d\n" ++
    "@extern int f(int x);\ntypedef T;\nvoid main() \x7b \x7d"]

/-- The table with the declarations of all packages the other way round. -/
def PackageTable.reversed (table : PackageTable) : PackageTable :=
  { table with packages := table.packages.map fun p =>
      { p with source := p.source.map fun file => { file with decls := file.decls.reverse } } }

/-- A function declared as one of C code and defined, in both orders. -/
def headerFirst : Sources :=
  ["@extern int f();\nint f() \x7b return 1; \x7d\nvoid main() \x7b f(); \x7d"]

def headerLast : Sources :=
  ["int f() \x7b return 1; \x7d\n@extern int f();\nvoid main() \x7b f(); \x7d"]

end Quill
