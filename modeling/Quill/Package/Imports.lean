import Quill.Graph
import Quill.Package.Table

/-!
# Imports between packages

An import of a package without source is reported and left out of the graph.
-/
namespace Quill.PackageTable

/-- What is known while the imports are gone through. -/
structure ImportState where
  table : PackageTable
  graph : Graph
  problems : List Diagnostic
  deriving Repr

/-- Takes in one declaration of package `id`, whose path is `path`. -/
def importStep (id : PackageId) (path : PackagePath) (st : ImportState) : Decl → ImportState
  | .imports info decl =>
    let target := path.importTarget decl.kind decl.segments
    let (targetId, table) := st.table.resolve target
    if table.isSourced targetId then
      { st with table, graph := st.graph.addEdge id targetId }
    else
      { st with table
                problems := st.problems ++ [⟨.package (.unknown target.render), info.span⟩] }
  | _ => st

def packageImports (st : ImportState) (id : PackageId) : ImportState :=
  match st.table.get? id with
  | some { path, source := some file, .. } => file.decls.foldl (importStep id path) st
  | _ => st

def imports (t : PackageTable) : ImportState :=
  t.sourced.foldl packageImports ⟨t, Graph.ofSize t.size, []⟩

end Quill.PackageTable
