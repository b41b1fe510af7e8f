import Quill.Proofs.WellPlaced

/-!
# Where directives come from

A directive that stands on a node or a type was written. Not all that are written are kept: of those
in front of an expression in parentheses and those inside, the latter are given up.
-/
namespace Quill

open List

/-- The directive stands on the part or on one inside it. -/
inductive Part.Bears (d : Directive) : Part → Prop
  | own {x : Part} : d ∈ x.info.directives → Bears d x
  | inside {x c : Part} : c ∈ x.children → Bears d c → Bears d x

theorem Part.directives_withDirectives (ds : List Directive) (x : Part) :
    (x.withDirectives ds).info.directives ⊆ ds ++ x.info.directives := by
  have own : ds ⊆ ds ++ x.info.directives := subset_append_left _ _
  cases x with
  | node n =>
    cases n with
    | expr e => cases e <;> exact own
    | stmt s => cases s <;> exact own
    | decl d => cases d <;> exact own
    | _ => exact subset_append_right _ _
  | type t => cases t <;> exact own

theorem Made.info {items : List Item} {x : Part} (h : Made items x) : ∃ whole start,
    .node whole start x.info ∈ items ∨ .type whole start x.info ∈ items := by
  cases h <;> simp [Part.info, Node.info, Decl.info, Stmt.info, Expr.info, TypeExpr.info]
  case template t ps i => exact .inr ⟨t.span, .inl (.inr rfl)⟩

theorem written_law (W : Token → Prop) : PartLaw W fun x => ∀ d, x.Bears d → d.From W where
  made {items x} made from_ d h := by
    cases h with
    | own hd =>
      obtain ⟨whole, start, hmem | hmem⟩ := made.info <;>
      · rw [show x.info.directives = [] from from_ _ hmem] at hd
        cases hd
    | inside hc h =>
      rcases made.composed.1 _ hc with hmem | hmem <;> exact from_ _ hmem d h
  dress {x} ds hds hx d h := by
    cases h with
    | own hd =>
      rcases mem_append.mp (x.directives_withDirectives ds hd) with hd | hd
      · exact hds d hd
      · exact hx d (.own hd)
    | inside hc h =>
      rw [(x.withDirectives_frame ds).2.1] at hc
      exact hx d (.inside hc h)

/-- The directives on all nodes of a declaration and on the types written on them. -/
def Decl.attached (d : Decl) : List Directive :=
  d.outline.nodes.flatMap fun n =>
    n.directives ++ n.types.flatMap fun t => t.parts.flatMap (·.info.directives)

theorem TypeExpr.Within.bears {t u : TypeExpr} {e : Directive} (h : u.Within t)
    (he : e ∈ u.info.directives) : (Part.type t).Bears e := by
  induction h with
  | refl => exact .own he
  | tail _ hchild ih => exact .inside (mem_map_of_mem hchild) ih

theorem Node.Within.bears {m n : Node} {e : Directive} (h : m.Within n)
    (hm : (Part.node m).Bears e) : (Part.node n).Bears e := by
  induction h with
  | refl => exact hm
  | tail _ hchild ih => exact .inside (mem_append_right _ (mem_map_of_mem hchild)) ih

theorem Decl.bears_of_mem_attached {d : Decl} {e : Directive} (h : e ∈ d.attached) :
    (Part.decl d).Bears e := by
  obtain ⟨n, hn, he⟩ := mem_flatMap.mp h
  have within : n.Within (.decl d) := Node.mem_nodes_iff.mp hn
  refine within.bears ?_
  rcases mem_append.mp he with he | he
  · exact .own he
  · obtain ⟨t, ht, he⟩ := mem_flatMap.mp he
    obtain ⟨u, hu, he⟩ := mem_flatMap.mp he
    exact .inside (mem_append_left _ (mem_map_of_mem ht)) ((TypeExpr.mem_parts_iff.mp hu).bears he)

/-- Two directives, the second in parentheses behind the first. -/
def directedTwice : List (FileId × String) := [(0, "int g = @stack_buf (@c_file x);")]

end Quill
