import Quill.Proofs.Accepted
import Quill.Proofs.LoweringLaw
import Quill.Proofs.Registration

/-!
# Lowering of complete programs

Whatever is complete is lowered without a gap: no type, no meaning of a name and no length is found
to be missing, and nothing is met that has no counterpart in C.
-/
namespace Quill

variable {order : List PackageId} {options : Options} {sources : Sources}

/-- Neither giving out instances nor a report, except one of a gap, does harm to the property. -/
structure Lowering.Robust (I : Lowering → Prop) : Prop where
  instantiate : ∀ st decl arguments, I st →
    I { st with instances := (st.instances.instantiate decl arguments).2 }
  report : ∀ st reason span, reason.isGap = false → I st →
    I { st with problems := st.problems ++ [⟨.lowering reason, span⟩] }

/-- Complete programs are lowered without a gap, whatever generic structs they use. -/
def Lowering.Robust.law {I : Lowering → Prop} (hI : Lowering.Robust I) (cx : Checked) :
    LoweringLaw cx where
  Sound := I
  Uses _ := True
  Gaps := False
  instantiate hst _ := hI.instantiate _ _ _ hst
  report span h hst := hI.report _ _ span (Bool.eq_false_iff.mpr h) hst
  types _ _ _ := trivial
  heads _ _ _ _ _ := trivial
  written _ _ _ := trivial
  declared _ _ _ _ := trivial
  used _ _ := trivial
  fields _ _ _ := trivial

namespace Lower

variable {cx : Checked} {I : Lowering → Prop}

section

variable (hI : Lowering.Robust I)

include hI

theorem report_keeps {reason : LoweringProblem} (h : reason.isGap = false) (span : Span) :
    Keeps I (report reason span) :=
  .modify fun st hst => hI.report st reason span h hst

theorem cType_keeps (t : Ty) (span : Span) : Keeps I (cType cx t span) :=
  (hI.law cx).cType_keeps (fun _ _ => trivial) span

theorem withInstances_keeps (span : Span) (budget : Nat) (defs : List Definition)
    (pending : List (StructId × List Ty)) : Keeps I (withInstances cx span budget defs pending) :=
  ((hI.law cx).withInstances_keeps span budget (fun _ _ _ _ => trivial) fun _ _ => trivial).1

theorem definitionFields_keeps (defs : List Definition) (span : Span) (fields : List (String × Ty))
    : Keeps I (definitionFields cx defs span fields) :=
  (hI.law cx).definitionFields_keeps defs span fun _ _ => trivial

theorem files_keeps {ids : List PackageId}
    (h : ∀ id ∈ ids, ∀ file, cx.table.sourceOf? id = some file → ∀ d ∈ file.decls, d.Complete cx.resolution.facts)
    : Keeps I (files cx ids) :=
  LoweringLaw.files_keeps (L := hI.law cx) fun id hid file source d hd =>
    .inr (h id hid file source d hd)

end

end Lower

def Lowering.Gapless (st : Lowering) : Prop :=
  ∀ d ∈ st.problems, ∃ reason, d.problem = .lowering reason ∧ reason.isGap = false

theorem Lowering.gapless_robust : Lowering.Robust Lowering.Gapless where
  instantiate _ _ _ h := h
  report st reason span hreason h d hd := by
    rcases List.mem_append.mp hd with hd | hd
    · exact h d hd
    · rw [List.mem_singleton.mp hd]
      exact ⟨reason, rfl, hreason⟩

theorem Accepted.holds (h : Accepted sources options order) :
    (sources.table options).Holds (parse sources.numbered).program.files :=
  PackageTable.registered_holds h.registered

theorem Sources.nodes_apart (sources : Sources) :
    ∀ f ∈ (parse sources.numbered).program.files, (f.declIds .node).Nodup :=
  (List.nodup_flatMap.mp (parse_numbered .node sources.numbered).nodup).1

theorem Accepted.package_complete (h : Accepted sources options order) {id : PackageId}
    {file : File} (hid : id ∈ order) (source : (sources.table options).sourceOf? id = some file) :
    ∀ d ∈ file.decls, d.Complete (sources.resolved options order).1.facts :=
  fun d hd => (resolve_passed h.holds sources.nodes_apart h.checked hid source d hd).1

/-- Everything that lowering looks up in accepted sources is known, so it never meets a gap. -/
theorem generate_gapless (h : Accepted sources options order) :
    (∀ file ∈ (parse sources.numbered).program.files, ∀ d ∈ file.decls,
      d.Complete (sources.resolved options order).1.facts) ∧
    ∀ d ∈ (generate (sources.table options) (sources.resolved options order).1).2,
      ∃ reason, d.problem = .lowering reason ∧ reason.isGap = false := by
  constructor
  · intro file hfile
    obtain ⟨id, source⟩ := h.holds.placed file hfile
    have hid : id ∈ order := Graph.mem_order h.ordered id (PackageTable.mem_sourced source)
    exact h.package_complete hid source
  · have hfiles : ∀ id ∈ order, ∀ file, (sources.table options).sourceOf? id = some file →
        ∀ d ∈ file.decls, d.Complete (sources.resolved options order).1.facts :=
      fun id hid file source => h.package_complete hid source
    let cx : Checked := ⟨sources.table options, (sources.resolved options order).1⟩
    have hkeeps : Keeps Lowering.Gapless (Lower.files cx order) :=
      Lower.files_keeps Lowering.gapless_robust hfiles
    exact hkeeps { instances := cx.resolution.globals.instances } nofun

/-- A program with a loop over an array, a crash message and the size of a value. -/
def summing : Sources :=
  ["int total(int[3] xs) { int mut t = 0; foreach x in xs { t += x; } return t; }\n" ++
    "void main() \x7b int[3] a; if (sizeof(a) == 0) \x7b crash `bad {total(a)}`; \x7d \x7d"]

theorem summing_gapless : Accepted summing {} [0] ∧
    (∀ file ∈ (parse summing.numbered).program.files, ∀ d ∈ file.decls,
      d.Complete (summing.resolved {} [0]).1.facts) ∧
    ∀ d ∈ (generate (summing.table {}) (summing.resolved {} [0]).1).2,
      ∃ reason, d.problem = .lowering reason ∧ reason.isGap = false := by
  have h : Accepted summing {} [0] := by decide +kernel
  exact ⟨h, generate_gapless h⟩

end Quill
