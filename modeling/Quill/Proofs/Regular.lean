import Quill.Proofs.CompleteLowering
import Quill.Proofs.DeferLowering
import Quill.Proofs.ReadParts

/-!
# Regular bodies

The function bodies of accepted sources are regular: deferred statements neither return nor defer,
and loops run only over ranges and arrays of known length.
-/
namespace Quill

open Stmt Bool

mutual

/-- Whether no branch and no loop body is a bare `defer`. -/
def Stmt.formed : Stmt → Bool
  | .block _ body => allFormed body
  | .cond _ _ onTrue onFalse => !onTrue.isDefer && onTrue.formed && elseFormed onFalse
  | .loop _ _ body | .foreach _ _ _ body => !body.isDefer && body.formed
  | .defer _ body => body.formed
  | .ret _ _ | .var _ _ | .crash _ _ | .expr _ _ | .assign _ _ _ _ | .switch _ _ => true

def Stmt.allFormed : List Stmt → Bool
  | [] => true
  | s :: ss => s.formed && allFormed ss

def Stmt.elseFormed : Option Stmt → Bool
  | none => true
  | some s => !s.isDefer && s.formed

end

def Decl.formed : Decl → Bool
  | .function _ _ body => allFormed body.body
  | _ => true

theorem Stmt.formed_withDirectives (ds : List Directive) (s : Stmt) :
    (s.withDirectives ds).formed = s.formed := by
  cases s <;> rfl

theorem Decl.formed_withDirectives (ds : List Directive) (d : Decl) :
    (d.withDirectives ds).formed = d.formed := by
  cases d <;> rfl

theorem Checked.iterable_of_complete {cx : Checked} {e : Expr}
    (h : e.IterableComplete cx.resolution.facts) : cx.iterable e = true := by
  by_cases hrange : ∃ info low high inclusive, e = .range info low high inclusive
  · obtain ⟨info, low, high, inclusive, rfl⟩ := hrange
    rfl
  · have hne : ∀ info low high inclusive, e ≠ .range info low high inclusive :=
      fun info low high inclusive heq => hrange ⟨info, low, high, inclusive, heq⟩
    rw [Expr.iterableComplete_of_ne hne] at h
    obtain ⟨-, element, length, htype⟩ := h
    have known : cx.resolution.typeOf? e.id = some (.array element (some length)) := htype
    cases e with
    | range info low high inclusive => exact absurd rfl (hne info low high inclusive)
    | _ => simp [Checked.iterable, known]

mutual

theorem Stmt.regular_of {cx : Checked} (s : Stmt) (formed : s.formed = true)
    (contained : s.contained = true) (complete : s.Complete cx.resolution.facts) :
    s.regular cx = true := by
  cases s with
  | block info body => exact Stmt.allRegular_of body formed contained complete
  | cond info test onTrue onFalse =>
    simp only [Stmt.formed, Stmt.contained, and_eq_true] at formed contained
    simp only [Stmt.regular, and_eq_true]
    exact ⟨⟨formed.1.1, onTrue.regular_of formed.1.2 contained.1 complete.2.1⟩,
      Stmt.elseRegular_of onFalse formed.2 contained.2 complete.2.2⟩
  | loop info test body =>
    simp only [Stmt.formed, and_eq_true] at formed
    simp only [Stmt.regular, and_eq_true]
    exact ⟨formed.1, body.regular_of formed.2 contained complete.2⟩
  | foreach info x e body =>
    simp only [Stmt.formed, and_eq_true] at formed
    simp only [Stmt.regular, and_eq_true]
    exact ⟨⟨Checked.iterable_of_complete complete.2.1, formed.1⟩,
      body.regular_of formed.2 contained complete.2.2⟩
  | defer info body =>
    simp only [Stmt.contained, and_eq_true] at contained
    simp only [Stmt.regular, and_eq_true]
    exact ⟨contained.1, body.regular_of formed contained.2 complete⟩
  | switch info e => exact complete.elim
  | ret | var | crash | expr | assign => rfl

theorem Stmt.allRegular_of {cx : Checked} (ss : List Stmt) (formed : allFormed ss = true)
    (contained : allContained ss = true)
    (complete : AllComplete cx.resolution.facts ss) : allRegular cx ss = true := by
  cases ss with
  | nil => rfl
  | cons s ss =>
    simp only [allFormed, allContained, and_eq_true] at formed contained
    simp only [allRegular, and_eq_true]
    exact ⟨s.regular_of formed.1 contained.1 complete.1,
      allRegular_of ss formed.2 contained.2 complete.2⟩

theorem Stmt.elseRegular_of {cx : Checked} (s : Option Stmt) (formed : elseFormed s = true)
    (contained : elseContained s = true)
    (complete : ElseComplete cx.resolution.facts s) : elseRegular cx s = true := by
  cases s with
  | none => rfl
  | some s =>
    simp only [elseFormed, and_eq_true] at formed
    simp only [elseRegular, and_eq_true]
    exact ⟨formed.1, s.regular_of formed.2 contained complete⟩

end

/-- Whether a part is such a statement or declaration, or neither. -/
def Part.Formed : Part → Prop
  | .node (.stmt s) => s.formed = true
  | .node (.decl d) => d.formed = true
  | _ => True

theorem Stmt.allFormed_of {ss : List Stmt} (h : ∀ s ∈ ss, s.formed = true) : allFormed ss = true := by
  induction ss with
  | nil => rfl
  | cons s ss ih =>
    rw [List.forall_mem_cons] at h
    exact and_eq_true_iff.mpr ⟨h.1, ih h.2⟩

theorem Stmt.not_isDefer_of_isBranch {s : Stmt} (h : s.isBranch = true) : (!s.isDefer) = true := by
  cases s <;> first | rfl | cases h

theorem formed_law : PartLaw (fun _ => True) Part.Formed where
  made {items x} made from_ := by
    have formed {s : Stmt} (h : .stmt s ∈ items) : s.formed = true := from_ (.stmt s) h
    cases made with
    | block => exact Stmt.allFormed_of fun s hs => formed (by simp [hs])
    | @cond t e s r i hs hr =>
      simp only [Part.Formed, Stmt.formed, and_eq_true]
      refine ⟨⟨Stmt.not_isDefer_of_isBranch hs, formed (by simp)⟩, ?_⟩
      cases r with
      | none => rfl
      | some s' => exact and_eq_true_iff.mpr ⟨Stmt.not_isDefer_of_isBranch (hr s' rfl), formed (by simp)⟩
    | loop hs | foreach hs =>
      exact and_eq_true_iff.mpr ⟨Stmt.not_isDefer_of_isBranch hs, formed (by simp)⟩
    | @defer t s i => exact formed (s := s) (by simp)
    | @function a d b i => exact formed (s := b.toStmt) (by simp)
    | _ => trivial
  dress {x} ds _ h := by
    cases x with
    | node n =>
      cases n with
      | stmt s => exact (s.formed_withDirectives ds).trans h
      | decl d => exact (d.formed_withDirectives ds).trans h
      | _ => exact h
    | type t => exact h

theorem parse_formed (texts : List (FileId × String)) :
    ∀ f ∈ (parse texts).program.files, ∀ d ∈ f.decls, d.formed = true :=
  parse_all_from formed_law fun _ _ _ _ => trivial

theorem Accepted.regular {sources : Sources} {options : Options} {order : List PackageId}
    (h : Accepted sources options order) {id : PackageId} {file : File} (hid : id ∈ order)
    (source : (sources.table options).sourceOf? id = some file) {info : Info} {sig : Signature}
    {body : Block} (hd : .function info sig body ∈ file.decls) :
    allRegular ⟨sources.table options, (sources.resolved options order).1⟩ body.body =
      true := by
  have formed : (Decl.function info sig body).formed = true :=
    parse_formed sources.numbered file (h.holds.among id file source) _ hd
  have passed := resolve_passed h.holds sources.nodes_apart h.checked hid source _ hd
  exact allRegular_of body.body formed passed.2 passed.1.2

end Quill
