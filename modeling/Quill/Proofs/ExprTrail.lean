import Quill.Proofs.Course
import Quill.Proofs.ReferenceTrail

/-!
# Trails of expressions

Whatever is expected of an expression, checking it follows the references in it that stand in values
and are not refused before they are looked at.
-/
namespace Quill.Check

open Checking List.Subset Visit

variable {package : PackageId} {ids : List Nat} {sure : (String → Bool) → List Reference}
  {refs : List Reference}

theorem namesValue_goes {α : Type} (cx : Context) (name : String) {f : Bool → Check α}
    (hvalue : Goes package ids sure refs (f true))
    (hother : Goes package ids (fun _ => []) refs (f false)) :
    Goes package ids (fun knows => if knows name then sure knows else []) refs
      (namesValue cx name >>= f) := by
  intro st
  by_cases hknown : st.knows name = true
  · have read : namesValue cx name st = (true, st) := by
      simp only [namesValue, bind, StateT.bind, get, getThe, MonadStateOf.get, StateT.get, pure]
      exact congrFun (if_pos hknown) st
    obtain ⟨trail, before, behind, follows⟩ := hvalue st
    refine ⟨trail, ?_, behind, ?_⟩
    · simpa only [if_pos hknown] using before
    · show Tracks _ _ _ _ (f (namesValue cx name st).1 (namesValue cx name st).2).2
      rw [read]
      exact follows
  · obtain ⟨isValue, read⟩ : ∃ isValue, namesValue cx name st = (isValue, st) := by
      simp only [namesValue, bind, StateT.bind, get, getThe, MonadStateOf.get, StateT.get, pure]
      rw [if_neg (show ¬(st.locals.find? name).isSome = true from hknown)]
      rcases st.globals.lookup cx.package [name] with reason | s | id
      · exact ⟨false, rfl⟩
      · exact ⟨s.isValue, rfl⟩
      · exact ⟨false, rfl⟩
    have either : Goes package ids (fun _ => []) refs (f isValue) := by
      cases isValue
      · exact hother
      · exact hvalue.mono (.refl _) (fun _ => List.nil_subset _) (refl _)
    obtain ⟨trail, -, behind, follows⟩ := either st
    refine ⟨trail, ?_, behind, ?_⟩
    · simp only [if_neg hknown, List.nil_subset]
    · show Tracks _ _ _ _ (f (namesValue cx name st).1 (namesValue cx name st).2).2
      rw [read]
      exact follows

section Walk

variable {cx : Context} {clean : Prop} {vs : List Visit} {told : List Ty} {α : Type}
  {check : Check α} {types : α → List Ty} {fine : α → Prop}

theorem Course.follows (h : Course cx clean vs told check types fine)
    (hvs : ∀ v ∈ vs, (expr cx v.expr).Goes cx.package (v.expr.ids .node)
      (fun knows => v.expr.sure knows) v.expr.refs) :
    Goes cx.package (vs.flatMap (·.expr.ids .node)) (fun knows => vs.flatMap (Visit.refs knows))
      (vs.flatMap (·.expr.refs)) check := by
  induction h with
  | pure => exact .pure
  | bind _ _ first second =>
    obtain ⟨hvs, hvs'⟩ := List.forall_mem_append.mp hvs
    simp only [List.flatMap_append]
    exact .bind (first hvs) fun a => second a hvs'
  | get _ _ _ _ ih => exact .get fun now => ih now hvs
  | report error span => exact report_still error span
  | resolve t => exact resolveType_still t
  | visit v =>
    simp only [List.flatMap_singleton]
    refine (List.forall_mem_singleton.mp hvs _).mono (.refl _) (fun knows => ?_) (refl _)
    unfold refs
    split
    · exact refl _
    · exact List.nil_subset _
  | @widen _ vs vs' _ _ _ _ _ _ part rest ih =>
    refine (ih fun v hv => hvs v (part.subset hv)).mono ?_ (fun knows => ?_) ?_
    · obtain ⟨ws, perm, sublist⟩ := part
      exact ⟨_, perm.flatMap_right _, sublist.flatMap _⟩
    · intro r hr
      obtain ⟨v, hv, hr⟩ := List.mem_flatMap.mp hr
      rcases rest v hv with hmem | ⟨hsure, -⟩
      · exact List.mem_flatMap.mpr ⟨v, hmem, hr⟩
      · simp [Visit.refs, hsure] at hr
    · intro r hr
      obtain ⟨v, hv, hr⟩ := List.mem_flatMap.mp hr
      exact List.mem_flatMap.mpr ⟨v, part.subset hv, hr⟩

theorem sizeofWritten_still (cx : Context) (info : Info) (type : TypeExpr) :
    Still cx.package (sizeofWritten cx info type) := by
  refine .after (resolveType_still type) fun r => ?_
  cases r with
  | none => exact .pure
  | some t => exact .after (setWritten_still info.id t) fun _ => .pure

theorem expr_goes (e : Expr) :
    (expr cx e).Goes cx.package (e.ids .node) (fun knows => e.sure knows) e.refs := by
  induction e using Expr.parts_induction with
  | h e ih =>
    intro expected
    have plain (href : ∀ info path, e ≠ .ref info path)
        (hsize : ∀ info type operand, e ≠ .sizeofType info type operand) :
        Goes cx.package (e.ids .node) (fun knows => e.sure knows) e.refs (expr cx e expected) := by
      obtain ⟨body, run, course⟩ := @expr_course e cx expected href hsize
      rw [run, e.ids_parts, e.refs_parts href, funext fun knows => e.sure_parts knows href
        fun info type operand => hsize info type (some operand)]
      exact typed_goes (course.follows ih) e.id
    cases e with
    | ref info path =>
      rw [expr]
      exact reference_goes cx info path
    | sizeofType info type operand =>
      have written := sizeofWritten_still cx info type
      cases operand with
      | none =>
        rw [expr]
        exact typed_goes (.skip written _ _) info.id
      | some e =>
        rw [expr]
        refine typed_goes ?_ info.id
        have measured : Goes cx.package (type.ids .node ++ e.ids .node) (fun knows => e.sure knows)
            e.refs (do return (← expr cx e none).map fun _ => Ty.size) :=
          .mono (.before (ih ⟨e, false⟩ (by simp [Expr.parts, perhaps]) none) fun _ => .pure)
            (List.sublist_append_right _ _).subperm (fun _ => refl _)
            (refl _)
        simp only [Expr.sure]
        cases type.valueName? with
        | some name => exact namesValue_goes cx name measured (.skip written _ _)
        | none => exact .skip written _ _
    | _ => exact plain (by simp) (by simp)

theorem Course.goes {es : List Expr} (h : Course cx clean (all es) told check types fine) :
    Goes cx.package (es.flatMap (·.ids .node)) (fun knows => es.flatMap (·.sure knows))
      (es.flatMap (·.refs)) check := by
  have follows := h.follows fun v _ => expr_goes v.expr
  simpa only [flatMap_all (·.ids .node), flatMap_all (·.refs),
    flatMap_refs_all] using follows

end Walk
end Quill.Check
