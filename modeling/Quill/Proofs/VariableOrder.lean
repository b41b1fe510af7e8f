import Quill.Proofs.EntityNames

/-!
# Order of variables

The variables of a package are defined in the order in which they are declared, whatever their
initial values refer to.
-/
namespace Quill

open List

/-- The C name of a variable that is defined in the source file of its package, or declared in the
one of the entry package. -/
def Checked.global? (cx : Checked) (package : PackageId) (isEntry : Bool) : Decl → Option String
  | .var info decl =>
    if isEntry || !Directive.present info.directives .external then
      cx.declName? package (.var info decl)
    else none
  | _ => none

namespace Lower

variable {cx : Checked} (package : PackageId) (isEntry : Bool)

theorem globalVar_varDefs {info : Info} {t : Ty} (ht : cx.resolution.typeOf? info.id = some t)
    (decl : VarDecl) (st : Lowering) :
    (globalVar cx package isEntry info decl st).1.varDefs.map (·.name?) =
      (cx.global? package isEntry (.var info decl)).toList.map some := by
  by_cases external : Directive.present info.directives .external = true
  · have name : cx.global? package isEntry (.var info decl) =
        if isEntry then some decl.name else none := by
      simp [Checked.global?, Checked.declName?, external]
    rw [globalVar, ht, name]
    show ((ite _ _ _ : Lower Sections) _).1.varDefs.map _ = _
    rw [if_pos external]
    cases isEntry <;> rfl
  · have name : cx.global? package isEntry (.var info decl) =
        some (cx.mangle package decl.name) := by
      simp [Checked.global?, Checked.declName?, external]
    rw [globalVar, ht, name]
    show ((ite _ _ _ : Lower Sections) _).1.varDefs.map _ = _
    rw [if_neg external]
    rfl

theorem decls_varDefs (known : List String) (ds : List Decl) (st : Lowering)
    (typed : ∀ d ∈ ds, d.name?.isSome = true → ∃ t, cx.resolution.typeOf? d.id = some t) :
    (decls cx package isEntry known ds st).1.varDefs.map (·.name?) =
      (ds.filterMap (cx.global? package isEntry)).map some := by
  induction ds generalizing known st with
  | nil => rfl
  | cons d ds ih =>
    rw [decls_cons]
    show ((decl cx package isEntry known d st).1.2.varDefs ++ _).map _ = _
    rw [map_append, ih _ _ fun e he => typed e (mem_cons_of_mem d he)]
    have own : (decl cx package isEntry known d st).1.2.varDefs.map (·.name?) =
        (cx.global? package isEntry d).toList.map some := by
      have others (h : d.valueKind? ≠ some .global) :
          (decl cx package isEntry known d st).1.2.varDefs = [] := by
        refine eq_nil_iff_forall_not_mem.mpr fun item hitem => h ?_
        exact ((decl_declares package isEntry known d st).vars item
          (mem_append_right _ hitem)).2.kind
      cases d with
      | var info decl =>
        obtain ⟨t, ht⟩ := typed (.var info decl) mem_cons_self rfl
        exact globalVar_varDefs package isEntry ht decl st
      | _ =>
        rw [others (by simp [Decl.valueKind?])]
        rfl
    rw [own, ← map_append]
    cases h : cx.global? package isEntry d <;> simp [h]

end Lower

theorem Accepted.varDefs_named {sources : Sources} {options : Options} {order : List PackageId}
    (h : Accepted sources options order) {l : Lower.Emitted}
    (hl : l ∈ sources.emitted options order) :
    l.sections.varDefs.map (·.name?) = (l.file.decls.filterMap
      ((sources.checked options order).global? l.id l.isEntry)).map some := by
  obtain ⟨-, -, st, hsections⟩ := Lower.mem_emitted hl
  rw [hsections]
  exact Lower.decls_varDefs l.id l.isEntry [] l.file.decls _ fun d hd => h.typed hl hd

def forwardAddress : Sources := ["int* a = &b; int b = 3; void main() \x7b \x7d"]

end Quill
