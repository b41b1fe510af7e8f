import Mathlib.Data.List.Flatten
import Mathlib.Data.List.Perm.Subperm
import Quill.Proofs.ReadIdentity
import Quill.Proofs.Scoping
import Quill.Typing.Stmt

/-!
# Courses of checks

The course of a check says which parts are looked at, which types are known and found, and which
results there are if there is no error. Whatever such steps respect is respected by every check of
an expression.
-/
namespace Quill

open List Option Ty

variable {known : List Ty} {t : Ty} {α : Type}

variable (knows : String → Bool) (f : Expr → List α) (es : List (ArrayElement Expr)) (info : Info)
  (e : Expr)

/-- An expression that a check may look at, and whether it does so in any case. -/
structure Visit where
  expr : Expr
  sure : Bool

namespace Visit

def all (es : List Expr) : List Visit := es.map (⟨·, true⟩)

def perhaps (es : List Expr) : List Visit := es.map (⟨·, false⟩)

/-- A field that was given before is not looked at. -/
def fields (seen : List String) : List (FieldInit Expr) → List Visit
  | [] => []
  | ⟨name, _, e⟩ :: fs => ⟨e, !seen.contains name⟩ :: fields (name :: seen) fs

def elements (es : List (ArrayElement Expr)) : List Visit :=
  es.flatMap fun e => perhaps e.index.toList ++ all [e.value]

theorem values_sublist : (all (es.map (·.value))).Sublist (elements es) := by
  induction es with
  | nil => exact .refl _
  | cons e es ih =>
    rw [elements, flatMap_cons, append_assoc]
    exact (List.Sublist.cons_cons _ ih).trans (sublist_append_right _ _)

theorem flatMap_all (es : List Expr) : (all es).flatMap (fun v => f v.expr) = es.flatMap f := by
  rw [all, flatMap_map]

theorem flatMap_perhaps (es : List Expr) :
    (perhaps es).flatMap (fun v => f v.expr) = es.flatMap f := by
  rw [perhaps, flatMap_map]

theorem flatMap_fields (seen : List String) (fs : List (FieldInit Expr)) :
    (fields seen fs).flatMap (fun v => f v.expr) = fs.flatMap fun x => f x.value := by
  induction fs generalizing seen with
  | nil => rfl
  | cons x fs ih => rw [fields, flatMap_cons, flatMap_cons, ih]

theorem flatMap_elements :
    (elements es).flatMap (fun v => f v.expr) =
      es.flatMap fun e => e.index.toList.flatMap f ++ f e.value := by
  simp [elements, flatMap_assoc, flatMap_perhaps, flatMap_all]

def refs (knows : String → Bool) (v : Visit) : List Reference :=
  if v.sure then v.expr.sure knows else []

theorem flatMap_refs_all (es : List Expr) :
    (all es).flatMap (refs knows) = es.flatMap (·.sure knows) := by
  rw [all, flatMap_map]
  rfl

theorem flatMap_refs_perhaps (es : List Expr) : (perhaps es).flatMap (refs knows) = [] := by
  rw [perhaps, flatMap_map]
  exact flatMap_eq_nil_iff.mpr fun _ _ => rfl

end Visit

namespace Expr

def parts : Expr → List Visit
  | literal _ _ | ref _ _ => []
  | binary _ _ l r | index _ l r => Visit.all [l, r]
  | unary _ _ e | step _ _ e | field _ e _ _ | sizeofExpr _ e | cast _ _ e => Visit.all [e]
  | call _ callee arguments => Visit.all (callee :: arguments)
  | structInit _ fields => Visit.fields [] fields
  | arrayInit _ length elements => Visit.perhaps length.toList ++ Visit.elements elements
  | sizeofType _ _ operand => Visit.perhaps operand.toList
  | range _ low high _ => Visit.perhaps [low, high]
  | tuple _ items => Visit.perhaps items
  | template _ parts => Visit.perhaps (parts.flatMap (·.exprs))

theorem ids_parts : e.ids .node = e.parts.flatMap (·.expr.ids .node) ++ [e.id] := by
  cases e <;> simp [ids, parts, Info.nodeIds, TypeExpr.ids_node, optionIds_eq, allIds_eq,
    fieldIds_eq, elementIds_eq, partIds_eq, Visit.flatMap_all, Visit.flatMap_perhaps,
    Visit.flatMap_fields, Visit.flatMap_elements] <;> rfl

theorem allRefs_eq (es : List Expr) : allRefs es = es.flatMap refs := by
  induction es with
  | nil => rfl
  | cons e es ih => rw [allRefs, ih, flatMap_cons]

theorem optionRefs_eq (e : Option Expr) : optionRefs e = e.toList.flatMap refs := by
  cases e <;> simp [optionRefs]

theorem fieldRefs_eq (fs : List (FieldInit Expr)) : fieldRefs fs = fs.flatMap (·.value.refs) := by
  induction fs with
  | nil => rfl
  | cons f fs ih => rw [fieldRefs, ih, flatMap_cons]

theorem elementRefs_eq :
    elementRefs es = es.flatMap fun e => e.index.toList.flatMap refs ++ e.value.refs := by
  induction es with
  | nil => rfl
  | cons e es ih => rcases e with ⟨_ | i, e⟩ <;> simp [elementRefs, ih]

theorem partRefs_eq (ps : List (TemplatePart Expr)) :
    partRefs ps = (ps.flatMap (·.exprs)).flatMap refs := by
  induction ps with
  | nil => rfl
  | cons p ps ih => cases p <;> simp [partRefs, ih, TemplatePart.exprs]

theorem refs_parts {e : Expr} (h : ∀ info path, e ≠ ref info path) :
    e.refs = e.parts.flatMap (·.expr.refs) := by
  cases e with
  | ref info path => exact absurd rfl (h info path)
  | _ => simp [refs, parts, allRefs_eq, optionRefs_eq, fieldRefs_eq, elementRefs_eq, partRefs_eq,
      Visit.flatMap_all, Visit.flatMap_perhaps, Visit.flatMap_fields, Visit.flatMap_elements]

theorem sure_parts {e : Expr} (h : ∀ info path, e ≠ ref info path)
    (h' : ∀ info type operand, e ≠ sizeofType info type (some operand)) :
    e.sure knows = e.parts.flatMap (Visit.refs knows) := by
  have all (es : List Expr) : allSure knows es = es.flatMap (·.sure knows) := by
    induction es with
    | nil => rfl
    | cons e es ih => rw [allSure, ih, flatMap_cons]
  have fields (seen : List String) (fs : List (FieldInit Expr)) :
      fieldSure knows seen fs = (Visit.fields seen fs).flatMap (Visit.refs knows) := by
    induction fs generalizing seen with
    | nil => rfl
    | cons f fs ih =>
      rw [fieldSure, ih, Visit.fields, flatMap_cons, Visit.refs]
      cases seen.contains f.name <;> rfl
  have elements (es : List (ArrayElement Expr)) :
      elementSure knows es = (Visit.elements es).flatMap (Visit.refs knows) := by
    induction es with
    | nil => rfl
    | cons e es ih =>
      rw [elementSure, ih, Visit.elements, Visit.elements, flatMap_cons, flatMap_append,
        flatMap_append, Visit.flatMap_refs_perhaps, Visit.flatMap_refs_all]
      simp
  cases e with
  | ref info path => exact absurd rfl (h info path)
  | sizeofType info type operand =>
    cases operand with
    | none => rfl
    | some e => exact absurd rfl (h' info type e)
  | _ => simp [sure, parts, all, fields, elements, Visit.flatMap_refs_all,
      Visit.flatMap_refs_perhaps]

theorem parts_induction {P : Expr → Prop}
    (h : ∀ e : Expr, (∀ v ∈ e.parts, P v.expr) → P e) (e : Expr) : P e :=
  h e fun v _ => parts_induction h v.expr
termination_by (e.ids .node).length
decreasing_by
  rw [e.ids_parts, length_append, length_singleton]
  have part : (v.expr.ids .node).Sublist (e.parts.flatMap (·.expr.ids .node)) :=
    sublist_flatMap (f := fun v : Visit => v.expr.ids .node) ‹_›
  exact Nat.lt_succ_of_le part.length_le

end Expr

inductive Ty.From (known : List Ty) : Ty → Prop
  | known {t : Ty} (h : t ∈ known) : From known t
  | scalar (s : Scalar) : From known (.scalar s)
  | pointer {t : Ty} (h : From known t) : From known (.pointer t)
  | mutPointer {t : Ty} (h : From known t) : From known (.mutPointer t)
  | array {t : Ty} (n : Option Nat) (h : From known t) : From known (.array t n)
  | target {t : Ty} (h : From known (.pointer t)) : From known t
  | mutTarget {t : Ty} (h : From known (.mutPointer t)) : From known t
  | element {t : Ty} {n : Option Nat} (h : From known (.array t n)) : From known t
  | param {ps : List Ty} {r p : Ty} (h : From known (.function ps r)) (hp : p ∈ ps) : From known p
  | result {ps : List Ty} {r : Ty} (h : From known (.function ps r)) : From known r

theorem Ty.From.mono {known' : List Ty} (h : From known t) (hk : known ⊆ known') :
    From known' t := by
  induction h with
  | known h => exact .known (hk h)
  | scalar s => exact .scalar s
  | pointer _ ih => exact .pointer ih
  | mutPointer _ ih => exact .mutPointer ih
  | array n _ ih => exact .array n ih
  | target _ ih => exact .target ih
  | mutTarget _ ih => exact .mutTarget ih
  | element _ ih => exact .element ih
  | param _ hp ih => exact .param ih hp
  | result _ ih => exact .result ih

theorem Ty.From.behind (h : From known t) (ts : List Ty) :
    From (ts ++ known) t := h.mono (subset_append_right ts known)

theorem Ty.From.literal (expected : Option Ty) (value : Literal) :
    From known (value.type expected) := by
  cases value with
  | bool | char => exact .scalar _
  | string | chars => exact .pointer (.scalar _)
  | int | float =>
    dsimp only [Literal.type]
    split
    · split <;> exact .scalar _
    · exact .scalar _

namespace Check

/-- The course of a check that is told types. If there was no error before it and there is none up
to its end, its result is fine and it has looked at all expressions. -/
inductive Course (cx : Context) : Prop → List Visit → List Ty → {α : Type} → Check α →
    (α → List Ty) → (α → Prop) → Prop
  | pure {clean : Prop} {told : List Ty} {α : Type} {a : α} {types : α → List Ty} {fine : α → Prop}
    (made : ∀ t ∈ types a, From told t) (done : clean → fine a) :
    Course cx clean [] told (Pure.pure a) types fine
  | bind {clean : Prop} {v w : List Visit} {told : List Ty} {α β : Type} {check : Check α}
    {f : α → Check β} {types : α → List Ty} {types' : β → List Ty} {fine : α → Prop}
    {fine' : β → Prop} (first : Course cx clean v told check types fine)
    (second : ∀ a, Course cx (clean ∧ fine a) w (types a ++ told) (f a) types' fine') :
    Course cx clean (v ++ w) told (check >>= f) types' fine'
  | get {clean : Prop} {vs : List Visit} {told : List Ty} {α : Type} {f : Checking → Check α}
    {types : α → List Ty} {fine : α → Prop} (struct : Ty) (name : String)
    (known : From told struct)
    (rest : ∀ now : Checking, Course cx clean vs
      ((now.globals.structs.fieldType? struct name).toList ++ told) (f now) types fine) :
    Course cx clean vs told (MonadState.get >>= f) types fine
  | report {clean : Prop} {told : List Ty} {problem : Problem} (error : problem.isError = true)
    (span : Span) {fine : Unit → Prop} :
    Course cx clean [] told (.report problem span) (fun _ => []) fine
  | resolve {clean : Prop} {told : List Ty} (t : TypeExpr) :
    Course cx clean [] told (survey (Survey.resolveType cx.package none t)) toList
      fun r => r.isSome = true
  | visit {clean : Prop} {told : List Ty} (v : Visit) {expected : Option Ty}
    (known : ∀ t ∈ expected, From told t) :
    Course cx clean [v] told (expr cx v.expr expected) toList fun r => r.isSome = true
  /-- What is not always looked at may be left out where there is an error. -/
  | widen {clean : Prop} {v w : List Visit} {told : List Ty} {α : Type} {check : Check α}
    {types : α → List Ty} {fine : α → Prop} (h : Course cx clean v told check types fine)
    (part : v.Subperm w)
    (rest : ∀ x ∈ w, x ∈ v ∨ x.sure = false ∧ (clean → ∀ a, ¬ fine a)) :
    Course cx clean w told check types fine

abbrev Yields (cx : Context) (clean : Prop) (vs : List Visit) (told : List Ty)
    (check : Check (Option Ty)) : Prop :=
  Course cx clean vs told check toList fun r => r.isSome = true

/-- A check that looks for a type, and it is no error if there is none. -/
abbrev Seeks (cx : Context) (clean : Prop) (told : List Ty) (check : Check (Option Ty)) : Prop :=
  Course cx clean [] told check toList fun _ => True

abbrev Looks {α : Type} (cx : Context) (clean : Prop) (vs : List Visit) (told : List Ty)
    (check : Check α) : Prop :=
  Course cx clean vs told check (fun _ => []) fun _ => True

variable {cx : Context} {clean : Prop} {vs : List Visit} {told : List Ty}

namespace Course

variable {α β : Type} {check : Check α} {types : α → List Ty} {fine : α → Prop}
  {types' : β → List Ty} {fine' : β → Prop}

theorem read {f : Checking → Check α} (h : ∀ now, Course cx clean vs told (f now) types fine) :
    Course cx clean vs told (MonadState.get >>= f) types fine :=
  .get .bool "" (.scalar .bool) h

theorem after {f : α → Check β} (first : Course cx clean [] told check types fine)
    (second : ∀ a, Course cx (clean ∧ fine a) vs (types a ++ told) (f a) types' fine') :
    Course cx clean vs told (check >>= f) types' fine' :=
  .bind first second

theorem before {f : α → Check β} (first : Course cx clean vs told check types fine)
    (second : ∀ a, Course cx (clean ∧ fine a) [] (types a ++ told) (f a) types' fine') :
    Course cx clean vs told (check >>= f) types' fine' := by
  rw [← append_nil vs]
  exact .bind first second

theorem ite {c : Prop} [Decidable c] {other : Check α}
    (h : Course cx clean vs told check types fine) (h' : Course cx clean vs told other types fine) :
    Course cx clean vs told (if c then check else other) types fine := by
  split
  · exact h
  · exact h'

theorem nothing {a : α} : Looks cx clean [] told (Pure.pure a) := .pure (by simp) fun _ => trivial

theorem ignore (h : Course cx clean vs told check types fine) :
    Looks cx clean vs told (do let _ ← check) := h.before fun _ => .nothing

theorem fail {vs' : List Visit} (h : Course cx clean vs told check types fun _ => False)
    (part : vs.Subperm vs') (rest : ∀ v ∈ vs', v ∈ vs ∨ v.sure = false) :
    Course cx clean vs' told check types fine := by
  have all : Course cx clean vs' told check types fun _ => False :=
    h.widen part fun v hv => (rest v hv).imp_right fun hsure => ⟨hsure, fun _ _ => id⟩
  exact all.before fun a =>
    .pure (fun t ht => .known (mem_append_left _ ht)) fun hc => hc.2.elim

theorem found (h : From told t) : Yields cx clean [] told (Pure.pure (some t)) :=
  .pure (by simpa using h) fun _ => rfl

theorem missing {fine : Option Ty → Prop} (h : ¬ clean) :
    Course cx clean [] told (Pure.pure none) toList fine :=
  .pure (by simp) fun hc => absurd hc h

theorem seek {r : Option Ty} (h : ∀ t ∈ r, From told t) : Seeks cx clean told (Pure.pure r) :=
  .pure (by simpa using h) fun _ => trivial

theorem nameOf (t : Ty) : Looks cx clean [] told (.nameOf t) := .read fun _ => .nothing

theorem converts (src dst : Ty) : Looks cx clean [] told (.converts src dst) :=
  .read fun _ => .nothing

theorem wrong {problem : Problem} (error : problem.isError = true) (span : Span) :
    Course cx clean [] told (.report problem span) (fun _ => []) fun _ => False :=
  .report error span

variable {fine : Option Ty → Prop}

theorem refuse {problem : Problem} (error : problem.isError = true) (span : Span) :
    Course cx clean [] told (do .report problem span; return none) toList fine :=
  .after (.wrong error span) fun _ => .missing And.right

theorem refuseType (problem : String → TypeProblem) (t : Ty) (span : Span) :
    Course cx clean [] told (do reportType (problem (← Check.nameOf t)) span; return none)
      toList fine :=
  .after (.nameOf t) fun _ => .refuse rfl span

theorem refuseTypes (problem : String → String → TypeProblem) (t u : Ty) (span : Span) :
    Course cx clean [] told
      (do reportType (problem (← Check.nameOf t) (← Check.nameOf u)) span; return none)
      toList fine :=
  .after (.nameOf t) fun _ => .after (.nameOf u) fun _ => .refuse rfl span

end Course

theorem unify_course {l r : Ty} (hl : From told l) (hr : From told r) :
    Seeks cx clean told (unify l r) := by
  refine .after (.converts r l) fun _ => .ite (.seek (by simpa using hl)) ?_
  exact .after (.converts l r) fun _ => .ite (.seek (by simpa using hr)) (.seek (by simp))

theorem expectValue_course (span : Span) (h : From told t) (sure : Bool) :
    Yields cx clean [⟨e, sure⟩] told (expectValue (expr cx e) span t) := by
  refine .before (.visit ⟨e, sure⟩ (by simpa using h)) fun r => ?_
  cases r with
  | none => exact .missing (by simp)
  | some actual =>
    exact .after (.converts actual t) fun _ => .ite (.found (.known (by simp))) (.refuseTypes _ _ _ _)

theorem value_course (h : From told t) :
    Yields cx clean [⟨e, true⟩] told (value cx e t) := expectValue_course e e.span h true

theorem operands_course (l r : Expr) {hint : Option Ty} (h : ∀ t ∈ hint, From told t) :
    Course cx clean (Visit.all [l, r]) told (operands l r (expr cx l) (expr cx r) hint)
      (fun ts => ts.1.toList ++ ts.2.toList) fun ts => ts.1.isSome = true ∧ ts.2.isSome = true := by
  have hinted (r : Option Ty) : ∀ t ∈ r <|> hint, From (r.toList ++ told) t := by
    cases r with
    | none => exact h
    | some t =>
      intro u hu
      obtain rfl : t = u := some.inj hu
      exact .known (by simp)
  have both (ts us : Option Ty) : ∀ t ∈ ts.toList ++ us.toList,
      From (ts.toList ++ (us.toList ++ told)) t ∧ From (us.toList ++ (ts.toList ++ told)) t := by
    intro t ht
    rcases mem_append.mp ht with ht | ht <;> exact ⟨.known (by simp [ht]), .known (by simp [ht])⟩
  refine .ite ?_ ?_
  · refine .widen (v := [⟨r, true⟩] ++ [⟨l, true⟩]) (.bind (.visit _ h) fun rt => ?_) ?_ ?_
    · exact .before (.visit _ (hinted rt)) fun lt =>
        .pure (fun t ht => (both lt rt t ht).1) fun hc => ⟨hc.2, hc.1.2⟩
    · exact (List.Perm.swap _ _ _).subperm
    · exact fun v hv => .inl ((List.Perm.swap _ _ _).subset hv)
  · refine .bind (v := [⟨l, true⟩]) (w := [⟨r, true⟩]) (.visit _ h) fun lt => ?_
    exact .before (.visit _ (hinted lt)) fun rt =>
      .pure (fun t ht => (both lt rt t ht).2) fun hc => ⟨hc.1.2, hc.2⟩

theorem binaryResult_course (op : BinaryOp) {l r : Ty} (hl : From told l)
    (hr : From told r) : Seeks cx clean told (binaryResult op l r) := by
  have left : Seeks cx clean told (pure (some l)) := .seek (by simpa using hl)
  have right : Seeks cx clean told (pure (some r)) := .seek (by simpa using hr)
  have neither {clean : Prop} {told : List Ty} : Seeks cx clean told (pure none) := .seek (by simp)
  have number {clean : Prop} {told : List Ty} (s : Scalar) :
      Seeks cx clean told (pure (some (.scalar s))) := .seek (by simpa using .scalar s)
  have unified : Seeks cx clean told (unify l r) := unify_course hl hr
  cases op with
  | eq | ne | lt | le | gt | ge => exact .after unified fun _ => .ite (number .bool) neither
  | add => exact .ite left (.ite right (.ite unified neither))
  | sub => exact .ite left (.ite (number .iptr) (.ite unified neither))
  | mul | div | rem | bitAnd | bitOr | bitXor => exact .ite unified neither
  | shl | shr =>
    simp only [binaryResult]
    split
    · exact left
    · exact neither
  | and | or => exact neither

theorem binary_course (op : BinaryOp) (l r : Expr) {expected : Option Ty}
    (h : ∀ t ∈ expected, From told t) :
    Yields cx clean (Visit.all [l, r]) told
      (binary info op l r (expr cx l) (expr cx r) expected) := by
  refine .ite ?_ ?_
  · refine .bind (v := [⟨l, true⟩]) (w := [⟨r, true⟩])
      (expectValue_course l _ (.scalar .bool) true) fun lt =>
        .before (expectValue_course r _ (.scalar .bool) true) fun rt => .pure ?_ fun hc => ?_
    · split
      · simpa using .scalar .bool
      · simp
    · simp [hc.1.2, hc.2]
  · have hint : ∀ t ∈ if op.isComparison then none else expected.filter (·.isNumeric),
        From told t := by
      split
      · simp
      · exact fun t ht => h t (mem_filter_iff.mp ht).1
    refine .before (operands_course l r hint) fun ts => ?_
    rcases ts with ⟨_ | lt, _ | rt⟩
    · exact .missing (by simp)
    · exact .missing (by simp)
    · exact .missing (by simp)
    refine .after (binaryResult_course op (.known (by simp)) (.known (by simp))) fun result => ?_
    cases result with
    | none => exact .after (.nameOf lt) fun _ => .after (.nameOf rt) fun _ => .refuse rfl _
    | some t => exact .found (.known (by simp))

theorem step_course : Yields cx clean (Visit.all [e]) told (step cx e (expr cx e)) := by
  refine .before (.visit _ (by simp)) fun r => ?_
  cases r with
  | none => exact .missing (by simp)
  | some t =>
    refine .ite (.refuseType _ _ _) (.read fun now => ?_)
    split
    · exact .refuse rfl _
    · exact .found (.known (by simp))

theorem unary_course (op : UnaryOp) (e : Expr) {expected : Option Ty}
    (h : ∀ t ∈ expected, From told t) :
    Yields cx clean (Visit.all [e]) told (unary cx info op e (expr cx e) expected) := by
  cases op with
  | not =>
    refine .before (expectValue_course e _ (.scalar .bool) true) fun r => .pure ?_ fun hc => ?_
    · cases r with
      | none => simp
      | some t => simpa using .scalar .bool
    · rw [isSome_map]
      exact hc.2
  | neg | bitNot =>
    refine .before (.visit _ fun t ht => h t (mem_filter_iff.mp ht).1) fun r => ?_
    cases r with
    | none => exact .missing (by simp)
    | some t => exact .ite (.found (.known (by simp))) (.refuseType _ _ _)
  | addrOf =>
    refine .before (.visit _ (by simp)) fun r => ?_
    cases r with
    | none => exact .missing (by simp)
    | some t =>
      have known {ts : List Ty} : From ((some t).toList ++ ts) t := .known (by simp)
      exact .ite (.refuse rfl _)
        (.read fun _ => .ite (.found (.pointer known)) (.found (.mutPointer known)))
  | deref =>
    refine .before (.visit _ (by simp)) fun r => ?_
    split
    · exact .found (.target (.known (by simp)))
    · exact .found (.mutTarget (.known (by simp)))
    · exact .refuseType _ _ _
    · exact .missing (by simp)
  | preInc | preDec => exact step_course e

theorem fieldBase_course (h : From told t) (arrow : Bool) :
    Yields cx clean [] told (fieldBase info t arrow) := by
  unfold fieldBase
  split
  · exact .found (.target h)
  · exact .found (.mutTarget h)
  · exact .refuseType _ _ _
  · exact .refuse rfl _
  · exact .refuse rfl _
  · exact .found h

theorem field_course (name : String) (arrow : Bool) :
    Yields cx clean (Visit.all [e]) told (field info name arrow (expr cx e)) := by
  refine .before (.visit _ (by simp)) fun r => ?_
  cases r with
  | none => exact .missing (by simp)
  | some t =>
    refine .after (fieldBase_course info (.known (by simp)) arrow) fun r => ?_
    cases r with
    | none => exact .missing (by simp)
    | some base =>
      refine .get base name (.known (by simp)) fun now => ?_
      split
      · rename_i type htype
        exact .found (.known (by simp [htype]))
      · exact .refuseType _ _ _

theorem index_course (target position : Expr) :
    Yields cx clean (Visit.all [target, position]) told
      (index target position (expr cx target) (expr cx position)) := by
  refine .bind (v := [⟨target, true⟩]) (w := [⟨position, true⟩]) (.visit _ (by simp)) fun t =>
    .before (.visit _ (by simp)) fun i => ?_
  rcases t with _ | t
  · exact .missing (by simp)
  rcases i with _ | i
  · exact .missing (by simp)
  refine .ite (.refuseType _ _ _) ?_
  split
  · rename_i element helement
    have known {ts us : List Ty} : From (ts ++ ((some t).toList ++ us)) t := .known (by simp)
    refine .found ?_
    cases t with
    | pointer u => cases helement; exact .target known
    | mutPointer u => cases helement; exact .mutTarget known
    | array u n => cases helement; exact .element known
    | _ => cases helement
  · exact .refuseType _ _ _

theorem cast_course (type : TypeExpr) (e : Expr) :
    Yields cx clean (Visit.all [e]) told (cast cx info type (expr cx e)) := by
  refine .after (.resolve type) fun target => ?_
  refine .before (.visit _ fun t ht => .known ?_) fun source => ?_
  · exact mem_append_left _ (mem_toList.mpr (mem_filter_iff.mp ht).1)
  rcases target with _ | target
  · exact .missing (by simp)
  rcases source with _ | source
  · exact .missing (by simp)
  exact .read fun _ => .ite (.found (.known (by simp))) (.refuseTypes _ _ _ _)

theorem each_course (es : List Expr) : Looks cx clean (Visit.all es) told (each cx es) := by
  induction es generalizing clean told with
  | nil => exact .nothing
  | cons e es ih => exact .bind (v := [⟨e, true⟩]) (.visit _ (by simp)) fun _ => ih

theorem passed_course {es : List Expr} {ts : List Ty} (hlength : es.length = ts.length)
    (h : ∀ t ∈ ts, From told t) : Looks cx clean (Visit.all es) told (passed cx es ts) := by
  induction es generalizing ts clean told with
  | nil =>
    rw [passed]
    · exact .nothing
    · exact fun _ _ _ _ h => absurd h (by simp)
  | cons e es ih =>
    cases ts with
    | nil => cases hlength
    | cons t ts =>
      rw [forall_mem_cons] at h
      exact .bind (v := [⟨e, true⟩]) (expectValue_course e _ h.1 true) fun _ =>
        ih (Nat.succ.inj hlength) fun u hu => (h.2 u hu).behind _

theorem initField_course {struct : Ty} (h : From told struct) (seen : List String)
    (name : String) (span : Span) (e : Expr) :
    Looks cx clean [⟨e, !seen.contains name⟩] told
      (initField struct seen name span e.span (expr cx e)) := by
  unfold initField
  split
  · rename_i hseen
    exact (Course.wrong rfl span).fail nil_subperm (by simpa using hseen)
  · refine .get struct name h fun now => ?_
    split
    · rename_i type htype
      exact .ignore (expectValue_course e _ (.known (by simp [htype])) _)
    · exact .after (.nameOf struct) fun _ => .after (.wrong rfl span) fun _ =>
        .ignore (.visit ⟨e, _⟩ (by simp))

theorem fieldInits_course {struct : Ty} (h : From told struct) (seen : List String)
    (fs : List (FieldInit Expr)) :
    Looks cx clean (Visit.fields seen fs) told (fieldInits cx struct seen fs) := by
  induction fs generalizing seen clean with
  | nil => exact .nothing
  | cons f fs ih =>
    exact .bind (v := [⟨f.value, _⟩]) (initField_course h seen f.name f.span f.value) fun _ =>
      ih (f.name :: seen)

theorem fieldValues_course (seen : List String) (fs : List (FieldInit Expr)) :
    Looks cx clean (Visit.fields seen fs) told (fieldValues cx fs) := by
  induction fs generalizing seen clean told with
  | nil => exact .nothing
  | cons f fs ih =>
    exact .bind (v := [⟨f.value, _⟩]) (.visit _ (by simp)) fun _ => ih (f.name :: seen)

theorem initIndex_course :
    Looks cx clean (Visit.perhaps [e]) told (initIndex e.span (expr cx e)) := by
  refine .before (.visit ⟨e, false⟩ (by simpa using .scalar .uptr)) fun r => ?_
  cases r with
  | none => exact .nothing
  | some t => exact .ite (.after (.nameOf t) fun _ => .report rfl _) .nothing

theorem initLength_course (length : Option Expr) :
    Looks cx clean (Visit.perhaps length.toList) told (initLength cx length) := by
  cases length with
  | none => exact .nothing
  | some e => exact .before (expectValue_course e _ (.scalar .uptr) false) fun _ => .nothing

theorem elementInits_course {element : Ty} (h : From told element)
    (es : List (ArrayElement Expr)) :
    Looks cx clean (Visit.elements es) told (elementInits cx element es) := by
  induction es generalizing clean told with
  | nil => exact .nothing
  | cons e es ih =>
    rcases e with ⟨_ | i, e⟩
    · exact .bind (v := [⟨e, true⟩]) (expectValue_course e _ h true) fun _ => ih (h.behind _)
    · exact .bind (v := [⟨i, false⟩]) (initIndex_course i) fun _ =>
        .bind (v := [⟨e, true⟩]) (expectValue_course e _ h true) fun _ => ih (h.behind _)

theorem elementValues_course :
    Looks cx clean (Visit.all (es.map (·.value))) told (elementValues cx es) := by
  induction es generalizing clean told with
  | nil => exact .nothing
  | cons e es ih => exact .bind (v := [⟨e.value, true⟩]) (.visit _ (by simp)) fun _ => ih

theorem expr_course (expected : Option Ty) (href : ∀ info path, e ≠ .ref info path)
    (hsize : ∀ info type operand, e ≠ .sizeofType info type operand) :
    ∃ body, expr cx e expected = typed e.id body ∧
      Yields cx True e.parts expected.toList body := by
  have h : ∀ t ∈ expected, From expected.toList t := fun t ht =>
    .known (mem_toList.mpr ht)
  have refused {problem : Problem} (error : problem.isError = true) (span : Span) (es : List Expr) :
      Yields cx True (Visit.perhaps es) expected.toList (do report problem span; return none) :=
    (Course.refuse error span).fail nil_subperm (by simp [Visit.perhaps])
  cases e with
  | ref info path => exact absurd rfl (href info path)
  | sizeofType info type operand => exact absurd rfl (hsize info type operand)
  | literal info value => exact ⟨_, by rw [expr]; rfl, .found (.literal expected value)⟩
  | binary info op l r => exact ⟨_, by rw [expr]; rfl, binary_course info op l r h⟩
  | unary info op e => exact ⟨_, by rw [expr]; rfl, unary_course info op e h⟩
  | step info op e => exact ⟨_, by rw [expr]; rfl, step_course e⟩
  | call info callee arguments =>
    refine ⟨_, by rw [expr]; rfl, .bind (v := [⟨callee, true⟩]) (.visit _ (by simp)) fun r => ?_⟩
    have rest {clean : Prop} {told : List Ty} : Looks cx clean (Visit.all arguments) told _ :=
      each_course arguments
    split
    · rename_i params result
      have known {ts : List Ty} :
          From ((some (function params result)).toList ++ ts) (.function params result) :=
        .known (by simp)
      split
      · rename_i hlength
        exact .before (passed_course hlength fun t ht => .param known ht) fun _ =>
          .found (.result known)
      · exact .after (.wrong rfl _) fun _ => .before rest fun _ => .found (.result known)
    · exact .after (.nameOf _) fun _ => .after (.wrong rfl _) fun _ =>
        .before rest fun _ => .missing (by simp)
    · exact .before rest fun _ => .missing (by simp)
  | field info e name arrow => exact ⟨_, by rw [expr]; rfl, field_course info e name arrow⟩
  | index info target position => exact ⟨_, by rw [expr]; rfl, index_course target position⟩
  | structInit info fields =>
    refine ⟨_, by rw [expr]; rfl, ?_⟩
    split
    · rename_i struct hstruct
      have known := h struct (filter_eq_some_iff.mp hstruct).1
      exact .before (fieldInits_course known [] fields) fun _ => .found known
    · exact .before (fieldValues_course [] fields) fun _ => .refuse rfl _
  | arrayInit info length elements =>
    refine ⟨_, by rw [expr.eq_def]; rfl, ?_⟩
    split
    · rename_i element declared
      have known : From _ element := .element (h (.array element declared) rfl)
      exact .bind (initLength_course length) fun _ => .before (elementInits_course known elements)
        fun _ => .found (.array _ known)
    · refine (Course.before (elementValues_course elements) fun _ => .refuse rfl _).fail ?_ fun v hv => ?_
      · exact ((Visit.values_sublist elements).trans (sublist_append_right _ _)).subperm
      · simp only [Expr.parts, Visit.perhaps, Visit.all, Visit.elements] at hv ⊢
        grind
  | sizeofExpr info e =>
    refine ⟨_, by rw [expr]; rfl, .before (.visit _ (by simp)) fun r => .pure ?_ fun hc => ?_⟩
    · cases r with
      | none => simp
      | some t => simpa using .scalar .uptr
    · rw [isSome_map]
      exact hc.2
  | cast info type e => exact ⟨_, by rw [expr]; rfl, cast_course info type e⟩
  | range => exact ⟨_, by rw [expr]; rfl, refused rfl _ _⟩
  | tuple => exact ⟨_, by rw [expr]; rfl, refused rfl _ _⟩
  | template => exact ⟨_, by rw [expr]; rfl, refused rfl _ _⟩

theorem varType_course (decl : VarDecl) :
    Yields cx clean (Visit.all decl.init.toList) told (varType cx info decl) := by
  unfold varType
  generalize decl.init = init
  have known {told : List Ty} (type : Option Ty) : ∀ t ∈ type.toList, From (type.toList ++ told) t :=
    fun t ht => .known (mem_append_left _ ht)
  cases decl.type with
  | some written =>
    refine .after (.resolve written) fun type => ?_
    split
    · exact .before (value_course _ (known _ _ (by simp))) fun _ =>
        .pure (fun t ht => (known _ t ht).behind _) fun hc => hc.1.2
    · exact .before (.visit ⟨_, true⟩ (by simp)) fun _ =>
        .pure (fun t ht => (known _ t ht).behind _) fun hc => hc.1.2
    · exact .pure (known type) fun hc => hc.2
  | none =>
    cases init with
    | none => exact .refuse rfl _
    | some e =>
      refine .before (.visit ⟨_, true⟩ (by simp)) fun type => ?_
      split
      · exact .refuse rfl _
      · exact .pure (known type) fun hc => hc.2

theorem rangeCounter_course (low high : Expr) :
    Course cx clean (Visit.all [low, high]) told (rangeCounter cx info low high) toList
      fun r => ∃ t ∈ r, t.isInteger = true := by
  refine .ite ?_ ?_
  · refine .bind (v := [⟨low, true⟩]) (w := [⟨high, true⟩]) (value_course low (.scalar .uptr))
      fun l => .before (value_course high (.scalar .uptr)) fun h => .pure ?_ fun hc => ⟨.size, ?_, rfl⟩
    · split
      · simpa using .scalar .uptr
      · simp
    · simp [hc.1.2, hc.2]
  · refine .before (operands_course low high (by simp)) fun ts => ?_
    rcases ts with ⟨_ | l, _ | h⟩
    · exact .missing (by simp)
    · exact .missing (by simp)
    · exact .missing (by simp)
    refine .after (unify_course (.known (by simp)) (.known (by simp))) fun counter => ?_
    cases counter with
    | none => exact .refuseTypes _ _ _ _
    | some t =>
      dsimp only
      split
      · exact .pure (by simpa using .known (by simp)) fun _ => ⟨t, rfl, ‹_›⟩
      · exact .refuseTypes _ _ _ _

theorem elements_course : Yields cx clean (Visit.all [e]) told (elements cx e) := by
  refine .before (.visit _ (by simp)) fun r => ?_
  split
  · rename_i element n
    exact .found (.element (n := some n) (.known (by simp)))
  · exact .after (.nameOf _) fun _ => .refuse rfl _
  · exact .missing (by simp)

theorem returned_course (e : Option Expr) (h : From told cx.result) :
    Looks cx clean (Visit.all e.toList) told (returned cx info e) := by
  cases e with
  | none => exact .ite (.after (.nameOf _) fun _ => .report rfl _) .nothing
  | some e =>
    refine .ite ?_ (.ignore (value_course e h))
    exact .before (.visit ⟨e, true⟩ (by simp)) fun _ => .report rfl _

theorem formatted_course : Looks cx clean (Visit.all [e]) told (formatted cx e) := by
  refine .before (.visit _ (by simp)) fun r => ?_
  split
  · exact .nothing
  · exact .nothing
  · exact .nothing
  · exact .nothing
  · exact .after (.nameOf _) fun _ => .report rfl _

theorem message_course (parts : List (TemplatePart Expr)) :
    Looks cx clean (Visit.all (parts.flatMap (·.exprs))) told
      (parts.forM fun
        | .text _ => pure ()
        | .expr e => formatted cx e) := by
  induction parts generalizing clean with
  | nil => exact .nothing
  | cons p ps ih =>
    cases p with
    | text t => exact ih
    | expr e => exact .bind (v := [⟨e, true⟩]) (formatted_course e) fun _ => ih

theorem assignment_course (op : AssignOp) (target source : Expr) :
    Looks cx clean (Visit.all [target, source]) told (assignment cx op target source) := by
  have plain {clean : Prop} {told : List Ty} :
      Looks cx clean [⟨source, true⟩] told (do let _ ← expr cx source none) :=
    .ignore (.visit ⟨source, true⟩ (by simp))
  refine .bind (v := [⟨target, true⟩]) (.visit _ (by simp)) fun r => ?_
  cases r with
  | none => exact plain
  | some type =>
    refine .read fun now => ?_
    split
    · exact .after (.wrong rfl _) fun _ => plain
    · refine .ite ?_ (.ite (.ignore (value_course source (.known (by simp)))) ?_)
      · refine .before (.visit ⟨source, true⟩ (by simp)) fun r => ?_
        cases r with
        | none => exact .nothing
        | some t => exact .ite (.after (.nameOf t) fun _ => .report rfl _) .nothing
      · exact .after (.nameOf type) fun _ => .after (.wrong rfl _) fun _ => plain

end Check
end Quill
