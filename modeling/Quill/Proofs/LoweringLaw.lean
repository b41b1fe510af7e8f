import Quill.Lower.Files
import Quill.Proofs.CompletePackage

/-!
# Laws of lowering

A law says which states are sound, which generic structs with which arguments may be met, and
whether facts may be missing. Whatever is lowered keeps to the law.
-/
namespace Quill

open List Expr

/-- Every state that the computation leaves has the property again. -/
def Keeps {σ α : Type} (I : σ → Prop) (step : StateM σ α) : Prop := ∀ s, I s → I (step s).2

namespace Keeps

variable {σ α β : Type} {I : σ → Prop}

theorem pure (a : α) : Keeps I (Pure.pure a : StateM σ α) := fun _ h => h

theorem bind {step : StateM σ α} {f : α → StateM σ β} (hs : Keeps I step)
    (hf : ∀ a, Keeps I (f a)) : Keeps I (step >>= f) := fun s h => hf _ _ (hs s h)

theorem bindResult {step : StateM σ α} {f : α → StateM σ β} (hs : Keeps I step)
    (hf : ∀ s, Keeps I (f (step s).1)) : Keeps I (step >>= f) := fun s h => hf s _ (hs s h)

theorem get {f : σ → StateM σ β} (h : ∀ s, I s → Keeps I (f s)) :
    Keeps I (MonadState.get >>= f) := fun s hs => h s hs s hs

theorem modify {f : σ → σ} (h : ∀ s, I s → I (f s)) : Keeps I (modify f : StateM σ Unit) := h

theorem ite {c : Prop} [Decidable c] {step other : StateM σ α} (h : Keeps I step)
    (h' : Keeps I other) : Keeps I (if c then step else other) := by
  split
  · exact h
  · exact h'

theorem mapM {as : List α} {f : α → StateM σ β} (h : ∀ a ∈ as, Keeps I (f a)) :
    Keeps I (as.mapM f) := by
  induction as with
  | nil => exact pure _
  | cons a as ih =>
    rw [mapM_cons]
    exact bind (h a mem_cons_self) fun _ =>
      bind (ih fun b hb => h b (mem_cons_of_mem a hb)) fun _ => pure _

end Keeps

/-- The problem is that something is not known which checking finds out, or that something is met
which checking lets stand nowhere. -/
def LoweringProblem.isGap : LoweringProblem → Bool
  | .untyped | .unresolved _ | .untypedSizeof | .unknownLength | .noCounterpart _ => true
  | .noSpelling _ | .arrayReturned _ | .endlessInstances | .storedInItself _ | .arrayElsewhere =>
    false

open Lower

structure LoweringLaw (cx : Checked) where
  Sound : Lowering → Prop
  /-- The generic structs that are met, with their arguments. -/
  Uses : StructId × List Ty → Prop
  Gaps : Prop
  instantiate : ∀ {st : Lowering} {u : StructId × List Ty}, Sound st → Uses u →
    Sound { st with instances := (st.instances.instantiate u.1 u.2).2 }
  report : ∀ {st : Lowering} {reason : LoweringProblem} (span : Span),
    (reason.isGap = true → Gaps) → Sound st → Sound (Lower.report reason span st).2
  types : ∀ {node : Nat} {t : Ty}, cx.resolution.typeOf? node = some t → ∀ u ∈ mentioned t, Uses u
  heads : ∀ {node : Nat} {params : List Ty} {result : Ty},
    cx.resolution.typeOf? node = some (.function params result) →
    ∀ t ∈ result :: params, ∀ u ∈ mentioned t, Uses u
  written : ∀ {node : Nat} {t : Ty}, cx.resolution.written? node = some t →
    ∀ u ∈ mentioned t, Uses u
  declared : ∀ {package : PackageId} {file : File}, ∀ d ∈ declaredStructs cx package file,
    ∀ u ∈ mentionedInFields d.fields, Uses u
  used : ∀ {package : PackageId}, ∀ u ∈ usedInstances cx package, Uses u
  fields : ∀ {u : StructId × List Ty}, Uses u →
    ∀ w ∈ mentionedInFields (cx.structs.fieldsWith u.1 u.2), Uses w

namespace LoweringLaw

variable {cx : Checked} (L : LoweringLaw cx)

theorem report_keeps {reason : LoweringProblem} (h : reason.isGap = true → L.Gaps) (span : Span) :
    Keeps L.Sound (Lower.report reason span) := fun _ hst => L.report span h hst

theorem refuse_keeps {reason : LoweringProblem} (h : reason.isGap = false) (span : Span) :
    Keeps L.Sound (Lower.report reason span) :=
  L.report_keeps (fun hgap => absurd hgap (by simp [h])) span

theorem unsupported_keeps {reason : LoweringProblem} (h : reason.isGap = true → L.Gaps)
    (span : Span) : Keeps L.Sound (unsupported reason span) :=
  Keeps.bind (L.report_keeps h span) fun _ => Keeps.pure _

theorem instanceName_keeps {decl : StructId} {arguments : List Ty} (h : L.Uses (decl, arguments)) :
    Keeps L.Sound (instanceName cx decl arguments) := fun _ hst => L.instantiate hst h

theorem cType?_keeps : (t : Ty) → (∀ u ∈ mentioned t, L.Uses u) → Keeps L.Sound (cType? cx t)
  | .pointer t, h | .mutPointer t, h => by
    rw [cType?]
    refine .bind (cType?_keeps t h) fun r => ?_
    cases r with
    | none => exact .pure _
    | some c => exact .ite (.pure _) (.pure _)
  | .array t length, h => by
    rw [cType?]
    refine .bind (cType?_keeps t h) fun r => ?_
    cases r <;> exact .pure _
  | .instance decl arguments version, h => by
    rw [cType?]
    split
    · exact .pure _
    · rename_i hclosed
      rw [mentioned, if_neg hclosed] at h
      have used := h (decl, arguments) (mem_append_right _ (mem_singleton_self _))
      exact .bind (L.instanceName_keeps used) fun _ => .pure _
  | .void, _ | .scalar _, _ | .struct _, _ | .abstract _ _ _, _ | .generic _ _ _, _
  | .function _ _, _ | .package _, _ => by
    rw [cType?]
    exact .pure _

theorem cType_keeps {t : Ty} (h : ∀ u ∈ mentioned t, L.Uses u) (span : Span) :
    Keeps L.Sound (cType cx t span) := by
  refine .bind (L.cType?_keeps t h) fun r => ?_
  cases r with
  | none => exact Keeps.bind (L.refuse_keeps rfl span) fun _ => Keeps.pure _
  | some c => exact .pure _

variable {L}

theorem typeOf_keeps {info : Info} (h : L.Gaps ∨ cx.resolution.facts.HasType info.id) :
    Keeps L.Sound (typeOf cx info) := by
  unfold typeOf
  cases ht : cx.resolution.typeOf? info.id with
  | some t => exact L.cType_keeps (L.types ht) info.span
  | none =>
    have gaps : L.Gaps := h.resolve_right fun hc => by
      obtain ⟨t, hknown⟩ := Option.isSome_iff_exists.mp hc
      cases ht.symm.trans hknown
    exact Keeps.bind (L.report_keeps (fun _ => gaps) _) fun _ => Keeps.pure _

theorem reference_keeps {info : Info} (h : L.Gaps ∨ cx.resolution.facts.HasBinding info.id)
    (path : List String) : Keeps L.Sound (reference cx info path) := by
  unfold reference
  cases hb : cx.resolution.binding? info.id with
  | some b => cases b <;> exact .pure _
  | none =>
    have gaps : L.Gaps := h.resolve_right fun hc => by
      obtain ⟨b, hknown⟩ := Option.isSome_iff_exists.mp hc
      cases hb.symm.trans hknown
    exact Keeps.bind (L.report_keeps (fun _ => gaps) _) fun _ => Keeps.pure _

mutual

theorem expr_keeps (e : Expr) (h : L.Gaps ∨ e.Complete cx.resolution.facts) :
    Keeps L.Sound (expr cx e) := by
  cases e with
  | literal info value => exact .pure _
  | ref info path => exact reference_keeps (h.imp_right (·.2)) path
  | binary info op l r =>
    exact .bind (expr_keeps l (h.imp_right (·.2.1))) fun _ =>
      .bind (expr_keeps r (h.imp_right (·.2.2))) fun _ => .pure _
  | index info l r =>
    exact .bind (expr_keeps l (h.imp_right (·.2.1))) fun _ =>
      .bind (expr_keeps r (h.imp_right (·.2.2))) fun _ => .pure _
  | unary info op e => exact .bind (expr_keeps e (h.imp_right (·.2))) fun _ => .pure _
  | step info op e => exact .bind (expr_keeps e (h.imp_right (·.2))) fun _ => .pure _
  | field info e name arrow =>
    exact .bind (expr_keeps e (h.imp_right (·.2))) fun _ => .pure _
  | sizeofExpr info e => exact .bind (expr_keeps e (h.imp_right (·.2))) fun _ => .pure _
  | cast info type e =>
    exact .bind (typeOf_keeps (h.imp_right (·.1))) fun _ =>
      .bind (expr_keeps e (h.imp_right (·.2))) fun _ => .pure _
  | call info callee arguments =>
    exact .bind (expr_keeps callee (h.imp_right (·.2.1))) fun _ =>
      .bind (exprs_keeps arguments (h.imp_right (·.2.2))) fun _ => .pure _
  | structInit info fields =>
    exact .bind (typeOf_keeps (h.imp_right (·.1))) fun _ =>
      .bind (fieldInits_keeps fields (h.imp_right (·.2))) fun _ => .pure _
  | arrayInit info length elements => exact L.unsupported_keeps (fun hgap => by cases hgap) _
  | sizeofType info type operand =>
    cases hw : cx.resolution.written? info.id with
    | some t =>
      cases operand <;> rw [expr, hw] <;>
        exact .bind (L.cType_keeps (L.written hw) info.span) fun _ => .pure _
    | none =>
      have missing : ¬ cx.resolution.facts.HasWritten info.id := by
        rw [Facts.HasWritten, ← Resolution.written?, hw]
        simp
      cases operand with
      | none =>
        rw [expr, hw]
        exact L.unsupported_keeps (fun _ => h.resolve_right fun hc => missing hc.2) _
      | some e =>
        rw [expr, hw]
        exact .bind (expr_keeps e (h.imp_right (·.2.resolve_left missing))) fun _ =>
          .pure _
  | range | tuple | template => exact L.unsupported_keeps (fun _ => h.resolve_right id) _

theorem exprs_keeps (es : List Expr) (h : L.Gaps ∨ AllComplete cx.resolution.facts es) :
    Keeps L.Sound (exprs cx es) := by
  cases es with
  | nil => exact .pure _
  | cons e es =>
    exact .bind (expr_keeps e (h.imp_right (·.1))) fun _ =>
      .bind (exprs_keeps es (h.imp_right (·.2))) fun _ => .pure _

theorem fieldInits_keeps (fs : List (FieldInit Expr))
    (h : L.Gaps ∨ FieldsComplete cx.resolution.facts fs) :
    Keeps L.Sound (fieldInits cx fs) := by
  match fs with
  | [] => exact .pure _
  | ⟨_, _, e⟩ :: fs =>
    exact .bind (expr_keeps e (h.imp_right (·.1))) fun _ =>
      .bind (fieldInits_keeps fs (h.imp_right (·.2))) fun _ => .pure _

end

theorem elements_keeps (es : List (ArrayElement Expr))
    (h : L.Gaps ∨ ElementsComplete cx.resolution.facts es) :
    Keeps L.Sound (elements cx es) := by
  match es with
  | [] => exact .pure _
  | ⟨none, e⟩ :: es =>
    exact .bind (expr_keeps e (h.imp_right (·.1))) fun _ =>
      .bind (elements_keeps es (h.imp_right (·.2))) fun _ => .pure _
  | ⟨some i, e⟩ :: es =>
    exact .bind (expr_keeps i (h.imp_right (·.1))) fun _ =>
      .bind (expr_keeps e (h.imp_right (·.2.1))) fun _ =>
        .bind (elements_keeps es (h.imp_right (·.2.2))) fun _ => .pure _

theorem initial?_keeps (e : Option Expr) (h : L.Gaps ∨ OptionComplete cx.resolution.facts e) :
    Keeps L.Sound (initial? cx e) := by
  cases e with
  | none => exact .pure _
  | some e =>
    refine .bind ?_ fun _ => .pure _
    cases e with
    | arrayInit info length items =>
      exact .bind (elements_keeps items (h.imp_right (·.2.2))) fun _ => .pure _
    | _ => exact expr_keeps _ h

theorem template_keeps (parts : List (TemplatePart Expr))
    (h : L.Gaps ∨ PartsComplete cx.resolution.facts parts) :
    Keeps L.Sound (template cx parts) := by
  match parts with
  | [] => exact .pure _
  | .text text :: parts => exact .bind (template_keeps parts h) fun _ => .pure _
  | .expr e :: parts =>
    exact .bind (expr_keeps e (h.imp_right (·.1))) fun _ =>
      .bind (template_keeps parts (h.imp_right (·.2))) fun _ => .pure _

variable (L)

/-- The state is sound, and what is deferred may be lowered. -/
structure SoundBody (st : BodyState) : Prop where
  sound : L.Sound st.toLowering
  deferred : ∀ s ∈ st.frames.flatten, L.Gaps ∨ s.Complete cx.resolution.facts

def Runs (run : Stmt → Body (List CStmt)) : Prop :=
  ∀ s : Stmt, L.Gaps ∨ s.Complete cx.resolution.facts → Keeps L.SoundBody (run s)

variable {L}

theorem plain_keeps {α : Type} {step : Lower α} (h : Keeps L.Sound step) :
    Keeps L.SoundBody (plain step) := fun st hst => ⟨h st.toLowering hst.sound, hst.deferred⟩

theorem fresh_keeps (purpose : String) : Keeps L.SoundBody (fresh purpose) :=
  fun _ hst => ⟨hst.sound, hst.deferred⟩

theorem postpone_keeps {s : Stmt} (h : L.Gaps ∨ s.Complete cx.resolution.facts) :
    Keeps L.SoundBody (postpone s) := by
  refine .modify fun st hst => ?_
  split
  · exact hst
  · rename_i frame outer hframes
    refine ⟨hst.sound, fun s' hs' => ?_⟩
    rcases mem_cons.mp hs' with rfl | hs'
    · exact h
    · exact hst.deferred s' (hframes ▸ hs')

theorem inTurn_keeps {run : Stmt → Body (List CStmt)} {ss : List Stmt}
    (h : ∀ s ∈ ss, Keeps L.SoundBody (run s)) : Keeps L.SoundBody (inTurn run ss) := by
  induction ss with
  | nil => exact .pure _
  | cons s ss ih =>
    refine .bind (h s mem_cons_self) fun _ => .bind (ih fun s' hs' => ?_) fun _ =>
      .pure _
    exact h s' (mem_cons_of_mem s hs')

theorem inBlock_keeps {run : Stmt → Body (List CStmt)} (hrun : L.Runs run) (body : List Stmt)
    {statements : Body (List CStmt)} (h : Keeps L.SoundBody statements) :
    Keeps L.SoundBody (inBlock run body statements) := by
  refine .bind (.modify fun st hst => ⟨hst.sound, hst.deferred⟩) fun _ =>
    .bind h fun out => .get fun now hnow => ?_
  have deferred : ∀ s ∈ now.frames.headD [], L.Gaps ∨ s.Complete cx.resolution.facts := by
    intro s hs
    refine hnow.deferred s ?_
    cases hframes : now.frames with
    | nil => simp [hframes] at hs
    | cons frame outer =>
      rw [hframes] at hs
      exact mem_append_left _ hs
  refine .bind (.modify fun st hst => ⟨hst.sound, fun s hs => hst.deferred s ?_⟩)
    fun _ => ?_
  · obtain ⟨frame, hframe, hs⟩ := mem_flatten.mp hs
    exact mem_flatten.mpr ⟨frame, mem_of_mem_tail hframe, hs⟩
  · refine .ite (.pure _) (.bind (inTurn_keeps fun s hs => ?_) fun _ => .pure _)
    exact hrun s (deferred s hs)

theorem returned_keeps {result : Ty} (hresult : ∀ u ∈ mentioned result, L.Uses u)
    {run : Stmt → Body (List CStmt)} (hrun : L.Runs run) (value : Option Expr)
    (h : L.Gaps ∨ OptionComplete cx.resolution.facts value) :
    Keeps L.SoundBody (returned { cx with result } run value) := by
  refine .get fun now hnow => ?_
  have pending := inTurn_keeps fun s hs => hrun s (hnow.deferred s hs)
  cases value with
  | none =>
    exact .ite (.pure _) (.bind pending fun _ => .pure _)
  | some e =>
    have computed : Keeps L.SoundBody (plain (expr cx e)) := plain_keeps (expr_keeps e h)
    refine .ite (.bind computed fun _ => .pure _) ?_
    exact .bind (plain_keeps (L.cType_keeps hresult _)) fun _ => .bind computed fun _ =>
      .bind (fresh_keeps _) fun _ => .bind pending fun _ => .pure _

theorem localVar_keeps {info : Info} {decl : VarDecl}
    (h : L.Gaps ∨ (Stmt.var info decl).Complete cx.resolution.facts) :
    Keeps L.Sound (localVar cx info decl) :=
  .bind (typeOf_keeps (h.imp_right (·.1))) fun _ =>
    .bind (initial?_keeps _ (h.imp_right (·.2))) fun _ => .pure _

theorem crashMessage_keeps {e : Expr} (h : L.Gaps ∨ e.MessageComplete cx.resolution.facts) :
    Keeps L.SoundBody (crashMessage cx e) := by
  by_cases ht : ∃ info parts, e = .template info parts
  · obtain ⟨info, parts, rfl⟩ := ht
    refine .bind (plain_keeps (template_keeps parts (h.imp_right (·.2)))) fun _ =>
      .ite ?_ ?_
    · exact .bind (fresh_keeps _) fun _ => .pure _
    · exact .pure _
  · have hne : ∀ info parts, e ≠ .template info parts := fun info parts h => ht ⟨info, parts, h⟩
    rw [messageComplete_of_ne hne] at h
    unfold crashMessage
    split
    · exact absurd rfl (hne _ _)
    · exact .pure _
    · exact .pure _
    · exact .bind (plain_keeps (expr_keeps _ h)) fun _ => .pure _

theorem crash_keeps {info : Info} {message : Option Expr}
    (h : L.Gaps ∨ (Stmt.crash info message).Complete cx.resolution.facts) :
    Keeps L.SoundBody (crash cx message) := by
  cases message with
  | none => exact .pure _
  | some e => exact .bind (crashMessage_keeps h) fun _ => .pure _

theorem countRange_keeps {info : Info} {low high : Expr} {inclusive : Bool} (binding : String)
    (h : L.Gaps ∨ (range info low high inclusive).IterableComplete cx.resolution.facts)
    {body : Body (List CStmt)} (hb : Keeps L.SoundBody body) :
    Keeps L.SoundBody (countRange cx info binding low high inclusive body) :=
  .bind (plain_keeps (typeOf_keeps (h.imp_right fun ⟨⟨_, ht, _⟩, _⟩ => Option.isSome_of_eq_some ht))) fun _ =>
    .bind (fresh_keeps _) fun _ =>
      .bind (plain_keeps (expr_keeps high (h.imp_right (·.2.2)))) fun _ =>
        .bind (plain_keeps (expr_keeps low (h.imp_right (·.2.1)))) fun _ =>
          .bind hb fun _ => .pure _

theorem countElements_keeps {info : Info} {e : Expr} (binding : String)
    (hn : L.Gaps ∨ cx.resolution.facts.HasType info.id)
    (h : L.Gaps ∨ e.Complete cx.resolution.facts ∧ ∃ element length,
      cx.resolution.facts.types.get? e.id = some (.array element (some length)))
    {body : Body (List CStmt)} (hb : Keeps L.SoundBody body) :
    Keeps L.SoundBody (countElements cx info binding e body) := by
  unfold countElements
  split
  · exact .bind (plain_keeps (typeOf_keeps hn)) fun _ => .bind (fresh_keeps _) fun _ =>
      .bind (plain_keeps (expr_keeps e (h.imp_right (·.1)))) fun _ => .bind hb fun _ =>
        .pure _
  · rename_i hunknown
    have gaps : L.Gaps := h.resolve_right fun hc => by
      obtain ⟨-, element, length, ht⟩ := hc
      exact hunknown element length ht
    exact Keeps.bind (plain_keeps (L.report_keeps (fun _ => gaps) _)) fun _ => Keeps.pure _

section Statements

variable {result : Ty} {run : Stmt → Body (List CStmt)}

theorem foreach_keeps {info : Info} {x : String} {e : Expr} {body : Stmt}
    (h : L.Gaps ∨ (Stmt.foreach info x e body).Complete cx.resolution.facts)
    (hb : Keeps L.SoundBody (stmt { cx with result } run body)) :
    Keeps L.SoundBody (stmt { cx with result } run (.foreach info x e body)) := by
  have hbody : Keeps L.SoundBody (return unbraced body (← stmt { cx with result } run body)) :=
    .bind hb fun _ => .pure _
  by_cases hr : ∃ info low high inclusive, e = .range info low high inclusive
  · obtain ⟨info, low, high, inclusive, rfl⟩ := hr
    rw [stmt]
    exact countRange_keeps x (h.imp_right (·.2.1)) hbody
  · have hne : ∀ info low high inclusive, e ≠ .range info low high inclusive :=
      fun info low high inclusive h => hr ⟨info, low, high, inclusive, h⟩
    rw [stmt]
    · refine countElements_keeps x (h.imp_right (·.1)) (h.imp_right fun hc => ?_) hbody
      exact (iterableComplete_of_ne hne).mp hc.2.1
    · exact hne

section

variable (hresult : ∀ u ∈ mentioned result, L.Uses u) (hrun : L.Runs run)

include hresult hrun

mutual

theorem stmt_keeps (s : Stmt) (h : L.Gaps ∨ s.Complete cx.resolution.facts) :
    Keeps L.SoundBody (stmt { cx with result } run s) := by
  cases s with
  | block info body =>
    rw [stmt]
    exact .bind (inBlock_keeps hrun body (stmts_keeps body h)) fun _ => .pure _
  | var info decl =>
    rw [stmt]
    exact .bind (plain_keeps (localVar_keeps h)) fun _ => .pure _
  | cond info test onTrue onFalse =>
    rw [stmt]
    exact .bind (plain_keeps (expr_keeps test (h.imp_right (·.1)))) fun _ =>
      .bind (stmt_keeps onTrue (h.imp_right (·.2.1))) fun _ =>
        .bind (orElse_keeps onFalse (h.imp_right (·.2.2))) fun _ => .pure _
  | loop info test body =>
    rw [stmt]
    exact .bind (plain_keeps (expr_keeps test (h.imp_right (·.1)))) fun _ =>
      .bind (stmt_keeps body (h.imp_right (·.2))) fun _ => .pure _
  | foreach info x e body =>
    exact foreach_keeps h (stmt_keeps body (h.imp_right (·.2.2)))
  | ret info value =>
    rw [stmt]
    exact returned_keeps hresult hrun value h
  | defer info body =>
    rw [stmt]
    exact .bind (postpone_keeps h) fun _ => .pure _
  | crash info message =>
    rw [stmt]
    exact crash_keeps h
  | expr info e =>
    rw [stmt]
    exact .bind (plain_keeps (expr_keeps e h)) fun _ => .pure _
  | assign info op target source =>
    rw [stmt]
    exact .bind (plain_keeps (expr_keeps target (h.imp_right (·.1)))) fun _ =>
      .bind (plain_keeps (expr_keeps source (h.imp_right (·.2)))) fun _ => .pure _
  | switch info e =>
    rw [stmt]
    exact Keeps.bind (plain_keeps (L.report_keeps (fun _ => h.resolve_right id) _)) fun _ =>
      .pure _

theorem stmts_keeps (ss : List Stmt) (h : L.Gaps ∨ Stmt.AllComplete cx.resolution.facts ss) :
    Keeps L.SoundBody (stmts { cx with result } run ss) := by
  cases ss with
  | nil =>
    rw [stmts]
    exact .pure _
  | cons s ss =>
    rw [stmts]
    exact .bind (stmt_keeps s (h.imp_right (·.1))) fun _ =>
      .bind (stmts_keeps ss (h.imp_right (·.2))) fun _ => .pure _

theorem orElse_keeps (s : Option Stmt) (h : L.Gaps ∨ Stmt.ElseComplete cx.resolution.facts s) :
    Keeps L.SoundBody (orElse { cx with result } run s) := by
  cases s with
  | none =>
    rw [orElse]
    exact .pure _
  | some s =>
    rw [orElse]
    exact .bind (stmt_keeps s h) fun _ => .pure _

end

end

theorem deferred_keeps (hresult : ∀ u ∈ mentioned result, L.Uses u) (level : Nat) :
    L.Runs (deferred { cx with result } level) := by
  induction level with
  | zero =>
    intro s _
    exact .bind (.modify fun _ hst => ⟨hst.sound, hst.deferred⟩) fun _ => .pure _
  | succ level ih =>
    intro s h
    exact .get fun now _ => .ite (.pure _) (stmt_keeps hresult ih s h)

theorem functionBody_keeps (hresult : ∀ u ∈ mentioned result, L.Uses u) (body : List Stmt)
    (h : L.Gaps ∨ Stmt.AllComplete cx.resolution.facts body) :
    Keeps L.Sound (functionBody { cx with result } body) := by
  intro st hst
  have hrun := deferred_keeps hresult (Stmt.allDefers body)
  exact (inBlock_keeps hrun body (stmts_keeps hresult hrun body h) { toLowering := st }
    ⟨hst, fun s hs => absurd hs not_mem_nil⟩).sound

end Statements

section Structs

variable (L)

theorem nextInstance_keeps (defs : List Definition) {pending : List (StructId × List Ty)}
    (h : ∀ u ∈ pending, L.Uses u) : Keeps L.Sound (nextInstance cx defs pending) := by
  induction pending with
  | nil => exact .pure _
  | cons waiting rest ih =>
    obtain ⟨hwaiting, hrest⟩ := forall_mem_cons.mp h
    exact .bind (L.instanceName_keeps hwaiting) fun _ => .ite (ih hrest) (.pure _)

theorem of_nextInstance {defs : List Definition} {pending rest : List (StructId × List Ty)}
    {name : String} {fields : List (String × Ty)} {st : Lowering}
    (h : (nextInstance cx defs pending st).1 = some (name, fields, rest)) :
    rest ⊆ pending ∧ ∃ u ∈ pending, fields = cx.structs.fieldsWith u.1 u.2 := by
  induction pending generalizing st with
  | nil => cases h
  | cons waiting pending ih =>
    obtain ⟨decl, arguments⟩ := waiting
    rw [nextInstance] at h
    simp only [bind, StateT.bind] at h
    generalize instanceName cx decl arguments st = r at h
    replace h : ((ite _ _ _ : Lower (Option _)) r.2).1 = some (name, fields, rest) := h
    split at h
    · obtain ⟨hrest, u, hu, hfields⟩ := ih h
      exact ⟨subset_cons_of_subset _ hrest, u, mem_cons_of_mem _ hu, hfields⟩
    · cases h
      exact ⟨subset_cons_self _ _, (decl, arguments), mem_cons_self, rfl⟩

/-- The fields of definitions mention nothing else than may be met. -/
def Mentions (defs : List Definition) : Prop :=
  ∀ d ∈ defs, ∀ u ∈ mentionedInFields d.fields, L.Uses u

theorem withInstances_keeps (span : Span) (budget : Nat) {defs : List Definition}
    (hdefs : L.Mentions defs) {pending : List (StructId × List Ty)} (h : ∀ u ∈ pending, L.Uses u) :
    Keeps L.Sound (withInstances cx span budget defs pending) ∧
      ∀ st out, (withInstances cx span budget defs pending st).1 = some out → L.Mentions out := by
  have done {defs : List Definition} (hdefs : L.Mentions defs) :
      Keeps L.Sound (pure (some defs) : Lower (Option (List Definition))) ∧
        ∀ st out, ((pure (some defs) : Lower (Option (List Definition))) st).1 = some out →
          L.Mentions out := by
    refine ⟨.pure _, fun st out hout => ?_⟩
    cases hout
    exact hdefs
  induction budget generalizing defs pending with
  | zero =>
    cases pending with
    | nil => exact done hdefs
    | cons waiting rest =>
      refine ⟨Keeps.bind (L.refuse_keeps rfl _) fun _ => Keeps.pure _, fun st out hout => ?_⟩
      cases hout
  | succ budget ih =>
    cases pending with
    | nil => exact done hdefs
    | cons waiting rest =>
      rw [withInstances]
      generalize waiting :: rest = queue at h ⊢
      -- What is added next comes from the queue, and its fields mention what may be met again.
      have next {st : Lowering} {name : String} {fields : List (String × Ty)}
          {rest : List (StructId × List Ty)}
          (hnext : (nextInstance cx defs queue st).1 = some (name, fields, rest)) :=
        have found := of_nextInstance hnext
        have mentions : ∀ u ∈ mentionedInFields fields, L.Uses u := by
          obtain ⟨-, u, hu, rfl⟩ := found
          exact L.fields (h u hu)
        ih (forall_mem_append.mpr
            ⟨hdefs, forall_mem_singleton.mpr mentions⟩ :
              L.Mentions (defs ++ [⟨name, fields, true, span⟩]))
          (forall_mem_append.mpr ⟨fun u hu => h u (found.1 hu), mentions⟩)
      constructor
      · refine .bindResult (L.nextInstance_keeps defs h) fun st => ?_
        cases hnext : (nextInstance cx defs queue st).1 with
        | none => exact .pure _
        | some found => exact (next hnext).1
      · intro st out hout
        simp only [bind, StateT.bind] at hout
        cases hnext : (nextInstance cx defs queue st).1 with
        | none =>
          generalize nextInstance cx defs queue st = r at hout hnext
          obtain ⟨_, st'⟩ := r
          cases hnext
          exact (done hdefs).2 st' out hout
        | some found =>
          have later := (next hnext).2
          generalize nextInstance cx defs queue st = r at hout hnext
          obtain ⟨_, st'⟩ := r
          cases hnext
          exact later st' out hout

theorem storedName_keeps {t : Ty} (h : ∀ u ∈ mentioned t, L.Uses u) :
    Keeps L.Sound (storedName cx t) := by
  unfold storedName
  split
  · exact .pure _
  · exact .bind (L.cType?_keeps t h) fun _ => .pure _

theorem definitionFields_keeps (defs : List Definition) (span : Span)
    {fields : List (String × Ty)} (h : ∀ u ∈ mentionedInFields fields, L.Uses u) :
    Keeps L.Sound (definitionFields cx defs span fields) := by
  induction fields with
  | nil => exact .pure _
  | cons field fields ih =>
    obtain ⟨hfield, hfields⟩ := forall_mem_append.mp h
    exact .bind (L.cType_keeps hfield _) fun _ =>
      .bind (L.storedName_keeps hfield) fun _ => .bind (ih hfields) fun _ => .pure _

theorem types_keeps (package : PackageId) (file : File) :
    Keeps L.Sound (Lower.types cx package file) := by
  have pending : ∀ u ∈ (declaredStructs cx package file).flatMap (mentionedInFields ·.fields) ++
      usedInstances cx package, L.Uses u := by
    refine forall_mem_append.mpr ⟨fun u hu => ?_, L.used⟩
    obtain ⟨d, hd, hu⟩ := mem_flatMap.mp hu
    exact L.declared d hd u hu
  obtain ⟨kept, mentions⟩ := L.withInstances_keeps file.info.span
    (maxDefinitions + 1 - (declaredStructs cx package file).length) L.declared pending
  refine .bindResult kept fun st => ?_
  cases hdefs : (withInstances cx file.info.span _ _ _ st).1 with
  | none => exact .pure _
  | some defs =>
    have fields := mentions st defs hdefs
    refine .bind (.mapM fun d hd => L.definitionFields_keeps defs _ (fields d hd))
      fun lowered => ?_
    dsimp only
    split
    · split
      · exact .bind (L.refuse_keeps rfl _) fun _ => .pure _
      · exact .pure _
    · exact .pure _

end Structs

theorem globalVar_keeps {info : Info} {decl : VarDecl}
    (h : L.Gaps ∨ (Decl.var info decl).Complete cx.resolution.facts) (package : PackageId)
    (isEntry : Bool) : Keeps L.Sound (globalVar cx package isEntry info decl) := by
  unfold globalVar
  split
  · rename_i t ht
    refine .bind (L.cType_keeps (L.types ht) _) fun _ => .ite (.pure _) ?_
    exact .bind (initial?_keeps _ (h.imp_right (·.2))) fun _ => .pure _
  · exact .pure _

theorem params_keeps (ps : List Param) {ts : List Ty}
    (h : ∀ t ∈ ts, ∀ u ∈ mentioned t, L.Uses u) : Keeps L.Sound (params cx ps ts) := by
  induction ps generalizing ts with
  | nil => exact .pure _
  | cons p ps ih =>
    cases ts with
    | nil => exact .pure _
    | cons t ts =>
      obtain ⟨ht, hts⟩ := forall_mem_cons.mp h
      exact .bind (L.cType_keeps ht _) fun _ => .bind (ih hts) fun _ => .pure _

theorem prototype?_keeps (package : PackageId) (info : Info) (sig : Signature) :
    Keeps L.Sound (prototype? cx package info sig) := by
  unfold prototype?
  split
  · rename_i ps r ht
    obtain ⟨hresult, hparams⟩ := forall_mem_cons.mp (L.heads ht)
    refine .bind (L.cType_keeps hresult _) fun result => ?_
    refine Keeps.ite (Keeps.bind (L.refuse_keeps rfl _) fun _ => ?_) ?_ <;>
      exact .bind (params_keeps _ hparams) fun _ => .pure _
  · exact .pure _

theorem decl_keeps {d : Decl} (h : L.Gaps ∨ d.Complete cx.resolution.facts) (package : PackageId)
    (isEntry : Bool) (known : List String) : Keeps L.Sound (decl cx package isEntry known d) := by
  cases d with
  | var info decl => exact .bind (globalVar_keeps h _ _) fun _ => .pure _
  | header info sig =>
    exact .ite (.pure _) (.bind (prototype?_keeps _ _ _) fun _ => .pure _)
  | function info sig body =>
    refine .bind (prototype?_keeps _ _ _) fun head => ?_
    cases head with
    | none => exact .pure _
    | some head =>
      dsimp only
      split
      · rename_i ps result ht
        have hresult := L.heads ht result mem_cons_self
        refine .bind (functionBody_keeps hresult body.body (h.imp_right (·.2))) fun _ => ?_
        exact .ite (.pure _) (.pure _)
      · exact .pure _
  | _ => exact .pure _

theorem decls_keeps {ds : List Decl} (h : ∀ d ∈ ds, L.Gaps ∨ d.Complete cx.resolution.facts)
    (package : PackageId) (isEntry : Bool) (known : List String) :
    Keeps L.Sound (decls cx package isEntry known ds) := by
  induction ds generalizing known with
  | nil => exact .pure _
  | cons d ds ih =>
    obtain ⟨hd, hds⟩ := forall_mem_cons.mp h
    exact .bind (decl_keeps hd _ _ _) fun _ => .bind (ih hds _) fun _ => .pure _

theorem package_keeps {file : File}
    (h : ∀ d ∈ file.decls, L.Gaps ∨ d.Complete cx.resolution.facts) (id : PackageId)
    (path : PackagePath) (isEntry : Bool) : Keeps L.Sound (package cx id path isEntry file) :=
  .bind (L.types_keeps id file) fun _ => .bind (decls_keeps h _ _ _) fun _ =>
    .pure _

theorem files_keeps {ids : List PackageId}
    (h : ∀ id ∈ ids, ∀ file, cx.table.sourceOf? id = some file →
      ∀ d ∈ file.decls, L.Gaps ∨ d.Complete cx.resolution.facts) : Keeps L.Sound (files cx ids) := by
  induction ids with
  | nil => exact .pure _
  | cons id ids ih =>
    have rest := ih fun id' hid' => h id' (mem_cons_of_mem id hid')
    rw [files]
    split
    · rename_i path file isEntry hget
      refine .bind (package_keeps (h id mem_cons_self file ?_) _ _ _) fun _ =>
        .bind rest fun _ => .pure _
      rw [PackageTable.sourceOf?, hget]
      rfl
    · exact rest

end LoweringLaw
end Quill
