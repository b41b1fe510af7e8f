import Quill.Proofs.StmtTrail

/-!
# Scopes are opened and closed in pairs

Checking a statement leaves the scopes that were open as they were, but for marks of use and for
locals that it declares in the innermost scope.
-/
namespace Quill

namespace Locals

def unmarked (ls : Locals) : Locals := ls.map (·.map fun l => { l with used := false })

def grow (new : List Local) : Locals → Locals
  | [] => []
  | scope :: outer => (new ++ scope) :: outer

theorem grow_nil (ls : Locals) : grow [] ls = ls := by
  cases ls <;> rfl

theorem grow_grow (new new' : List Local) (ls : Locals) :
    grow new (grow new' ls) = grow (new ++ new') ls := by
  cases ls with
  | nil => rfl
  | cons scope outer => exact congrArg (· :: outer) (List.append_assoc new new' scope).symm

theorem unmarked_use (ls : Locals) (name : String) : (ls.use name).unmarked = ls.unmarked := by
  have inside (scope : List Local) : (useIn name scope).map (fun l => { l with used := false }) =
      scope.map fun l => { l with used := false } := by
    induction scope with
    | nil => rfl
    | cons l scope ih =>
      rw [useIn]
      split
      · rfl
      · exact congrArg (_ :: ·) ih
  induction ls with
  | nil => rfl
  | cons scope outer ih =>
    rw [use]
    split
    · exact congrArg (· :: _) (inside scope)
    · exact congrArg (_ :: ·) ih

theorem unmarked_markAll (ls : Locals) (trail : List Reference) :
    (ls.markAll trail).unmarked = ls.unmarked := by
  induction trail generalizing ls with
  | nil => rfl
  | cons r trail ih =>
    refine (ih (ls.mark r.2)).trans ?_
    unfold mark
    split
    · exact unmarked_use ls _
    · rfl

end Locals

namespace Check

open Locals

/-- Scopes stay open, and only the innermost gets more locals. -/
def Balanced {α : Type} (step : Check α) : Prop :=
  ∀ st, ∃ new, (step st).2.locals.unmarked = st.locals.unmarked.grow new

namespace Balanced

variable {α β : Type} {step : Check α}

theorem of_goes {package : PackageId} {ids : List Nat} {sure : (String → Bool) → List Reference}
    {refs : List Reference} (h : Goes package ids sure refs step) : Balanced step := by
  intro st
  obtain ⟨trail, -, -, follows⟩ := h st
  refine ⟨[], ?_⟩
  rw [follows.locals, unmarked_markAll, grow_nil]

theorem nothing : Balanced (pure () : Check Unit) := fun _ => ⟨[], (grow_nil _).symm⟩

theorem get {f : Checking → Check β} (h : ∀ now, Balanced (f now)) :
    Balanced (MonadState.get >>= f) := fun st => h st st

theorem bind {f : α → Check β} (hx : Balanced step) (hf : ∀ a, Balanced (f a)) :
    Balanced (step >>= f) := by
  intro st
  obtain ⟨new, h⟩ := hx st
  obtain ⟨new', h'⟩ := hf (step st).1 (step st).2
  refine ⟨new' ++ new, ?_⟩
  rw [← grow_grow, ← h]
  exact h'

theorem declareLocal (l : Local) : Balanced (.declareLocal l) := by
  intro st
  rcases Check.declareLocal_cases l st with ⟨-, h⟩ | ⟨scope, outer, hlocals, ⟨-, h⟩ | ⟨-, h⟩⟩
  · exact ⟨[], by rw [h, grow_nil]⟩
  · refine ⟨[], ?_⟩
    rw [h, grow_nil]
    rfl
  · refine ⟨[{ l with used := false }], ?_⟩
    rw [h, hlocals]
    rfl

theorem setType (node : Nat) (t : Ty) : Balanced (.setType node t) :=
  of_goes (@setType_goes 0 node t)

theorem popped (st : Checking) : (Check.popScope st).2.locals = st.locals.tail := by
  cases h : st.locals with
  | nil =>
    have read : Check.popScope st = ((), st) := by
      simp only [Check.popScope, Bind.bind, StateT.bind, MonadState.get, getThe, MonadStateOf.get,
        StateT.get, Pure.pure, h]
      rfl
    rw [read]
    exact h
  | cons scope outer => rw [Check.popScope_run h, List.tail_cons]

theorem enclosed (h : Balanced step) : Balanced (do
    .pushScope
    let _ ← step
    .popScope) := by
  intro st
  obtain ⟨new, inside⟩ := h { st with locals := [] :: st.locals }
  refine ⟨[], ?_⟩
  rw [grow_nil]
  have left : unmarked (step { st with locals := [] :: st.locals }).2.locals.tail =
      st.locals.unmarked := by
    rw [unmarked, List.map_tail]
    exact congrArg List.tail inside
  refine Eq.trans (congrArg unmarked (popped _)) ?_
  exact left

end Balanced

section Walk

variable {cx : Context}

theorem localVar_balanced (info : Info) (decl : VarDecl) : Balanced (localVar cx info decl) := by
  refine .bind (.of_goes (varType_goes info decl)) fun type => ?_
  cases type with
  | none => exact .declareLocal _
  | some t => exact .bind (.setType _ _) fun _ => .declareLocal _

mutual

theorem stmt_balanced (s : Stmt) : Balanced (stmt cx s) := by
  cases s with
  | block info body =>
    rw [stmt]
    exact .enclosed (stmts_balanced body)
  | var info decl => exact localVar_balanced info decl
  | cond info test onTrue onFalse =>
    rw [stmt]
    exact .bind (.of_goes (value_goes test .bool)) fun _ => .bind (stmt_balanced onTrue) fun _ =>
      orElse_balanced onFalse
  | loop info test body =>
    rw [stmt]
    exact .bind (.of_goes (value_goes test .bool)) fun _ => stmt_balanced body
  | foreach info binding iterable body =>
    rw [stmt]
    refine .bind (.of_goes (iterated_goes iterable)) fun type => ?_
    have inside (type : Option Ty) := Balanced.enclosed (.bind (.declareLocal
      { name := binding, type, mutable := false, span := info.span, quiet := true }) fun _ =>
        stmt_balanced body)
    cases type with
    | none => exact inside none
    | some t => exact .bind (.setType _ _) fun _ => inside (some t)
  | ret info e => exact .of_goes (returned_goes info e)
  | crash info e =>
    cases e with
    | none =>
      rw [stmt]
      exact .nothing
    | some message => exact .of_goes (crashMessage_goes message)
  | defer info body =>
    rw [stmt]
    have reported : Still cx.package (report (.usage .deferEscapes) info.span) := report_still rfl _
    split
    · exact .bind (.of_goes reported) fun _ => stmt_balanced body
    · exact stmt_balanced body
  | expr info e => exact .of_goes (expr_goes e none).ignore
  | assign info op target value => exact .of_goes (assignment_goes op target value)
  | switch info e => exact .of_goes (report_still rfl _ : Still cx.package _)

theorem stmts_balanced (ss : List Stmt) : Balanced (stmts cx ss) := by
  cases ss with
  | nil => exact .nothing
  | cons s ss => exact .bind (stmt_balanced s) fun _ => stmts_balanced ss

theorem orElse_balanced (s : Option Stmt) : Balanced (orElse cx s) := by
  cases s with
  | none => exact .nothing
  | some s => exact stmt_balanced s

end

end Walk

theorem params_balanced (ps : List Param) (ts : List Ty) : Balanced (params ps ts) := by
  fun_induction params ps ts with
  | case1 p ps t ts ih => exact .bind (.declareLocal _) fun _ => ih
  | case2 => exact .nothing

theorem Balanced.locals_nil {α : Type} {step : Check α} (h : Balanced step) {st : Checking}
    (hlocals : st.locals = []) : (step st).2.locals = [] := by
  obtain ⟨new, hnew⟩ := h st
  rw [hlocals] at hnew
  exact List.map_eq_nil_iff.mp hnew

end Check
end Quill
