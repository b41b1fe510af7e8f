import Quill.Proofs.Complete

/-!
# Complete function bodies

The identities of a statement are all different, so what is known of one part of it is not replaced
while the other parts are checked.
-/
namespace Quill

open List Stmt

variable {cx : Context} {e : Expr} {info : Info} {touched : Nat → Prop}

theorem Locals.Typed.tail {scope : List Local} {outer : Locals} (h : Typed (scope :: outer)) :
    Typed outer := by
  intro l hl
  refine h l ?_
  rw [flatten_cons]
  exact mem_append_right _ hl

theorem Locals.Typed.push {ls : Locals} (h : ls.Typed) : Typed ([] :: ls) := by
  intro l hl
  exact h l (by simpa using hl)

theorem Locals.Typed.declare {scope : List Local} {outer : Locals} {l : Local}
    (h : Typed (scope :: outer)) (hl : l.type.isSome) : Typed ((l :: scope) :: outer) := by
  intro x hx
  rw [flatten_cons, cons_append, mem_cons] at hx
  rcases hx with rfl | hx
  · exact hl
  · exact h x (by rwa [flatten_cons])

theorem Expr.iterableComplete_of_ne {f : Facts}
    (h : ∀ info low high inclusive, e ≠ .range info low high inclusive) :
    e.IterableComplete f ↔
      e.Complete f ∧ ∃ element length, f.types.get? e.id = some (.array element (some length)) := by
  cases e with
  | range info low high inclusive => exact absurd rfl (h info low high inclusive)
  | _ => exact Iff.rfl

theorem Expr.messageComplete_of_ne {f : Facts} (h : ∀ info parts, e ≠ .template info parts) :
    e.MessageComplete f ↔ e.Complete f := by
  cases e with
  | template info parts => exact absurd rfl (h info parts)
  | _ => exact Iff.rfl

namespace Check

variable {touched : Nat → Prop} {pre : Facts → Prop}

theorem warn_learns (problem : Problem) (span : Span) :
    Learns touched pre (report problem span) fun _ => pre :=
  .modify (fun st => .report st problem span) fun _ hp _ => ⟨hp.locals, hp.facts⟩

theorem pushScope_learns : Learns touched pre pushScope fun _ => pre :=
  .modify (fun st => .locals st _) fun _ hp _ => ⟨hp.locals.push, hp.facts⟩

theorem popScope_learns : Learns touched pre popScope fun _ => pre := by
  refine Ensures.get fun now => ?_
  split
  · exact Ensures.pure fun _ h => h.2
  · rename_i scope outer hnow
    have closed : Ensures (Checking.walk touched) (fun st => st = now ∧ Sound pre st)
        (modify fun st => { st with locals := outer }) fun _ => Sound pre := by
      refine .modify (fun st => .locals st _) fun st hp _ => ⟨?_, hp.2.facts⟩
      have htyped : now.locals.Typed := hp.1 ▸ hp.2.locals
      exact .tail (hnow ▸ htyped)
    refine Ensures.bind closed fun _ => Ensures.forM fun l _ => ?_
    exact .ite (.pure fun _ h => h) (warn_learns _ _)

theorem declareLocal_learns (l : Local) :
    Learns touched (fun f => l.type.isSome ∧ pre f) (declareLocal l) fun _ => pre := by
  refine Ensures.get fun now => ?_
  split
  · exact Ensures.pure fun _ h => ⟨h.2.locals, h.2.facts.2⟩
  · rename_i scope outer hnow
    refine Ensures.ite ?_ ?_
    · exact Ensures.weaken (warn_learns _ _) (fun _ h => h.2) fun _ _ h => ⟨h.locals, h.facts.2⟩
    · refine Ensures.modify (fun st => .locals st _) fun st hp _ => ⟨?_, hp.2.facts.2⟩
      have htyped : now.locals.Typed := hp.1 ▸ hp.2.locals
      exact Locals.Typed.declare (hnow ▸ htyped) hp.2.facts.1

theorem value_learns (he : ∀ i ∈ e.ids .node, touched i) (t : Ty) :
    Learns touched (fun _ => True) (value cx e t) fun r f => r.isSome ∧ e.Complete f := by
  have course : Yields cx True (Visit.all [e]) [t] (value cx e t) :=
    value_course e (.known (mem_singleton_self t))
  exact (course.learns (forall_mem_singleton.mpr he) trivial (.const True)).weaken
    (fun _ h => h) fun _ _ h => ⟨h.1, forall_mem_singleton.mp h.2.2⟩

theorem mem_optionIds {e : Option Expr} (he : ∀ i ∈ Expr.optionIds .node e, touched i) :
    ∀ x ∈ e.toList, ∀ i ∈ x.ids .node, touched i := by
  rw [Expr.optionIds_eq] at he
  exact fun x hx i hi => he i (mem_flatMap.mpr ⟨x, hx, hi⟩)

theorem localVar_learns {decl : VarDecl} (hn : touched info.id)
    (he : ∀ i ∈ Expr.optionIds .node decl.init, touched i) (cx : Context) :
    Learns touched (fun _ => True) (localVar cx info decl)
      fun _ f => f.HasType info.id ∧ Expr.OptionComplete f decl.init := by
  have course : Yields cx True (Visit.all decl.init.toList) [] (varType cx info decl) :=
    varType_course info decl
  have type_learns : Learns touched (fun _ => True) (varType cx info decl)
      fun r f => r.isSome ∧ Expr.OptionComplete f decl.init :=
    (course.learns (mem_optionIds he) trivial (.const True)).weaken (fun _ h => h)
      fun _ _ h => ⟨h.1, Expr.optionComplete_iff.mpr h.2.2⟩
  refine .bind type_learns fun t => ?_
  cases t with
  | none =>
    refine .weaken (declareLocal_learns _) (fun _ h => ?_) fun _ _ h => h
    exact ⟨h.locals, absurd h.facts.1 (by simp)⟩
  | some t =>
    refine Ensures.bind (setType_learns hn ((Stays.const _).and (Expr.optionStays touched _)) t)
      fun _ => ?_
    exact .weaken (declareLocal_learns _)
      (fun _ h => ⟨h.locals, rfl, h.facts.2, h.facts.1.2⟩) fun _ _ h => h

theorem typed_records {node : Nat} {check : Check (Option Ty)} {st : Checking} {t : Ty}
    (h : (typed node check st).1 = some t) :
    (typed node check st).2.facts.types.get? node = some t := by
  unfold typed at h ⊢
  simp only [bind, StateT.bind] at h ⊢
  generalize check st = found at h ⊢
  rcases found with ⟨_ | u, st'⟩
  · cases h
  · cases h
    exact (Table.get?_insert _ _ _ _).trans (if_pos rfl)

theorem expr_records (cx : Context) (e : Expr) (expected : Option Ty) {st : Checking} {t : Ty}
    (h : (expr cx e expected st).1 = some t) :
    (expr cx e expected st).2.facts.types.get? e.id = some t := by
  cases e with
  | range | template | tuple => cases h
  | arrayInit =>
    rw [expr.eq_def] at h ⊢
    exact typed_records h
  | sizeofType info type operand =>
    cases operand <;> rw [expr] at h ⊢ <;> exact typed_records h
  | _ =>
    rw [expr] at h ⊢
    exact typed_records h

theorem iterated_learns (he : ∀ i ∈ e.ids .node, touched i) :
    Learns touched (fun _ => True) (iterated cx e) fun r f => r.isSome ∧ e.IterableComplete f := by
  by_cases hr : ∃ info low high inclusive, e = .range info low high inclusive
  · obtain ⟨info, low, high, inclusive, rfl⟩ := hr
    have bounds : ∀ x ∈ [low, high], ∀ i ∈ x.ids .node, touched i := by
      simp only [Expr.ids, forall_mem_append] at he
      exact forall_mem_cons.mpr ⟨he.1.1, forall_mem_singleton.mpr he.1.2⟩
    have course := @rangeCounter_course info cx True [] low high
    refine .bind (course.learns bounds trivial (.const True)) fun r => ?_
    cases r with
    | none => exact Learns.pure fun _ hp => absurd hp.1 (by simp)
    | some t =>
      have kept (p : Prop) := (Stays.const p).and ((Stays.const True).and (Expr.allStay touched [low, high]))
      refine .bind (setType_records (he _ mem_ids_of_info) (kept _) t) fun _ => ?_
      exact Learns.pure fun _ hp => ⟨rfl, ⟨t, hp.2, by simpa using hp.1.1⟩, by simpa using hp.1.2.2⟩
  · have hne : ∀ info low high inclusive, e ≠ .range info low high inclusive :=
      fun info low high inclusive h => hr ⟨info, low, high, inclusive, h⟩
    have hfound : Learns touched (fun _ => True) (expr cx e none)
        fun r f => r.isSome ∧ e.Complete f ∧ f.types.get? e.id = r := by
      have h := expr_finds cx e he none
      refine ⟨h.goes, fun st hp hc => ?_⟩
      have hs := h.ensures st hp hc
      obtain ⟨t, ht⟩ := Option.isSome_iff_exists.mp hs.facts.1
      exact ⟨hs.locals, hs.facts.1, hs.facts.2, ht ▸ expr_records cx e none ht⟩
    have hit : iterated cx e = elements cx e := by
      cases e <;> first | rfl | exact absurd rfl (hne _ _ _ _)
    rw [hit]
    refine .bind hfound fun r => ?_
    split
    · rename_i element length
      refine Learns.pure fun f h => ⟨rfl, ?_⟩
      rw [Expr.iterableComplete_of_ne hne]
      exact ⟨h.2.1, element, length, h.2.2⟩
    · exact Learns.get fun _ => refuse_learns rfl
    · exact Learns.pure fun _ h => absurd h.1 (by simp)

theorem returned_learns {e : Option Expr} (he : ∀ i ∈ Expr.optionIds .node e, touched i)
    (cx : Context) :
    Learns touched (fun _ => True) (returned cx info e) fun _ => (Expr.OptionComplete · e) := by
  have course : Looks cx True (Visit.all e.toList) [cx.result] (returned cx info e) :=
    returned_course info e (.known (mem_singleton_self _))
  exact (course.learns (mem_optionIds he) trivial (.const True)).weaken (fun _ h => h)
    fun _ _ h => Expr.optionComplete_iff.mpr h.2.2

theorem crashMessage_learns (he : ∀ i ∈ e.ids .node, touched i) :
    Learns touched (fun _ => True) (crashMessage cx e) fun _ => (e.MessageComplete ·) := by
  by_cases ht : ∃ info parts, e = .template info parts
  · obtain ⟨info, parts, rfl⟩ := ht
    have hparts : ∀ x ∈ parts.flatMap (·.exprs), ∀ i ∈ x.ids .node, touched i := by
      simp only [Expr.ids, forall_mem_append, Expr.partIds_eq] at he
      exact fun x hx i hi => he.1 i (mem_flatMap.mpr ⟨x, hx, hi⟩)
    have course := @message_course cx True [] parts
    refine .bind (course.learns hparts trivial (.const True)) fun _ => ?_
    refine (setType_learns (he _ mem_ids_of_info) (Expr.partsStay touched parts) _).weaken
      (fun _ h => Expr.partsComplete_iff.mpr h.2.2) fun _ _ h => ⟨h.2, h.1⟩
  · have hne : ∀ info parts, e ≠ .template info parts := fun info parts h => ht ⟨info, parts, h⟩
    have hplain : crashMessage cx e = (do let _ ← value cx e .text) := by
      cases e <;> first | rfl | exact absurd rfl (hne _ _)
    rw [hplain]
    refine Ensures.bind (value_learns he .text) fun _ => Learns.pure fun f h => ?_
    rw [Expr.messageComplete_of_ne hne]
    exact h.2

theorem assignment_learns {op : AssignOp} {target source : Expr}
    (ht : ∀ i ∈ target.ids .node, touched i) (hs : ∀ i ∈ source.ids .node, touched i) :
    Learns touched (fun _ => True) (assignment cx op target source)
      fun _ f => target.Complete f ∧ source.Complete f := by
  have course := @assignment_course cx True [] op target source
  have both : ∀ e ∈ [target, source], ∀ i ∈ e.ids .node, touched i :=
    forall_mem_cons.mpr ⟨ht, forall_mem_singleton.mpr hs⟩
  exact (course.learns both trivial (.const True)).weaken (fun _ h => h)
    fun _ _ h => by simpa using h.2.2

theorem Learns.andThen {α β : Type} {first second : Nat → Prop} {A : Facts → Prop}
    {B : β → Facts → Prop} {x : Check α} {y : Check β}
    (hx : Learns first pre x fun _ => A) (hy : Learns second (fun _ => True) y B)
    (hA : Stays second A) (h1 : ∀ i, first i → touched i) (h2 : ∀ i, second i → touched i) :
    Learns touched pre (x >>= fun _ => y) fun b f => A f ∧ B b f :=
  Ensures.bind (Learns.mono hx h1) fun _ =>
    (Learns.mono (.carry hy hA) h2).weaken (fun _ h => ⟨trivial, h⟩) fun _ _ h => ⟨h.2, h.1⟩

end Check

theorem Expr.iterableStays (h : ¬ touched e.id) : Stays touched (e.IterableComplete ·) := by
  intro f f' hf hc
  by_cases hr : ∃ info low high inclusive, e = .range info low high inclusive
  · obtain ⟨info, low, high, inclusive, rfl⟩ := hr
    refine ⟨?_, low.stays touched f f' hf hc.2.1, high.stays touched f f' hf hc.2.2⟩
    rw [Facts.HasInteger, hf.same info.id h]
    exact hc.1
  · have hne : ∀ info low high inclusive, e ≠ .range info low high inclusive :=
      fun info low high inclusive h => hr ⟨info, low, high, inclusive, h⟩
    rw [Expr.iterableComplete_of_ne hne] at hc ⊢
    exact ⟨e.stays touched f f' hf hc.1, by rw [hf.same _ h]; exact hc.2⟩

theorem Expr.messageStays (touched : Nat → Prop) (e : Expr) :
    Stays touched (e.MessageComplete ·) := by
  intro f f' hf hc
  by_cases ht : ∃ info parts, e = .template info parts
  · obtain ⟨info, parts, rfl⟩ := ht
    exact ⟨hf.type _ hc.1, Expr.partsStay touched parts f f' hf hc.2⟩
  · have hne : ∀ info parts, e ≠ .template info parts := fun info parts h => ht ⟨info, parts, h⟩
    rw [Expr.messageComplete_of_ne hne] at hc ⊢
    exact e.stays touched f f' hf hc

mutual

theorem Stmt.stays (s : Stmt) (h : ∀ i ∈ s.ids .node, ¬ touched i) :
    Stays touched (s.Complete ·) := by
  intro f f' hf hc
  cases s with
  | block info body =>
    exact allStays body (fun i hi => h i (by simp [ids, hi])) f f' hf hc
  | var info decl => exact ⟨hf.type _ hc.1, Expr.optionStays touched _ f f' hf hc.2⟩
  | cond info test onTrue onFalse =>
    refine ⟨test.stays touched f f' hf hc.1, ?_, ?_⟩
    · exact onTrue.stays (fun i hi => h i (by simp [ids, hi])) f f' hf hc.2.1
    · exact elseStays onFalse (fun i hi => h i (by simp [ids, hi])) f f' hf hc.2.2
  | loop info test body =>
    exact ⟨test.stays touched f f' hf hc.1,
      body.stays (fun i hi => h i (by simp [ids, hi])) f f' hf hc.2⟩
  | foreach info x e body =>
    have he : ¬ touched e.id := h _ (by simp [ids, Check.mem_ids_of_info])
    exact ⟨hf.type _ hc.1, Expr.iterableStays he f f' hf hc.2.1,
      body.stays (fun i hi => h i (by simp [ids, hi])) f f' hf hc.2.2⟩
  | ret info e => exact Expr.optionStays touched e f f' hf hc
  | defer info body => exact body.stays (fun i hi => h i (by simp [ids, hi])) f f' hf hc
  | crash info message =>
    cases message with
    | none => trivial
    | some e => exact e.messageStays touched f f' hf hc
  | expr info e => exact e.stays touched f f' hf hc
  | assign info op target value =>
    exact ⟨target.stays touched f f' hf hc.1, value.stays touched f f' hf hc.2⟩
  | switch info e => exact hc

theorem Stmt.allStays (ss : List Stmt) (h : ∀ i ∈ allIds .node ss, ¬ touched i) :
    Stays touched (AllComplete · ss) := by
  intro f f' hf hc
  cases ss with
  | nil => trivial
  | cons s ss =>
    exact ⟨s.stays (fun i hi => h i (by simp [allIds, hi])) f f' hf hc.1,
      allStays ss (fun i hi => h i (by simp [allIds, hi])) f f' hf hc.2⟩

theorem Stmt.elseStays (s : Option Stmt) (h : ∀ i ∈ optionIds .node s, ¬ touched i) :
    Stays touched (ElseComplete · s) := by
  intro f f' hf hc
  cases s with
  | none => trivial
  | some s => exact s.stays h f f' hf hc

end

mutual

/-- Whether what is deferred neither returns nor defers. -/
def Stmt.contained : Stmt → Bool
  | .block _ body => allContained body
  | .cond _ _ onTrue onFalse => onTrue.contained && elseContained onFalse
  | .loop _ _ body | .foreach _ _ _ body => body.contained
  | .defer _ body => !body.escapes && body.contained
  | .ret _ _ | .var _ _ | .crash _ _ | .expr _ _ | .assign _ _ _ _ | .switch _ _ => true

def Stmt.allContained : List Stmt → Bool
  | [] => true
  | s :: ss => s.contained && allContained ss

def Stmt.elseContained : Option Stmt → Bool
  | none => true
  | some s => s.contained

end

/-- All that lowering needs of the statement is known, and what it defers does not escape. -/
def Stmt.Passed (f : Facts) (s : Stmt) : Prop := s.Complete f ∧ s.contained = true

theorem Stmt.passedStays (s : Stmt) (h : ∀ i ∈ s.ids .node, ¬ touched i) :
    Stays touched (s.Passed ·) :=
  fun f f' hf hc => ⟨s.stays h f f' hf hc.1, hc.2⟩

namespace Check

theorem foreach_learns (cx : Context) {x : String} {body : Stmt}
    (hb : Learns (· ∈ body.ids .node) (fun _ => True) (stmt cx body) fun _ => (body.Passed ·))
    (hself : e.id ≠ info.id) (hoff : e.id ∉ body.ids .node) :
    Learns (· ∈ (foreach info x e body).ids .node) (fun _ => True)
      (stmt cx (.foreach info x e body)) fun _ => ((foreach info x e body).Passed ·) := by
  let whole : Nat → Prop := (· ∈ (foreach info x e body).ids .node)
  have he : ∀ i ∈ e.ids .node, whole i := fun i hi => by simp [whole, ids, hi]
  have hn : whole info.id := by simp [whole, ids, Info.nodeIds]
  have hbody : ∀ i, i ∈ body.ids .node → whole i := fun i hi => by simp [whole, ids, hi]
  let head : Facts → Prop := fun f => f.HasType info.id ∧ e.IterableComplete f
  have hkeep : Stays (· ∈ body.ids .node) head := fun f f' hf h =>
    ⟨hf.type _ h.1, Expr.iterableStays hoff f f' hf h.2⟩
  have rest (type : Option Ty) : Learns whole (fun f => type.isSome ∧ head f)
      (do
        pushScope
        declareLocal { name := x, type, mutable := false, span := info.span, quiet := true }
        stmt cx body
        popScope)
      fun _ => ((foreach info x e body).Passed ·) := by
    have hdeclare (l : Local) (hl : l.type = type) : Learns whole (fun f => type.isSome ∧ head f)
        (declareLocal l) fun _ => head := hl ▸ declareLocal_learns l
    have hlearn : Learns whole head (stmt cx body)
        fun _ => ((foreach info x e body).Passed ·) :=
      (Learns.mono (hb.carry hkeep) hbody).weaken (fun _ h => ⟨trivial, h⟩)
        fun _ _ h => ⟨⟨h.2.1, h.2.2, h.1.1⟩, h.1.2⟩
    exact .bind pushScope_learns fun _ => .bind (hdeclare _ rfl) fun _ =>
      .bind hlearn fun _ => popScope_learns
  rw [stmt]
  refine .bind (iterated_learns he) fun type => ?_
  cases type with
  | none => exact (rest none).weaken (fun _ h => absurd h.1 (by simp)) fun _ _ h => h
  | some t =>
    -- The type of the binding is recorded for the loop, which is not what it runs over.
    have hset : Learns whole (fun f => e.IterableComplete f) (setType info.id t)
        fun _ f => e.IterableComplete f ∧ f.HasType info.id :=
      Learns.mono (setType_learns rfl (Expr.iterableStays hself.symm) t) fun _ hi => hi ▸ hn
    refine .bind (hset.weaken (fun _ h => h.2) fun _ _ h => h) fun _ => ?_
    exact (rest (some t)).weaken (fun _ h => ⟨rfl, h.2, h.1⟩) fun _ _ h => h

mutual

theorem stmt_learns (cx : Context) (s : Stmt) (hs : (s.ids .node).Nodup) :
    Learns (· ∈ s.ids .node) (fun _ => True) (stmt cx s) fun _ => (s.Passed ·) := by
  have passed (hc : s.contained = true) (h : Learns (· ∈ s.ids .node) (fun _ => True) (stmt cx s)
      fun _ => (s.Complete ·)) : Learns (· ∈ s.ids .node) (fun _ => True) (stmt cx s)
      fun _ => (s.Passed ·) :=
    h.weaken (fun _ h => h) fun _ _ h => ⟨h, hc⟩
  cases s with
  | block info body =>
    rw [ids] at hs
    have hb := stmts_learns cx body (nodup_append.mp hs).1
    rw [stmt]
    refine .bind pushScope_learns fun _ => ?_
    refine Ensures.bind (Learns.mono hb fun i hi => by simp [ids, hi]) fun _ => popScope_learns
  | var info decl =>
    refine passed rfl ?_
    rw [stmt]
    refine localVar_learns (by simp [ids, Info.nodeIds]) (fun i hi => ?_) cx
    simp [ids, VarDecl.ids, hi]
  | cond info test onTrue onFalse =>
    rw [ids] at hs
    obtain ⟨hs, -, -⟩ := nodup_append.mp hs
    obtain ⟨hs, helse, hoff⟩ := nodup_append.mp hs
    obtain ⟨-, htrue, -⟩ := nodup_append.mp hs
    have hv : Learns (· ∈ test.ids .node) (fun _ => True) (value cx test .bool)
        fun _ => (test.Complete ·) :=
      (value_learns (fun i hi => hi) .bool).weaken (fun _ h => h) fun _ _ h => h.2
    have hkeep : Stays (· ∈ optionIds .node onFalse) (onTrue.Passed ·) :=
      onTrue.passedStays fun i hi hi' => hoff i (mem_append_right _ hi) i hi' rfl
    have hbranches : Learns
        (fun i => i ∈ onTrue.ids .node ∨ i ∈ optionIds .node onFalse) (fun _ => True)
        (do stmt cx onTrue; orElse cx onFalse)
        fun _ f => onTrue.Passed f ∧ ElseComplete f onFalse ∧ elseContained onFalse :=
      .andThen (stmt_learns cx onTrue htrue) (orElse_learns cx onFalse helse) hkeep
        (fun _ => .inl) fun _ => .inr
    rw [stmt]
    refine (Learns.andThen hv hbranches (test.stays _) ?_ ?_).weaken (fun _ h => h) fun _ _ h =>
      ⟨⟨h.1, h.2.1.1, h.2.2.1⟩, Bool.and_eq_true_iff.mpr ⟨h.2.1.2, h.2.2.2⟩⟩
    · intro i hi
      simp [ids, hi]
    · intro i hi
      rcases hi with hi | hi <;> simp [ids, hi]
  | loop info test body =>
    rw [ids] at hs
    obtain ⟨hs, -, -⟩ := nodup_append.mp hs
    obtain ⟨-, hbody, -⟩ := nodup_append.mp hs
    have hv : Learns (· ∈ test.ids .node) (fun _ => True) (value cx test .bool)
        fun _ => (test.Complete ·) :=
      (value_learns (fun i hi => hi) .bool).weaken (fun _ h => h) fun _ _ h => h.2
    rw [stmt]
    refine (Learns.andThen hv (stmt_learns cx body hbody) (test.stays _) ?_ ?_).weaken
      (fun _ h => h) (fun _ _ h => ⟨⟨h.1, h.2.1⟩, h.2.2⟩) <;>
      · intro i hi
        simp [ids, hi]
  | foreach info x e body =>
    rw [ids] at hs
    obtain ⟨hs, -, hself⟩ := nodup_append.mp hs
    obtain ⟨-, hbody, hoff⟩ := nodup_append.mp hs
    exact foreach_learns cx (stmt_learns cx body hbody)
      (fun h => hself e.id (mem_append_left _ mem_ids_of_info) info.id (by simp [Info.nodeIds]) h)
      fun h => hoff e.id mem_ids_of_info e.id h rfl
  | ret info e =>
    refine passed rfl ?_
    rw [stmt]
    exact returned_learns (fun i hi => by simp [ids, hi]) cx
  | defer info body =>
    rw [ids] at hs
    have hb := stmt_learns cx body (nodup_append.mp hs).1
    have hpart : ∀ i, i ∈ body.ids .node → i ∈ (defer info body).ids .node :=
      fun i hi => by simp [ids, hi]
    rw [stmt]
    split
    · exact Ensures.bind (report_learns rfl _ : Learns _ _ _ fun _ _ => False) fun _ =>
        (Learns.mono hb hpart).never fun _ h => h.facts
    · rename_i hescapes
      refine (Learns.mono hb hpart).weaken (fun _ h => h) fun _ _ h => ⟨h.1, ?_⟩
      simp [contained, hescapes, h.2]
  | crash info message =>
    refine passed rfl ?_
    cases message with
    | none =>
      rw [stmt]
      exact .pure fun _ _ => trivial
    | some e =>
      rw [stmt]
      exact crashMessage_learns fun i hi => by simp [ids, Expr.optionIds, hi]
  | expr info e =>
    refine passed rfl ?_
    rw [stmt]
    exact .bind (expr_finds cx e (fun i hi => by simp [ids, hi]) none) fun _ =>
      Learns.pure fun _ h => h.2
  | assign info op target value =>
    refine passed rfl ?_
    rw [stmt]
    exact assignment_learns (fun i hi => by simp [ids, hi]) fun i hi => by simp [ids, hi]
  | switch info e =>
    rw [stmt]
    exact report_learns rfl _

theorem stmts_learns (cx : Context) (ss : List Stmt) (hs : (allIds .node ss).Nodup) :
    Learns (· ∈ allIds .node ss) (fun _ => True) (stmts cx ss)
      fun _ f => AllComplete f ss ∧ allContained ss := by
  cases ss with
  | nil =>
    rw [stmts]
    exact Learns.pure fun _ _ => ⟨trivial, rfl⟩
  | cons s ss =>
    rw [allIds] at hs
    obtain ⟨hfirst, hrest, hoff⟩ := nodup_append.mp hs
    have hkeep : Stays (· ∈ allIds .node ss) (s.Passed ·) :=
      s.passedStays fun i hi hi' => hoff i hi i hi' rfl
    rw [stmts]
    refine (Learns.andThen (stmt_learns cx s hfirst) (stmts_learns cx ss hrest) hkeep ?_ ?_).weaken
      (fun _ h => h)
      (fun _ _ h => ⟨⟨h.1.1, h.2.1⟩, Bool.and_eq_true_iff.mpr ⟨h.1.2, h.2.2⟩⟩) <;>
      · intro i hi
        simp [allIds, hi]

theorem orElse_learns (cx : Context) (s : Option Stmt) (hs : (optionIds .node s).Nodup) :
    Learns (· ∈ optionIds .node s) (fun _ => True) (orElse cx s)
      fun _ f => ElseComplete f s ∧ elseContained s := by
  cases s with
  | none =>
    rw [orElse]
    exact Learns.pure fun _ _ => ⟨trivial, rfl⟩
  | some s =>
    rw [orElse]
    exact stmt_learns cx s hs

end

end Check
end Quill
