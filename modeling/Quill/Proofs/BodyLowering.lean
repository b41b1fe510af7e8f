import Quill.Proofs.DeferLowering

/-!
# Whole bodies

By induction on a statement, its C shows what the statement does and leaves the frames of the
lowering as the run leaves its own.
-/
namespace Quill

open CStmt Bool
namespace Lower

variable {e : Expr} {info : Info} {s : Stmt}

/-- What lowering a statement that may escape, with so many defers in it, relies on. Where nothing
escapes, the frames of the run do not matter. -/
structure Ready (cx : Checked) (run : Stmt → Body (List CStmt)) (escapes : Bool) (defers : Nat)
    (F : Frames) (st : BodyState) : Prop where
  ends : st.endless = false
  pending : escapes = true → ∀ d ∈ st.frames.flatten, d.Deferrable cx
  runs : escapes = true → st.frames.flatten ≠ [] ∨ defers ≠ 0 → Runs cx run
  frames : escapes = true → F = st.frames.map (·.map (·.later cx))

variable {cx : Checked} {run : Stmt → Body (List CStmt)} {F : Frames} {st : BodyState}

theorem Ready.part {escapes escapes' : Bool} {defers defers' : Nat} {st' : BodyState}
    (h : Ready cx run escapes defers F st) (he : escapes' = true → escapes = true)
    (hd : defers' ≠ 0 → defers ≠ 0) (hframes : st'.frames = st.frames)
    (hends : st'.endless = false) : Ready cx run escapes' defers' F st' where
  ends := hends
  pending hx := by rw [hframes]; exact h.pending (he hx)
  runs hx hr := h.runs (he hx) (by rw [hframes] at hr; exact hr.imp_right hd)
  frames hx := by rw [hframes]; exact h.frames (he hx)

theorem Ready.next {ss : List Stmt} {st' : BodyState}
    (h : Ready cx run (Stmt.anyEscapes (s :: ss)) (Stmt.allDefers (s :: ss)) F st)
    (hreg : Stmt.allRegular cx (s :: ss) = true)
    (hframes : st'.frames = framesAfter id [s] st.frames) (hends : st'.endless = false) :
    Ready cx run (Stmt.anyEscapes ss) (Stmt.allDefers ss) (framesAfter (·.later cx) [s] F) st' := by
  have hany : Stmt.anyEscapes ss = true → Stmt.anyEscapes (s :: ss) = true := by
    intro hx
    rw [Stmt.anyEscapes, hx, Bool.or_true]
  have hs : Stmt.allRegular cx [s] = true := by
    simp only [Stmt.allRegular, and_eq_true] at hreg ⊢
    exact ⟨hreg.1, trivial⟩
  refine ⟨hends, ?_, ?_, ?_⟩
  · intro hx d hd
    rw [hframes] at hd
    cases hf : st.frames with
    | nil => simp [hf, framesAfter] at hd
    | cons frame outer =>
      simp only [hf, framesAfter, List.map_id_fun, id_eq, List.flatten_cons, List.append_assoc,
        List.mem_append] at hd
      rcases hd with hd | hd
      · exact deferrable_of_regular hs d hd
      · exact h.pending (hany hx) d (by simpa [hf] using hd)
  · intro hx hr
    refine h.runs (hany hx) ?_
    by_cases h0 : Stmt.allDefers (s :: ss) = 0
    · left
      simp only [Stmt.allDefers, Nat.add_eq_zero_iff] at h0
      have hnone : deferredBy [s] = [] :=
        deferredBy_of_no_defers (by simp [Stmt.allDefers, h0.1])
      rw [hframes, framesAfter_of_none id hnone] at hr
      exact hr.resolve_right (by simp [h0.2])
    · exact .inr h0
  · intro hx
    rw [hframes, map_framesAfter, h.frames (hany hx)]

theorem Ready.inside {body : List Stmt}
    (h : Ready cx run (Stmt.anyEscapes body) (Stmt.allDefers body) F st) :
    Ready cx run (Stmt.anyEscapes body) (Stmt.allDefers body) ([] :: F)
      { st with frames := [] :: st.frames } where
  ends := h.ends
  pending := h.pending
  runs hx hr := h.runs hx hr
  frames hx := by rw [h.frames hx]; rfl

theorem Ready.runs_deferred {body : List Stmt}
    (h : Ready cx run (Stmt.anyEscapes body) (Stmt.allDefers body) F st)
    (hne : deferredBy body ≠ []) : Runs cx run := by
  refine h.runs ?_ (.inr ?_)
  · by_contra hx
    exact hne (deferredBy_of_not_escapes (by simpa using hx))
  · exact fun h0 => hne (deferredBy_of_no_defers h0)

theorem execElse_eq (out : Option (List CStmt)) : execElse out = execAll (out.getD []) := by
  cases out with
  | none => rw [execElse, Option.getD_none, execAll]
  | some body => rw [execElse, Option.getD_some]

theorem count_follows {body loop : Stmt} {out : List CStmt} {init : CVar} {test advance : CExpr}
    (before : List CEvent) {inside : List CEvent}
    (henter : Realizes cx (.enter loop) (before ++ [.declare init]))
    (hnext : Realizes cx (.next loop true) (.test test true :: inside))
    (hlast : Realizes cx (.next loop false) [.test test false])
    (hadvance : Realizes cx (.advance loop) [.eval advance])
    (hbody : Follows (Realizes cx) (body.exec cx) F F (execAll out)) :
    Follows (Realizes cx)
      ((Run.emit (.enter loop)).andThen
        (.loop (.next loop) ((body.exec cx).andThen (.emit (.advance loop))))) F F
      ((Run.emits before).andThen ((Run.emit (.declare init)).andThen
        (.loop (.test test) ((Run.emits inside).andThen
          ((execAll out).andThen (.emit (.eval advance))))))) := by
  have round := hbody.andThen (Follows.emit hadvance F)
  have whole := (Follows.emit henter F).andThen (Follows.loop hnext hlast round)
  rwa [Run.emits_append, Run.andThen_assoc] at whole

theorem countRange_lowered {i : Info} {x : String} {low high : Expr} {inclusive : Bool}
    {body : Body (List CStmt)} (hst : st.endless = false)
    (hbody : ∀ st' : BodyState, st'.frames = st.frames → st'.endless = false →
      Lowered cx (s.exec cx) F F st.frames (body st')) :
    Lowered cx ((Stmt.foreach info x (.range i low high inclusive) s).exec cx) F F st.frames
      (countRange cx i x low high inclusive body st) := by
  let t := plain (typeOf cx i) st
  let b := fresh "end" t.2
  let h := plain (expr cx high) b.2
  let l := plain (expr cx low) h.2
  have hb : Lowered cx (s.exec cx) F F st.frames (body l.2) := hbody l.2 rfl hst
  have heq : countRange cx i x low high inclusive body st = ([.block [
      .var { type := t.1, name := b.1, init := some h.1 },
      .count { type := t.1, name := cIdent x, init := some l.1 }
        (.binary (if inclusive then .le else .lt) (.var (cIdent x)) (.var b.1))
        (.step .inc (.var (cIdent x))) (body l.2).1]], (body l.2).2) := rfl
  have henter : Realizes cx (.enter (.foreach info x (.range i low high inclusive) s))
      ([.declare { type := t.1, name := b.1, init := some h.1 }] ++
        [.declare { type := t.1, name := cIdent x, init := some l.1 }]) := .enterRange rfl rfl
  rw [heq]
  refine ⟨hb.frames, hb.ends, ?_⟩
  rw [Stmt.exec, execAll_single, exec, execAll, execAll_single, exec,
    exec]
  exact count_follows _ henter .nextRange .nextRange .advanceRange hb.follows

theorem countElements_eq {x : String} {element : Ty} {length : Nat} {body : Body (List CStmt)}
    (ht : cx.resolution.typeOf? e.id = some (.array element (some length))) :
    let t := plain (typeOf cx info) st
    let p := fresh "i" t.2
    let c := plain (expr cx e) p.2
    countElements cx info x e body st = ([.count
      { type := { name := Scalar.uptr.cName }, name := p.1, init := some (.literal "0") }
      (.binary .lt (.var p.1) (.literal (toString length)))
      (.step .inc (.var p.1))
      (.var { type := t.1, name := cIdent x, init := some (.index c.1 (.var p.1)) } ::
        (body c.2).1)], (body c.2).2) := by
  unfold countElements
  rw [ht]
  rfl

theorem countElements_lowered {x : String} {element : Ty} {length : Nat} {body : Body (List CStmt)}
    (hst : st.endless = false)
    (ht : cx.resolution.typeOf? e.id = some (.array element (some length)))
    (hbody : ∀ st' : BodyState, st'.frames = st.frames → st'.endless = false →
      Lowered cx (s.exec cx) F F st.frames (body st')) :
    Lowered cx ((Stmt.foreach info x e s).exec cx) F F st.frames
      (countElements cx info x e body st) := by
  have hb := hbody (plain (expr cx e) (fresh "i" (plain (typeOf cx info) st).2).2).2 rfl hst
  rw [countElements_eq ht]
  refine ⟨hb.frames, hb.ends, ?_⟩
  rw [Stmt.exec, execAll_single, exec, execAll, exec, Run.andThen_assoc]
  exact count_follows [] .enterArray (.nextElement ht rfl) (.lastElement ht) .advanceArray
    hb.follows

theorem straight_lowered {a : Run Frames Event} {c : CStmt} (st' : BodyState)
    (hf : st'.frames = st.frames) (he : st'.endless = false)
    (h : Follows (Realizes cx) a F F c.exec) : Lowered cx a F F st.frames ([c], st') :=
  ⟨hf, he, by rwa [execAll_single]⟩

theorem stmt_foreach_eq (cx : FunctionContext) (info : Info) (x : String) (body : Stmt)
    (he : ∀ i low high inclusive, e ≠ .range i low high inclusive) :
    stmt cx run (.foreach info x e body) =
      countElements cx.toChecked info x e (return unbraced body (← stmt cx run body)) := by
  cases e with
  | range i low high inclusive => exact absurd rfl (he i low high inclusive)
  | _ => rw [stmt]; exact nofun

theorem Lowered.unbraced {a : Run Frames Event} {F' : Frames} {frames : List (List Stmt)}
    {r : List CStmt × BodyState} (h : Lowered cx a F F' frames r) :
    Lowered cx a F F' frames (unbraced s r.1, r.2) :=
  ⟨h.frames, h.ends, by rw [execAll_unbraced]; exact h.follows⟩

theorem typeOf_of_iterable (h : cx.iterable e = true)
    (he : ∀ i low high inclusive, e ≠ .range i low high inclusive) :
    ∃ element length, cx.resolution.typeOf? e.id = some (.array element (some length)) := by
  cases e with
  | range i low high inclusive => exact absurd rfl (he i low high inclusive)
  | _ =>
    simp only [Checked.iterable] at h
    split at h
    · exact ⟨_, _, ‹_›⟩
    · cases h

theorem defer_lowered {body : Stmt} (hst : st.endless = false) :
    Lowered cx (.defer (body.later cx)) F (framesAfter (·.later cx) [.defer info body] F)
      (framesAfter id [.defer info body] st.frames)
      ((do postpone body; return [] : Body (List CStmt)) st) := by
  have pushed : Follows (Realizes cx) (.defer (body.later cx)) F
      (framesAfter (·.later cx) [.defer info body] F) .done := by
    cases F with
    | nil => exact .update _ _
    | cons frame outer => exact .update _ _
  have hpost : (postpone body st).2 =
      { st with frames := framesAfter id [.defer info body] st.frames } := by
    rcases st with ⟨toLowering, temps, _ | ⟨frame, outer⟩, endless⟩
    · rfl
    · rfl
  exact ⟨congrArg BodyState.frames hpost, (congrArg BodyState.endless hpost).trans hst, pushed⟩

section

variable (cx : FunctionContext) (run : Stmt → Body (List CStmt))

mutual

theorem stmt_lowered (s : Stmt) (F : Frames) (st : BodyState)
    (hreg : s.regular cx.toChecked = true)
    (hready : Ready cx.toChecked run s.escapes s.defers F st) :
    Lowered cx.toChecked (s.exec cx.toChecked) F (framesAfter (·.later cx.toChecked) [s] F)
      (framesAfter id [s] st.frames) (stmt cx run s st) := by
  by_cases hd : s.isDefer = true
  · cases s <;> simp only [Stmt.isDefer, false_eq_true] at hd
    case defer info body =>
      rw [stmt, Stmt.exec]
      exact defer_lowered hready.ends
  rw [not_eq_true] at hd
  rw [framesAfter_of_not_defer _ hd, framesAfter_of_not_defer _ hd]
  cases s with
  | defer info body => exact absurd hd (by simp [Stmt.isDefer])
  | block info body =>
    rw [Stmt.regular] at hreg
    rw [Stmt.escapes, Stmt.defers] at hready
    have hbody := stmts_lowered body ([] :: F) _ hreg hready.inside
    have h := inBlock_lowered hbody (deferrable_of_regular hreg) hready.runs_deferred
    rw [stmt, Stmt.exec]
    refine straight_lowered _ h.frames h.ends ?_
    rw [exec]
    exact h.follows
  | var info decl =>
    rw [stmt, Stmt.exec]
    refine straight_lowered (plain (localVar cx.toChecked info decl) st).2 rfl hready.ends ?_
    exact .emit (.declare rfl) F
  | cond info test onTrue onFalse =>
    simp only [Stmt.regular, and_eq_true, not_eq_true'] at hreg
    obtain ⟨⟨hdt, hrt⟩, hrf⟩ := hreg
    rw [Stmt.escapes, Stmt.defers] at hready
    let t := plain (expr cx.toChecked test) st
    have yes := stmt_lowered onTrue F t.2 hrt
      (hready.part (by simp +contextual) (by omega) rfl hready.ends)
    rw [framesAfter_of_not_defer _ hdt, framesAfter_of_not_defer _ hdt] at yes
    have no := orElse_lowered onFalse F (stmt cx run onTrue t.2).2 hrf
      (hready.part (by simp +contextual) (by omega) yes.frames yes.ends)
    rw [stmt, Stmt.exec]
    refine straight_lowered _ (no.frames.trans yes.frames) no.ends ?_
    rw [exec, execElse_eq]
    exact .test (fun _ => .test rfl) yes.unbraced.follows no.follows
  | loop info test body =>
    simp only [Stmt.regular, and_eq_true, not_eq_true'] at hreg
    rw [Stmt.escapes, Stmt.defers] at hready
    let t := plain (expr cx.toChecked test) st
    have round := stmt_lowered body F t.2 hreg.2
      (hready.part id id rfl hready.ends)
    rw [framesAfter_of_not_defer _ hreg.1, framesAfter_of_not_defer _ hreg.1] at round
    rw [stmt, Stmt.exec]
    refine straight_lowered _ round.frames round.ends ?_
    rw [exec]
    exact Follows.loop_test (fun _ => .test rfl) round.unbraced.follows
  | foreach info x e body =>
    simp only [Stmt.regular, and_eq_true, not_eq_true'] at hreg
    obtain ⟨⟨hit, hdb⟩, hrb⟩ := hreg
    rw [Stmt.escapes, Stmt.defers] at hready
    have round : ∀ st' : BodyState, st'.frames = st.frames → st'.endless = false →
        Lowered cx.toChecked (body.exec cx.toChecked) F F st.frames
          ((return unbraced body (← stmt cx run body) : Body (List CStmt)) st') := by
      intro st' hf he
      have h := stmt_lowered body F st' hrb (hready.part id id hf he)
      rw [framesAfter_of_not_defer _ hdb, framesAfter_of_not_defer _ hdb, hf] at h
      exact h.unbraced
    by_cases hr : ∃ i low high inclusive, e = .range i low high inclusive
    · obtain ⟨i, low, high, inclusive, rfl⟩ := hr
      rw [stmt]
      exact countRange_lowered hready.ends round
    · have hne : ∀ i low high inclusive, e ≠ .range i low high inclusive :=
        fun i low high inclusive h => hr ⟨i, low, high, inclusive, h⟩
      obtain ⟨element, length, ht⟩ : ∃ element length,
          cx.resolution.typeOf? e.id = some (.array element (some length)) :=
        typeOf_of_iterable hit hne
      rw [stmt_foreach_eq cx info x body hne]
      exact countElements_lowered hready.ends ht round
  | ret info value =>
    rw [stmt]
    have h := returned_lowered hready.ends (hready.pending rfl) (fun hp => hready.runs rfl (.inl hp))
      (hready.frames rfl) value
    cases value <;> (rw [Stmt.exec]; exact h)
  | crash info message =>
    rw [stmt, Stmt.exec]
    exact crash_lowered cx.toChecked message hready.ends F
  | expr info e =>
    rw [stmt, Stmt.exec]
    refine straight_lowered (plain (expr cx.toChecked e) st).2 rfl hready.ends ?_
    have shown : Realizes cx.toChecked (.plain (.expr info e))
        [.eval (expr cx.toChecked e st.toLowering).1] := .eval rfl
    have ended : Follows (Realizes cx.toChecked)
        (if e.callsAbort cx.toChecked then .stop .crashed else .done) F F
        (if e.callsAbort cx.toChecked then .stop .crashed else .done) := by
      split
      · exact .stop (by decide) F F
      · exact .done F
    have whole := (Follows.emit shown F).andThen ended
    rw [exec, isAbort_expr]
    exact whole
  | assign info op target source =>
    rw [stmt, Stmt.exec]
    refine straight_lowered
      (plain (expr cx.toChecked source) (plain (expr cx.toChecked target) st).2).2
      rfl hready.ends ?_
    exact .emit (.assign rfl rfl) F
  | switch info e => simp [Stmt.regular] at hreg

theorem stmts_lowered (ss : List Stmt) (F : Frames) (st : BodyState)
    (hreg : Stmt.allRegular cx.toChecked ss = true)
    (hready : Ready cx.toChecked run (Stmt.anyEscapes ss) (Stmt.allDefers ss) F st) :
    Lowered cx.toChecked (Stmt.execAll cx.toChecked ss) F
      (framesAfter (·.later cx.toChecked) ss F) (framesAfter id ss st.frames)
      (stmts cx run ss st) := by
  cases ss with
  | nil =>
    rw [framesAfter_of_none _ rfl, framesAfter_of_none _ rfl, stmts, Stmt.execAll]
    exact ⟨rfl, hready.ends, .done F⟩
  | cons s ss =>
    have hreg' := hreg
    simp only [Stmt.allRegular, and_eq_true] at hreg
    have first := stmt_lowered s F st hreg.1
      (hready.part (by simp +contextual [Stmt.anyEscapes]) (by simp only [Stmt.allDefers]; omega)
        rfl hready.ends)
    have rest := stmts_lowered ss _ _ hreg.2 (hready.next hreg' first.frames first.ends)
    rw [framesAfter_cons, framesAfter_cons _ _ id, stmts, Stmt.execAll]
    refine ⟨rest.frames.trans (by rw [first.frames]), rest.ends, ?_⟩
    have both := first.follows.andThen rest.follows
    rwa [← execAll_append] at both

theorem orElse_lowered (s : Option Stmt) (F : Frames) (st : BodyState)
    (hreg : Stmt.elseRegular cx.toChecked s = true)
    (hready : Ready cx.toChecked run (Stmt.elseEscapes s) (Stmt.elseDefers s) F st) :
    Lowered cx.toChecked (Stmt.execElse cx.toChecked s) F F st.frames
      ((orElse cx run s st).1.getD [], (orElse cx run s st).2) := by
  cases s with
  | none =>
    rw [orElse, Stmt.execElse]
    exact ⟨rfl, hready.ends, .done F⟩
  | some s =>
    simp only [Stmt.elseRegular, and_eq_true, not_eq_true'] at hreg
    have h := stmt_lowered s F st hreg.2 hready
    rw [framesAfter_of_not_defer _ hreg.1, framesAfter_of_not_defer _ hreg.1] at h
    rw [orElse, Stmt.execElse]
    exact h.unbraced

end

end

/-- Statements that may be deferred make no use of what runs deferred ones, so one level is
enough. -/
theorem deferred_runs (cx : FunctionContext) (level : Nat) :
    Runs cx.toChecked (deferred cx (level + 1)) := by
  intro d hd st hst F
  have heq : deferred cx (level + 1) d st = stmt cx (deferred cx level) d st := by
    rw [deferred]
    show (ite (st.endless = true) _ _ : Body (List CStmt)) st = _
    rw [if_neg (by simp [hst])]
  have hready : Ready cx.toChecked (deferred cx level) d.escapes d.defers [] st := by
    rw [hd.2]
    exact ⟨hst, nofun, nofun, nofun⟩
  have h := stmt_lowered cx (deferred cx level) d [] st hd.1 hready
  have hnot := isDefer_of_not_escapes hd.2
  rw [framesAfter_of_not_defer _ hnot, framesAfter_of_not_defer _ hnot] at h
  rw [heq]
  exact ⟨h.frames, h.ends, .detached (.detached h.follows ()) F⟩

end Lower

/-- A body and the C it is lowered to show the same events in the same order and end the same way,
whatever the outcomes of the conditions. -/
theorem functionBody_agrees (cx : Lower.FunctionContext) (body : List Stmt)
    (h : Stmt.allRegular cx.toChecked body = true) (st : Lowering) (outcomes : List Bool) :
    (Stmt.run cx.toChecked body outcomes).Agrees (Realizes cx.toChecked)
      (CStmt.run (Lower.functionBody cx body st).1 outcomes) := by
  let run := Lower.deferred cx (Stmt.allDefers body)
  have hready : Lower.Ready cx.toChecked run (Stmt.anyEscapes body) (Stmt.allDefers body) []
      { toLowering := st } := by
    refine ⟨rfl, fun _ => nofun, fun _ hd => ?_, fun _ => rfl⟩
    obtain ⟨level, hl⟩ := Nat.exists_eq_succ_of_ne_zero (hd.resolve_left (by simp))
    simp only [run, hl]
    exact Lower.deferred_runs cx level
  have hbody := Lower.stmts_lowered cx run body ([] :: []) _ h hready.inside
  have whole := Lower.inBlock_lowered hbody (deferrable_of_regular h) hready.runs_deferred
  exact (whole.follows outcomes).agrees

def numbered (n : Nat) : Stmt :=
  .expr { id := n, span := {} } (.literal { id := n, span := {} } (.int (toString n)))

/-- Returns from the body of a loop while statements of two blocks are deferred, and from nowhere
else. -/
def returningLoop : List Stmt :=
  let info : Info := { id := 0, span := {} }
  [.defer info (numbered 1), .defer info (.block info [numbered 2, numbered 3]),
    .loop info (.ref info ["more"])
      (.block info [.defer info (numbered 4), .cond info (.ref info ["found"])
        (.block info [numbered 5, .ret info (some (.ref info ["x"]))]) none, numbered 6]),
    .crash info none]

theorem functionBody_agrees_returningLoop :
    let cx : Lower.FunctionContext :=
      { table := ⟨#[], #[]⟩, resolution := ⟨⟨#[], {}, {}⟩, {}, []⟩, result := .void }
    Stmt.allRegular cx.toChecked returningLoop = true ∧
      (Stmt.run cx.toChecked returningLoop [true, false, true, true]).exit = .returned ∧
      (Stmt.run cx.toChecked returningLoop [true, false, true, true]).Agrees
        (Realizes cx.toChecked)
        (CStmt.run (Lower.functionBody cx returningLoop ⟨{}, []⟩).1 [true, false, true, true]) :=
  ⟨by decide +kernel, by decide +kernel, functionBody_agrees _ _ (by decide +kernel) _ _⟩

end Quill
