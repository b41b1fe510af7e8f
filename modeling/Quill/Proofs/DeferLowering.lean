import Quill.Proofs.Execution

/-!
# Lowering keeps what a body does

A body and the C it is lowered to show the same events, end the same way and ask for the same number
of conditions. The frames of the lowering at a place are those that a run has there.
-/
namespace Quill

open CStmt Run Lower List

variable (s : Stmt) (ss : List Stmt) (cx : Checked) (e : Expr)

def madeUp (purpose : String) (n : Nat) : String := "__ql_" ++ purpose ++ "_" ++ toString n

/-- What the events of a body are in C. The parts of an event are lowered on their own, in whatever
state the lowering is in by then. -/
inductive Realizes (cx : Checked) : Event → List CEvent → Prop where
  | declare {info decl st v} (h : (localVar cx info decl st).1 = .var v) :
      Realizes cx (.plain (.var info decl)) [.declare v]
  | eval {info e st c} (h : (expr cx e st).1 = c) :
      Realizes cx (.plain (.expr info e)) [.eval c]
  | assign {info op target value st st' t v} (ht : (expr cx target st).1 = t)
      (hv : (expr cx value st').1 = v) :
      Realizes cx (.plain (.assign info op target value)) [.assign op t v]
  | test {e st c outcome} (h : (expr cx e st).1 = c) :
      Realizes cx (.test e outcome) [.test c outcome]
  | value {e st c} (h : (expr cx e st).1 = c) : Realizes cx (.value e) [.value c]
  /-- The value is kept while deferred statements run. -/
  | valueKept {e st c n type} (h : (expr cx e st).1 = c) :
      Realizes cx (.value e)
        [.declare { type, name := madeUp "ret" n, init := some c }]
  | leave : Realizes cx .leave []
  | leaveKept {n} : Realizes cx .leave [.value (.var (madeUp "ret" n))]
  | crash {message st} :
      Realizes cx (.crash message)
        (run (crash cx message st).1 []).events
  | enterRange {info i x low high inclusive body st st' l h type n}
      (hh : (expr cx high st).1 = h) (hl : (expr cx low st').1 = l) :
      Realizes cx (.enter (.foreach info x (.range i low high inclusive) body))
        [.declare { type, name := madeUp "end" n, init := some h },
          .declare { type, name := cIdent x, init := some l }]
  | nextRange {info i x low high inclusive body n outcome} :
      Realizes cx (.next (.foreach info x (.range i low high inclusive) body) outcome)
        [.test (.binary (if inclusive then .le else .lt) (.var (cIdent x))
          (.var (madeUp "end" n))) outcome]
  | advanceRange {info i x low high inclusive body} :
      Realizes cx (.advance (.foreach info x (.range i low high inclusive) body))
        [.eval (.step .inc (.var (cIdent x)))]
  | enterArray {info x e body n} :
      Realizes cx (.enter (.foreach info x e body))
        [.declare { type := { name := Scalar.uptr.cName }, name := madeUp "i" n
                    init := some (.literal "0") }]
  | nextElement {info x e body st c element length type n}
      (ht : cx.resolution.typeOf? e.id = some (.array element (some length)))
      (h : (expr cx e st).1 = c) :
      Realizes cx (.next (.foreach info x e body) true)
        [.test (.binary .lt (.var (madeUp "i" n)) (.literal (toString length))) true,
          .declare { type, name := cIdent x
                     init := some (.index c (.var (madeUp "i" n))) }]
  | lastElement {info x e body element length n}
      (ht : cx.resolution.typeOf? e.id = some (.array element (some length))) :
      Realizes cx (.next (.foreach info x e body) false)
        [.test (.binary .lt (.var (madeUp "i" n)) (.literal (toString length))) false]
  | advanceArray {info x e body n} :
      Realizes cx (.advance (.foreach info x e body))
        [.eval (.step .inc (.var (madeUp "i" n)))]

def Stmt.isDefer : Stmt → Bool
  | .defer _ _ => true
  | _ => false

/-- Whether a loop can run over the expression: a range, or an array of known length. -/
def Checked.iterable (cx : Checked) : Expr → Bool
  | .range _ _ _ _ => true
  | e =>
    match cx.resolution.typeOf? e.id with
    | some (.array _ (some _)) => true
    | _ => false

mutual

/-- Whether the statement has the form that parsing gives, where branches and loop bodies are never
a bare `defer`, and meets what typing checks: no deferred statement returns or defers, and loops run
over ranges and arrays of known length. -/
def Stmt.regular (cx : Checked) : Stmt → Bool
  | .block _ body => Stmt.allRegular cx body
  | .cond _ _ onTrue onFalse =>
    !onTrue.isDefer && onTrue.regular cx && Stmt.elseRegular cx onFalse
  | .loop _ _ body => !body.isDefer && body.regular cx
  | .foreach _ _ iterable body => cx.iterable iterable && !body.isDefer && body.regular cx
  | .defer _ body => !body.escapes && body.regular cx
  | .switch _ _ => false
  | .ret _ _ | .var _ _ | .crash _ _ | .expr _ _ | .assign _ _ _ _ => true

def Stmt.allRegular (cx : Checked) : List Stmt → Bool
  | [] => true
  | s :: ss => s.regular cx && Stmt.allRegular cx ss

def Stmt.elseRegular (cx : Checked) : Option Stmt → Bool
  | none => true
  | some s => !s.isDefer && s.regular cx

end

def Stmt.later (cx : Checked) (d : Stmt) : Run Unit Event := .detached [] (d.exec cx)

def Stmt.Deferrable (cx : Checked) (d : Stmt) : Prop := d.regular cx = true ∧ d.escapes = false

def Stmt.deferral? : Stmt → Option Stmt
  | .defer _ body => some body
  | _ => none

/-- What the statements of a block defer, the latest first. -/
def deferredBy (ss : List Stmt) : List Stmt := (ss.filterMap (·.deferral?)).reverse

theorem deferredBy_cons : deferredBy (s :: ss) = deferredBy ss ++ s.deferral?.toList := by
  cases s <;> simp [deferredBy, Stmt.deferral?]

theorem deferral?_of_not_defer {s : Stmt} (h : s.isDefer = false) : s.deferral? = none := by
  cases s <;> first | rfl | simp [Stmt.isDefer] at h

theorem isDefer_of_not_escapes {s : Stmt} (h : s.escapes = false) : s.isDefer = false := by
  cases s <;> first | rfl | simp [Stmt.escapes] at h

theorem deferredBy_of_not_escapes {ss : List Stmt} (h : Stmt.anyEscapes ss = false) :
    deferredBy ss = [] := by
  induction ss with
  | nil => rfl
  | cons s ss ih =>
    simp only [Stmt.anyEscapes, Bool.or_eq_false_iff] at h
    rw [deferredBy_cons, ih h.2, deferral?_of_not_defer (isDefer_of_not_escapes h.1)]
    rfl

theorem deferredBy_of_no_defers {ss : List Stmt} (h : Stmt.allDefers ss = 0) :
    deferredBy ss = [] := by
  induction ss with
  | nil => rfl
  | cons s ss ih =>
    simp only [Stmt.allDefers, Nat.add_eq_zero_iff] at h
    rw [deferredBy_cons, ih h.2]
    cases s <;> first | rfl | simp [Stmt.defers] at h

theorem deferrable_of_regular {cx : Checked} {ss : List Stmt} (h : Stmt.allRegular cx ss = true) :
    ∀ d ∈ deferredBy ss, d.Deferrable cx := by
  induction ss with
  | nil => exact nofun
  | cons s ss ih =>
    simp only [Stmt.allRegular, Bool.and_eq_true] at h
    intro d hd
    rw [deferredBy_cons, mem_append, Option.mem_toList] at hd
    rcases hd with hd | hd
    · exact ih h.2 d hd
    · cases s <;> simp only [Stmt.deferral?, Option.some.injEq, reduceCtorEq] at hd
      subst hd
      simpa [Stmt.regular, Stmt.Deferrable, and_comm] using h.1

section Frames

variable {α : Type} (f : Stmt → α)

/-- The frames after statements of the innermost block that finished. -/
def framesAfter (ss : List Stmt) : List (List α) → List (List α)
  | [] => []
  | frame :: outer => ((deferredBy ss).map f ++ frame) :: outer

theorem framesAfter_of_none {ss : List Stmt} (h : deferredBy ss = []) (frames : List (List α)) :
    framesAfter f ss frames = frames := by
  cases frames <;> simp [framesAfter, h]

theorem framesAfter_of_not_defer {s : Stmt} (h : s.isDefer = false) (frames : List (List α)) :
    framesAfter f [s] frames = frames :=
  framesAfter_of_none f (by rw [deferredBy_cons, deferral?_of_not_defer h]; rfl) frames

theorem framesAfter_cons (frames : List (List α)) :
    framesAfter f (s :: ss) frames = framesAfter f ss (framesAfter f [s] frames) := by
  cases frames with
  | nil => rfl
  | cons frame outer =>
    simp only [framesAfter]
    rw [deferredBy_cons, deferredBy_cons s []]
    simp [deferredBy]

theorem map_framesAfter (frames : List (List Stmt)) :
    (framesAfter id ss frames).map (·.map f) = framesAfter f ss (frames.map (·.map f)) := by
  cases frames <;> simp [framesAfter]

end Frames

namespace Lower

/-- The result `r` of lowering a statement whose run takes the frames from `F` to `F'`: the frames
of the lowering are `frames` by then, and the C shows what the statement does. -/
structure Lowered (cx : Checked) (a : Run Frames Event) (F F' : Frames) (frames : List (List Stmt))
    (r : List CStmt × BodyState) : Prop where
  frames : r.2.frames = frames
  ends : r.2.endless = false
  follows : Follows (Realizes cx) a F F' (execAll r.1)

/-- `run` lowers every statement that may be deferred. -/
def Runs (cx : Checked) (run : Stmt → Body (List CStmt)) : Prop :=
  ∀ d, d.Deferrable cx → ∀ st : BodyState, st.endless = false → ∀ F : Frames,
    Lowered cx (.detached () (d.later cx)) F F st.frames (run d st)

theorem inTurn_lowered {cx : Checked} {run : Stmt → Body (List CStmt)} {ds : List Stmt}
    (hrun : ds ≠ [] → Runs cx run) (hds : ∀ d ∈ ds, d.Deferrable cx) (st : BodyState)
    (hst : st.endless = false) (F : Frames) :
    Lowered cx (.deferred (ds.map (·.later cx))) F F st.frames (inTurn run ds st) := by
  induction ds generalizing st with
  | nil => exact ⟨rfl, hst, .done F⟩
  | cons d ds ih =>
    have hr := hrun (cons_ne_nil d ds)
    have first := hr d (hds d mem_cons_self) st hst F
    have rest := ih (fun _ => hr) (fun e he => hds e (mem_cons_of_mem _ he)) _ first.ends
    refine ⟨rest.frames.trans first.frames, rest.ends, ?_⟩
    have both := first.follows.andThen rest.follows
    rwa [← execAll_append] at both

theorem returned_eq_of_empty (cx : FunctionContext) (run : Stmt → Body (List CStmt))
    {st : BodyState} (hp : st.frames.flatten = []) (value : Option Expr) :
    returned cx run value st =
      match value with
      | none => ([.ret none], st)
      | some e =>
        let c := plain (expr cx.toChecked e) st
        ([.ret (some c.1)], c.2) := by
  cases value with
  | none =>
    show (ite (st.frames.flatten.isEmpty = true) _ _ : Body (List CStmt)) st = _
    rw [if_pos (by rw [hp]; rfl)]
    rfl
  | some e =>
    show (ite (st.frames.flatten.isEmpty = true) _ _ : Body (List CStmt)) st = _
    rw [if_pos (by rw [hp]; rfl)]
    rfl

theorem returned_eq_of_pending (cx : FunctionContext) (run : Stmt → Body (List CStmt))
    {st : BodyState} (hp : st.frames.flatten ≠ []) (value : Option Expr) :
    returned cx run value st =
      match value with
      | none =>
        let ds := inTurn run st.frames.flatten st
        ([.block (ds.1 ++ [.ret none])], ds.2)
      | some e =>
        let t := plain (cType cx.toChecked cx.result e.span) st
        let c := plain (expr cx.toChecked e) t.2
        let x := fresh "ret" c.2
        let ds := inTurn run st.frames.flatten x.2
        ([.block (.var { type := t.1, name := x.1, init := some c.1 } :: (ds.1 ++
          [.ret (some (.var x.1))]))], ds.2) := by
  have hne : ¬ st.frames.flatten.isEmpty = true := by rwa [List.isEmpty_iff]
  cases value with
  | none =>
    show (ite (st.frames.flatten.isEmpty = true) _ _ : Body (List CStmt)) st = _
    rw [if_neg hne]
    rfl
  | some e =>
    show (ite (st.frames.flatten.isEmpty = true) _ _ : Body (List CStmt)) st = _
    rw [if_neg hne]
    rfl

theorem leave_follows {cx : Checked} {F : Frames} (b : Run Unit CEvent) {cs : List CEvent}
    (h : Follows (Realizes cx) (.deferred F.flatten) F F b) (hl : Realizes cx .leave cs) :
    Follows (Realizes cx) .leave F F (b.andThen ((emits cs).andThen (.stop .returned))) :=
  (Follows.ofState h).andThen ((Follows.emit hl F).andThen (.stop (by decide) F F))

def returnRun : Option Expr → Run Frames Event
  | none => .leave
  | some e => (emit (.value e)).andThen .leave

theorem returned_lowered {cx : FunctionContext} {run : Stmt → Body (List CStmt)} {st : BodyState}
    {F : Frames} (hst : st.endless = false)
    (hds : ∀ d ∈ st.frames.flatten, d.Deferrable cx.toChecked)
    (hrun : st.frames.flatten ≠ [] → Runs cx.toChecked run)
    (hF : F = st.frames.map (·.map (·.later cx.toChecked))) (value : Option Expr) :
    Lowered cx.toChecked (returnRun value) F F st.frames (returned cx run value st) := by
  have hflat : F.flatten = st.frames.flatten.map (·.later cx.toChecked) := by
    rw [hF, map_flatten]
  by_cases hp : st.frames.flatten = []
  · have none_left : Follows (Realizes cx.toChecked) .leave F F (.stop .returned) := by
      have nothing : Follows (Realizes cx.toChecked) (.deferred F.flatten) F F .done := by
        rw [hflat, hp]
        exact .done F
      simpa only [emits_nil, done_andThen] using leave_follows .done nothing .leave
    rw [returned_eq_of_empty cx run hp]
    cases value with
    | none =>
      refine ⟨rfl, hst, ?_⟩
      rw [execAll_single]
      exact none_left
    | some e =>
      refine ⟨rfl, hst, ?_⟩
      rw [execAll_single]
      exact (Follows.emit (.value rfl) F).andThen none_left
  · rw [returned_eq_of_pending cx run hp]
    cases value with
    | none =>
      have hd := inTurn_lowered hrun hds st hst F
      have left := leave_follows _ (hflat ▸ hd.follows) .leave
      refine ⟨hd.frames, hd.ends, ?_⟩
      simpa only [returnRun, execAll_single, exec, execAll_append, emits_nil,
        done_andThen] using left
    | some e =>
      let c := plain (expr cx.toChecked e) (plain (cType cx.toChecked cx.result e.span) st).2
      have hd := inTurn_lowered hrun hds (fresh "ret" c.2).2 hst F
      have left := leave_follows _ (hflat ▸ hd.follows) (.leaveKept (n := c.2.temps))
      have kept : Realizes cx.toChecked (.value e) [.declare
          { type := (plain (cType cx.toChecked cx.result e.span) st).1
            name := madeUp "ret" c.2.temps, init := some c.1 }] := .valueKept rfl
      have whole := (Follows.emit kept F).andThen left
      refine ⟨hd.frames, hd.ends, ?_⟩
      simp only [returnRun, exec, execAll_append, execAll, andThen_done]
      exact whole

theorem inBlock_eq (run : Stmt → Body (List CStmt)) (body : List Stmt)
    (statements : Body (List CStmt)) (st : BodyState) :
    inBlock run body statements st =
      let o := statements { st with frames := [] :: st.frames }
      let popped := { o.2 with frames := o.2.frames.tail }
      if (o.1.getLast?.any (·.isReturn) || body.getLast?.any (·.leaves)) = true then (o.1, popped)
      else
        let d := inTurn run (o.2.frames.headD []) popped
        (o.1 ++ d.1, d.2) := by
  show (ite (_ = true) _ _ : Body (List CStmt)) _ = _
  rw [ite_apply]
  rfl

theorem leaves_of_isReturn {out : List CStmt} (h : out.getLast?.any (·.isReturn) = true) :
    (execAll out).Leaves := by
  cases hl : out.getLast? with
  | none => simp [hl] at h
  | some last =>
    obtain ⟨init, rfl⟩ := getLast?_eq_some_iff.mp hl
    rw [execAll_append, execAll_single]
    cases last <;> simp [hl, isReturn] at h
    rename_i value
    cases value with
    | none => exact .andThen (.stop (by decide))
    | some e => exact .andThen (.andThen (.stop (by decide)))

theorem leaves_of_leaves {body : List Stmt} (h : body.getLast?.any (·.leaves) = true) :
    (Stmt.execAll cx body).Leaves := by
  induction body with
  | nil => simp at h
  | cons s ss ih =>
    cases ss with
    | nil =>
      rw [Stmt.execAll, Stmt.execAll, andThen_done]
      cases s <;> simp [Stmt.leaves] at h
      · rename_i value
        cases value with
        | none => exact .andThen (.andThen (.stop (by decide)))
        | some e => exact .andThen (.andThen (.andThen (.stop (by decide))))
      · exact .andThen (.stop (by decide))
    | cons s' ss =>
      rw [Stmt.execAll]
      exact .andThen (ih (by simpa using h))

theorem inBlock_lowered {cx : Checked} {run : Stmt → Body (List CStmt)} {body : List Stmt}
    {statements : Body (List CStmt)} {st : BodyState} {F : Frames}
    (hbody : Lowered cx (Stmt.execAll cx body) ([] :: F) (framesAfter (·.later cx) body ([] :: F))
      (framesAfter id body ([] :: st.frames)) (statements { st with frames := [] :: st.frames }))
    (hds : ∀ d ∈ deferredBy body, d.Deferrable cx) (hrun : deferredBy body ≠ [] → Runs cx run) :
    Lowered cx (.inBlock (Stmt.execAll cx body)) F F st.frames (inBlock run body statements st) := by
  rw [inBlock_eq]
  generalize statements { st with frames := [] :: st.frames } = o at hbody
  have hhead : o.2.frames.headD [] = deferredBy body := by
    rw [hbody.frames]
    simp [framesAfter]
  have htail : o.2.frames.tail = st.frames := by
    rw [hbody.frames]
    rfl
  have opened : Follows (Realizes cx) (.update ([] :: ·)) F ([] :: F) .done := .update _ F
  dsimp only
  split
  case isTrue hskip =>
    -- The block is left before its end, so nothing is written there.
    have hleaves : ∀ ω, ((execAll o.1).result () ω).exit ≠ .finished := by
      intro ω
      rcases (Bool.or_eq_true_iff).mp hskip with h | h
      · exact leaves_of_isReturn h () ω
      · rw [← (hbody.follows ω).agrees.exit]
        exact leaves_of_leaves cx h _ ω
    refine ⟨htail, hbody.ends, ?_⟩
    rw [← done_andThen (execAll o.1)]
    exact opened.andThen (hbody.follows.andThen_left hleaves)
  case isFalse =>
    rw [hhead]
    have hd := inTurn_lowered hrun hds { o.2 with frames := o.2.frames.tail } hbody.ends
      (framesAfter (·.later cx) body ([] :: F))
    refine ⟨hd.frames.trans htail, hd.ends, ?_⟩
    have ended : Follows (Realizes cx) (.ofState fun frames => .deferred (frames.headD []))
        (framesAfter (·.later cx) body ([] :: F)) (framesAfter (·.later cx) body ([] :: F)) _ :=
      .ofState (by simpa [framesAfter] using hd.follows)
    have closed : Follows (Realizes cx) (.update tail)
        (framesAfter (·.later cx) body ([] :: F)) F .done := .update _ _
    have whole := opened.andThen (hbody.follows.andThen (ended.andThen closed))
    rwa [done_andThen, andThen_done, ← execAll_append] at whole

theorem execAll_call (name : String) (a : CExpr) (as : List CExpr) (out : List CStmt) :
    execAll (.expr (.callTo name (a :: as)) :: out) =
      (emit (.eval (.callTo name (a :: as)))).andThen (execAll out) := by
  rw [execAll, exec]
  exact congrArg (andThen · _) (andThen_done _)

/-- The result of lowering something without conditions. -/
structure Straight (st : BodyState) (r : List CStmt × BodyState) : Prop where
  emits : ∃ cs, execAll r.1 = emits cs
  frames : r.2.frames = st.frames
  ends : r.2.endless = st.endless

theorem printError_straight (inside : String) (arguments : List CExpr) {st st' : BodyState}
    (hf : st'.frames = st.frames) (he : st'.endless = st.endless) :
    Straight st ([printError inside arguments], st') := by
  have h : execAll [printError inside arguments] =
      emits [.eval (.callTo "fprintf" (.var "stderr" :: formatLine inside :: arguments))] := by
    rw [printError, execAll_call, execAll]
    rfl
  exact ⟨⟨_, h⟩, hf, he⟩

theorem crashMessage_straight (st : BodyState) : Straight st (crashMessage cx e st) := by
  unfold crashMessage
  split
  case h_1 info parts =>
    show Straight st ((ite (_ = true) _ _ : Body (List CStmt)) _)
    split
    · have h (v : CVar) (a b : CExpr) (as bs : List CExpr) :
          execAll [.block [.var v, .expr (.callTo "snprintf" (a :: as)),
            .expr (.callTo "fputs" (b :: bs))]] =
          .emits [.declare v, .eval (.callTo "snprintf" (a :: as)),
            .eval (.callTo "fputs" (b :: bs))] := by
        rw [execAll_single, exec, execAll, execAll_call, execAll_call,
          execAll]
        rfl
      exact ⟨⟨_, h _ _ _ _ _⟩, rfl, rfl⟩
    · exact printError_straight _ _ rfl rfl
  case h_2 => exact printError_straight _ _ rfl rfl
  case h_3 => exact printError_straight _ _ rfl rfl
  case h_4 => exact printError_straight _ _ rfl rfl

theorem crash_lowered (message : Option Expr) {st : BodyState} (hst : st.endless = false)
    (F : Frames) :
    Lowered cx ((emit (.crash message)).andThen (.stop .crashed)) F F st.frames
      (crash cx message st) := by
  have aborted : execAll [.expr (.callTo "abort" [])] =
      (emits [.eval (.callTo "abort" [])]).andThen (.stop .crashed) := by
    rw [execAll_single]
    rfl
  obtain ⟨cs, hcs, hf, he⟩ : ∃ cs, execAll (crash cx message st).1 =
      (emits cs).andThen (.stop .crashed) ∧ (crash cx message st).2.frames = st.frames ∧
      (crash cx message st).2.endless = st.endless := by
    cases message with
    | none => exact ⟨_, aborted, rfl, rfl⟩
    | some e =>
      obtain ⟨⟨cs, hcs⟩, hf, he⟩ := crashMessage_straight cx e st
      refine ⟨cs ++ [.eval (.callTo "abort" [])], ?_, hf, he⟩
      show execAll ((crashMessage cx e st).1 ++ _) = _
      rw [execAll_append, hcs, aborted, emits_append, andThen_assoc]
  refine ⟨hf, he.trans hst, ?_⟩
  have shown : Realizes cx (.crash message) cs := by
    have h : Realizes cx (.crash message) (run (crash cx message st).1 []).events := .crash
    have hevents : (run (crash cx message st).1 []).events = cs := by
      rw [run, hcs]
      exact append_nil cs
    rwa [hevents] at h
  rw [hcs]
  exact (Follows.emit shown F).andThen (.stop (by decide) F F)

theorem reference_fst (info : Info) (path : List String) (st : Lowering) :
    (reference cx info path st).1 =
      match cx.cName? info path with
      | some name => .var name
      | none => .literal "0" := by
  unfold reference Checked.cName?
  cases cx.resolution.binding? info.id with
  | none => rfl
  | some b => cases b <;> rfl

theorem expr_var_iff (name : String) (st : Lowering) :
    (expr cx e st).1 = .var name ↔
      ∃ info path, e = .ref info path ∧ cx.cName? info path = some name := by
  cases e with
  | ref info path =>
    rw [expr, reference_fst]
    cases h : cx.cName? info path <;> simp [h]
  | sizeofType info type operand =>
    cases operand <;> rw [expr] <;> cases cx.resolution.written? info.id <;>
      exact ⟨nofun, fun ⟨_, _, h, _⟩ => nomatch h⟩
  | _ =>
    rw [expr]
    exact ⟨nofun, fun ⟨_, _, h, _⟩ => nomatch h⟩

theorem isAbort_expr (st : Lowering) : (expr cx e st).1.isAbort = e.callsAbort cx := by
  cases e with
  | call info callee arguments =>
    rw [expr]
    show (CExpr.call (expr cx callee st).1 (exprs cx arguments (expr cx callee st).2).1).isAbort = _
    cases arguments with
    | cons a as =>
      rw [exprs]
      show (CExpr.call _ (_ :: _)).isAbort = _
      cases (expr cx callee st).1 <;> cases callee <;> rfl
    | nil =>
      rw [exprs]
      show (CExpr.call (expr cx callee st).1 []).isAbort = _
      have hname := expr_var_iff cx callee "abort" st
      rw [Bool.eq_iff_iff]
      have left : (CExpr.call (expr cx callee st).1 []).isAbort = true ↔
          (expr cx callee st).1 = .var "abort" := by
        cases (expr cx callee st).1 <;> simp [CExpr.isAbort]
      have right : (Expr.call info callee []).callsAbort cx = true ↔
          ∃ info path, callee = .ref info path ∧ cx.cName? info path = some "abort" := by
        cases callee <;> simp [Expr.callsAbort]
      rw [left, right, hname]
  | sizeofType info type operand =>
    cases operand <;> rw [expr] <;> cases cx.resolution.written? info.id <;> rfl
  | ref info path =>
    rw [expr, reference_fst]
    cases cx.cName? info path <;> rfl
  | _ =>
    rw [expr]
    rfl

theorem execAll_unbraced (out : List CStmt) :
    execAll (unbraced s out) = execAll out := by
  unfold unbraced
  split
  · rw [execAll_single, exec]
  · rfl

end Lower
end Quill
