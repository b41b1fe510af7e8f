import Mathlib.Data.List.Forall2
import Quill.Proofs.BodyLowering
import Quill.Proofs.Layout

/-!
# Lowering follows the layout

The C that a function is lowered to has the names of its layout, in the same order and in the same
scopes.
-/
namespace Quill

open List Lower Laid Mark Expr Bool Postponed

variable {st : BodyState} {c : CStmt} {info : Info} {cs : List CStmt} {ls : List Laid}
  {body : List Stmt} {marks : Marks} {n : Nat}

variable (cx : Checked) (env : Env)

theorem Checked.bare_referenceMarks (info : Info) (path : List String) (st : Lowering) :
    (cx.referenceMarks env info path).map .bare =
      (reference cx info path st).1.marks := by
  unfold Checked.referenceMarks reference
  cases cx.resolution.binding? info.id with
  | none => rfl
  | some b => cases b <;> rfl

mutual

theorem Expr.bare_marks (e : Expr) (st : Lowering) :
    (e.marks cx env).map .bare = (expr cx e st).1.marks := by
  cases e with
  | ref info path =>
    rw [marks, expr]
    exact cx.bare_referenceMarks env info path st
  | binary info op l r | index info l r =>
    rw [marks, map_append, expr]
    exact congrArg₂ (· ++ ·) (l.bare_marks st) (r.bare_marks _)
  | unary info op e | step info op e | field info e name arrow | sizeofExpr info e =>
    rw [marks, expr]
    exact e.bare_marks st
  | cast info type e =>
    rw [marks, expr]
    exact e.bare_marks _
  | call info callee arguments =>
    rw [marks, map_append, expr]
    exact congrArg₂ (· ++ ·) (callee.bare_marks st) (bare_allMarks arguments _)
  | structInit info fields =>
    rw [marks, expr]
    exact bare_fieldMarks fields _
  | sizeofType info type operand =>
    cases operand with
    | none =>
      rw [marks, expr]
      cases cx.resolution.written? info.id <;> rfl
    | some e =>
      rw [marks, expr]
      cases cx.resolution.written? info.id with
      | none => exact e.bare_marks st
      | some t => rfl
  | _ =>
    rw [marks, expr]
    rfl

theorem Expr.bare_allMarks (es : List Expr) (st : Lowering) :
    (allMarks cx env es).map bare = CExpr.allMarks (exprs cx es st).1 := by
  cases es with
  | nil => rw [allMarks, exprs]; rfl
  | cons e es =>
    rw [allMarks, map_append, exprs]
    exact congrArg₂ (· ++ ·) (e.bare_marks st) (bare_allMarks es _)

theorem Expr.bare_fieldMarks (fs : List (FieldInit Expr)) (st : Lowering) :
    (fieldMarks cx env fs).map bare = CExpr.fieldMarks (fieldInits cx fs st).1 := by
  match fs with
  | [] => rw [fieldMarks, fieldInits]; rfl
  | ⟨name, span, e⟩ :: fs =>
    rw [fieldMarks, map_append, fieldInits]
    exact congrArg₂ (· ++ ·) (e.bare_marks st) (bare_fieldMarks fs _)

end

theorem Expr.bare_elementMarks (es : List (ArrayElement Expr)) (st : Lowering) :
    (elementMarks cx env es).map bare = CExpr.itemMarks (elements cx es st).1 := by
  induction es generalizing st with
  | nil => rfl
  | cons e es ih =>
    rcases e with ⟨_ | position, value⟩
    · rw [elementMarks, map_append, elements]
      exact congrArg₂ (· ++ ·) (value.bare_marks cx env st) (ih _)
    · rw [elementMarks, map_append, map_append, elements]
      exact congrArg₂ (· ++ ·) (congrArg₂ (· ++ ·) (position.bare_marks cx env st)
        (value.bare_marks cx env _)) (ih _)

theorem Expr.bare_initialMarks? (init : Option Expr) (st : Lowering) :
    (initialMarks? cx env init).map bare =
      CExpr.marks? (initial? cx init st).1 := by
  cases init with
  | none => rfl
  | some e =>
    cases e with
    | arrayInit info length items => exact bare_elementMarks cx env items st
    | _ => exact bare_marks cx env _ st

theorem Expr.bare_partMarks (parts : List (TemplatePart Expr)) (st : Lowering) :
    (partMarks cx env parts).map bare =
      CExpr.allMarks (Lower.template cx parts st).1.2 := by
  induction parts generalizing st with
  | nil => rfl
  | cons part parts ih =>
    cases part with
    | text t => exact ih st
    | expr e =>
      rw [partMarks, map_append, e.bare_marks cx env st, ih (expr cx e st).2,
        Lower.template]
      rcases hc : conversion (cx.resolution.typeOf? e.id) with ⟨directive, _ | type⟩ <;> rfl

inductive Laid.Shows : Laid → CStmt → Prop
  | block {marks : Marks} {body : List CStmt} (h : marks.map bare = CStmt.allMarks body) :
    Shows (.block marks) (.block body)
  | plain {marks : Marks} {returns : Bool} {c : CStmt} (single : ∀ body, c ≠ .block body)
    (h : marks.map .bare = c.marks) (leaves : returns = c.isReturn) :
    Shows { marks, returns } c

namespace Laid

theorem bare_inScope (ms : Marks) :
    (inScope ms).map bare = inScope (ms.map bare) := by
  simp [inScope, bare]

theorem Shows.full {l : Laid} (h : l.Shows c) : l.full.map bare = c.marks := by
  cases h with
  | block h => rw [Laid.full, Laid.block, if_pos rfl, bare_inScope, h, CStmt.marks]
  | plain _ h _ => exact h

theorem Shows.returns_eq {l : Laid} (h : l.Shows c) : l.returns = c.isReturn := by
  cases h with
  | block => rfl
  | plain _ _ leaves => exact leaves

abbrev ShowAll : List Laid → List CStmt → Prop := List.Forall₂ Shows

theorem ShowAll.bare (h : ShowAll ls cs) : (all ls).map bare = CStmt.allMarks cs := by
  induction h with
  | nil => rfl
  | cons hl _ ih =>
    rw [all, flatMap_cons, map_append, hl.full, CStmt.allMarks]
    exact congrArg _ ih

theorem ShowAll.returns (h : ShowAll ls cs) :
    ls.getLast?.any (·.returns) = cs.getLast?.any (·.isReturn) := by
  induction h with
  | nil => rfl
  | cons hl hs ih =>
    cases hs with
    | nil => simpa using hl.returns_eq
    | cons => simpa using ih

theorem ShowAll.unbraced (h : ShowAll ls cs) (s : Stmt) :
    (unbraced s ls).map Mark.bare = CStmt.allMarks (Lower.unbraced s cs) := by
  have same : (all ls).map Mark.bare = CStmt.allMarks cs := ShowAll.bare h
  cases s with
  | block info body =>
    cases h with
    | nil => rfl
    | @cons l c _ _ hl hs =>
      cases hs with
      | cons => cases c <;> exact same
      | nil =>
        cases hl with
        | block h => exact h
        | plain single h leaves =>
          have kept : Lower.unbraced (.block info body) [c] = [c] := by
            cases c with
            | block inner => exact absurd rfl (single inner)
            | _ => rfl
          rw [kept, CStmt.allMarks, CStmt.allMarks, append_nil]
          exact h
  | _ => exact same

end Laid

def Bares (ms : Marks) (cs : List CStmt) : Prop := ms.map bare = CStmt.allMarks cs

theorem CStmt.allMarks_append (cs ds : List CStmt) :
    CStmt.allMarks (cs ++ ds) = CStmt.allMarks cs ++ CStmt.allMarks ds := by
  induction cs with
  | nil => rfl
  | cons c cs ih => rw [cons_append, allMarks, allMarks, ih, append_assoc]

theorem CStmt.allMarks_single (c : CStmt) : CStmt.allMarks [c] = c.marks := by
  rw [allMarks, allMarks, append_nil]

theorem map_body_postponedBy (env : Env) (own : List Postponed) (ss : List Stmt) :
    (Stmt.postponedBy env own ss).map (·.body) = deferredBy ss ++ own.map (·.body) := by
  induction ss generalizing env own with
  | nil => rfl
  | cons s ss ih =>
    have first : (s.postponed env).map (·.body) = s.deferral?.toList := by cases s <;> rfl
    rw [Stmt.postponedBy, ih, deferredBy_cons, map_append, first, append_assoc]

namespace Lower

/-- The result of a layout and of lowering: one shows the other, and as many names are made up. -/
structure Shown {α β : Type} (R : α → β → Prop) (l : α × Nat) (r : β × BodyState) : Prop where
  same : R l.1 r.1
  temps : r.2.temps = l.2

/-- What `run` does with a statement that may be deferred, `layRun` lays out. -/
def RunsShown (cx : Checked) (run : Stmt → Body (List CStmt))
    (layRun : Postponed → Lay (List Laid)) : Prop :=
  ∀ p : Postponed, p.body.Deferrable cx → ∀ st : BodyState, st.endless = false →
    Shown ShowAll (layRun p st.temps) (run p.body st)

section

variable {cx : Checked} {run : Stmt → Body (List CStmt)} {layRun : Postponed → Lay (List Laid)}

theorem inTurn_shown {ps : List Postponed} (hrun : ps ≠ [] → Runs cx run)
    (hshown : ps ≠ [] → RunsShown cx run layRun) (hps : ∀ p ∈ ps, p.body.Deferrable cx)
    (st : BodyState) (hst : st.endless = false) :
    Shown ShowAll (Lay.inTurn layRun ps st.temps) (inTurn run (ps.map (·.body)) st) := by
  induction ps generalizing st with
  | nil => exact ⟨.nil, rfl⟩
  | cons p ps ih =>
    have hr := hrun (cons_ne_nil p ps)
    have hs := hshown (cons_ne_nil p ps)
    have hp := hps p mem_cons_self
    have first := hs p hp st hst
    have rest := ih (fun _ => hr) (fun _ => hs) (fun q hq => hps q (mem_cons_of_mem p hq))
      (run p.body st).2 (hr p.body hp st hst []).ends
    rw [first.temps] at rest
    exact ⟨rel_append first.same rest.same, rest.temps⟩

theorem inBlock_shown {own : List Postponed} {statements : Body (List CStmt)}
    {layStatements : Lay (List Laid)} (hbody : Shown ShowAll (layStatements st.temps)
      (statements { st with frames := [] :: st.frames }))
    (hends : (statements { st with frames := [] :: st.frames }).2.endless = false)
    (hframes : (statements { st with frames := [] :: st.frames }).2.frames.headD [] =
      own.map (·.body)) (hown : ∀ p ∈ own, p.body.Deferrable cx) (hrun : own ≠ [] → Runs cx run)
    (hshown : own ≠ [] → RunsShown cx run layRun) :
    Shown Bares (Lay.inBlock layRun own body layStatements st.temps)
      (inBlock run body statements st) := by
  have laid : Lay.inBlock layRun own body layStatements st.temps =
      let o := layStatements st.temps
      if (o.1.getLast?.any (·.returns) || body.getLast?.any (·.leaves)) = true
      then (Laid.all o.1, o.2)
      else
        let d := Lay.inTurn layRun own o.2
        (all (o.1 ++ d.1), d.2) := by
    show (ite (_ = true) _ _ : Lay Marks) _ = _
    rw [ite_apply]
    rfl
  rw [laid, inBlock_eq]
  generalize statements { st with frames := [] :: st.frames } = o at hbody hends hframes ⊢
  generalize layStatements st.temps = l at hbody ⊢
  dsimp only
  rw [hbody.same.returns, hframes]
  split
  · exact ⟨hbody.same.bare, hbody.temps⟩
  · have later := inTurn_shown hrun hshown hown { o.2 with frames := o.2.frames.tail } hends
    rw [show ({ o.2 with frames := o.2.frames.tail } : BodyState).temps = l.2 from hbody.temps]
      at later
    have both : ShowAll (l.1 ++ (Lay.inTurn layRun own l.2).1) _ :=
      rel_append hbody.same later.same
    exact ⟨both.bare, later.temps⟩

theorem Shown.plain {returns : Bool} (single : ∀ body, c ≠ .block body)
    (h : marks.map .bare = c.marks) (leaves : returns = c.isReturn) (temps : st.temps = n) :
    Shown ShowAll ([{ marks, returns }], n) ([c], st) :=
  ⟨.cons (.plain single h leaves) .nil, temps⟩

theorem Shown.block {body : List CStmt} (h : Bares marks body) (temps : st.temps = n) :
    Shown ShowAll ([.block marks], n) ([.block body], st) :=
  ⟨.cons (.block h) .nil, temps⟩

theorem Shown.unbraced {l : List Laid × Nat} {r : List CStmt × BodyState}
    (h : Shown ShowAll l r) (s : Stmt) :
    Shown Bares (Laid.unbraced s l.1, l.2) (unbraced s r.1, r.2) :=
  ⟨h.same.unbraced s, h.temps⟩

end

section

variable (cx : FunctionContext) {run : Stmt → Body (List CStmt)}
  {layRun : Postponed → Lay (List Laid)} (env : Env)

theorem returned_shown {pending : List Postponed} (hst : st.endless = false)
    (hframes : st.frames.flatten = pending.map (·.body))
    (hpending : ∀ p ∈ pending, p.body.Deferrable cx.toChecked)
    (hrun : pending ≠ [] → Runs cx.toChecked run)
    (hshown : pending ≠ [] → RunsShown cx.toChecked run layRun) (value : Option Expr) :
    Shown ShowAll (Lay.returned cx.toChecked layRun pending env value st.temps)
      (returned cx run value st) := by
  by_cases hp : pending = []
  · subst hp
    rw [returned_eq_of_empty cx run hframes]
    cases value with
    | none => exact .plain (by simp) rfl rfl rfl
    | some e => exact .plain (by simp) (e.bare_marks cx.toChecked env st.toLowering) rfl rfl
  · have hne : st.frames.flatten ≠ [] := by
      rw [hframes]
      simpa using hp
    have hlay : ¬ pending.isEmpty = true := by simpa using hp
    rw [returned_eq_of_pending cx run hne]
    cases value with
    | none =>
      have laid : Lay.returned cx.toChecked layRun pending env none st.temps =
          let ds := Lay.inTurn layRun pending st.temps
          ([.block (all ds.1)], ds.2) := by
        show (ite (pending.isEmpty = true) _ _ : Lay (List Laid)) st.temps = _
        rw [if_neg hlay]
        rfl
      have ds := inTurn_shown hrun hshown hpending st hst
      rw [laid, hframes]
      refine .block ?_ ds.temps
      rw [Bares, CStmt.allMarks_append, ← ds.same.bare, CStmt.allMarks_single]
      exact (append_nil _).symm
    | some e =>
      let c := plain (expr cx.toChecked e) (plain (cType cx.toChecked cx.result e.span) st).2
      have laid : Lay.returned cx.toChecked layRun pending env (some e) st.temps =
          let ds := Lay.inTurn layRun pending (st.temps + 1)
          ([.block ((.declares (madeUp "ret" st.temps) none :: e.marks cx.toChecked env) ++
            Laid.all ds.1 ++ [uses (madeUp "ret" st.temps) none])], ds.2) := by
        show (ite (pending.isEmpty = true) _ _ : Lay (List Laid)) st.temps = _
        rw [if_neg hlay]
        rfl
      have ds := inTurn_shown hrun hshown hpending (fresh "ret" c.2).2 hst
      rw [laid, hframes]
      refine .block ?_ ds.temps
      have value := e.bare_marks cx.toChecked env
        (plain (cType cx.toChecked cx.result e.span) st).2.toLowering
      have later : (Laid.all (Lay.inTurn layRun pending (st.temps + 1)).1).map bare = _ :=
        ds.same.bare
      rw [Bares, map_append, map_append, later, map_cons, value, CStmt.allMarks,
        CStmt.allMarks_append, CStmt.allMarks_single, append_assoc]
      rfl

theorem printError_shown {arguments : List CExpr} (inside : String)
    (h : marks.map bare = CExpr.allMarks arguments) (temps : st.temps = n) :
    Shown ShowAll ([Lay.printError marks], n) ([printError inside arguments], st) := by
  refine .plain (by simp [printError]) ?_ rfl temps
  rw [map_cons, map_cons, h]
  rfl

theorem crashMessage_shown (cx : Checked) (e : Expr) (st : BodyState) :
    Shown ShowAll (Lay.crashMessage cx env e st.temps) (crashMessage cx e st) := by
  have other : Shown ShowAll ([Lay.printError (e.marks cx env)], st.temps)
      ([printError "%s" [(plain (expr cx e) st).1]], (plain (expr cx e) st).2) := by
    refine printError_shown "%s" ?_ rfl
    rw [e.bare_marks cx env st.toLowering, CExpr.allMarks, CExpr.allMarks, append_nil]
    rfl
  cases e with
  | template info parts =>
    have given := bare_partMarks cx env parts st.toLowering
    let t := plain (template cx parts) st
    have laid : Lay.crashMessage cx env (.template info parts) st.temps =
        (if Directive.present info.directives .stackBuf then
          ([.block (.declares (madeUp "buf" st.temps) none :: .uses "snprintf" none ::
            .uses (madeUp "buf" st.temps) none :: .uses (madeUp "buf" st.temps) none ::
            partMarks cx env parts ++ [uses "fputs" none,
              .uses (madeUp "buf" st.temps) none, .uses "stderr" none])], st.temps + 1)
        else ([Lay.printError (partMarks cx env parts)], st.temps)) := by
      show (ite (_ = true) _ _ : Lay (List Laid)) _ = _
      rw [ite_apply]
      rfl
    have lowered : crashMessage cx (.template info parts) st =
        (if Directive.present info.directives .stackBuf then
          ([.block [.var { type := stackBuffer, name := madeUp "buf" st.temps, init := none },
            .expr (.callTo "snprintf" (.var (madeUp "buf" st.temps) ::
              .sizeofExpr (.var (madeUp "buf" st.temps)) :: formatLine t.1.1 :: t.1.2)),
            .expr (.callTo "fputs" [.var (madeUp "buf" st.temps), .var "stderr"])]],
            { t.2 with temps := st.temps + 1 })
        else ([printError t.1.1 t.1.2], t.2)) := by
      show (ite (_ = true) _ _ : Body (List CStmt)) _ = _
      rw [ite_apply]
      rfl
    rw [laid, lowered]
    split
    · refine .block ?_ rfl
      simp only [Bares, map_append, map_cons, given]
      simp only [CStmt.allMarks, CStmt.marks, CExpr.callTo, CExpr.marks, CExpr.allMarks,
        CVar.marks, CExpr.marks?, formatLine, bare, cons_append, nil_append,
        append_nil, map_nil]
      rfl
    · exact printError_shown _ given rfl
  | literal info value =>
    cases value with
    | string | chars => exact printError_shown _ rfl rfl
    | _ => exact other
  | _ => exact other

theorem crash_shown (cx : Checked) (message : Option Expr) (st : BodyState) :
    Shown ShowAll (Lay.crash cx env message st.temps) (crash cx message st) := by
  have aborted : ShowAll [{ marks := [.uses "abort" none] }]
      [.expr (.callTo "abort" [])] := .cons (.plain (by simp) rfl rfl) .nil
  cases message with
  | none => exact ⟨aborted, rfl⟩
  | some e =>
    have printed := crashMessage_shown env cx e st
    exact ⟨rel_append printed.same aborted, printed.temps⟩

theorem countRange_shown (cx : Checked) {i : Info} {o : Origin} {x : String} {low high : Expr}
    {inclusive : Bool} {body : Body (List CStmt)} {layBody : Lay Marks} (hst : st.endless = false)
    (hbody : ∀ st' : BodyState, st'.frames = st.frames → st'.endless = false →
      Shown Bares (layBody st'.temps) (body st')) :
    Shown ShowAll (Lay.countRange cx env o x low high layBody st.temps)
      (countRange cx i x low high inclusive body st) := by
  let t := plain (typeOf cx i) st
  let b := fresh "end" t.2
  let h := plain (expr cx high) b.2
  let l := plain (expr cx low) h.2
  have inside : Shown Bares (layBody (st.temps + 1)) (body l.2) := hbody l.2 rfl hst
  refine .block ?_ inside.temps
  have hhigh := high.bare_marks cx env b.2.toLowering
  have hlow := low.bare_marks cx env h.2.toLowering
  have hinside : ((layBody (st.temps + 1)).1).map bare = _ := inside.same
  rw [Bares, map_append, map_cons, hhigh, bare_inScope, map_append,
    map_append, map_cons, hlow, bare_inScope, hinside, CStmt.allMarks,
    CStmt.allMarks_single, CStmt.marks, CStmt.marks]
  simp only [CVar.marks, CExpr.marks?, CExpr.marks, append_assoc]
  rfl

theorem countElements_shown (cx : Checked) {o : Origin} {x : String} {e : Expr} {element : Ty}
    {length : Nat} {body : Body (List CStmt)} {layBody : Lay Marks} (hst : st.endless = false)
    (ht : cx.resolution.typeOf? e.id = some (.array element (some length)))
    (hbody : ∀ st' : BodyState, st'.frames = st.frames → st'.endless = false →
      Shown Bares (layBody st'.temps) (body st')) :
    Shown ShowAll (Lay.countElements cx env o x e layBody st.temps)
      (countElements cx info x e body st) := by
  let t := plain (typeOf cx info) st
  let p := fresh "i" t.2
  let c := plain (expr cx e) p.2
  have inside : Shown Bares (layBody (st.temps + 1)) (body c.2) := hbody c.2 rfl hst
  let marks : Marks := .declares (cIdent x) (some o) :: e.marks cx env ++ [uses p.1 none] ++
    (layBody (st.temps + 1)).1
  have laid : Lay.countElements cx env o x e layBody st.temps =
      ([{ marks := inScope ([declares p.1 none, .uses p.1 none, .uses p.1 none] ++
          inScope marks) }], (layBody (st.temps + 1)).2) := by
    unfold Lay.countElements
    rw [ht]
    rfl
  rw [countElements_eq ht, laid]
  refine .plain (by simp) ?_ rfl inside.temps
  have he := e.bare_marks cx env p.2.toLowering
  let first : CVar := { type := t.1, name := cIdent x, init := some (.index c.1 (.var p.1)) }
  have hmarks : marks.map .bare =
      (CStmt.var first).marks ++ CStmt.allMarks (body c.2).1 := by
    rw [map_append, map_append, map_cons, he, inside.same]
    rfl
  rw [bare_inScope, map_append, bare_inScope, hmarks]
  rfl

end

/-- What laying out a statement relies on beyond `Ready`: the frames are those put off, and what
runs them lays them out. -/
structure ReadyToLay (cx : Checked) (run : Stmt → Body (List CStmt))
    (layRun : Postponed → Lay (List Laid)) (escapes : Bool) (defers : Nat)
    (pending : List Postponed) (st : BodyState) : Prop where
  frames : escapes = true → st.frames.flatten = pending.map (·.body)
  runs : escapes = true → st.frames.flatten ≠ [] ∨ defers ≠ 0 → RunsShown cx run layRun

variable {cx : Checked} {run : Stmt → Body (List CStmt)} {layRun : Postponed → Lay (List Laid)}
  {pending own : List Postponed} {st : BodyState}

theorem ReadyToLay.part {escapes escapes' : Bool} {defers defers' : Nat} {st' : BodyState}
    (h : ReadyToLay cx run layRun escapes defers pending st)
    (he : escapes' = true → escapes = true) (hd : defers' ≠ 0 → defers ≠ 0)
    (hframes : st'.frames = st.frames) :
    ReadyToLay cx run layRun escapes' defers' pending st' where
  frames hx := by rw [hframes]; exact h.frames (he hx)
  runs hx hr := h.runs (he hx) (by rw [hframes] at hr; exact hr.imp_right hd)

theorem ReadyToLay.next {s : Stmt} {ss : List Stmt} {st' : BodyState} (env : Env)
    (h : ReadyToLay cx run layRun (Stmt.anyEscapes (s :: ss)) (Stmt.allDefers (s :: ss))
      (own ++ pending) st) (hopen : st.frames ≠ [])
    (hframes : st'.frames = framesAfter id [s] st.frames) :
    ReadyToLay cx run layRun (Stmt.anyEscapes ss) (Stmt.allDefers ss)
      ((s.postponed env ++ own) ++ pending) st' := by
  have hany : Stmt.anyEscapes ss = true → Stmt.anyEscapes (s :: ss) = true := by
    intro hx
    rw [Stmt.anyEscapes, hx, Bool.or_true]
  have hflat : st'.frames.flatten = s.deferral?.toList ++ st.frames.flatten := by
    have one : deferredBy [s] = s.deferral?.toList := by rw [deferredBy_cons]; rfl
    rw [hframes]
    cases hf : st.frames with
    | nil => exact absurd hf hopen
    | cons frame outer => simp [framesAfter, one]
  refine ⟨fun hx => ?_, fun hx hr => h.runs (hany hx) ?_⟩
  · have first : (s.postponed env).map (·.body) = s.deferral?.toList := by cases s <;> rfl
    rw [hflat, h.frames (hany hx), append_assoc, ← first, ← map_append]
  · rw [hflat] at hr
    by_cases h0 : s.defers = 0
    · have hnone : s.deferral? = none := by cases s <;> first | rfl | simp [Stmt.defers] at h0
      rw [hnone] at hr
      refine hr.imp_right fun hd => ?_
      simp only [Stmt.allDefers]
      omega
    · refine .inr ?_
      simp only [Stmt.allDefers]
      omega

theorem ReadyToLay.inside
    (h : ReadyToLay cx run layRun (Stmt.anyEscapes body) (Stmt.allDefers body) pending st) :
    ReadyToLay cx run layRun (Stmt.anyEscapes body) (Stmt.allDefers body) ([] ++ pending)
      { st with frames := [] :: st.frames } where
  frames := h.frames
  runs := h.runs

theorem ReadyToLay.runs_deferred
    (h : ReadyToLay cx run layRun (Stmt.anyEscapes body) (Stmt.allDefers body) pending st)
    (hne : deferredBy body ≠ []) : RunsShown cx run layRun := by
  refine h.runs ?_ (.inr ?_)
  · by_contra hx
    exact hne (deferredBy_of_not_escapes (by simpa using hx))
  · exact fun h0 => hne (deferredBy_of_no_defers h0)

theorem inside_shown {statements : Body (List CStmt)} {layStatements : Lay (List Laid)} {F : Frames}
    (env : Env) (hreg : Stmt.allRegular cx body = true)
    (hready : Ready cx run (Stmt.anyEscapes body) (Stmt.allDefers body) F st)
    (hlay : ReadyToLay cx run layRun (Stmt.anyEscapes body) (Stmt.allDefers body) pending st)
    (lowered : Lowered cx (Stmt.execAll cx body) ([] :: F)
      (framesAfter (·.later cx) body ([] :: F)) (framesAfter id body ([] :: st.frames))
      (statements { st with frames := [] :: st.frames }))
    (shown : Shown ShowAll (layStatements st.temps)
      (statements { st with frames := [] :: st.frames })) :
    Shown Bares (Lay.inBlock layRun (Stmt.postponedBy env [] body) body layStatements st.temps)
      (inBlock run body statements st) := by
  have hown : (Stmt.postponedBy env [] body).map (·.body) = deferredBy body := by
    rw [map_body_postponedBy, map_nil, append_nil]
  have hne : Stmt.postponedBy env [] body ≠ [] → deferredBy body ≠ [] := by
    intro h h0
    rw [h0, map_eq_nil_iff] at hown
    exact h hown
  refine inBlock_shown shown lowered.ends ?_ ?_ (fun h => hready.runs_deferred (hne h))
    fun h => hlay.runs_deferred (hne h)
  · rw [lowered.frames, hown]
    simp [framesAfter]
  · intro p hp
    exact deferrable_of_regular hreg p.body (hown ▸ mem_map_of_mem hp)

section

variable (cx : FunctionContext) (run : Stmt → Body (List CStmt))
  (layRun : Postponed → Lay (List Laid))

mutual

theorem stmt_shown (pending : List Postponed) (env : Env) (s : Stmt) (F : Frames) (st : BodyState)
    (hreg : s.regular cx.toChecked = true)
    (hready : Ready cx.toChecked run s.escapes s.defers F st)
    (hlay : ReadyToLay cx.toChecked run layRun s.escapes s.defers pending st) :
    Shown ShowAll (s.lay cx.toChecked layRun pending env st.temps) (stmt cx run s st) := by
  cases s with
  | defer info body =>
    have hpost : (postpone body st).2.temps = st.temps := by
      rcases st with ⟨toLowering, temps, _ | ⟨frame, outer⟩, endless⟩ <;> rfl
    rw [stmt, Stmt.lay]
    exact ⟨.nil, hpost⟩
  | block info body =>
    rw [Stmt.regular] at hreg
    rw [Stmt.escapes, Stmt.defers] at hready hlay
    have lowered := stmts_lowered cx run body ([] :: F) _ hreg hready.inside
    have shown := stmts_shown pending [] env body ([] :: F) _ hreg hready.inside
      hlay.inside (by simp)
    have whole := inside_shown env hreg hready hlay lowered shown
    rw [stmt, Stmt.lay]
    exact .block whole.same whole.temps
  | var info decl =>
    rw [stmt, Stmt.lay]
    refine .plain ?_ ?_ ?_ rfl
    · simp
    · exact congrArg (List.cons _) (bare_initialMarks? cx.toChecked env decl.init _)
    · rfl
  | cond info test onTrue onFalse =>
    simp only [Stmt.regular, and_eq_true, not_eq_true'] at hreg
    obtain ⟨⟨hdt, hrt⟩, hrf⟩ := hreg
    rw [Stmt.escapes, Stmt.defers] at hready hlay
    let t := plain (expr cx.toChecked test) st
    have readyTrue : Ready cx.toChecked run onTrue.escapes onTrue.defers F t.2 :=
      hready.part (by simp +contextual) (by omega) rfl hready.ends
    have lowered := stmt_lowered cx run onTrue F t.2 hrt readyTrue
    rw [framesAfter_of_not_defer _ hdt, framesAfter_of_not_defer _ hdt] at lowered
    have yes := stmt_shown pending env onTrue F t.2 hrt readyTrue
      (hlay.part (by simp +contextual) (by omega) rfl)
    have no := orElse_shown pending (onTrue.binds ++ env) onFalse F
      (stmt cx run onTrue t.2).2 hrf
      (hready.part (by simp +contextual) (by omega) lowered.frames lowered.ends)
      (hlay.part (by simp +contextual) (by omega) lowered.frames)
    have htest := test.bare_marks cx.toChecked env st.toLowering
    rw [stmt, Stmt.lay]
    rw [yes.temps] at no
    refine .plain (by simp) ?_ rfl no.temps
    rw [map_append, map_append, bare_inScope, htest]
    exact congrArg₂ (fun yes no => _ ++ Mark.inScope yes ++ no) (yes.same.unbraced onTrue) no.same
  | loop info test body =>
    simp only [Stmt.regular, and_eq_true, not_eq_true'] at hreg
    rw [Stmt.escapes, Stmt.defers] at hready hlay
    let t := plain (expr cx.toChecked test) st
    have round := stmt_shown pending env body F t.2 hreg.2
      (hready.part id id rfl hready.ends) (hlay.part id id rfl)
    have htest := test.bare_marks cx.toChecked env st.toLowering
    rw [stmt, Stmt.lay]
    refine .plain (by simp) ?_ rfl round.temps
    rw [map_append, bare_inScope, htest]
    exact congrArg (_ ++ Mark.inScope ·) (round.same.unbraced body)
  | foreach info x e body =>
    simp only [Stmt.regular, and_eq_true, not_eq_true'] at hreg
    obtain ⟨⟨hit, hdb⟩, hrb⟩ := hreg
    rw [Stmt.escapes, Stmt.defers] at hready hlay
    have round : ∀ st' : BodyState, st'.frames = st.frames → st'.endless = false →
        Shown Bares ((return Laid.unbraced body (← body.lay cx.toChecked layRun pending
            ((x, .node info.id) :: env)) : Lay Marks) st'.temps)
          ((return unbraced body (← stmt cx run body) : Body (List CStmt)) st') := by
      intro st' hf he
      have h := stmt_shown pending ((x, .node info.id) :: env) body F st' hrb
        (hready.part id id hf he) (hlay.part id id hf)
      exact h.unbraced body
    by_cases hr : ∃ i low high inclusive, e = .range i low high inclusive
    · obtain ⟨i, low, high, inclusive, rfl⟩ := hr
      rw [stmt, Stmt.lay]
      exact countRange_shown env cx.toChecked hready.ends round
    · have hne : ∀ i low high inclusive, e ≠ .range i low high inclusive :=
        fun i low high inclusive h => hr ⟨i, low, high, inclusive, h⟩
      obtain ⟨element, length, ht⟩ : ∃ element length,
          cx.resolution.typeOf? e.id = some (.array element (some length)) :=
        typeOf_of_iterable hit hne
      rw [stmt_foreach_eq cx info x body hne, Stmt.lay_foreach cx.toChecked layRun pending env info x body hne]
      exact countElements_shown env cx.toChecked hready.ends ht round
  | ret info value =>
    rw [stmt, Stmt.lay]
    have hpending : ∀ p ∈ pending, p.body.Deferrable cx.toChecked := by
      intro p hp
      refine hready.pending rfl p.body ?_
      rw [hlay.frames rfl]
      exact mem_map_of_mem hp
    have hopen : pending ≠ [] → st.frames.flatten ≠ [] := by
      intro h
      rw [hlay.frames rfl]
      simpa using h
    exact returned_shown cx env hready.ends (hlay.frames rfl) hpending
      (fun h => hready.runs rfl (.inl (hopen h))) (fun h => hlay.runs rfl (.inl (hopen h))) value
  | crash info message =>
    rw [stmt, Stmt.lay]
    exact crash_shown env cx.toChecked message st
  | expr info e =>
    rw [stmt, Stmt.lay]
    exact .plain (by simp) (e.bare_marks cx.toChecked env st.toLowering) rfl rfl
  | assign info op target source =>
    rw [stmt, Stmt.lay]
    refine .plain (by simp) ?_ rfl rfl
    rw [map_append, target.bare_marks cx.toChecked env st.toLowering,
      source.bare_marks cx.toChecked env (plain (expr cx.toChecked target) st).2.toLowering]
    rfl
  | switch info e => simp [Stmt.regular] at hreg

theorem stmts_shown (pending own : List Postponed) (env : Env) (ss : List Stmt) (F : Frames)
    (st : BodyState) (hreg : Stmt.allRegular cx.toChecked ss = true)
    (hready : Ready cx.toChecked run (Stmt.anyEscapes ss) (Stmt.allDefers ss) F st)
    (hlay : ReadyToLay cx.toChecked run layRun (Stmt.anyEscapes ss) (Stmt.allDefers ss) (own ++ pending) st)
    (hopen : st.frames ≠ []) :
    Shown ShowAll (Stmt.layAll cx.toChecked layRun pending own env ss st.temps)
      (stmts cx run ss st) := by
  cases ss with
  | nil =>
    rw [stmts, Stmt.layAll]
    exact ⟨.nil, rfl⟩
  | cons s ss =>
    have hreg' := hreg
    simp only [Stmt.allRegular, and_eq_true] at hreg
    have hescapes : s.escapes = true → Stmt.anyEscapes (s :: ss) = true := by
      simp +contextual [Stmt.anyEscapes]
    have hdefers : s.defers ≠ 0 → Stmt.allDefers (s :: ss) ≠ 0 := by
      simp only [Stmt.allDefers]
      omega
    have readyFirst := hready.part hescapes hdefers rfl hready.ends
    have lowered := stmt_lowered cx run s F st hreg.1 readyFirst
    have first := stmt_shown (own ++ pending) env s F st hreg.1 readyFirst
      (hlay.part hescapes hdefers rfl)
    have hopen' : (stmt cx run s st).2.frames ≠ [] := by
      rw [lowered.frames]
      cases hf : st.frames with
      | nil => exact absurd hf hopen
      | cons frame outer => simp [framesAfter]
    have rest := stmts_shown pending (s.postponed env ++ own) (s.binds ++ env) ss _
      (stmt cx run s st).2 hreg.2 (hready.next hreg' lowered.frames lowered.ends)
      (hlay.next env hopen lowered.frames) hopen'
    rw [stmts, Stmt.layAll]
    rw [first.temps] at rest
    exact ⟨rel_append first.same rest.same, rest.temps⟩

theorem orElse_shown (pending : List Postponed) (env : Env) (s : Option Stmt) (F : Frames)
    (st : BodyState) (hreg : Stmt.elseRegular cx.toChecked s = true)
    (hready : Ready cx.toChecked run (Stmt.elseEscapes s) (Stmt.elseDefers s) F st)
    (hlay : ReadyToLay cx.toChecked run layRun (Stmt.elseEscapes s) (Stmt.elseDefers s) pending st) :
    Shown (fun ms cs => ms.map bare = CStmt.elseMarks cs)
      (Stmt.layElse cx.toChecked layRun pending env s st.temps) (orElse cx run s st) := by
  cases s with
  | none =>
    rw [orElse, Stmt.layElse]
    exact ⟨rfl, rfl⟩
  | some s =>
    simp only [Stmt.elseRegular, and_eq_true, not_eq_true'] at hreg
    have h := stmt_shown pending env s F st hreg.2 hready hlay
    rw [orElse, Stmt.layElse]
    refine ⟨?_, h.temps⟩
    exact (bare_inScope _).trans (congrArg Mark.inScope (h.same.unbraced s))

end

end

theorem deferred_shown (cx : FunctionContext) (level : Nat) :
    RunsShown cx.toChecked (deferred cx (level + 1)) (lay cx.toChecked) := by
  intro p hp st hst
  have heq : deferred cx (level + 1) p.body st = stmt cx (deferred cx level) p.body st := by
    rw [deferred]
    show (ite (st.endless = true) _ _ : Body (List CStmt)) st = _
    rw [if_neg (by simp [hst])]
  rw [heq, lay]
  refine stmt_shown cx (deferred cx level) _ [] p.env p.body [] st hp.1 ?_ ?_
  · rw [hp.2]
    exact ⟨hst, fun h => absurd h false_ne_true, fun h => absurd h false_ne_true,
      fun h => absurd h false_ne_true⟩
  · rw [hp.2]
    exact ⟨fun h => absurd h false_ne_true, fun h => absurd h false_ne_true⟩

theorem functionBody_bares (cx : FunctionContext) (env : Env) (body : List Stmt)
    (h : Stmt.allRegular cx.toChecked body = true) (st : Lowering) :
    Bares (Lay.inBlock (lay cx.toChecked) (Stmt.postponedBy env [] body) body
      (Stmt.layAll cx.toChecked (lay cx.toChecked) [] [] env body) 0).1
      (functionBody cx body st).1 := by
  let run := deferred cx (Stmt.allDefers body)
  have hlevel : Stmt.allDefers body ≠ 0 → ∃ level, run = deferred cx (level + 1) := by
    intro hd
    obtain ⟨level, hl⟩ := Nat.exists_eq_succ_of_ne_zero hd
    exact ⟨level, by simp only [run, hl]⟩
  have hready : Ready cx.toChecked run (Stmt.anyEscapes body) (Stmt.allDefers body) []
      { toLowering := st } := by
    refine ⟨rfl, fun _ => nofun, fun _ hd => ?_, fun _ => rfl⟩
    obtain ⟨level, hl⟩ := hlevel (hd.resolve_left (by simp))
    exact hl ▸ deferred_runs cx level
  have hlay : ReadyToLay cx.toChecked run (lay cx.toChecked) (Stmt.anyEscapes body)
      (Stmt.allDefers body) [] { toLowering := st } := by
    refine ⟨fun _ => rfl, fun _ hd => ?_⟩
    obtain ⟨level, hl⟩ := hlevel (hd.resolve_left (by simp))
    exact hl ▸ deferred_shown cx level
  have lowered := stmts_lowered cx run body ([] :: []) _ h hready.inside
  have shown := stmts_shown cx run (lay cx.toChecked) [] [] env body ([] :: []) _ h
    hready.inside hlay.inside (by simp)
  exact (inside_shown env h hready hlay lowered shown).same

theorem params_names (cx : Checked) (ps : List Param) (ts : List Ty)
    (h : ts.length = ps.length) (st : Lowering) :
    (params cx ps ts st).1.map (·.name) = ps.map (cIdent ·.name) := by
  induction ps generalizing ts st with
  | nil => rfl
  | cons p ps ih =>
    cases ts with
    | nil => simp at h
    | cons t ts =>
      rw [params]
      exact congrArg (List.cons _) (ih ts (by simpa using h) _)

end Lower

theorem Param.bare_marks (index : Nat) (ps : List Param) :
    (Param.marks index ps).map bare = ps.map fun p => .declares (cIdent p.name) () := by
  induction ps generalizing index with
  | nil => rfl
  | cons p ps ih => exact congrArg (List.cons _) (ih (index + 1))

theorem Lower.prototype?_names (cx : Checked) (package : PackageId) {sig : Signature}
    {types : List Ty} {result : Ty}
    (htype : cx.resolution.typeOf? info.id = some (.function types result))
    (harity : types.length = sig.params.length) (st : Lowering) :
    ∃ head, (prototype? cx package info sig st).1 = some head ∧
      head.params.map (·.name) = sig.params.map (cIdent ·.name) := by
  unfold prototype?
  rw [htype]
  dsimp only
  show ∃ head, ((ite _ _ _ : Lower (Option CPrototype)) _).1 = some head ∧ _
  split
  · exact ⟨_, rfl, params_names cx sig.params types harity _⟩
  · exact ⟨_, rfl, params_names cx sig.params types harity _⟩

theorem Lower.function_marks (cx : Checked) (package : PackageId) (isEntry : Bool)
    (known : List String) {sig : Signature} {body : Block} {types : List Ty} {result : Ty}
    (htype : cx.resolution.typeOf? info.id = some (.function types result))
    (harity : types.length = sig.params.length) (hreg : Stmt.allRegular cx body.body = true)
    (st : Lowering) :
    ((decl cx package isEntry known (.function info sig body) st).1.2.bodies).map
      CItem.marks = [(functionMarks cx sig.params body.body).map bare] := by
  obtain ⟨head, hhead, hparams⟩ := prototype?_names cx package htype harity st
  have hbody := functionBody_bares { cx with result } (paramEnv sig.params) body.body hreg
    (prototype? cx package info sig st).2
  have item : CItem.marks (.function head (functionBody { cx with result } body.body
      (prototype? cx package info sig st).2).1) =
      (functionMarks cx sig.params body.body).map bare := by
    have names : head.params.map (fun p => declares p.name ()) =
        (Param.marks 0 sig.params).map bare := by
      rw [Param.bare_marks]
      have declared := congrArg (List.map (declares · ())) hparams
      rwa [map_map, map_map] at declared
    rw [CItem.marks, functionMarks, bare_inScope, map_append, ← names]
    exact congrArg (fun ms => inScope (_ ++ ms)) hbody.symm
  have lowered : (decl cx package isEntry known (.function info sig body) st).1.2.bodies =
      [.function head (functionBody { cx with result } body.body
        (prototype? cx package info sig st).2).1] := by
    rw [decl]
    simp only [bind, StateT.bind]
    generalize prototype? cx package info sig st = r at hhead ⊢
    obtain ⟨head?, st'⟩ := r
    obtain rfl : head? = some head := hhead
    dsimp only
    rw [htype]
    dsimp only
    show ((ite _ _ _ : Lower (List String × Sections)) _).1.2.bodies = _
    split <;> rfl
  rw [lowered]
  exact congrArg (fun ms => [ms]) item

end Quill
