import Quill.Proofs.ReadingFiles

/-!
# Reports and recoveries

Productions report at most one problem, and none if they succeed. What cannot be read is passed over
after one report, so in the end there are as many problems as recoveries.
-/
namespace Quill.Parser

variable {s t u : State}

structure Quiet (s u : State) : Prop where
  problems : u.problems = s.problems
  muted : u.muted = s.muted
  recoveries : u.recoveries = s.recoveries

/-- A mistake was met. It is reported unless problems are held back, which they are from then on. -/
structure Halted (s u : State) : Prop where
  problems : ∃ ds, u.problems = s.problems ++ ds ∧ ds.length = if s.muted then 0 else 1
  muted : u.muted = true
  recoveries : u.recoveries = s.recoveries

namespace Quiet

theorem refl (s : State) : Quiet s s := ⟨rfl, rfl, rfl⟩

theorem trans (h : Quiet s t) (h' : Quiet t u) : Quiet s u :=
  ⟨h'.problems.trans h.problems, h'.muted.trans h.muted, h'.recoveries.trans h.recoveries⟩

theorem advance (s : State) : Quiet s s.advance :=
  ⟨by rw [s.advance_frame], by rw [s.advance_frame], by rw [s.advance_frame]⟩

theorem advanceBy (n : Nat) (s : State) : Quiet s (s.advanceBy n) := by
  induction n generalizing s with
  | zero => exact refl s
  | succ n ih => exact (advance s).trans (ih s.advance)

end Quiet

theorem Halted.told (h : Quiet s t) (told : t.Told u) : Halted s u := by
  obtain ⟨problem, span, -, rfl⟩ := told
  unfold State.report
  split
  · rename_i hm
    exact ⟨⟨[], by simp [h.problems, ← h.muted, hm]⟩, hm, h.recoveries⟩
  · rename_i hm
    exact ⟨⟨[⟨.grammar problem, span⟩], by simp [h.problems, ← h.muted, hm]⟩, rfl, h.recoveries⟩

theorem Quiet.rewind (h : Quiet s t) (h' : Halted (s.rewind t) u ∨ Quiet (s.rewind t) u) :
    Quiet t (t.rewind u) := by
  have kept : (s.rewind t).problems = t.problems := by
    show t.problems.take s.problems.length = t.problems
    rw [← h.problems, List.take_length]
  obtain ⟨ds, hproblems, hrecoveries⟩ :
      ∃ ds, u.problems = t.problems ++ ds ∧ u.recoveries = t.recoveries := by
    rcases h' with h' | h'
    · obtain ⟨ds, hds, -⟩ := h'.problems
      exact ⟨ds, by rw [hds, kept], h'.recoveries⟩
    · exact ⟨[], by rw [h'.problems, kept, List.append_nil], h'.recoveries⟩
  refine ⟨?_, rfl, hrecoveries⟩
  show u.problems.take t.problems.length = t.problems
  rw [hproblems, List.take_left]

theorem Quiet.tried {w : State} (h : Quiet s t) (h' : Quiet (s.rewind t) u) (hw : w = u ∨ u.Told w) :
    Quiet t (t.rewind w) := by
  rcases hw with rfl | told
  · exact h.rewind (.inr h')
  · exact h.rewind (.inl (.told h' told))

/-- Problems are not held back, and there are as many as recoveries. -/
structure Settled (s : State) : Prop where
  muted : s.muted = false
  balanced : s.problems.length = s.recoveries

/-- One problem was reported behind which reading was not yet taken up again. -/
structure Pending (u : State) : Prop where
  muted : u.muted = true
  balanced : u.problems.length = u.recoveries + 1

theorem Settled.quiet (h : Settled s) (hq : Quiet s u) : Settled u :=
  ⟨hq.muted.trans h.muted, by rw [hq.problems, hq.recoveries, h.balanced]⟩

theorem Settled.told (h : Settled s) (told : s.Told u) : Pending u := by
  have halted := Halted.told (.refl s) told
  obtain ⟨ds, hds, hlength⟩ := halted.problems
  refine ⟨halted.muted, ?_⟩
  rw [h.muted, if_neg Bool.false_ne_true] at hlength
  rw [hds, List.length_append, hlength, halted.recoveries, h.balanced]

theorem Pending.recovered (h : Pending u) (n : Nat) :
    Settled (u.advanceBy n).recovered.unmuted := by
  have quiet := Quiet.advanceBy n u
  refine ⟨rfl, ?_⟩
  show (u.advanceBy n).problems.length = (u.advanceBy n).recoveries + 1
  rw [quiet.problems, quiet.recoveries, h.balanced]

namespace Steps

variable {m : Mode} {s u : State} {st : List Item}

theorem quiet (h : Steps m s st u) (hm : m ≠ .mending) : Quiet s u := by
  induction h with
  | refl => exact .refl _
  | pass _ _ ih | word _ _ _ ih | name _ _ ih | length _ _ ih | sign _ _ ih => exact (ih hm).trans (.advance _)
  | body n _ _ ih => exact (ih hm).trans (.advanceBy n _)
  | start _ ih | text _ _ _ ih | directive _ _ ih | make _ _ ih | inner _ _ ih | settle _ ih | dress _ ih | given _ _ ih => exact ih hm
  | node _ _ _ ih | type _ _ _ ih | file _ _ _ ih => exact (ih hm).trans ⟨rfl, rfl, rfl⟩
  | tried _ _ _ _ hw ih _ between again => exact (ih hm).trans ((between nofun).tried (again nofun) hw)
  | operand _ _ _ _ ih _ between again => exact (ih hm).trans ((between nofun).rewind (.inr (again nofun)))
  | mend | unmute => exact absurd rfl hm

theorem settled (h : Steps m s st u) (hs : Settled s) : Settled u := by
  induction h with
  | refl => exact hs
  | pass _ _ ih | word _ _ _ ih | name _ _ ih | length _ _ ih | sign _ _ ih => exact (ih hs).quiet (.advance _)
  | body n _ _ ih => exact (ih hs).quiet (.advanceBy n _)
  | start _ ih | text _ _ _ ih | directive _ _ ih | make _ _ ih | inner _ _ ih | settle _ ih | dress _ ih | given _ _ ih => exact ih hs
  | node _ _ _ ih | type _ _ _ ih | file _ _ _ ih => exact (ih hs).quiet ⟨rfl, rfl, rfl⟩
  | tried _ _ hb ha hw ih => exact (ih hs).quiet ((hb.quiet nofun).tried (ha.quiet nofun) hw)
  | operand _ _ hb ha ih => exact (ih hs).quiet ((hb.quiet nofun).rewind (.inr (ha.quiet nofun)))
  | mend n _ _ told ih ih' => exact ((ih' (ih hs)).told told).recovered n
  | unmute _ ih => exact ⟨rfl, (ih hs).balanced⟩

end Steps

theorem Fails.halted {m : Mode} (h : Fails m s u) (hm : m ≠ .mending) : Halted s u := by
  obtain ⟨st, v, steps, told⟩ := h
  exact .told (steps.quiet hm) told

theorem Fails.pending {m : Mode} (h : Fails m s u) (hs : Settled s) : Pending u := by
  obtain ⟨st, v, steps, told⟩ := h
  exact (steps.settled hs).told told

/-- Productions of types, expressions and simple statements as they are taken in `s`. -/
inductive Production (s : State) : {α : Type} → Parser α → Prop where
  | directives : Production s directives
  | path : Production s path
  | type : Production s type
  | typeBase : Production s (typeBase type)
  | typeSuffix (t : TypeExpr) : Production s (typeSuffix type t)
  | arraySuffix (t : TypeExpr) : s.kind ≠ .eof → Production s (arraySuffix t)
  | expr : Production s expr
  | binary (least : Nat) : Production s (fuelled (binaryAt · least))
  | operation (least : Nat) (e : Expr) :
      Production s (operation (fun k => fuelled (binaryAt · k)) least e)
  | unary : Production s (unary expr)
  | suffix (e : Expr) : Production s (suffix expr e)
  | fieldSuffix (e : Expr) (arrow : Bool) : s.kind ≠ .eof → Production s (fieldSuffix e arrow)
  | stepSuffix (e : Expr) (op : StepOp) : s.kind ≠ .eof → Production s (stepSuffix e op)
  | primary : Production s (primary expr)
  | template : s.kind ≠ .eof → Production s (template expr)
  | interpolation : Production s (interpolation expr)
  | paren : s.kind ≠ .eof → Production s (paren expr)
  | structInit : s.kind ≠ .eof → Production s (structInit expr)
  | arrayInit : s.kind ≠ .eof → Production s (arrayInit expr)
  | sizeof : s.kind ≠ .eof → Production s (sizeof expr)
  | cast : s.kind ≠ .eof → Production s (cast expr)
  | varStmt : Production s varStmt
  | exprStmt : Production s exprStmt
  | assignment : Production s assignment
  | simpleStmt : Production s simpleStmt

/-- A production succeeds without a report or fails with at most one. -/
def Discreet {α : Type} (p : Parser α) (s : State) : Prop :=
  match p s with
  | (some _, u) => Quiet s u
  | (none, u) => Halted s u

theorem Production.discreet {α : Type} {p : Parser α} (h : Production s p) : Discreet p s := by
  have alone {α : Type} {p : Parser α} {front : List Item} {moved : α → Bool} {back : α → List Item}
      (h : Gives .apart (s.rest.length + 1) false p s front moved back) : Discreet p s := by
    have run := h s [] (.given front .refl) (Nat.le_succ _)
    unfold Discreet
    generalize p s = r at run ⊢
    rcases r with ⟨_ | a, u⟩
    · exact run.halted nofun
    · exact run.1.quiet nofun
  have solid (hk : s.kind ≠ .eof) : Solid .apart s.kind := ⟨hk, fun h => absurd rfl h⟩
  have nested : ∀ m, ReadsBelow m (s.rest.length + 1) .expr fun e => [.expr e] := fun _ _ _ => .expr
  cases h with
  | directives => exact alone .directives
  | path => exact alone .path
  | type => exact alone .type
  | typeBase => exact alone (.typeBase fun _ _ => .type)
  | typeSuffix t => exact alone (.typeSuffix fun _ _ => .type)
  | arraySuffix t hk => exact alone (.arraySuffix (solid hk))
  | expr => exact alone .expr
  | binary least => exact alone (.binary least)
  | operation least e => exact alone (.operation fun k _ _ _ => .binary k)
  | unary => exact alone (.unary nested)
  | suffix e => exact alone (.suffix nested)
  | fieldSuffix e arrow hk => exact alone (.fieldSuffix (solid hk))
  | stepSuffix e op hk => exact alone (.stepSuffix (solid hk))
  | primary => exact alone (.primary nested)
  | template hk => exact alone (.template nested (solid hk) fun h => absurd rfl h)
  | interpolation =>
    exact alone (.interpolation (n := s.rest.length + 2) (fun _ _ _ => .expr) (Nat.lt_succ_self _))
  | paren hk => exact alone (.paren nested (solid hk) fun h => absurd rfl h)
  | structInit hk => exact alone (.structInit nested (solid hk) fun h => absurd rfl h)
  | arrayInit hk => exact alone (.arrayInit nested (solid hk))
  | sizeof hk => exact alone (.sizeof nested (solid hk))
  | cast hk => exact alone (.cast nested (solid hk))
  | varStmt => exact alone .varStmt
  | exprStmt => exact alone .exprStmt
  | assignment => exact alone .assignment
  | simpleStmt => exact alone .simpleStmt

theorem Production.traceless {α : Type} {p : Parser α} (h : Production s p)
    (hr : attempt p s = (some none, u) ∨ attempt (closed p) s = (some none, u)) :
    u.rest = s.rest ∧ u.last = s.last ∧ u.problems = s.problems ∧ u.muted = s.muted := by
  have run := h.discreet
  unfold Discreet at run
  obtain ⟨t, rfl, ht⟩ : ∃ t, u = s.rewind t ∧ (Halted s t ∨ Quiet s t) := by
    unfold attempt at hr
    rcases hr with hr | hr
    · generalize p s = r at run hr
      rcases r with ⟨_ | a, t⟩
      · exact ⟨t, (Prod.mk.inj hr).2.symm, .inl run⟩
      · cases hr
    · rcases Gives.closed_cases p s with heq | ⟨a, t, hp, heq⟩
      · rw [heq] at hr
        generalize p s = r at run hr
        rcases r with ⟨_ | a, t⟩
        · exact ⟨t, (Prod.mk.inj hr).2.symm, .inl run⟩
        · cases hr
      · rw [heq] at hr
        rw [hp] at run
        exact ⟨t, (Prod.mk.inj hr).2.symm, .inr run⟩
  have quiet := (Quiet.refl s).rewind (s.rewind_self.symm ▸ ht)
  exact ⟨rfl, rfl, quiet.problems, quiet.muted⟩

/-- Reading a source reports as many problems as it recovers from, and each of those once: a
statement or declaration that fails has one report behind which reading was not yet taken up again,
and after each item of a block and each declaration all is settled. Productions of types, expressions
and simple statements that succeed change neither the problems nor whether they are held back, and
what is tried in vain changes nothing of the place either. -/
theorem problems_match_recoveries :
    (∀ (file : FileId) (tokens : List Token) (ids : Identities), ∃ fs u,
      files (.start file tokens ids.nodes ids.types) = (some fs, u) ∧
      u.problems.length = u.recoveries ∧
      parseTokens file tokens ids = (fs, u.problems, ⟨u.nodes, u.types⟩)) ∧
    (∀ s u, Settled s → stmt s = (none, u) ∨ topLevel s = (none, u) →
      u.muted = true ∧ u.problems.length = u.recoveries + 1) ∧
    (∀ s, Settled s → ∃ item u, blockItem stmt s = (some item, u) ∧ Settled u) ∧
    (∀ s, Settled s.unmuted → ∃ item u, declItem s = (some item, u) ∧ Settled u.unmuted) ∧
    (∀ (α : Type) (p : Parser α) (s : State), Production s p →
      (∀ a u, p s = (some a, u) → u.problems = s.problems ∧ u.muted = s.muted) ∧
      (∀ u, attempt p s = (some none, u) ∨ attempt (closed p) s = (some none, u) →
        u.rest = s.rest ∧ u.last = s.last ∧ u.problems = s.problems ∧ u.muted = s.muted)) := by
  refine ⟨?_, ?_, ?_, ?_, ?_⟩
  · intro file tokens ids
    obtain ⟨fs, u, hrun, -, steps, -⟩ := Steps.files (.start file tokens ids.nodes ids.types)
    refine ⟨fs, u, hrun, (steps.settled ⟨rfl, rfl⟩).balanced, ?_⟩
    rw [parseTokens, hrun]
    rfl
  · intro s u settled hfail
    have failed : Pending u := by
      rcases hfail with hfail | hfail
      · have run := Gives.stmt (n := s.rest.length) (c := false) s [] .refl (Nat.le_refl _)
        rw [hfail] at run
        exact run.pending settled
      · have run := Gives.topLevel (n := s.rest.length) (c := false) s [] .refl (Nat.le_refl _)
        rw [hfail] at run
        exact run.pending settled
    exact ⟨failed.muted, failed.balanced⟩
  · intro s settled
    obtain ⟨item, u, hrun, steps, -⟩ :=
      Gives.blockItem_steps (fun _ _ => Gives.stmt) (Nat.lt_succ_self s.rest.length) (s := s) .refl
    exact ⟨item, u, hrun, steps.settled settled⟩
  · intro s settled
    obtain ⟨item, u, hrun, steps, -⟩ := Steps.declItem (s := s) .refl
    exact ⟨item, u, hrun, steps.settled settled⟩
  · intro α p s h
    refine ⟨fun a u hrun => ?_, fun u hr => h.traceless hr⟩
    have run := h.discreet
    unfold Discreet at run
    rw [hrun] at run
    exact ⟨run.problems, run.muted⟩

/-- Two statements that cannot be read, one inside the other, and a stray bracket between
declarations: three reports and three recoveries. -/
theorem problems_match_recoveries_nested :
    let tokens := Token.kept (Lexer.scan 0 "void f() \x7b if x \x7b ) ; \x7d y + ; \x7d ] ; void g() \x7b\x7d")
    let s := .start 0 tokens 0 0
    (files s).2.recoveries = 3 ∧ (parseTokens 0 tokens {}).2.1.length = 3 ∧
    Settled s ∧ (∃ item u, declItem s = (some item, u) ∧ Settled u.unmuted) ∧
    Production s type ∧ (∃ a u, type s = (some a, u) ∧ u.problems = s.problems ∧ u.muted = s.muted) := by
  intro tokens s
  have settled : Settled s := ⟨rfl, rfl⟩
  obtain ⟨fs, u, hrun, hbalanced, hparse⟩ := problems_match_recoveries.1 0 tokens {}
  have hthree : (files s).2.recoveries = 3 := by decide +kernel
  have hread : (type s).1.isSome := by decide +kernel
  refine ⟨hthree, ?_, settled, problems_match_recoveries.2.2.2.1 s settled, .type, ?_⟩
  · rw [hparse]
    rw [show files s = (some fs, u) from hrun] at hthree
    exact hbalanced.trans hthree
  · obtain ⟨a, ha⟩ := Option.isSome_iff_exists.mp hread
    exact ⟨a, (type s).2, Prod.ext ha rfl,
      (problems_match_recoveries.2.2.2.2 _ type s .type).1 a _ (Prod.ext ha rfl)⟩

end Quill.Parser
