import Quill.Proofs.Reporting

/-!
# Nested parsers and the tokens left

Before a production comes to the parser that is nested in it, it takes a token. So two parsers that
run alike where fewer tokens are left make productions that run alike here.
-/
namespace Quill.Parser

open State

theorem Moves.up_to_end {s u : State} {front : List Token} {last : Token} (h : Moves s u)
    (hrest : s.rest = front ++ [last]) (hlast : last.kind = .eof) :
    ∃ left, u.rest = left ++ [last] ∧ left <:+ front := by
  obtain ⟨passed, heq, hpassed⟩ := h
  rw [hrest, List.append_eq_append_iff] at heq
  rcases heq with ⟨more, rfl, hend⟩ | ⟨left, hfront, hu⟩
  · cases more with
    | nil => exact ⟨[], hend.symm, List.nil_suffix⟩
    | cons t more =>
      obtain ⟨rfl, -⟩ := List.cons.inj hend
      exact absurd hlast (hpassed _ (by simp))
  · exact ⟨left, hu, ⟨passed, hfront.symm⟩⟩

variable {α β : Type} {s : State} {n : Nat}

def Stays (p : Parser α) : Prop := ∀ s, Moves s (p s).2

namespace Stays

theorem of_gives {p : Parser α} {moved : α → Bool} {back : α → List Item}
    (h : ∀ s : State, Gives .mending s.rest.length false p s [] moved back) : Stays p := fun s => (h s).moves

theorem advanceBy (n : Nat) : Stays (update (.advanceBy n)) := fun s => .advanceBy n s

theorem eat (k : TokenKind) : Stays (eat k) := by
  intro s
  unfold Parser.eat
  split
  · exact .advance s
  · exact .refl s

theorem expect (k : TokenKind) (what : String) : Stays (expect k what) := by
  intro s
  unfold Parser.expect
  split
  · exact .advance s
  · exact .report s _ _

theorem closed {p : Parser α} (h : Stays p) : Stays (closed p) := by
  intro s
  have moves := h s
  rcases Gives.closed_cases p s with heq | ⟨a, t, hp, heq⟩
  · rwa [heq]
  · rw [hp] at moves
    rwa [heq]

theorem attempt {p : Parser α} (h : Stays p) : Stays (attempt p) := by
  intro s
  have moves := h s
  unfold Parser.attempt
  generalize p s = r at moves ⊢
  rcases r with ⟨_ | a, t⟩
  · exact .of_rest rfl
  · exact moves

end Stays

/-- From `s` the two parsers have one outcome, and they stay before the end. -/
def Same (p q : Parser α) (s : State) : Prop := p s = q s ∧ Moves s (q s).2

/-- With fewer than `n` tokens left the two parsers have one outcome. -/
def Below (n : Nat) (p q : Parser α) : Prop := ∀ s : State, s.rest.length < n → Same p q s

namespace Same

theorem of_gives {p : Parser α} {moved : α → Bool} {back : α → List Item}
    (h : Gives .mending s.rest.length false p s [] moved back) : Same p p s := ⟨rfl, h.moves⟩

theorem bind {p q : Parser α} {f g : α → Parser β} (hp : Same p q s)
    (hf : ∀ a t, t.rest.length ≤ s.rest.length → Same (f a) (g a) t) :
    Same (p >>= f) (q >>= g) s := by
  obtain ⟨heq, moves⟩ := hp
  unfold Same
  rw [bind_apply, bind_apply, heq]
  generalize q s = r at moves ⊢
  rcases r with ⟨_ | a, t⟩
  · exact ⟨rfl, moves⟩
  · exact ⟨(hf a t moves.length_le).1, moves.trans (hf a t moves.length_le).2⟩

theorem after {p : Parser α} {f g : α → Parser β} {a : α} {t : State} (hp : p s = (some a, t))
    (moves : Moves s t) (h : Same (f a) (g a) t) : Same (p >>= f) (p >>= g) s := by
  unfold Same
  rw [bind_apply, bind_apply, hp]
  exact ⟨h.1, moves.trans h.2⟩

theorem look {f : State → α} {g g' : α → Parser β} (h : Same (g (f s)) (g' (f s)) s) :
    Same (inspect f >>= g) (inspect f >>= g') s := h

theorem onward {f g : Token → Parser β} (hk : s.kind ≠ .eof) (hs : s.rest.length < n + 1)
    (h : ∀ token, Below n (f token) (g token)) : Same (advance >>= f) (advance >>= g) s := by
  have fewer := length_advance hk
  obtain ⟨heq, moves⟩ := h s.peek s.advance (by omega)
  exact ⟨heq, (Moves.advance s).trans moves⟩

theorem mark {f g : Token → Parser β} (k : Punct) (what : String) (hs : s.rest.length < n + 1)
    (h : ∀ token, Below n (f token) (g token)) : Same (mark k what >>= f) (.mark k what >>= g) s := by
  by_cases hk : s.kind = .punct k
  · have hrun : Parser.mark k what s = (some s.peek, s.advance) := if_pos (beq_iff_eq.mpr hk)
    have fewer := length_advance (kind_ne_eof hk nofun)
    exact after hrun (.advance s) (h _ _ (by omega))
  · have hrun : Parser.mark k what s = Parser.expected what s := if_neg (by simpa using hk)
    unfold Same
    rw [bind_apply, bind_apply, hrun]
    exact ⟨rfl, .report s _ _⟩

end Same

namespace Below

variable {p q : Parser α} {f g : α → Parser β}

theorem mono {m : Nat} (h : Below n p q) (hle : m ≤ n) : Below m p q :=
  fun s hs => h s (Nat.lt_of_lt_of_le hs hle)

theorem of_stays (h : Stays p) : Below n p p := fun s _ => ⟨rfl, h s⟩

theorem pure (a : α) : Below n (Pure.pure a) (Pure.pure a) := fun s _ => ⟨rfl, .refl s⟩

theorem fail : Below n (fail : Parser α) .fail := fun s _ => ⟨rfl, .refl s⟩

theorem expected (what : String) : Below n (expected what : Parser α) (.expected what) :=
  of_stays fun s => .report s _ _

theorem bind (hp : Below n p q) (hf : ∀ a, Below n (f a) (g a)) : Below n (p >>= f) (q >>= g) :=
  fun s hs => (hp s hs).bind fun a t ht => hf a t (Nat.lt_of_le_of_lt ht hs)

theorem skip (hp : Stays p) (hf : ∀ a, Below n (f a) (g a)) : Below n (p >>= f) (p >>= g) :=
  (of_stays hp).bind hf

theorem look {f : State → α} {g g' : α → Parser β} (h : ∀ a, Below n (g a) (g' a)) :
    Below n (inspect f >>= g) (inspect f >>= g') := fun s hs => h (f s) s hs

theorem mark {f g : Token → Parser β} (k : Punct) (what : String) (hf : ∀ a, Below n (f a) (g a)) :
    Below n (mark k what >>= f) (.mark k what >>= g) := skip (.expect _ what) hf

theorem eat {f g : Bool → Parser β} (k : TokenKind) (hf : ∀ a, Below n (f a) (g a)) :
    Below n (eat k >>= f) (.eat k >>= g) := skip (.eat k) hf

theorem pass {f g : Token → Parser β} (hf : ∀ a, Below n (f a) (g a)) :
    Below n (advance >>= f) (advance >>= g) := skip .advance hf

theorem node (start : Span) (f : Info → α) :
    Below n (do return f (← nodeFrom start)) (do return f (← nodeFrom start)) :=
  skip (fun _ => .of_rest rfl) fun _ => pure _

theorem typeNode (start : Span) (f : Info → α) :
    Below n (do return f (← typeNodeFrom start)) (do return f (← typeNodeFrom start)) :=
  skip (fun _ => .of_rest rfl) fun _ => pure _

theorem option (h : Below n p q) : Below n (do return some (← p)) (do return some (← q)) :=
  h.bind fun _ => pure _

section Repetition

theorem many {item item' : Parser (Option α)} (h : Below n item item') :
    Below n (many item) (many item') := by
  have within (fuel : Fuel) : Below n (manyWithin item fuel) (manyWithin item' fuel) := by
    induction fuel with
    | nil => exact fail
    | cons t fuel ih =>
      refine h.bind fun r => ?_
      cases r with
      | none => exact pure _
      | some a => exact ih.bind fun _ => pure _
  exact fun s hs => within _ s hs

theorem extend {step step' : α → Parser (Option α)} (h : ∀ a, Below n (step a) (step' a)) (a : α) :
    Below n (extend step a) (extend step' a) := by
  have within (fuel : Fuel) : ∀ a, Below n (extendWithin step fuel a) (extendWithin step' fuel a) := by
    induction fuel with
    | nil => exact fun _ => fail
    | cons t fuel ih =>
      refine fun a => (h a).bind fun r => ?_
      cases r with
      | none => exact pure _
      | some b => exact ih b
  exact fun s hs => within _ a s hs

theorem commaSeparated (h : Below n p q) : Below n (commaSeparated p) (commaSeparated q) := by
  refine h.bind fun first => (many ?_).bind fun more => pure _
  refine eat _ fun more => ?_
  split
  · exact h.option
  · exact pure _

theorem commaList (k : TokenKind) (h : Below n p q) :
    Below n (commaList (at? k) p) (commaList (at? k) q) := by
  have within (fuel : Fuel) : Below n (commaListWithin (at? k) p fuel)
      (commaListWithin (at? k) q fuel) := by
    induction fuel with
    | nil => exact fail
    | cons t fuel ih =>
      refine look fun ended => ?_
      split
      · exact pure _
      refine h.bind fun first => eat _ fun more => ?_
      split
      · exact ih.bind fun _ => pure _
      · exact pure _
  exact fun s hs => within _ s hs

end Repetition

section Types

variable {p q : Parser TypeExpr} (h : Below n p q)
include h

theorem typeBase : Below (n + 1) (typeBase p) (typeBase q) := by
  refine fun s hs => .look ?_
  split
  iterate 2
    rename_i hk
    exact .onward (kind_ne_eof hk nofun) hs fun _ => skip (fun _ => .of_rest rfl) fun _ => pure _
  · exact (skip (.of_gives fun _ => .path) fun _ => typeNode _ _) s hs
  · rename_i hk
    refine .onward (kind_ne_eof hk nofun) hs fun _ => h.commaSeparated.bind fun _ => ?_
    exact mark _ _ fun _ => typeNode _ _
  · exact expected _ s hs

omit h in
theorem arraySuffix (t : TypeExpr) : Below n (arraySuffix t) (.arraySuffix t) := by
  refine look fun _ => look fun _ => ?_
  split
  · exact skip (.advanceBy 2) fun _ => typeNode _ _
  · exact skip (.advanceBy 3) fun _ => typeNode _ _
  iterate 2 exact pass fun _ => pass fun _ => pass fun _ => typeNode _ _
  · exact pure _

theorem typeSuffix (t : TypeExpr) : Below (n + 1) (typeSuffix p t) (typeSuffix q t) := by
  refine fun s hs => .look ?_
  split
  · exact (pass fun _ => typeNode _ _) s hs
  · refine .look ?_
    split
    · exact (skip (.advanceBy 2) fun _ => typeNode _ _) s hs
    · exact pure _ s hs
  · exact arraySuffix t s hs
  · rename_i hk
    split
    · refine .onward (kind_ne_eof hk nofun) hs fun _ => h.commaSeparated.bind fun _ => ?_
      exact mark _ _ fun _ => typeNode _ _
    · exact pure _ s hs
  · exact (pass fun _ => typeNode _ _) s hs
  · rename_i hk
    refine .onward (kind_ne_eof hk nofun) hs fun _ => ?_
    exact (h.typeBase.mono (Nat.le_succ n)).bind fun _ => typeNode _ _
  · exact pure _ s hs

theorem typeStep : Below (n + 1) (typeStep p) (typeStep q) :=
  skip (.of_gives fun _ => .directives) fun _ =>
    h.typeBase.bind fun base => (extend h.typeSuffix base).bind fun _ => pure _

end Types

section Expressions

variable {p q : Parser Expr} (h : Below n p q)
include h

theorem interpolation : Below n (interpolation p) (interpolation q) := by
  refine h.bind fun _ => look fun _ => ?_
  split
  iterate 2 exact pass fun _ => pure _
  · exact expected _

section

variable (hk : s.kind ≠ .eof) (hs : s.rest.length < n + 1)

include hk hs

theorem template : Same (template p) (template q) s := by
  refine .onward hk hs fun first => ?_
  split
  · refine (extend (fun soFar => ?_) _).bind fun _ => node _ _
    split
    split
    · exact pure _
    · exact h.interpolation.bind fun _ => pure _
  · exact node _ _

theorem paren : Same (paren p) (paren q) s := by
  refine .onward hk hs fun start => h.bind fun first => eat _ fun tuple => ?_
  split
  · exact (h.commaList _).bind fun _ => mark _ _ fun _ => node _ _
  · exact mark _ _ fun _ => pure _

theorem structInit : Same (structInit p) (structInit q) s := by
  refine .onward hk hs fun start => pass fun _ => (commaList _ ?_).bind fun _ =>
    mark _ _ fun _ => node _ _
  refine mark _ _ fun _ => skip (.of_gives fun _ => .identifier) fun _ => mark _ _ fun _ => ?_
  exact h.bind fun _ => look fun _ => pure _

theorem arrayInit : Same (arrayInit p) (arrayInit q) s := by
  have element : Below n (do
      let first ← p
      if ← Parser.eat (.punct .equal) then
        let value ← p
        return { index := some first, value : ArrayElement Expr }
      return { index := none, value := first }) (do
      let first ← q
      if ← Parser.eat (.punct .equal) then
        let value ← q
        return { index := some first, value : ArrayElement Expr }
      return { index := none, value := first }) := by
    refine h.bind fun first => eat _ fun indexed => ?_
    split
    · exact h.bind fun _ => pure _
    · exact pure _
  refine .onward hk hs fun start => look fun sized => ?_
  split
  · refine (pure none).bind fun _ => mark _ _ fun _ => mark _ _ fun _ => ?_
    exact (commaList _ element).bind fun _ => mark _ _ fun _ => node _ _
  · refine h.option.bind fun _ => mark _ _ fun _ => mark _ _ fun _ => ?_
    exact (commaList _ element).bind fun _ => mark _ _ fun _ => node _ _

end

theorem closed : Below n (closed p) (closed q) := by
  refine h.bind fun _ => look fun _ => ?_
  split
  · exact pure _
  · exact fail

theorem reread {earlier : State} (he : earlier.rest.length < n) :
    Below n (reread earlier p) (reread earlier q) := by
  intro t _
  obtain ⟨heq, -⟩ := h (earlier.rewind t) he
  refine ⟨?_, .of_rest rfl⟩
  unfold Parser.reread
  rw [heq]

theorem sizeof (hk : s.kind ≠ .eof) (hs : s.rest.length < n + 1) : Same (sizeof p) (sizeof q) s := by
  refine .onward hk hs fun start => mark _ _ fun _ t ht => .look ?_
  refine (skip (Stays.of_gives fun _ => .type).closed.attempt fun r => ?_) t ht
  split
  · split
    · exact (h.closed.reread ht).bind fun _ => mark _ _ fun _ => node _ _
    · exact (pure none).bind fun _ => mark _ _ fun _ => node _ _
  · exact h.bind fun _ => mark _ _ fun _ => node _ _

theorem cast (hk : s.kind ≠ .eof) (hs : s.rest.length < n + 1) : Same (cast p) (cast q) s := by
  refine .onward hk hs fun start => mark _ _ fun _ => skip (.of_gives fun _ => .type) fun _ => ?_
  exact mark _ _ fun _ => mark _ _ fun _ => h.bind fun _ => mark _ _ fun _ => node _ _

theorem primary : Below (n + 1) (primary p) (primary q) := by
  refine fun s hs => .look ?_
  split
  · exact (pass fun _ => skip (fun _ => .of_rest rfl) fun _ => pure _) s hs
  split
  · exact (skip (.of_gives fun _ => .path) fun _ => node _ _) s hs
  iterate 2
    rename_i hk
    exact h.template (kind_ne_eof hk nofun) hs
  · rename_i hk
    exact h.paren (kind_ne_eof hk nofun) hs
  · rename_i hk
    refine .look ?_
    split
    · exact h.structInit (kind_ne_eof hk nofun) hs
    · exact expected _ s hs
  · rename_i hk
    exact h.arrayInit (kind_ne_eof hk nofun) hs
  · rename_i hk
    exact h.sizeof (kind_ne_eof hk nofun) hs
  · rename_i hk
    exact h.cast (kind_ne_eof hk nofun) hs
  · exact expected _ s hs

omit h in
theorem fieldSuffix (e : Expr) (arrow : Bool) :
    Below n (fieldSuffix e arrow) (.fieldSuffix e arrow) := by
  refine look fun _ => ?_
  split
  · exact pass fun _ => pass fun _ => node _ _
  · exact pure _

theorem suffix (e : Expr) : Below (n + 1) (suffix p e) (suffix q e) := by
  refine fun s hs => .look ?_
  split
  · rename_i hk
    refine .onward (kind_ne_eof hk nofun) hs fun _ => look fun none => ?_
    split
    · exact (pure []).bind fun _ => mark _ _ fun _ => node _ _
    · exact h.commaSeparated.bind fun _ => mark _ _ fun _ => node _ _
  · exact fieldSuffix e false s hs
  · exact fieldSuffix e true s hs
  · rename_i hk
    refine .onward (kind_ne_eof hk nofun) hs fun _ => ?_
    exact h.bind fun _ => mark _ _ fun _ => node _ _
  iterate 2 exact (pass fun _ => node _ _) s hs
  · exact pure _ s hs

omit h in
theorem applyUnary (ops : List (UnaryOp × Span)) (e : Expr) :
    Below n (applyUnary ops e) (.applyUnary ops e) := by
  induction ops with
  | nil => exact pure e
  | cons op ops ih => exact ih.bind fun _ => skip (fun _ => .of_rest rfl) fun _ => pure _

theorem unary : Below (n + 1) (unary p) (unary q) := by
  refine (many (look fun k => ?_)).bind fun ops => h.primary.bind fun operand =>
    (extend h.suffix operand).bind fun e => applyUnary ops e
  split
  · exact pass fun _ => pure _
  · exact pure _

end Expressions

section Operators

variable {p q : Nat → Parser Expr} (h : ∀ least, Below n (p least) (q least))
include h

theorem exprOf : Below n (exprOf p) (exprOf q) :=
  skip (.of_gives fun _ => .directives) fun _ => (h 0).bind fun _ => pure _

theorem operation (least : Nat) (e : Expr) :
    Below (n + 1) (operation p least e) (operation q least e) := by
  intro s hs
  obtain ⟨r, hr, hwidth⟩ := Gives.peekBinaryOp_eq .plain s
  refine .after hr (.refl s) ?_
  rcases r with _ | ⟨op, width⟩
  · exact pure _ s hs
  dsimp only
  split
  · exact pure _ s hs
  obtain ⟨hk, m, rfl⟩ : s.kind ≠ .eof ∧ ∃ m, width = m + 1 := by
    rcases hwidth op width rfl with ⟨rfl, solid⟩ | ⟨rfl, hk, -⟩
    · exact ⟨solid.1, 0, rfl⟩
    · exact ⟨kind_ne_eof hk nofun, 1, rfl⟩
  have fewer := Nat.lt_of_le_of_lt (Moves.advanceBy m s.advance).length_le (length_advance hk)
  refine .after rfl (.advanceBy (m + 1) s) (((h _).bind fun _ => skip (fun _ => .of_rest rfl) fun _ => pure _) _ ?_)
  exact Nat.lt_of_lt_of_le fewer (Nat.le_of_lt_succ hs)

theorem binaryStep (least : Nat) : Below (n + 1) (binaryStep p least) (binaryStep q least) := by
  refine (exprOf h).unary.bind fun first => (extend (operation h least) first).bind fun left => ?_
  refine fun s hs => .look ?_
  split
  · rename_i hrange
    have hk : s.kind ≠ .eof := by
      intro eof
      simp [eof] at hrange
    exact .onward hk hs fun _ => (h 2).bind fun _ => skip (fun _ => .of_rest rfl) fun _ => pure _
  · exact pure _ s hs

end Operators

section Statements

variable {p q : Parser Stmt} (h : Below n p q)
include h

theorem blockItem : Below n (blockItem p) (blockItem q) := by
  intro s hs
  obtain ⟨heq, moves⟩ := h s hs
  unfold Same
  by_cases hend : s.kind = .eof ∨ s.kind = .punct .rightBrace
  · rw [blockItem_end hend, blockItem_end hend]
    exact ⟨rfl, .refl s⟩
  obtain ⟨hk, hb⟩ := not_or.mp hend
  rcases hrun : q s with ⟨_ | a, u⟩
  · obtain ⟨m, hresumed⟩ := u.resumed_eq s.rest (stmtResync 0)
    rw [blockItem_failed hk hb (heq.trans hrun), blockItem_failed hk hb hrun, hresumed]
    rw [hrun] at moves
    exact ⟨rfl, (moves.trans (.advanceBy m u)).trans (.of_rest rfl)⟩
  · rw [blockItem_read hk hb (heq.trans hrun), blockItem_read hk hb hrun]
    rw [hrun] at moves
    exact ⟨rfl, moves.trans (.of_rest rfl)⟩

theorem block : Below (n + 1) (block p) (block q) :=
  fun _ hs => .mark _ _ hs fun _ => (many h.blockItem).bind fun _ => mark _ _ fun _ => node _ _

theorem blockStmt : Below (n + 1) (blockStmt p) (blockStmt q) := h.block.bind fun _ => pure _

section

variable (hk : s.kind ≠ .eof) (hs : s.rest.length < n + 1)

include hk hs

theorem condStmt : Same (condStmt p) (condStmt q) s := by
  have branch := h.blockStmt.mono (Nat.le_succ n)
  refine .onward hk hs fun start => skip (.of_gives fun _ => .expr) fun _ => branch.bind fun _ => ?_
  refine eat _ fun otherwise => ?_
  split
  · refine look fun chained => ?_
    split
    · exact h.option.bind fun _ => node _ _
    · exact branch.option.bind fun _ => node _ _
  · exact (pure none).bind fun _ => node _ _

theorem loopStmt : Same (loopStmt p) (loopStmt q) s :=
  .onward hk hs fun _ => skip (.of_gives fun _ => .expr) fun _ =>
    (h.blockStmt.mono (Nat.le_succ n)).bind fun _ => node _ _

theorem foreachStmt : Same (foreachStmt p) (foreachStmt q) s := by
  refine .onward hk hs fun start => skip (.of_gives fun _ => .identifier) fun _ => look fun _ => ?_
  split
  · exact fun t _ => .look ⟨rfl, .report t _ _⟩
  refine skip (.expect _ _) fun _ => skip (.of_gives fun _ => .expr) fun _ => ?_
  exact (h.blockStmt.mono (Nat.le_succ n)).bind fun _ => node _ _

theorem deferStmt : Same (deferStmt p) (deferStmt q) s := .onward hk hs fun _ => h.bind fun _ => node _ _

end

theorem stmtStep : Below (n + 1) (stmtStep p) (stmtStep q) := by
  refine skip (.of_gives fun _ => .directives) fun ds s hs => .look ?_
  lift_lets
  intro jp
  have rest {x y : Parser Stmt} (hxy : Same x y s) : Same (x >>= jp) (y >>= jp) s :=
    hxy.bind fun _ t _ => ⟨rfl, .refl t⟩
  split
  · exact rest (h.blockStmt s hs)
  · rename_i hk
    exact rest (h.condStmt (kind_ne_eof hk nofun) hs)
  · rename_i hk
    exact rest (h.loopStmt (kind_ne_eof hk nofun) hs)
  · rename_i hk
    exact rest (h.foreachStmt (kind_ne_eof hk nofun) hs)
  · rename_i hk
    exact rest (.of_gives (.returnStmt hk))
  · rename_i hk
    exact rest (h.deferStmt (kind_ne_eof hk nofun) hs)
  · rename_i hk
    exact rest (.of_gives (.crashStmt hk))
  · rename_i hk
    exact rest (.of_gives (.switchStmt hk))
  iterate 2 exact rest (.of_gives .varStmt)
  · exact rest (.of_gives .simpleStmt)

end Statements

end Below
end Quill.Parser
