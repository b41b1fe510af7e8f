import Quill.Proofs.WordReading

/-!
# Operands of `sizeof`

An operand of `sizeof` that reads as a type and could also name a value is a name with lengths in
brackets behind it. The expression that the same tokens make goes just as far: a reference with these
lengths for indices. Reading them again leaves no trace but the identities that it takes.
-/
namespace Quill.Parser

/-- Arrays of a named type with these lengths, the innermost first. -/
inductive Arrays (n : String) : List Word → TypeExpr → Prop
  | name {i : Info} : Arrays n [] (.named i [n] [])
  | array {i : Info} {t : TypeExpr} {ws : List Word} {w : Word} : Arrays n ws t →
    Arrays n (ws ++ [w]) (.array i t (some w.2))

def lengthExpr (i : Info) (w : Word) : Expr :=
  if w.1 = .intLiteral then .literal i (.int w.2) else .ref i [w.2]

inductive Indexed (n : String) : List Word → Expr → Prop
  | name {i : Info} : Indexed n [] (.ref i [n])
  | index {i j : Info} {e : Expr} {ws : List Word} {w : Word} : Indexed n ws e →
    Indexed n (ws ++ [w]) (.index i e (lengthExpr j w))

inductive Brackets : List Word → List Word → Prop
  | nil : Brackets [] []
  | cons {l w r : Word} {ws vs : List Word} : l.1 = .punct .leftBracket →
    w.1 = .intLiteral ∨ w.1 = .identifier → r.1 = .punct .rightBracket → Brackets ws vs →
    Brackets (w :: ws) (l :: w :: r :: vs)

variable {α β : Type} {s s' t u : State} {n : String}

theorem Arrays.withDirectives {ws : List Word} {type : TypeExpr} (h : Arrays n ws type)
    (ds : List Directive) : Arrays n ws (type.withDirectives ds) := by
  cases h with
  | name => exact .name
  | array h => exact .array h

theorem Indexed.withDirectives {ws : List Word} {e : Expr} (h : Indexed n ws e) (ds : List Directive) :
    Indexed n ws (e.withDirectives ds) := by
  cases h with
  | name => exact .name
  | index h => exact .index h

theorem eq_some_of_bind {p : Parser α} {f : α → Parser β} {b : β} (h : (p >>= f) s = (some b, u)) :
    ∃ a t, p s = (some a, t) ∧ f a t = (some b, u) := by
  rw [bind_apply] at h
  rcases hp : p s with ⟨_ | a, t⟩
  · rw [hp] at h
    cases h
  · rw [hp] at h
    exact ⟨a, t, rfl, h⟩

section Again

/-- Where `p` succeeds it does so again at the same place, with the same result. -/
def Echoes (p : Parser α) : Prop := ∀ s s' a u, s'.rest = s.rest → s'.last = s.last →
  p s = (some a, u) → ∃ u', p s' = (some a, u') ∧ u'.rest = u.rest ∧ u'.last = u.last

namespace Echoes

theorem pure (a : α) : Echoes (Pure.pure a) := by
  intro s s' b u hrest hlast hrun
  cases hrun
  exact ⟨s', rfl, hrest, hlast⟩

theorem fail : Echoes (fail : Parser α) := by
  intro s s' b u _ _ hrun
  cases hrun

theorem bind {p : Parser α} {f : α → Parser β} (hp : Echoes p) (hf : ∀ a, Echoes (f a)) :
    Echoes (p >>= f) := by
  intro s s' b u hrest hlast hrun
  obtain ⟨a, t, ha, hb⟩ := eq_some_of_bind hrun
  obtain ⟨t', ha', hrest', hlast'⟩ := hp s s' a t hrest hlast ha
  obtain ⟨u', hb', h⟩ := hf a t t' b u hrest' hlast' hb
  exact ⟨u', by rw [bind_apply, ha']; exact hb', h⟩

theorem look {f : State → α} (h : ∀ s s' : State, s'.rest = s.rest → s'.last = s.last → f s' = f s) :
    Echoes (inspect f) := by
  intro s s' a u hrest hlast hrun
  cases hrun
  exact ⟨s', by rw [inspect, h s s' hrest hlast], hrest, hlast⟩

theorem peek_eq (hrest : s'.rest = s.rest) (hlast : s'.last = s.last) : s'.peek = s.peek := by
  rw [State.peek, State.peek, hrest, hlast]

theorem advance : Echoes advance := by
  intro s s' a u hrest hlast hrun
  cases hrun
  refine ⟨s'.advance, by rw [Parser.advance, peek_eq hrest hlast], ?_⟩
  rw [State.advance, State.advance, hrest]
  split
  · split
    · exact ⟨hrest, hlast⟩
    · exact ⟨rfl, rfl⟩
  · exact ⟨hrest, hlast⟩

theorem expect (k : TokenKind) (what : String) : Echoes (expect k what) := by
  intro s s' a u hrest hlast hrun
  have hkind := State.kind_congr hrest
  unfold Parser.expect at hrun ⊢
  rw [hkind]
  split at hrun
  · rename_i hk
    rw [if_pos hk]
    exact advance s s' a u hrest hlast hrun
  · cases hrun

theorem many {item : Parser (Option α)} (h : Echoes item) : Echoes (many item) := by
  have within (fuel : Fuel) : Echoes (manyWithin item fuel) := by
    induction fuel with
    | nil => exact fail
    | cons t fuel ih =>
      refine h.bind fun r => ?_
      cases r with
      | none => exact pure _
      | some a => exact ih.bind fun _ => pure _
  intro s s' a u hrest hlast hrun
  have hfuel : s'.peek :: s'.rest = s.peek :: s.rest := by rw [peek_eq hrest hlast, hrest]
  unfold Parser.many fuelled at hrun ⊢
  rw [hfuel]
  exact within _ s s' a u hrest hlast hrun

theorem directives : Echoes directives := by
  have span (start : Span) : Echoes (spanFrom start) :=
    look fun s s' _ hlast => by rw [hlast]
  refine many (bind (look fun s s' hrest _ => by rw [State.kind_congr hrest]) fun here => ?_)
  split
  · refine bind (advance.bind fun token => ?_) fun d => pure _
    split
    · intro s s' a u _ _ hrun
      cases hrun
    · lift_lets
      intro finish
      have hfinish (argument : Option String) : Echoes (finish argument) := (span _).bind fun _ => pure _
      split
      · exact bind (expect _ _) fun _ => bind (expect _ _) fun _ => bind (expect _ _) fun _ => hfinish _
      · exact hfinish _
  · exact pure _

end Echoes

end Again

section Types

/-- From `s` every result and the state behind it are as said. -/
def Leaves (p : Parser α) (s : State) (P : α → State → Prop) : Prop := ∀ a u, p s = (some a, u) → P a u

namespace Leaves

variable {P : β → State → Prop}

theorem pure {b : β} (h : P b s) : Leaves (Pure.pure b) s P := by
  rintro _ _ ⟨⟩
  exact h

theorem bind {p : Parser α} {f : α → Parser β} (h : ∀ a t, p s = (some a, t) → Leaves (f a) t P) :
    Leaves (p >>= f) s P := by
  intro b u hrun
  obtain ⟨a, t, ha, hb⟩ := eq_some_of_bind hrun
  exact h a t ha b u hb

theorem look {f : State → α} {g : α → Parser β} (h : Leaves (g (f s)) s P) :
    Leaves (inspect f >>= g) s P := h

theorem advance {g : Token → Parser β} (h : Leaves (g s.peek) s.advance P) :
    Leaves (advance >>= g) s P := h

end Leaves

theorem many_nil {item : Parser (Option α)} (h : many item s = (some [], u)) :
    item s = (some none, u) := by
  obtain ⟨r, t, hitem, h⟩ := eq_some_of_bind (p := item) h
  cases r with
  | none =>
    cases h
    exact hitem
  | some a =>
    obtain ⟨as, v, -, h⟩ := eq_some_of_bind h
    cases h

theorem words_eq_cons (h : s.kind ≠ .eof) : s.words = s.peek.word :: s.advance.words := by
  unfold State.words
  rw [(State.advance_eq h).1]
  rfl

theorem path_single (hk : s.kind = .identifier) :
    Leaves path s fun names u => names = [n] → s.words = (.identifier, n) :: u.words := by
  have hword := words_eq_cons (State.kind_ne_eof hk (by simp))
  rw [path_eq]
  refine .bind fun name t hname => .bind fun more u hmore => .pure fun heq => ?_
  have hrun : identifier "a name" s = (some s.peek.text, s.advance) := by
    simp only [identifier, bind_apply, expect, hk]
    rfl
  obtain ⟨hfirst, rfl⟩ := Prod.mk.inj (hname.symm.trans hrun)
  obtain ⟨rfl, rfl⟩ := List.cons.inj heq
  have stays : Leaves pathRound s.advance fun r u => r = none → u = s.advance := by
    refine .look (.look ?_)
    split
    · exact .bind fun _ _ _ => .bind fun _ _ _ => .pure fun h => absurd h (by simp)
    · exact .pure fun _ => rfl
  rw [hword, stays none u (many_nil hmore) rfl, Option.some.inj hfirst]
  exact congrArg (fun k => (k, s.peek.text) :: s.advance.words) hk

theorem typeBase_value : Leaves (typeBase type) s fun b u => b.valueName? = some n →
    Arrays n [] b ∧ s.words = (.identifier, n) :: u.words := by
  refine .look ?_
  split
  · exact .bind fun _ _ _ => .bind fun _ _ _ => .pure nofun
  · exact .bind fun _ _ _ => .bind fun _ _ _ => .pure nofun
  · rename_i hk
    refine .bind fun names u hpath => .bind fun i v hi => .pure fun hn => ?_
    cases hi
    obtain rfl : names = [n] := by
      unfold TypeExpr.valueName? at hn
      split at hn
      · cases hn; simp_all
      · simp_all
      · cases hn
    exact ⟨.name, path_single hk _ u hpath rfl⟩
  · exact .bind fun _ _ _ => .bind fun _ _ _ => .bind fun _ _ _ => .bind fun _ _ _ => .pure nofun
  · exact fun _ _ h => nomatch h

/-- What is read behind `b` is nothing, or a length in brackets if the type could name a value. -/
structure Sizes (n : String) (b : TypeExpr) (s : State) (r : Option TypeExpr) (u : State) : Prop where
  stays : r = none → u = s
  sized : ∀ b' ∈ r, b'.valueName? = some n → b.valueName? = some n ∧ ∃ l w r i,
    l.1 = .punct .leftBracket ∧ (w.1 = .intLiteral ∨ w.1 = .identifier) ∧
    r.1 = .punct .rightBracket ∧ s.words = l :: w :: r :: u.words ∧ b' = .array i b (some w.2)

section Suffixes

variable {b : TypeExpr}

theorem Sizes.nothing : Sizes n b s none s := ⟨fun _ => rfl, nofun⟩

theorem Sizes.other {b' : TypeExpr} (h : b'.valueName? = none) : Sizes n b s (some b') u := by
  refine ⟨nofun, ?_⟩
  rintro _ ⟨⟩ hn
  cases h.symm.trans hn

theorem arraySuffix_value (hk : s.kind = .punct .leftBracket) :
    Leaves (arraySuffix b) s (Sizes n b s) := by
  have hfirst := State.kind_ne_eof hk nofun
  have sized {k : TokenKind} {i : Info} {v : State} (hlength : k = .intLiteral ∨ k = .identifier)
      (h1 : s.kindAt 1 = k) (h2 : s.kindAt 2 = .punct .rightBracket)
      (hv : v.words = s.advance.advance.advance.words) :
      Sizes n b s (some (.array i b (some s.advance.peek.text))) v := by
    rw [State.kindAt_one hfirst] at h1
    have hsecond : s.advance.kind ≠ .eof := by
      rw [h1]
      rcases hlength with rfl | rfl <;> nofun
    rw [State.kindAt_two hfirst, State.kindAt_one hsecond] at h2
    have hwords := words_eq_cons hfirst
    rw [words_eq_cons hsecond, words_eq_cons (State.kind_ne_eof h2 nofun), ← hv] at hwords
    refine ⟨nofun, ?_⟩
    rintro _ ⟨⟩ hn
    exact ⟨hn, _, _, _, i, hk, hlength.imp h1.trans h1.trans, h2, hwords, rfl⟩
  refine .look (.look ?_)
  split
  iterate 2 exact .bind fun _ _ _ => .bind fun _ _ _ => .pure (.other rfl)
  · rename_i h1 h2
    refine .advance (.advance (.advance (.bind fun i v hi => .pure ?_)))
    cases hi
    exact sized (.inl rfl) h1 h2 rfl
  · rename_i h1 h2
    refine .advance (.advance (.advance (.bind fun i v hi => .pure ?_)))
    cases hi
    exact sized (.inr rfl) h1 h2 rfl
  · exact .pure .nothing

theorem typeSuffix_value : Leaves (typeSuffix type b) s (Sizes n b s) := by
  refine .look ?_
  split
  · exact .bind fun _ _ _ => .bind fun _ _ _ => .pure (.other rfl)
  · refine .look ?_
    split
    · exact .bind fun _ _ _ => .bind fun _ _ _ => .pure (.other rfl)
    · exact .pure .nothing
  · rename_i hk
    exact arraySuffix_value hk
  · split
    · refine .bind fun _ _ _ => .bind fun args _ hargs => .bind fun _ _ _ => .bind fun _ _ _ => .pure ?_
      have hne : args ≠ [] := Yields.cons _ _ _ hargs
      obtain ⟨a, as, rfl⟩ := List.exists_cons_of_ne_nil hne
      exact .other (by simp [TypeExpr.valueName?])
    · exact .pure .nothing
  · exact .bind fun _ _ _ => .bind fun _ _ _ => .pure (.other rfl)
  · exact .bind fun _ _ _ => .bind fun _ _ _ => .bind fun _ _ _ => .pure (.other rfl)
  · exact .pure .nothing

end Suffixes

theorem extend_value {b : TypeExpr} : Leaves (extend (typeSuffix type) b) s fun ty u =>
    ty.valueName? = some n → b.valueName? = some n ∧ ∃ ws vs, Brackets ws vs ∧
      s.words = vs ++ u.words ∧ ∀ front, Arrays n front b → Arrays n (front ++ ws) ty := by
  have within (fuel : Fuel) (b : TypeExpr) (s : State) : Leaves (extendWithin (typeSuffix type) fuel b) s
      fun ty u => ty.valueName? = some n → b.valueName? = some n ∧ ∃ ws vs, Brackets ws vs ∧
        s.words = vs ++ u.words ∧ ∀ front, Arrays n front b → Arrays n (front ++ ws) ty := by
    induction fuel generalizing b s with
    | nil => exact fun _ _ h => nomatch h
    | cons token fuel ih =>
      refine .bind fun r t hstep => ?_
      cases r with
      | none =>
        rw [(typeSuffix_value (n := n) none t hstep).stays rfl]
        exact .pure fun hn => ⟨hn, [], [], .nil, rfl, fun front h => by simpa using h⟩
      | some b' =>
        intro ty u hrun hn
        obtain ⟨hb', ws, vs, brackets, hwords, arrays⟩ := ih b' t ty u hrun hn
        obtain ⟨hb, l, w, r, i, hl, hw, hr, hfirst, rfl⟩ :=
          (typeSuffix_value _ t hstep).sized b' rfl hb'
        refine ⟨hb, w :: ws, l :: w :: r :: vs, .cons hl hw hr brackets, by rw [hfirst, hwords]; rfl, ?_⟩
        intro front h
        have := arrays (front ++ [w]) (.array h)
        rwa [List.append_assoc] at this
  exact within _ b s

/-- Behind its directives a type that could name a value is a name with lengths in brackets. -/
theorem type_value {ty : TypeExpr} (h : type s = (some ty, u)) (hn : ty.valueName? = some n) :
    ∃ ds t ws vs, directives s = (some ds, t) ∧ Arrays n ws ty ∧ Brackets ws vs ∧
      t.words = (.identifier, n) :: (vs ++ u.words) := by
  have tie : type s = typeStep type s := (ties_type (fun _ => type) () s fun _ _ _ => rfl).symm
  rw [tie] at h
  obtain ⟨ds, t, hds, h⟩ := eq_some_of_bind h
  obtain ⟨b, v, hb, h⟩ := eq_some_of_bind h
  obtain ⟨ty', w, hty, h⟩ := eq_some_of_bind h
  cases h
  have hname : (ty'.withDirectives ds).valueName? = ty'.valueName? := by
    cases ty' with
    | named i path args => rcases path with _ | ⟨x, _ | ⟨y, more⟩⟩ <;> cases args <;> rfl
    | array i t len => cases len <;> rfl
    | _ => rfl
  have hn' : ty'.valueName? = some n := by
    split at hn
    · exact hn
    · exact hname.symm.trans hn
  obtain ⟨hbase, ws, vs, brackets, hwords, arrays⟩ := extend_value ty' u hty hn'
  obtain ⟨single, hfirst⟩ := typeBase_value b v hb hbase
  refine ⟨ds, t, ws, vs, hds, ?_, brackets, by rw [hfirst, hwords]⟩
  have := arrays [] single
  rw [List.nil_append] at this
  split
  · exact this
  · exact this.withDirectives ds

end Types

section Expressions

variable {ws vs rest : List Word}

/-- Operands joined by operators of at least the given precedence. -/
def joined (least : Nat) : Parser Expr := fuelled (binaryAt · least)

theorem expr_eq : expr = exprOf joined := by
  have iterates (fuel : Fuel) : binaryAt fuel = binaryStep^[fuel.length] fun _ => fail := by
    induction fuel with
    | nil => rfl
    | cons t fuel ih =>
      rw [List.length_cons, Function.iterate_succ_apply', ← ih]
      rfl
  funext s
  refine bind_congr fun ds u hu => ?_
  have passed := (Reader.directives.moves s).length_le
  rw [hu] at passed
  have same : binaryAt (s.peek :: s.rest) 0 u = joined 0 u := by
    rw [iterates]
    exact Recurs.operators.unrolls _ _ 0 u (Nat.lt_succ_of_le passed)
  rw [bind_apply, bind_apply, same]

theorem consumes_nodeAt (span : Span) : Consumes (nodeAt span) [] rest fun _ => True :=
  fun _ hs => ⟨_, _, rfl, trivial, hs⟩

theorem consumes_nodeFrom (start : Span) : Consumes (nodeFrom start) [] rest fun _ => True :=
  .look fun _ _ => consumes_nodeAt _

/-- What stands behind an operand in parentheses or brackets. -/
def Closes (rest : List Word) : Prop :=
  firstKind rest = .punct .rightParen ∨ firstKind rest = .punct .rightBracket

theorem consumes_joined {w : Word} {Q : Expr → Prop} (hw : unaryOp? w.1 = none) (hrest : Closes rest)
    (h : Consumes (primary expr >>= extend (suffix expr)) (w :: ws) rest Q) :
    Consumes (joined 0) (w :: ws) rest Q := by
  have signs : Consumes (many signRound) [] (w :: ws ++ rest) (· = []) := by
    refine .many_stop progresses_signRound (.kind ?_)
    rw [show unaryOp? (firstKind ([] ++ (w :: ws ++ rest))) = none from hw]
    exact .pure rfl
  have operand : Consumes (unary expr) (w :: ws) rest Q := by
    rw [unary_eq]
    refine .bind signs fun ops hops => ?_
    subst hops
    intro s hs
    obtain ⟨e, u, hrun, he, hu⟩ := h s hs
    obtain ⟨base, v, hbase, hmore⟩ := eq_some_of_bind hrun
    exact ⟨e, u, by rw [bind_apply, hbase]; dsimp only; rw [bind_apply, hmore]; rfl, he, hu⟩
  have stops (e : Expr) : Consumes (extend (operation joined 0) e) [] rest (· = e) := by
    refine .extend_stop (progresses_operation 0) ?_
    have none : Consumes peekBinaryOp [] rest (· = none) := by
      refine .kind ?_
      rcases hrest with hk | hk <;> rw [List.nil_append, hk] <;> exact .pure rfl
    exact .last none fun r hr => hr ▸ .pure rfl
  intro s hs
  have tie : joined 0 s = binaryStep joined 0 s := (ties_binary joined 0 s fun _ _ _ => rfl).symm
  rw [tie, binaryStep, ← expr_eq]
  refine Consumes.last operand (fun e he => .last (stops e) fun e' he' => ?_) s hs
  subst he'
  refine .kind ?_
  rcases hrest with hk | hk <;> rw [List.nil_append, hk] <;> exact .pure he

theorem consumes_name (h : firstKind rest ≠ .punct .colonColon) :
    Consumes (primary expr) [(.identifier, n)] rest fun e => ∃ i, e = .ref i [n] := by
  refine .peek fun token htoken => ?_
  have hk : token.kind = .identifier := congrArg Prod.fst htoken
  have literal : literal? token = none := by rw [literal?, hk]
  rw [literal]
  simp only [hk]
  have single : Consumes path [(.identifier, n)] rest (· = [n]) := @Consumes.path rest n [] h
  exact .last single fun names hnames => .last (consumes_nodeFrom _) fun i _ => .pure ⟨i, by rw [hnames]⟩

theorem consumes_number (x : String) :
    Consumes (primary expr) [(.intLiteral, x)] rest fun e => ∃ i, e = .literal i (.int x) := by
  refine .peek fun token htoken => ?_
  obtain ⟨hk, rfl⟩ := Prod.mk.inj htoken
  have literal : literal? token = some (.int token.text) := by rw [literal?, hk]
  rw [literal]
  exact .last (.advance (by simp)) fun _ _ => .last (consumes_nodeAt _) fun i _ => .pure ⟨i, rfl⟩

theorem consumes_length {w : Word} (hw : w.1 = .intLiteral ∨ w.1 = .identifier) (hrest : Closes rest) :
    Consumes expr [w] rest fun e => ∃ i, e = lengthExpr i w := by
  have hcolons : firstKind rest ≠ .punct .colonColon := by rcases hrest with h | h <;> rw [h] <;> nofun
  have stops (e : Expr) : Consumes (extend (suffix expr) e) [] rest (· = e) := by
    refine .extend_stop progresses_suffix (.kind ?_)
    rcases hrest with hk | hk <;> rw [List.nil_append, hk] <;> exact .pure rfl
  have operand : unaryOp? w.1 = none ∧ w.1 ≠ .directive ∧
      Consumes (primary expr) [w] rest fun e => ∃ i, e = lengthExpr i w := by
    obtain ⟨k, x⟩ := w
    rcases hw with rfl | rfl
    · exact ⟨rfl, nofun, consumes_number x⟩
    · exact ⟨rfl, nofun, consumes_name hcolons⟩
  rw [expr_eq]
  have undirected : Consumes directives [] ([w] ++ rest) (· = []) := .directives operand.2.1
  refine .bind undirected fun ds hds => ?_
  subst hds
  refine .last (consumes_joined operand.1 hrest (.last operand.2.2 fun e he => ?_)) fun e he => .pure he
  exact (stops e).weaken fun _ heq => heq ▸ he

theorem consumes_brackets {front : List Word} {e : Expr} (h : Brackets ws vs) (he : Indexed n front e)
    (hrest : firstKind rest = .punct .rightParen) :
    Consumes (extend (suffix expr) e) vs rest (Indexed n (front ++ ws)) := by
  induction h generalizing front e with
  | nil =>
    refine (Consumes.extend_stop progresses_suffix (.kind ?_)).weaken fun e' he' => ?_
    · rw [List.nil_append, hrest]
      exact .pure rfl
    · rw [he', List.append_nil]
      exact he
  | @cons l w r ws vs hl hw hr _ ih =>
    have step : Consumes (suffix expr e) [l, w, r] (vs ++ rest) fun b => ∃ e', b = some e' ∧
        Indexed n (front ++ [w]) e' := by
      refine .kind ?_
      rw [show firstKind ([l, w, r] ++ (vs ++ rest)) = .punct .leftBracket from hl]
      refine .word (.advance (by rw [hl]; nofun)) fun _ _ => ?_
      refine .word (consumes_length hw (.inr hr)) fun position hposition => ?_
      obtain ⟨j, rfl⟩ := hposition
      refine .last (hr ▸ Consumes.expect (by rw [hr]; nofun) _) fun _ _ => ?_
      exact .last (consumes_nodeFrom _) fun i _ => .pure ⟨_, rfl, .index he⟩
    have := Consumes.extend_more progresses_suffix step fun e' he' => ih he'
    simpa using this

/-- A name with lengths in brackets behind it is read as a reference with indices. -/
theorem consumes_value (h : Brackets ws vs) (hrest : firstKind rest = .punct .rightParen) :
    Consumes (joined 0) ((.identifier, n) :: vs) rest (Indexed n ws) := by
  have hcolons : firstKind (vs ++ rest) ≠ .punct .colonColon := by
    cases h with
    | nil =>
      rw [List.nil_append, hrest]
      nofun
    | cons hl _ _ _ =>
      show Prod.fst _ ≠ _
      rw [hl]
      nofun
  refine consumes_joined rfl (.inl hrest) (.word (consumes_name hcolons) fun e he => ?_)
  obtain ⟨i, rfl⟩ := he
  exact consumes_brackets h .name hrest

end Expressions

section Sizeof

def sizeofOnly : Parser Expr := do
  let start := (← advance).span
  let _ ← mark .leftParen "'(' after sizeof"
  let type ← closed type
  let _ ← mark .rightParen "')' to close sizeof"
  return .sizeofType (← nodeFrom start) type none

theorem Steps.file_eq {m : Mode} {st : List Item} (h : Steps m s st u) : u.file = s.file := by
  have forward (n : Nat) (s : State) : (s.advanceBy n).file = s.file := by
    induction n generalizing s with
    | zero => rfl
    | succ n ih => rw [State.advanceBy, ih, State.advance_frame]
  have told {s u : State} (h : s.Told u) : u.file = s.file := by
    obtain ⟨problem, span, -, rfl⟩ := h
    unfold State.report
    split <;> rfl
  induction h with
  | refl => rfl
  | pass _ _ ih | word _ _ _ ih | name _ _ ih | length _ _ ih | sign _ _ ih =>
    rw [State.advance_frame]
    exact ih
  | start _ ih | text _ _ _ ih | directive _ _ ih | make _ _ ih | inner _ _ ih | settle _ ih
  | dress _ ih | given _ _ ih | node _ _ _ ih | type _ _ _ ih | file _ _ _ ih | unmute _ ih => exact ih
  | body n _ _ ih => exact (forward n _).trans ih
  | tried _ _ _ _ hw ih _ _ again =>
    refine Eq.trans ?_ ih
    rcases hw with rfl | hw
    · exact again
    · exact (told hw).trans again
  | operand _ _ _ _ ih _ _ again => exact Eq.trans again ih
  | mend n _ _ hw ih ih' => exact (forward n _).trans ((told hw).trans (ih'.trans ih))

theorem closed_eq_some_iff {p : Parser α} {a : α} :
    closed p s = (some a, u) ↔ p s = (some a, u) ∧ u.kind = .punct .rightParen := by
  rcases hp : p s with ⟨_ | b, t⟩
  · rw [closed, bind_apply, hp]
    exact iff_of_false nofun fun h => nomatch h.1
  · have hclosed : closed p s = if t.kind == .punct .rightParen then (some b, t) else (none, t) := by
      rw [closed, bind_apply, hp]
      show (if t.kind == .punct .rightParen then _ else _ : Parser α) t = _
      split <;> rfl
    rw [hclosed]
    split
    · rename_i hk
      refine (and_iff_left_of_imp fun h => ?_).symm
      rw [← (Prod.mk.inj h).2]
      exact eq_of_beq hk
    · rename_i hk
      refine iff_of_false nofun fun h => hk ?_
      rw [(Prod.mk.inj h.1).2, h.2]
      rfl

/-- Where a type could name a value, an expression is read that goes as far. -/
theorem expr_value {ty : TypeExpr} (h : type s = (some ty, u)) (hclose : u.kind = .punct .rightParen)
    (hn : ty.valueName? = some n) (s' : State) (hrest : s'.rest = s.rest) (hlast : s'.last = s.last) :
    ∃ e v ws, expr s' = (some e, v) ∧ v.rest = u.rest ∧ Arrays n ws ty ∧ Indexed n ws e := by
  obtain ⟨ds, d, ws, vs, hds, arrays, brackets, hwords⟩ := type_value h hn
  obtain ⟨d', hds', hrest', -⟩ := Echoes.directives s s' ds d hrest hlast hds
  have hwords' : d'.words = (.identifier, n) :: vs ++ u.words := by
    rw [State.words, hrest']
    exact hwords
  obtain ⟨e, v, hrun, he, hv⟩ := consumes_value brackets ((u.kind_eq).symm.trans hclose) d' hwords'
  have hexpr : expr s' = (some (if ds.isEmpty then e else e.withDirectives ds), v) := by
    rw [expr_eq, exprOf, bind_apply, hds']
    dsimp only
    rw [bind_apply, hrun]
    rfl
  refine ⟨_, v, ws, hexpr, ?_, arrays, ?_⟩
  · -- Both readings have passed over the same number of the same tokens.
    have first := (Reader.expr.moves s').suffix
    have second := (Reader.type.moves s).suffix
    rw [hexpr, hrest] at first
    rw [h] at second
    have hlength : v.rest.length = u.rest.length := by
      simpa [State.words] using congrArg List.length hv
    have both := List.suffix_of_suffix_length_le first second (Nat.le_of_eq hlength)
    exact both.eq_of_length hlength
  · split
    · exact he
    · exact he.withDirectives ds

theorem rewind_eq {o v : State} {e : Expr} {ty : TypeExpr} (hty : type o = (some ty, u))
    (hexpr : expr (o.rewind u) = (some e, v)) :
    u.rewind v = { u with nodes := v.nodes, types := v.types } := by
  have first := Gives.type (m := .plain) (n := o.rest.length) (c := false) o [] .refl (Nat.le_refl _)
  have again := Gives.expr (m := .plain) (n := o.rest.length) (c := false) (o.rewind u) [] .refl
    (Nat.le_refl _)
  rw [hty] at first
  rw [hexpr] at again
  have quiet := (first.1.quiet nofun).rewind (.inr (again.1.quiet nofun))
  have hfile : v.file = u.file := again.1.file_eq
  have hproblems : v.problems.take u.problems.length = u.problems := quiet.problems
  have hrecoveries : v.recoveries = u.recoveries := quiet.recoveries
  rw [State.rewind, hproblems, hrecoveries, hfile]

/-- Wherever an operand of `sizeof` reads as a type that could name a value, it also reads as an
expression, up to the same closing parenthesis. That expression is kept: it is a reference to the name
with the lengths of the type for indices, the innermost first. But for the identities given out all
goes on as if only the type had been read. -/
theorem sizeof_readings {s u : State} {type : TypeExpr} {n : String}
    (hopen : s.advance.kind = .punct .leftParen)
    (h : closed .type s.advance.advance = (some type, u)) (hn : type.valueName? = some n) :
    ∃ operand v ws i w i' w', closed expr (s.advance.advance.rewind u) = (some operand, v) ∧
      v.rest = u.rest ∧ Arrays n ws type ∧ Indexed n ws operand ∧
      sizeof expr s = (some (.sizeofType i type (some operand)), w) ∧
      sizeofOnly s = (some (.sizeofType i' type none), w') ∧ i.span = i'.span ∧
      w = { w' with nodes := w.nodes, types := w.types } := by
  obtain ⟨hty, hclose⟩ := closed_eq_some_iff.mp h
  obtain ⟨operand, v, ws, hexpr, hrest, arrays, indexed⟩ :=
    expr_value hty hclose hn (s.advance.advance.rewind u) rfl rfl
  have hclosed := closed_eq_some_iff.mpr ⟨hexpr, (State.kind_congr hrest).trans hclose⟩
  have hback := rewind_eq hty hexpr
  have hleft (what : String) : mark .leftParen what s.advance = (some s.advance.peek, s.advance.advance) :=
    if_pos (beq_iff_eq.mpr hopen)
  have hright (what : String) : mark .rightParen what u = (some u.peek, u.advance) :=
    if_pos (beq_iff_eq.mpr hclose)
  have hright' (what : String) : mark .rightParen what (u.rewind v) =
      (some u.peek, { u.advance with nodes := v.nodes, types := v.types }) := by
    rw [hback]
    refine (if_pos (beq_iff_eq.mpr hclose)).trans (congrArg (Prod.mk _) ?_)
    simp only [State.advance]
    split
    · split <;> rfl
    · rfl
  have hattempt : attempt (closed .type) s.advance.advance = (some (some type), u) := by
    rw [attempt, h]
  have hreread : reread s.advance.advance (closed expr) u = (some (some operand), u.rewind v) := by
    rw [reread, hclosed]
  refine ⟨operand, v, ws, ⟨v.nodes, u.advance.upTo s.peek.span, []⟩,
    { u.advance with nodes := v.nodes + 1, types := v.types },
    ⟨u.advance.nodes, u.advance.upTo s.peek.span, []⟩,
    { u.advance with nodes := u.advance.nodes + 1 }, hclosed, hrest, arrays, indexed, ?_, ?_, rfl, rfl⟩
  · show (mark .leftParen _ >>= fun _ => _) s.advance = _
    rw [bind_apply, hleft]
    show (attempt (closed .type) >>= _) s.advance.advance = _
    rw [bind_apply, hattempt]
    dsimp only
    rw [if_pos (by rw [hn]; rfl), bind_apply, hreread]
    dsimp only
    rw [bind_apply, hright']
    rfl
  · show (mark .leftParen _ >>= fun _ => _) s.advance = _
    rw [bind_apply, hleft]
    dsimp only
    rw [bind_apply, h]
    dsimp only
    rw [bind_apply, hright]
    rfl

/-- An operand with a directive, a number and a name for lengths. -/
theorem sizeof_readings_grid :
    let s := State.start 0 (Token.kept (Lexer.scan 0 "sizeof(@restrict grid[3][width])")) 7 4
    s.advance.kind = .punct .leftParen ∧ ∃ type u operand v i w,
      closed .type s.advance.advance = (some type, u) ∧ type.valueName? = some "grid" ∧
      closed expr (s.advance.advance.rewind u) = (some operand, v) ∧ v.rest = u.rest ∧
      sizeof expr s = (some (.sizeofType i type (some operand)), w) := by
  intro s
  have hopen : s.advance.kind = .punct .leftParen := by decide +kernel
  have hread : (closed Parser.type s.advance.advance).1.bind TypeExpr.valueName? = some "grid" := by
    decide +kernel
  obtain ⟨type, htype, hn⟩ := Option.bind_eq_some_iff.mp hread
  have hrun : closed .type s.advance.advance = (some type, (closed .type s.advance.advance).2) := by
    rw [← htype]
  obtain ⟨operand, v, _, i, w, _, _, hclosed, hrest, -, -, hsizeof, -⟩ := sizeof_readings hopen hrun hn
  exact ⟨hopen, type, _, operand, v, i, w, hrun, hn, hclosed, hrest, hsizeof⟩

end Sizeof

end Quill.Parser
