import Mathlib.Data.List.Infix
import Quill.Proofs.TokenSpacing

/-!
# Cutting and nesting tokens

From what one token can be it follows where the bytes of a text may be cut, and that braces and
templates are nested in each other.
-/
namespace Quill

open List Option

variable {counters outer : List Nat} {ts : List Token} {n : Nat} {t : Token}

/-- The token stands in the text where its span says; if it is quoted, between its delimiters. -/
structure Token.Stands (text : List Char) (t : Token) (front rest : List Char) : Prop where
  split : text = front ++ (t.text.toList ++ rest)
  start : t.span.start = (utf8 front).length
  stop : t.span.stop = (utf8 (front ++ t.text.toList)).length
  quoted : t.kind.quoted = true → ∃ q ∈ t.kind.quotes?,
    t.text.toList = q.first :: (t.inner.toList ++ [q.last]) ∧ Lexer.Stretch q.ends t.inner.toList

namespace Lexer

theorem Delimited.inner {c : Char} {taken : List Char} (h : Delimited t.kind c taken)
    (htext : t.text.toList = c :: taken) : ∃ q ∈ t.kind.quotes?,
      t.text.toList = q.first :: (t.inner.toList ++ [q.last]) ∧ Stretch q.ends t.inner.toList := by
  obtain ⟨q, hq, body, rfl, rfl, hbody⟩ := h
  have hinner : t.inner.toList = body := by
    rw [Token.inner, String.toList_ofList, htext, tail_cons, dropLast_concat]
  exact ⟨q, hq, by rw [htext, hinner], hinner ▸ hbody⟩

theorem Placed.run_stands {file : FileId} {text front : List Char} {st : State}
    (h : Placed file text front st) (fuel : Nat) :
    ∀ t ∈ (st.run fuel).map (·.1), ∃ front rest, t.Stands text front rest := by
  induction fuel generalizing st front with
  | zero => exact nofun
  | succ fuel ih =>
    have hat : Placed file text _ st.atToken := h.skip (triviaLength 0 st.rest)
    cases hrest : st.atToken.rest with
    | nil =>
      rw [State.run_of_nil hrest, State.next_of_nil hrest]
      refine forall_mem_singleton.mpr ⟨_, [], hat.split.trans ?_, hat.offset, ?_, nofun⟩
      · rw [hrest]
        rfl
      · rw [String.toList_empty, append_nil]
        exact hat.offset
    | cons c cs =>
      have hafter := hat.skip ((lexeme st.frames c cs).more + 1)
      have hcut := lexeme_cut st.frames cs c
      have htext : st.atToken.rest.take ((lexeme st.frames c cs).more + 1) =
          c :: cs.take (lexeme st.frames c cs).more := by rw [hrest, take_succ_cons]
      obtain ⟨front', hnext⟩ : ∃ front', Placed file text front' st.next.2 := by
        rw [State.next_of_cons hrest]
        exact ⟨_, hafter.file, hafter.split, hafter.offset, hafter.line⟩
      rw [State.run_of_cons hrest]
      refine forall_mem_cons.mpr ⟨?_, ih hnext⟩
      rw [State.next_of_cons hrest]
      refine ⟨_, (st.atToken.skip ((lexeme st.frames c cs).more + 1)).rest, ?_, hat.offset, ?_, ?_⟩
      · rw [String.toList_ofList, ← htext, ← append_assoc]
        exact hafter.split
      · rw [String.toList_ofList, ← htext]
        exact hafter.offset
      · exact fun hq => (hcut.delimited hq).inner String.toList_ofList

theorem scan_stands {file : FileId} {text : String} (h : t ∈ scan file text) :
    ∃ front rest, t.Stands text.toList front rest :=
  (Placed.start file text).run_stands _ t h

end Lexer

/-- The offset is one between two characters of the text. -/
abbrev Divides (text : String) (offset : Nat) : Prop := String.Pos.Raw.IsValid text ⟨offset⟩

theorem divides_front {text : String} {front : List Char} (rest : List Char) (h : text.toList = front ++ rest) :
    Divides text (utf8 front).length := by
  refine String.Pos.Raw.isValid_iff_exists_append.mpr ⟨.ofList front, .ofList rest, ?_, ?_⟩
  · rw [← String.ofList_append, ← h, String.ofList_toList]
  · have := textBytes_eq (.ofList front)
    rw [String.toList_ofList] at this
    rw [← this]
    rfl

theorem slice_between (front middle rest : List Char) :
    slice (utf8 (front ++ (middle ++ rest))) (utf8 front).length (utf8 (front ++ middle)).length =
      utf8 middle := by
  rw [slice, ← append_assoc, utf8_append (front ++ middle), take_left, utf8_append,
    drop_left]

/-- Template text that goes on behind an interpolation and never ends. -/
def Token.Abandons (t : Token) : Prop :=
  t.kind = .error .unterminatedTemplate ∧ t.text.toList.head? = some '\x7d'

instance : DecidablePred Token.Abandons := fun _ => inferInstanceAs (Decidable (_ ∧ _))

/-- A brace, or a part of a template that opens or closes an interpolation. -/
def Token.Nests (t : Token) : Prop :=
  t.kind ∈ [.templateStart, .templateMiddle, .templateEnd, .punct .leftBrace, .punct .rightBrace] ∨
    t.Abandons

namespace Nesting

/-- Counters of the ordinary braces that are open, one for each open interpolation, the innermost
first. A token that does not fit there leaves none. -/
def step (counters : List Nat) (t : Token) : Option (List Nat) :=
  match t.kind with
  | .templateStart => some (0 :: counters)
  | .templateMiddle => if counters.head? = some 0 then some counters else none
  | .templateEnd => if counters.head? = some 0 then some counters.tail else none
  | .punct .leftBrace => some (counters.modifyHead (· + 1))
  | .punct .rightBrace =>
    if counters.head? = some 0 then none else some (counters.modifyHead (· - 1))
  | _ =>
    if t.Abandons then if counters.head? = some 0 then some counters.tail else none
    else some counters

def depth (tokens : List Token) : Nat := ((tokens.foldlM step []).getD []).length

theorem step_of_plain (h : t.kind.nests = false) : step counters t = some counters := by
  have hkept : ¬ t.Abandons := by
    rintro ⟨hkind, -⟩
    rw [hkind] at h
    cases h
  unfold step
  split
  iterate 5
    rename_i hkind
    rw [hkind] at h
    cases h
  rw [if_neg hkept]

end Nesting

namespace Lexer

theorem Cut.nesting {frames : Frames} {c : Char} {cs : List Char} {lex : Lexeme}
    (h : Cut frames c cs lex) (span : Span) :
    Nesting.step frames ⟨lex.kind, String.ofList (c :: cs.take lex.more), span⟩ = some lex.frames := by
  cases h with
  | word => exact Nesting.step_of_plain (ofWord_plain _).2.1
  | int => exact Nesting.step_of_plain rfl
  | plain _ hplain | quoted hplain => exact Nesting.step_of_plain hplain
  | opened | leftBrace => rfl
  | resumed hzero | ended hzero => simp [Nesting.step, hzero]
  | unterminated hc => simp [Nesting.step, Token.Abandons, hc]
  | abandoned hc hzero => simp [Nesting.step, Token.Abandons, hc, hzero]
  | rightBrace hzero => simp [Nesting.step, hzero]

theorem State.next_nesting (st : State) :
    Nesting.step st.frames st.next.1 = some st.next.2.frames := by
  cases hrest : st.atToken.rest with
  | nil =>
    rw [next_of_nil hrest]
    exact Nesting.step_of_plain rfl
  | cons c cs =>
    rw [next_of_cons hrest]
    exact (lexeme_cut st.frames cs c).nesting _

theorem State.run_nesting {st : State} {fuel : Nat} {front back : List (Token × State)}
    {step : Token × State} (h : st.run fuel = front ++ step :: back) :
    ((front ++ [step]).map (·.1)).foldlM Nesting.step st.frames = some step.2.frames := by
  induction fuel generalizing st front with
  | zero => exact absurd h (by simp [run])
  | succ fuel ih =>
    have hnext := st.next_nesting
    rw [run] at h
    cases front with
    | nil =>
      have hstep : step = st.next := by
        split at h <;> exact (List.cons.inj h).1.symm
      rw [hstep]
      simp [hnext]
    | cons first front =>
      split at h
      · obtain ⟨-, hnil⟩ := List.cons.inj h
        exact absurd hnil (by simp)
      · obtain ⟨rfl, hmore⟩ := List.cons.inj h
        rw [cons_append, map_cons, foldlM_cons, hnext]
        exact ih hmore

end Lexer

mutual

/-- Tokens in which braces and templates are nested in each other and closed. -/
inductive Balanced : List Token → Prop where
  | nil : Balanced []
  | token {t : Token} {ts : List Token} : ¬ t.Nests → Balanced ts → Balanced (t :: ts)
  | braces {l r : Token} {inner rest : List Token} : l.kind = .punct .leftBrace → Balanced inner →
    r.kind = .punct .rightBrace → Balanced rest → Balanced (l :: (inner ++ r :: rest))
  | template {t : Token} {body rest : List Token} : t.kind = .templateStart → Interpolated body →
    Balanced rest → Balanced (t :: (body ++ rest))

/-- What follows the start of a template: interpolations, each with the text behind it. -/
inductive Interpolated : List Token → Prop where
  | last {t : Token} {inner : List Token} : Balanced inner → t.kind = .templateEnd ∨ t.Abandons →
    Interpolated (inner ++ [t])
  | more {t : Token} {inner rest : List Token} : Balanced inner → t.kind = .templateMiddle →
    Interpolated rest → Interpolated (inner ++ t :: rest)

end

theorem Balanced.append {as bs : List Token} : Balanced as → Balanced bs → Balanced (as ++ bs)
  | .nil, hb => hb
  | .token ht ha, hb => .token ht (ha.append hb)
  | .braces hl hinner hr hrest, hb => by
    rw [cons_append, append_assoc, cons_append]
    exact .braces hl hinner hr (hrest.append hb)
  | .template ht hbody hrest, hb => by
    rw [cons_append, append_assoc]
    exact .template ht hbody (hrest.append hb)

theorem Interpolated.prepend {as bs : List Token} (ha : Balanced as) :
    Interpolated bs → Interpolated (as ++ bs)
  | .last hinner ht => by
    rw [← append_assoc]
    exact .last (ha.append hinner) ht
  | .more hinner ht hrest => by
    rw [← append_assoc]
    exact .more (ha.append hinner) ht hrest

namespace Nesting

/-- Tokens that close what these counters count, down to an interpolation without open braces. -/
inductive Unwinds : List Nat → List Token → Prop where
  | done {ts : List Token} : Balanced ts → Unwinds [0] ts
  | brace {n : Nat} {outer : List Nat} {inner ts : List Token} {r : Token} : Balanced inner →
    r.kind = .punct .rightBrace → Unwinds (n :: outer) ts → Unwinds ((n + 1) :: outer) (inner ++ r :: ts)
  | template {n : Nat} {outer : List Nat} {body ts : List Token} : Interpolated body →
    Unwinds (n :: outer) ts → Unwinds (0 :: n :: outer) (body ++ ts)

theorem Unwinds.prepend {as : List Token} (ha : Balanced as) (h : Unwinds counters ts) :
    Unwinds counters (as ++ ts) := by
  cases h with
  | done hts => exact .done (ha.append hts)
  | brace hinner hr hts =>
    rw [← append_assoc]
    exact .brace (ha.append hinner) hr hts
  | template hbody hts =>
    rw [← append_assoc]
    exact .template (hbody.prepend ha) hts

/-- The token goes on with a template behind an interpolation. -/
def Leaves (t : Token) : Prop :=
  t.kind = .templateMiddle ∨ t.kind = .templateEnd ∨ t.Abandons

instance : DecidablePred Leaves := fun _ => inferInstanceAs (Decidable (_ ∨ _ ∨ _))

theorem Unwinds.braces {l : Token} (hl : l.kind = .punct .leftBrace)
    (h : Unwinds ((n + 1) :: outer) ts) : Unwinds (n :: outer) (l :: ts) := by
  cases h with
  | brace hinner hr hts => simpa using hts.prepend (.braces hl hinner hr .nil)

theorem Unwinds.start (ht : t.kind = .templateStart) (h : Unwinds (0 :: n :: outer) ts) :
    Unwinds (n :: outer) (t :: ts) := by
  cases h with
  | template hbody hts => simpa using hts.prepend (.template ht hbody .nil)

theorem Unwinds.middle (ht : t.kind = .templateMiddle) (h : Unwinds (0 :: n :: outer) ts) :
    Unwinds (0 :: n :: outer) (t :: ts) := by
  cases h with
  | template hbody hts => exact .template (.more .nil ht hbody) hts

/-- Tokens between two places where the same interpolation is the innermost one and has no open
braces, if it is not left in between. -/
theorem unwinds_of_fold (outer : List Nat) {inner : List Nat}
    (hfold : ts.foldlM step (n :: inner ++ outer) = some counters)
    (hlevel : counters.length = outer.length + 1) (hzero : counters.head? = some 0)
    (hleaves : ∀ front t, front ++ [t] <+: ts → Leaves t →
      ∀ met, front.foldlM step (n :: inner ++ outer) = some met → outer.length + 1 < met.length) :
    Unwinds (n :: inner) ts := by
  induction ts generalizing n inner with
  | nil =>
    obtain rfl := some.inj hfold
    simp only [length_append, length_cons] at hlevel
    obtain rfl : inner = [] := length_eq_zero_iff.mp (by omega)
    obtain rfl : n = 0 := some.inj hzero
    exact .done .nil
  | cons t ts ih =>
    rw [foldlM_cons] at hfold
    -- What is shown of the first token is passed on to those behind it.
    have further {m : Nat} {rest : List Nat}
        (hstep : step (n :: inner ++ outer) t = some (m :: rest ++ outer)) : Unwinds (m :: rest) ts := by
      rw [hstep] at hfold
      refine ih hfold fun front u hfront hu met hmet => ?_
      refine hleaves (t :: front) u ?_ hu met (by rw [foldlM_cons, hstep]; exact hmet)
      exact cons_prefix_cons.mpr ⟨rfl, hfront⟩
    have deeper (ht : Leaves t) : ∃ m rest, inner = m :: rest := by
      have := hleaves [] t (cons_prefix_cons.mpr ⟨rfl, nil_prefix⟩) ht _ rfl
      cases inner with
      | nil => simp at this
      | cons m rest => exact ⟨m, rest, rfl⟩
    cases hfirst : step (n :: inner ++ outer) t with
    | none => exact absurd hfold (by rw [hfirst]; nofun)
    | some next =>
      have hcases := hfirst
      unfold step at hcases
      split at hcases
      · rename_i ht
        cases hcases
        exact (further hfirst).start ht
      · rename_i ht
        obtain ⟨m, rest, rfl⟩ := deeper (.inl ht)
        split at hcases
        · rename_i hn
          obtain rfl : n = 0 := some.inj hn
          cases hcases
          exact (further hfirst).middle ht
        · cases hcases
      · rename_i ht
        obtain ⟨m, rest, rfl⟩ := deeper (.inr (.inl ht))
        split at hcases
        · rename_i hn
          obtain rfl : n = 0 := some.inj hn
          cases hcases
          exact .template (.last .nil (.inl ht)) (further hfirst)
        · cases hcases
      · rename_i ht
        cases hcases
        exact (further hfirst).braces ht
      · rename_i ht
        split at hcases
        · cases hcases
        · rename_i hn
          obtain ⟨k, rfl⟩ := Nat.exists_eq_succ_of_ne_zero fun h : n = 0 => hn (by rw [h]; rfl)
          cases hcases
          exact .brace .nil ht (further hfirst)
      · split at hcases
        · rename_i ht
          obtain ⟨m, rest, rfl⟩ := deeper (.inr (.inr ht))
          split at hcases
          · rename_i hn
            obtain rfl : n = 0 := some.inj hn
            cases hcases
            exact .template (.last .nil (.inr ht)) (further hfirst)
          · cases hcases
        · rename_i hkept
          cases hcases
          refine (further hfirst).prepend (show Balanced [t] from .token ?_ .nil)
          simp_all [Token.Nests]

/-- The tokens of one interpolation, from the token that opens it to the one that goes on with its
template. -/
structure Interpolation (front : List Token) (opening : Token) (inner : List Token)
    (closing : Token) : Prop where
  opens : opening.kind = .templateStart ∨ opening.kind = .templateMiddle
  inside : ∀ before t, before ++ [t] <+: inner → Leaves t →
    depth (front ++ [opening]) < depth (front ++ opening :: before)
  level : depth (front ++ opening :: inner) = depth (front ++ [opening])
  closes : closing.kind = .templateMiddle ∨ closing.kind = .templateEnd

theorem depth_eq {tokens : List Token} (h : tokens.foldlM step [] = some counters) :
    depth tokens = counters.length := by
  rw [depth, h, getD_some]

theorem zero_of_resumes {next : List Nat} (h : step counters t = some next)
    (ht : t.kind = .templateMiddle ∨ t.kind = .templateEnd) : counters.head? = some 0 := by
  rcases ht with ht | ht <;> simp only [step, ht] at h <;> split at h <;> first | assumption | cases h

theorem zero_of_opens {next : List Nat} (h : step counters t = some next)
    (ht : t.kind = .templateStart ∨ t.kind = .templateMiddle) : next.head? = some 0 := by
  rcases ht with ht | ht
  · simp only [step, ht, some.injEq] at h
    rw [← h]
    rfl
  · have hzero := zero_of_resumes h (.inl ht)
    simp only [step, ht, hzero, if_true, some.injEq] at h
    rwa [← h]

theorem Interpolation.balanced {front inner : List Token} {opening closing : Token}
    (h : Interpolation front opening inner closing) {before entered met after : List Nat}
    (hfront : front.foldlM step [] = some before) (hopening : step before opening = some entered)
    (hinner : inner.foldlM step entered = some met) (hclosing : step met closing = some after) :
    Balanced inner := by
  have behind {ts : List Token} {counters : List Nat} (hts : ts.foldlM step entered = some counters) :
      depth (front ++ opening :: ts) = counters.length := by
    apply depth_eq
    simp [foldlM_append, hfront, hopening, hts]
  have hentered : depth (front ++ [opening]) = entered.length := behind rfl
  have hlevel := h.level
  have hinside := h.inside
  rw [hentered] at hlevel hinside
  rw [behind hinner] at hlevel
  obtain ⟨outer, rfl⟩ := head?_eq_some_iff.mp (zero_of_opens hopening h.opens)
  have hunwinds : Unwinds [0] inner := by
    refine unwinds_of_fold outer hinner hlevel (zero_of_resumes hclosing h.closes) ?_
    intro ts t hts ht met hmet
    have := hinside ts t hts ht
    rwa [behind hmet] at this
  cases hunwinds with
  | done hbalanced => exact hbalanced

end Nesting

/-- Behind every token of a text the counters of open braces, computed from the tokens alone, are
those of the open interpolations of the scan. So no closing brace meets a counter of zero, and
template text goes on only where the innermost counter is zero. In each interpolation braces and
templates are closed. -/
theorem templates_nested (file : FileId) (text : String) :
    (∀ front step back, Lexer.steps file text = front ++ step :: back →
      ((front ++ [step]).map (·.1)).foldlM Nesting.step [] = some step.2.frames) ∧
    (∀ front opening inner closing back,
      Lexer.scan file text = front ++ opening :: (inner ++ closing :: back) →
      Nesting.Interpolation front opening inner closing → Balanced inner) := by
  have hnesting (front : List (Token × Lexer.State)) (step : Token × Lexer.State)
      (back : List (Token × Lexer.State)) (h : Lexer.steps file text = front ++ step :: back) :
      ((front ++ [step]).map (·.1)).foldlM Nesting.step [] = some step.2.frames :=
    Lexer.State.run_nesting h
  refine ⟨hnesting, fun front opening inner closing back hscan hinterpolation => ?_⟩
  have hscan : (Lexer.steps file text).map (·.1) = (front ++ opening :: inner) ++ closing :: back := by
    rw [append_assoc]
    exact hscan
  obtain ⟨steps, more, hsteps, hfront, hmore⟩ := map_eq_append_iff.mp hscan
  obtain ⟨last, behind, rfl, rfl, -⟩ := map_eq_cons_iff.mp hmore
  have hfold := hnesting steps last behind hsteps
  rw [map_append, hfront, map_singleton] at hfold
  simp only [foldlM_append, foldlM_cons, foldlM_nil, Option.bind_eq_bind,
    Option.bind_eq_some_iff] at hfold
  obtain ⟨met, ⟨before, hbefore, entered, hentered, hmet⟩, after, hafter, -⟩ := hfold
  exact hinterpolation.balanced hbefore hentered hmet hafter

/-- An interpolation that holds braces and another template. -/
theorem templates_nested_twice :
    let text := "`a\x7b \x7b `u\x7b1\x7d` \x7d \x7db`"
    (∃ step back, Lexer.steps 0 text = [] ++ step :: back ∧ step.1.kind = .templateStart ∧
      [step.1].foldlM Nesting.step [] = some step.2.frames) ∧
    ∃ opening inner closing back, Lexer.scan 0 text = [] ++ opening :: (inner ++ closing :: back) ∧
      inner.map (·.kind) = [.punct .leftBrace, .templateStart, .intLiteral, .templateEnd,
        .punct .rightBrace] ∧
      Nesting.Interpolation [] opening inner closing ∧ Balanced inner := by
  intro text
  have hsteps : Lexer.steps 0 text = [] ++ (Lexer.steps 0 text).head (by decide +kernel) ::
      (Lexer.steps 0 text).tail := (cons_head_tail _).symm
  refine ⟨⟨_, _, hsteps, by decide +kernel, (templates_nested 0 text).1 _ _ _ hsteps⟩, ?_⟩
  let tokens := Lexer.scan 0 text
  have hscan : tokens = [] ++ tokens.head (by decide +kernel) :: ((tokens.drop 1).take 5 ++
      (tokens.drop 6).head (by decide +kernel) :: tokens.drop 7) := by decide +kernel
  have hinside : ∀ l ∈ ((tokens.drop 1).take 5).inits, ∀ t ∈ l.getLast?, Nesting.Leaves t →
      Nesting.depth [tokens.head (by decide +kernel)] <
        Nesting.depth (tokens.head (by decide +kernel) :: l.dropLast) := by decide +kernel
  have hinterpolation : Nesting.Interpolation [] (tokens.head (by decide +kernel))
      ((tokens.drop 1).take 5) ((tokens.drop 6).head (by decide +kernel)) := by
    refine ⟨by decide +kernel, fun before t hbefore ht => ?_, by decide +kernel, by decide +kernel⟩
    have := hinside (before ++ [t]) ((mem_inits _ _).mpr hbefore) t (by simp) ht
    rw [dropLast_concat] at this
    exact this
  exact ⟨_, _, _, _, hscan, by decide +kernel, hinterpolation,
    (templates_nested 0 text).2 _ _ _ _ _ hscan hinterpolation⟩

end Quill
