import Quill.Proofs.Spelling
import Quill.Proofs.TokenProgress

/-!
# Reading given words

Where the words that come next are known, so is what a parser does with them: that a production
succeeds, which words it takes and what it returns.
-/
namespace Quill.Parser

def State.words (s : State) : List Word := s.rest.map Token.word

def firstKind (ws : List Word) : TokenKind := (ws.head?.map Prod.fst).getD .eof

/-- Where `ws` come next and `rest` behind them, `p` takes `ws` and gives such a result. -/
def Consumes {α : Type} (p : Parser α) (ws rest : List Word) (Q : α → Prop) : Prop :=
  ∀ s : State, s.words = ws ++ rest → ∃ a u, p s = (some a, u) ∧ Q a ∧ u.words = rest

namespace State

variable {s : State}

theorem kind_eq (s : State) : s.kind = firstKind s.words := by
  unfold kind peek words
  cases s.rest <;> rfl

theorem kindAt_eq (s : State) (n : Nat) : s.kindAt n = firstKind (s.words.drop n) := by
  unfold kindAt words
  rw [← List.map_drop]
  cases s.rest.drop n <;> rfl

theorem peek_word {w : Word} {ws : List Word} (h : s.words = w :: ws) : s.peek.word = w := by
  unfold words at h
  unfold peek
  cases hrest : s.rest with
  | nil =>
    rw [hrest] at h
    cases h
  | cons t ts =>
    rw [hrest] at h
    exact (List.cons.inj h).1

theorem words_advance {w : Word} {ws : List Word} (h : s.words = w :: ws) (hw : w.1 ≠ .eof) :
    s.advance.words = ws := by
  have hk : s.kind ≠ .eof := by
    rw [kind_eq, h]
    exact hw
  unfold words at h ⊢
  rw [(advance_eq hk).1] at h
  exact (List.cons.inj h).2

end State

namespace Consumes

variable {α β : Type} {p : Parser α} {ws vs rest : List Word} {Q : α → Prop} {R : β → Prop}

theorem pure {a : α} (h : Q a) : Consumes (Pure.pure a : Parser α) [] rest Q :=
  fun s hs => ⟨a, s, rfl, h, hs⟩

theorem bind {f : α → Parser β} (hp : Consumes p ws (vs ++ rest) Q)
    (hf : ∀ a, Q a → Consumes (f a) vs rest R) : Consumes (p >>= f) (ws ++ vs) rest R := by
  intro s hs
  obtain ⟨a, u, hrun, ha, hu⟩ := hp s (by rw [hs, List.append_assoc])
  obtain ⟨b, v, hrun', hb, hv⟩ := hf a ha u hu
  exact ⟨b, v, by rw [bind_apply, hrun]; exact hrun', hb, hv⟩

theorem word {w : Word} {f : α → Parser β} (hp : Consumes p [w] (vs ++ rest) Q)
    (hf : ∀ a, Q a → Consumes (f a) vs rest R) : Consumes (p >>= f) (w :: vs) rest R :=
  bind hp hf

theorem last {f : α → Parser β} (hp : Consumes p ws rest Q)
    (hf : ∀ a, Q a → Consumes (f a) [] rest R) : Consumes (p >>= f) ws rest R := by
  have : Consumes (p >>= f) (ws ++ []) rest R := bind hp hf
  rwa [List.append_nil] at this

theorem weaken {Q' : α → Prop} (h : Consumes p ws rest Q) (hq : ∀ a, Q a → Q' a) :
    Consumes p ws rest Q' := by
  intro s hs
  obtain ⟨a, u, hrun, ha, hu⟩ := h s hs
  exact ⟨a, u, hrun, hq a ha, hu⟩

theorem look {f : State → α} {g : α → Parser β}
    (h : ∀ s : State, s.words = ws ++ rest → Consumes (g (f s)) ws rest R) :
    Consumes (inspect f >>= g) ws rest R :=
  fun s hs => h s hs s hs

theorem kind {g : TokenKind → Parser β} (h : Consumes (g (firstKind (ws ++ rest))) ws rest R) :
    Consumes (kind >>= g) ws rest R :=
  look fun s hs => by
    rw [s.kind_eq, hs]
    exact h

theorem at? {k : TokenKind} {g : Bool → Parser β}
    (h : Consumes (g (firstKind (ws ++ rest) == k)) ws rest R) : Consumes (at? k >>= g) ws rest R :=
  look fun s hs => by
    rw [s.kind_eq, hs]
    exact h

theorem kindAt {n : Nat} {g : TokenKind → Parser β}
    (h : Consumes (g (firstKind ((ws ++ rest).drop n))) ws rest R) : Consumes (kindAt n >>= g) ws rest R :=
  look fun s hs => by
    rw [s.kindAt_eq, hs]
    exact h

theorem peek {w : Word} {g : Token → Parser β}
    (h : ∀ t : Token, t.word = w → Consumes (g t) (w :: ws) rest R) :
    Consumes (peek >>= g) (w :: ws) rest R :=
  look fun s hs => h s.peek (State.peek_word hs)

theorem advance {w : Word} (hw : w.1 ≠ .eof) : Consumes advance [w] rest (·.word = w) :=
  fun s hs => ⟨s.peek, s.advance, rfl, State.peek_word hs, State.words_advance hs hw⟩

theorem advanceBy (h : ∀ w ∈ ws, w.1 ≠ .eof) :
    Consumes (update (.advanceBy ws.length)) ws rest fun _ => True := by
  intro s hs
  refine ⟨(), _, rfl, trivial, ?_⟩
  induction ws generalizing s with
  | nil => exact hs
  | cons w ws ih =>
    rw [List.forall_mem_cons] at h
    exact ih h.2 s.advance (State.words_advance hs h.1)

theorem expect {w : Word} (hw : w.1 ≠ .eof) (what : String) :
    Consumes (expect w.1 what) [w] rest (·.word = w) := by
  intro s hs
  refine ⟨s.peek, s.advance, ?_, State.peek_word hs, State.words_advance hs hw⟩
  rw [Parser.expect, s.kind_eq, hs]
  exact if_pos (beq_self_eq_true _)

theorem mark (p : Punct) (what : String) : Consumes (mark p what) [p.word] rest fun _ => True :=
  (expect (w := p.word) nofun what).weaken fun _ _ => trivial

theorem identifier (name what : String) :
    Consumes (identifier what) [(.identifier, name)] rest (· = name) :=
  last (expect (w := (.identifier, name)) nofun what) fun _ ht => pure (congrArg Prod.snd ht)

theorem eat {w : Word} (hw : w.1 ≠ .eof) : Consumes (eat w.1) [w] rest (· = true) := by
  intro s hs
  refine ⟨true, s.advance, ?_, rfl, State.words_advance hs hw⟩
  rw [Parser.eat, s.kind_eq, hs]
  exact if_pos (beq_self_eq_true _)

theorem eat_none {k : TokenKind} (h : firstKind rest ≠ k) : Consumes (.eat k) [] rest (· = false) := by
  intro s hs
  refine ⟨false, s, ?_, rfl, hs⟩
  rw [Parser.eat, s.kind_eq, hs]
  exact if_neg (by simpa using h)

theorem typeNodeAt (span : Span) : Consumes (typeNodeAt span) [] rest fun _ => True :=
  fun _ hs => ⟨_, _, rfl, trivial, hs⟩

theorem typeNodeFrom (start : Span) : Consumes (typeNodeFrom start) [] rest fun _ => True :=
  look fun _ _ => typeNodeAt _

section Repetition

theorem many_eq {item : Parser (Option α)} (hitem : Progresses item) (s : State) :
    many item s = manyStep item (fun _ => many item) () s :=
  (ties_many hitem (fun _ => many item) () s fun _ _ _ => rfl).symm

theorem extend_eq {step : α → Parser (Option α)} (hstep : ∀ a, Progresses (step a)) (a : α) (s : State) :
    extend step a s = extendStep step (extend step) a s :=
  (ties_extend hstep (extend step) a s fun _ _ _ => rfl).symm

theorem many_stop {item : Parser (Option α)} (hitem : Progresses item)
    (h : Consumes item [] rest (· = none)) : Consumes (many item) [] rest (· = []) := by
  intro s hs
  rw [many_eq hitem]
  exact last h (fun r hr => hr ▸ pure rfl) s hs

theorem many_more {item : Parser (Option α)} (hitem : Progresses item) {Q' : List α → Prop}
    (h : Consumes item ws (vs ++ rest) fun r => ∃ a, r = some a ∧ Q a)
    (hmore : Consumes (many item) vs rest Q') :
    Consumes (many item) (ws ++ vs) rest fun r => ∃ a as, r = a :: as ∧ Q a ∧ Q' as := by
  intro s hs
  rw [many_eq hitem]
  refine bind h (fun r hr => ?_) s hs
  obtain ⟨a, rfl, ha⟩ := hr
  exact last hmore fun as has => pure ⟨a, as, rfl, ha, has⟩

variable {step : α → Parser (Option α)} {a : α} (hstep : ∀ a, Progresses (step a))
include hstep

theorem extend_stop (h : Consumes (step a) [] rest (· = none)) :
    Consumes (extend step a) [] rest (· = a) := by
  intro s hs
  rw [extend_eq hstep]
  exact last h (fun r hr => hr ▸ pure rfl) s hs

theorem extend_more {Q' : α → Prop} (h : Consumes (step a) ws (vs ++ rest) fun r => ∃ b, r = some b ∧ Q b)
    (hmore : ∀ b, Q b → Consumes (extend step b) vs rest Q') :
    Consumes (extend step a) (ws ++ vs) rest Q' := by
  intro s hs
  rw [extend_eq hstep]
  refine bind h (fun r hr => ?_) s hs
  obtain ⟨b, rfl, hb⟩ := hr
  exact hmore b hb

end Repetition

theorem commaSeparated {item : Parser α} (hitem : Shrinks item) {spell : β → List Word}
    {Same : β → α → Prop} {b : β} {bs : List β}
    (h : ∀ c ∈ b :: bs, ∀ vs, firstKind vs = .punct .comma ∨ vs = rest →
      Consumes item (spell c) vs (Same c)) (hrest : firstKind rest ≠ .punct .comma) :
    Consumes (commaSeparated item) (spell b ++ bs.flatMap fun c => Punct.word .comma :: spell c) rest
      (List.Forall₂ Same (b :: bs)) := by
  rw [List.forall_mem_cons] at h
  have more : Consumes (many (commaRound item)) (bs.flatMap fun c => Punct.word .comma :: spell c) rest
      (List.Forall₂ Same bs) := by
    have hround := progresses_commaRound hitem
    induction bs with
    | nil =>
      refine (many_stop hround ?_).weaken fun as has => has ▸ .nil
      exact last (eat_none hrest) fun b hb => hb ▸ pure rfl
    | cons c cs ih =>
      obtain ⟨hc, hcs⟩ := List.forall_mem_cons.mp h.2
      refine (many_more (Q := Same c) hround ?_ (ih ⟨h.1, hcs⟩)).weaken ?_
      · refine word (eat (w := Punct.word .comma) nofun) fun b hb => ?_
        subst hb
        refine last (hc _ ?_) fun a ha => pure ⟨a, rfl, ha⟩
        cases cs with
        | nil => exact .inr rfl
        | cons d ds => exact .inl rfl
      · rintro _ ⟨a, as, rfl, ha, has⟩
        exact .cons ha has
  refine bind (h.1 _ ?_) fun a ha => ?_
  · cases bs with
    | nil => exact .inr rfl
    | cons c cs => exact .inl rfl
  · exact last more fun as has => pure (.cons ha has)

theorem directives (h : firstKind rest ≠ .directive) : Consumes directives [] rest (· = []) := by
  refine many_stop progresses_directiveRound (at? ?_)
  rw [List.nil_append, if_neg (by simpa using h)]
  exact pure rfl

theorem path {name : String} {more : List String} (h : firstKind rest ≠ .punct .colonColon) :
    Consumes path ((.identifier, name) :: more.flatMap fun n => [Punct.word .colonColon, (.identifier, n)])
      rest (· = name :: more) := by
  refine bind (identifier name _) fun first hfirst => ?_
  subst hfirst
  refine last (Q := (· = more)) ?_ fun names hnames => pure (by rw [hnames])
  induction more with
  | nil =>
    refine many_stop progresses_pathRound (at? (kindAt ?_))
    rw [List.nil_append, if_neg (by simp [h])]
    exact pure rfl
  | cons n more ih =>
    refine (many_more (Q := (· = n)) progresses_pathRound (at? (kindAt ?_)) ih).weaken ?_
    · refine word (advance nofun) fun _ _ => ?_
      exact last (advance nofun) fun t ht => pure ⟨_, rfl, congrArg Prod.snd ht⟩
    · rintro _ ⟨a, as, rfl, rfl, rfl⟩
      rfl

end Consumes
end Quill.Parser
