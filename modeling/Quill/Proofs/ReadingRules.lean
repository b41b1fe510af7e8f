import Quill.Proofs.ReadingSteps

/-!
# Rules of reading

What a production makes of the items in hand follows from what its parts do. Nested parsers are
known to be right only with fewer tokens left, so it is also told whether a token was taken.
-/
namespace Quill.Parser

open List Nat State

namespace State

variable {x : Part} {s u : State} {what : String} {a : α} {g : α → List Item}

theorem advance_eq (h : s.kind ≠ .eof) :
    s.rest = s.peek :: s.advance.rest ∧ s.advance.last = s.peek.span := by
  unfold kind peek at h
  unfold peek advance
  cases hrest : s.rest with
  | nil =>
    rw [hrest] at h
    exact absurd rfl h
  | cons t ts =>
    rw [hrest, headD_cons] at h
    simp [Token.isEof, h]

theorem length_advance (h : s.kind ≠ .eof) : s.advance.rest.length < s.rest.length := by
  rw [(advance_eq h).1, length_cons]
  exact lt_succ_self _

theorem advance_of_eof (h : s.kind = .eof) : s.advance = s := by
  unfold kind peek at h
  unfold advance
  cases hrest : s.rest with
  | nil => rfl
  | cons t ts =>
    rw [hrest, headD_cons] at h
    simp [Token.isEof, h]

theorem advance_frame (s : State) :
    s.advance = { s with rest := s.advance.rest, last := s.advance.last } := by
  unfold advance
  split
  · split <;> rfl
  · rfl

theorem kind_ne_eof {k : TokenKind} (h : s.peek.kind = k) (hk : k ≠ .eof) :
    s.kind ≠ .eof := fun eof => hk (h.symm.trans eof)

theorem advance_rest_suffix (s : State) : s.advance.rest <:+ s.rest := by
  by_cases h : s.kind = .eof
  · have same := congrArg rest (advance_of_eof h)
    exact same ▸ suffix_refl _
  · rw [(advance_eq h).1]
    exact suffix_cons _ _

theorem advanceBy_rest_suffix (n : Nat) (s : State) : (s.advanceBy n).rest <:+ s.rest := by
  induction n generalizing s with
  | zero => exact suffix_refl _
  | succ n ih => exact (ih s.advance).trans s.advance_rest_suffix

theorem kind_congr (h : u.rest = s.rest) : u.kind = s.kind := by
  unfold kind peek
  rw [h]
  cases s.rest <;> rfl

/-- Where reading is taken up again behind a failure in `u` that began with `before` left. -/
def resumed (u : State) (before : List Token) (skipped : List Token → Nat) : State :=
  let u := if u.rest.length == before.length then u.advance else u
  u.advanceBy (skipped u.rest)

theorem resumed_eq (u : State) (before : List Token) (skipped : List Token → Nat) :
    ∃ n, u.resumed before skipped = u.advanceBy n := by
  unfold resumed
  split
  · exact ⟨_ + 1, rfl⟩
  · exact ⟨_, rfl⟩

theorem length_resumed (hk : s.kind ≠ .eof) (hrest : u.rest <:+ s.rest) (skipped : List Token → Nat) :
    (u.resumed s.rest skipped).rest.length < s.rest.length := by
  refine Nat.lt_of_le_of_lt (advanceBy_rest_suffix _ _).length_le ?_
  split
  · rename_i hsame
    have heq := hrest.eq_of_length (eq_of_beq hsame)
    have shorter := length_advance (s := u) (kind_congr heq ▸ hk)
    rwa [heq] at shorter
  · rename_i hsame
    have := hrest.length_le
    simp only [beq_iff_eq] at hsame
    omega

theorem rewind_self (s : State) : s.rewind s = s := by
  unfold rewind
  rw [take_length]

theorem kindAt_one (h : s.kind ≠ .eof) : s.kindAt 1 = s.advance.kind := by
  obtain ⟨hrest, -⟩ := advance_eq h
  unfold kindAt kind peek
  rw [hrest, drop_one, tail_cons]
  cases s.advance.rest <;> rfl

theorem kindAt_two (h : s.kind ≠ .eof) : s.kindAt 2 = s.advance.kindAt 1 := by
  obtain ⟨hrest, -⟩ := advance_eq h
  unfold kindAt
  rw [hrest, drop_succ_cons]

end State

theorem bind_apply {α β : Type} (p : Parser α) (f : α → Parser β) (s : State) :
    (p >>= f) s =
      match p s with
      | (some a, s') => f a s'
      | (none, s') => (none, s') := rfl

/-- A token of this class is no end token and no directive. -/
class Solid (m : Mode) (k : TokenKind) : Prop where
  ne_eof : k ≠ .eof
  ne_directive : m ≠ .apart → k ≠ .directive

section Solid

variable {m : Mode}

instance : Solid m .identifier := ⟨by simp, by simp⟩

instance : Solid m .stringLiteral := ⟨by simp, by simp⟩

instance : Solid m .templateFull := ⟨by simp, by simp⟩

instance : Solid m .templateStart := ⟨by simp, by simp⟩

instance : Solid m .templateMiddle := ⟨by simp, by simp⟩

instance : Solid m .templateEnd := ⟨by simp, by simp⟩

instance : Solid m .void := ⟨by simp, by simp⟩

instance {p : Punct} : Solid m (.punct p) := ⟨by simp, by simp⟩

instance {k : Scalar} : Solid m (.scalar k) := ⟨by simp, by simp⟩

instance {w : Keyword} : Solid m (.keyword w) := ⟨by simp, by simp⟩

end Solid

theorem State.Told.rest {s u : State} (h : s.Told u) : u.rest = s.rest := by
  obtain ⟨problem, span, -, rfl⟩ := h
  unfold report
  split <;> rfl

/-- From `s` to `u` tokens were passed, no end token among them. -/
def Moves (s u : State) : Prop := ∃ passed, s.rest = passed ++ u.rest ∧ ∀ t ∈ passed, t.kind ≠ .eof

namespace Moves

theorem of_rest (h : u.rest = s.rest) : Moves s u := ⟨[], h.symm, nofun⟩

theorem refl (s : State) : Moves s s := of_rest rfl

theorem trans {t : State} (h : Moves s t) (h' : Moves t u) : Moves s u := by
  obtain ⟨passed, hst, hpassed⟩ := h
  obtain ⟨more, htu, hmore⟩ := h'
  exact ⟨passed ++ more, by rw [hst, htu, append_assoc],
    forall_mem_append.mpr ⟨hpassed, hmore⟩⟩

theorem length_le (h : Moves s u) : u.rest.length ≤ s.rest.length := by
  obtain ⟨passed, hrest, -⟩ := h
  rw [hrest, length_append]
  omega

theorem suffix (h : Moves s u) : u.rest <:+ s.rest := by
  obtain ⟨passed, hrest, -⟩ := h
  exact ⟨passed, hrest.symm⟩

theorem advance (s : State) : Moves s s.advance := by
  by_cases hk : s.kind = .eof
  · rw [advance_of_eof hk]
    exact refl s
  · exact ⟨[s.peek], (advance_eq hk).1, forall_mem_singleton.mpr hk⟩

theorem advanceBy (n : Nat) (s : State) : Moves s (s.advanceBy n) := by
  induction n generalizing s with
  | zero => exact refl s
  | succ n ih => exact (advance s).trans (ih s.advance)

theorem report (s : State) (problem : ParseProblem) (span : Span) : Moves s (s.report problem span) := by
  apply of_rest
  unfold State.report
  split <;> rfl

end Moves

theorem Steps.moves {m : Mode} {s u : State} {st : List Item} (h : Steps m s st u) : Moves s u := by
  induction h with
  | refl => exact .refl _
  | pass _ _ ih | word _ _ _ ih | name _ _ ih | length _ _ ih | sign _ _ ih => exact ih.trans (.advance _)
  | body n _ _ ih => exact ih.trans (.advanceBy n _)
  | mend n _ _ told ih ih' =>
    exact ((ih.trans ih').trans (.of_rest told.rest)).trans ((Moves.advanceBy n _).trans (.of_rest rfl))
  | start _ ih | text _ _ _ ih | directive _ _ ih | make _ _ ih | inner _ _ ih | settle _ ih | dress _ ih | given _ _ ih => exact ih
  | node _ _ _ ih | type _ _ _ ih | file _ _ _ ih | tried _ _ _ _ _ ih | operand _ _ _ _ ih | unmute _ ih =>
    exact ih.trans (.of_rest rfl)

theorem Fails.moves {m : Mode} {s u : State} (h : Fails m s u) : Moves s u := by
  obtain ⟨st, v, steps, told⟩ := h
  exact steps.moves.trans (.of_rest told.rest)

def directiveRound : Parser (Option Directive) := do
  if ← at? .directive then return some (← directive) else return none

def pathRound : Parser (Option String) := do
  if (← at? (.punct .colonColon)) && (← kindAt 1) == .identifier then
    let _ ← advance
    return some (← advance).text
  else return none

def Yields {α : Type} (p : Parser α) (P : α → Prop) : Prop := ∀ s a u, p s = (some a, u) → P a

namespace Yields

variable {α β : Type} {P : β → Prop}

theorem bind {p : Parser α} {f : α → Parser β} (h : ∀ a, Yields (f a) P) : Yields (p >>= f) P := by
  intro s b u hb
  rw [bind_apply] at hb
  split at hb
  · exact h _ _ _ _ hb
  · cases hb

theorem pure {b : β} (h : P b) : Yields (Pure.pure b) P := by
  rintro s _ u ⟨⟩
  exact h

theorem given {p : Parser β} (h : ∀ b u, p s = (some b, u) → P b) (r : Option β) (u : State)
    (hr : (p >>= fun b => Pure.pure (some b)) s = (some r, u)) : ∀ b ∈ r, P b := by
  rw [bind_apply] at hr
  split at hr <;> cases hr
  rintro _ ⟨⟩
  exact h _ _ ‹_›

theorem cons {p : Parser α} {q : α → Parser (List α)} :
    Yields (p >>= fun a => q a >>= fun as => Pure.pure (a :: as)) (· ≠ []) :=
  bind fun _ => bind fun _ => pure (cons_ne_nil _ _)

end Yields

/-- In `s`, with the items `front` in hand, `p` makes `back` of them. There are at most `n` tokens
left, fewer with `c`; and fewer are left behind a result that has `moved`. -/
def Gives (m : Mode) (n : Nat) (c : Bool) {α : Type} (p : Parser α) (s : State) (front : List Item)
    (moved : α → Bool) (back : α → List Item) : Prop :=
  ∀ s₀ st, Steps m s₀ (st ++ front) s → s.rest.length + c.toNat ≤ n →
    match p s with
    | (some a, u) => Steps m s₀ (st ++ back a) u ∧ u.rest.length + (moved a).toNat ≤ n
    | (none, u) => Fails m s₀ u

/-- From here `p` reads some items, at least one token long. -/
abbrev Reads (m : Mode) {α : Type} (p : Parser α) (g : α → List Item) (s : State) : Prop :=
  ∀ {n c}, Gives m n c p s [] (fun _ => true) g

/-- With fewer than `n` tokens left `p` reads such items. -/
abbrev ReadsBelow (m : Mode) (n : Nat) {α : Type} (p : Parser α) (g : α → List Item) : Prop :=
  ∀ s : State, s.rest.length < n → Reads m p g s

namespace Gives

variable {m : Mode} {n : Nat} {c : Bool} {α β : Type} {p : Parser α} {s : State}
  {front : List Item} {moved : α → Bool} {back : α → List Item} {f : α → Parser β}
  {moved' : β → Bool} {back' : β → List Item}

theorem pure (h : ∀ s₀ st, Steps m s₀ (st ++ front) s → Steps m s₀ (st ++ back a) s)
    (hc : (moved a).toNat ≤ c.toNat) : Gives m n c (Pure.pure a) s front moved back :=
  fun s₀ st steps bound => ⟨h s₀ st steps, by omega⟩

theorem bind (hp : Gives m n c p s front moved back)
    (hf : ∀ a t, Gives m n (moved a) (f a) t (back a) moved' back') :
    Gives m n c (p >>= f) s front moved' back' := by
  intro s₀ st steps bound
  have first := hp s₀ st steps bound
  rw [bind_apply]
  generalize p s = r at first ⊢
  rcases r with ⟨_ | a, t⟩
  · exact first
  · exact hf a t s₀ st first.1 first.2

theorem frame (hp : Gives m n c p s front moved back) (pre : List Item) :
    Gives m n c p s (pre ++ front) moved fun a => pre ++ back a := by
  intro s₀ st steps bound
  have run := hp s₀ (st ++ pre) (append_assoc .. ▸ steps) bound
  generalize p s = r at run ⊢
  rcases r with ⟨_ | a, t⟩
  · exact run
  · exact ⟨append_assoc .. ▸ run.1, run.2⟩

theorem part (hp : Gives m n c p s [] moved back)
    (hf : ∀ a t, Gives m n (moved a) (f a) t (front ++ back a) moved' back') :
    Gives m n c (p >>= f) s front moved' back' :=
  bind (by simpa only [append_nil] using hp.frame front) hf

theorem skip (hp : Gives m n c p s [] moved fun _ => [])
    (hf : ∀ a t, Gives m n (moved a) (f a) t front moved' back') :
    Gives m n c (p >>= f) s front moved' back' := by
  refine part hp fun a t => ?_
  rw [append_nil]
  exact hf a t

theorem known {F : α → Prop} (hp : Gives m n c p s [] moved back)
    (hF : ∀ a u, p s = (some a, u) → F a)
    (hf : ∀ a t, F a → Gives m n (moved a) (f a) t (front ++ back a) moved' back') :
    Gives m n c (p >>= f) s front moved' back' := by
  intro s₀ st steps bound
  have first := hp s₀ (st ++ front) (by rwa [append_nil]) bound
  rw [bind_apply]
  rcases hr : p s with ⟨_ | a, t⟩
  · rw [hr] at first
    exact first
  · rw [hr] at first
    exact hf a t (hF a t hr) s₀ st (append_assoc .. ▸ first.1) first.2

theorem look {g : State → α} (h : Gives m n c (f (g s)) s front moved' back') :
    Gives m n c (inspect g >>= f) s front moved' back' := h

theorem start (h : Gives m n c p s (front ++ [.start s.peek.span]) moved back) :
    Gives m n c p s front moved back :=
  fun s₀ st steps bound => h s₀ st (append_assoc .. ▸ steps.start) bound

section Tokens

variable {g : Token → Parser α} {k : TokenKind}

theorem length_take (hk : s.kind = k) (hne : k ≠ .eof) (bound : s.rest.length + c.toNat ≤ n) :
    s.advance.rest.length + true.toNat ≤ n := by
  have := length_advance (hk ▸ hne : s.kind ≠ .eof)
  have : true.toNat = 1 := rfl
  omega

theorem pass (hk : s.kind = k) (h : Gives m n true (g s.peek) s.advance front moved back)
    [solid : Solid m k] : Gives m n c (advance >>= g) s front moved back :=
  fun s₀ st steps bound => h s₀ st (steps.pass (hk ▸ solid.2)) (length_take hk solid.1 bound)

theorem take (hk : s.kind = k)
    (h : Gives m n true (g s.peek) s.advance (front ++ [.word s.peek]) moved back)
    [solid : Solid m k] : Gives m n c (advance >>= g) s front moved back :=
  fun s₀ st steps bound => h s₀ st
    (append_assoc .. ▸ steps.word (hk ▸ solid.1) (hk ▸ solid.2)) (length_take hk solid.1 bound)

theorem passOver (h : Gives m n true (g s.peek) s.advance front moved back)
    (hd : m ≠ .apart → s.kind ≠ .directive) : Gives m n true (advance >>= g) s front moved back :=
  fun s₀ st steps bound => h s₀ st (steps.pass hd)
    (Nat.le_trans (Nat.add_le_add_right (advance_rest_suffix s).length_le _) bound)

theorem length (hk : s.kind = .identifier ∨ s.kind = .intLiteral)
    (h : Gives m n true (g s.peek) s.advance (front ++ [.length s.peek.text]) moved back) :
    Gives m n c (advance >>= g) s front moved back := by
  intro s₀ st steps bound
  refine h s₀ st (append_assoc .. ▸ steps.length hk) ?_
  rcases hk with hk | hk <;> exact length_take hk (by simp) bound

theorem passBy {j : Nat} {g : Unit → Parser α} (hk : s.kind = k)
    (h : Gives m n true (update (.advanceBy j) >>= g) s.advance front moved back)
    [solid : Solid m k] :
    Gives m n c (update (.advanceBy (j + 1)) >>= g) s front moved back :=
  fun s₀ st steps bound => h s₀ st (steps.pass (hk ▸ solid.2)) (length_take hk solid.1 bound)

theorem passed {g : Unit → Parser α} (h : Gives m n c (g ()) s front moved back) :
    Gives m n c (update (.advanceBy 0) >>= g) s front moved back := h

theorem eat {g : Bool → Parser α} (h : Gives m n true (g true) s.advance front moved back)
    (h' : Gives m n c (g false) s front moved back) [solid : Solid m k] :
    Gives m n c (eat k >>= g) s front moved back := by
  intro s₀ st steps bound
  rw [bind_apply]
  unfold Parser.eat
  by_cases hk : s.kind = k
  · rw [if_pos (beq_iff_eq.mpr hk)]
    exact h s₀ st (steps.pass (hk ▸ solid.2)) (length_take hk solid.1 bound)
  · rw [if_neg (by simpa using hk)]
    exact h' s₀ st steps bound

theorem eaten [solid : Solid .plain k] :
    Gives m n c (.eat k) s [] (fun _ => c) fun _ => [] := by
  intro s₀ st steps bound
  unfold Parser.eat
  by_cases hk : s.kind = k
  · rw [if_pos (beq_iff_eq.mpr hk)]
    have fewer := (advance_rest_suffix s).length_le
    exact ⟨steps.pass fun _ => hk ▸ solid.2 nofun, Nat.le_trans (Nat.add_le_add_right fewer _) bound⟩
  · rw [if_neg (by simpa using hk)]
    exact ⟨steps, bound⟩

theorem expected (what : String) : Gives m n c (expected what : Parser α) s front moved back :=
  fun _ _ steps _ => ⟨_, s, steps, _, _, .inl rfl, rfl⟩

theorem refuse {problem : ParseProblem} {span : Span} (h : span = s.peek.span ∨ span = s.last) :
    Gives m n c (report problem span >>= fun _ => (fail : Parser α)) s front moved back :=
  fun _ _ steps _ => ⟨_, s, steps, problem, span, h, rfl⟩

theorem expect_cases (h : s.kind = k → Gives m n c (advance >>= g) s front moved back) :
    Gives m n c (expect k what >>= g) s front moved back := by
  intro s₀ st steps bound
  by_cases hk : s.kind = k
  · have run := h hk s₀ st steps bound
    rw [bind_apply, Parser.expect, if_pos (beq_iff_eq.mpr hk)]
    exact run
  · rw [bind_apply, Parser.expect, if_neg (by simpa using hk)]
    exact ⟨_, s, steps, _, _, .inl rfl, rfl⟩

theorem expect (h : ∀ t, Gives m n true (g s.peek) t front moved back) [solid : Solid m k] :
    Gives m n c (.expect k what >>= g) s front moved back :=
  expect_cases fun hk => pass hk (h _)

theorem mark {q : Punct} (h : ∀ t, Gives m n true (g s.peek) t front moved back) :
    Gives m n c (mark q what >>= g) s front moved back := expect h

theorem named (hk : s.kind = .identifier)
    (h : Gives m n true (g s.peek) s.advance (front ++ [.name s.peek.text]) moved back) :
    Gives m n c (advance >>= g) s front moved back :=
  fun s₀ st steps bound =>
    h s₀ st (append_assoc .. ▸ steps.name hk) (length_take hk (by simp) bound)

end Tokens

section Identities

variable {a : Span} {g : Info → Parser α}

theorem nodeAt (h : ∀ i t, Gives m n c (g i) t (front ++ [.node false a i]) moved back) :
    Gives m n c (nodeAt a >>= g) s front moved back :=
  fun s₀ st steps bound => h _ _ s₀ st (append_assoc .. ▸ steps.node false a) bound

theorem nodeFrom (h : ∀ i t, Gives m n c (g i) t (front ++ [.node true a i]) moved back) :
    Gives m n c (nodeFrom a >>= g) s front moved back :=
  fun s₀ st steps bound => h _ _ s₀ st (append_assoc .. ▸ steps.node true a) bound

theorem typeNodeAt (h : ∀ i t, Gives m n c (g i) t (front ++ [.type false a i]) moved back) :
    Gives m n c (typeNodeAt a >>= g) s front moved back :=
  fun s₀ st steps bound => h _ _ s₀ st (append_assoc .. ▸ steps.type false a) bound

theorem typeNodeFrom (h : ∀ i t, Gives m n c (g i) t (front ++ [.type true a i]) moved back) :
    Gives m n c (typeNodeFrom a >>= g) s front moved back :=
  fun s₀ st steps bound => h _ _ s₀ st (append_assoc .. ▸ steps.type true a) bound

end Identities

theorem moved_le (moved : α → Bool) (a : α) : (moved a).toNat ≤ true.toNat := Bool.toNat_le _

theorem made (h : Made front x) (ha : back a = [.loose x]) :
    Gives m n true (Pure.pure a) s front moved back :=
  pure (fun _ _ steps => ha ▸ steps.make h) (moved_le moved a)

theorem make {items : List Item} (hx : Made items x)
    (h : Gives m n c p s (front ++ [.loose x]) moved back) :
    Gives m n c p s (front ++ items) moved back :=
  fun s₀ st steps bound =>
    h s₀ st (append_assoc .. ▸ (append_assoc .. ▸ steps : Steps m s₀ (st ++ front ++ items) s).make hx) bound

theorem stay (ha : back a = front) (hc : moved a = false) :
    Gives m n c (Pure.pure a) s front moved back :=
  pure (fun _ _ steps => ha ▸ steps) (by rw [hc]; exact zero_le _)

theorem done (ha : back a = front) : Gives m n true (Pure.pure a) s front moved back :=
  pure (fun _ _ steps => ha ▸ steps) (moved_le moved a)

theorem identifier : Gives m n c (identifier what) s [] (fun _ => true) fun x => [.name x] :=
  expect_cases fun hk => named hk (done rfl)

theorem name {f : String → Parser α}
    (h : ∀ x t, Gives m n true (f x) t (front ++ [.name x]) moved back) :
    Gives m n c (.identifier what >>= f) s front moved back := part identifier h

theorem settled {f : α → Part} (h : Gives m n c p s [] moved fun a => [.loose (f a)]) :
    Gives m n c p s [] moved fun a => [.part (f a)] := by
  intro s₀ st steps bound
  have run := h s₀ st steps bound
  generalize p s = r at run ⊢
  rcases r with ⟨_ | a, t⟩
  · exact run
  · exact ⟨run.1.settle, run.2⟩

theorem given {g : α → Item} (h : Gives m n c p s [] (fun _ => true) fun a => [g a]) :
    Gives m n c (p >>= fun a => Pure.pure (some a)) s [] (fun _ => true) fun r => r.toList.map g :=
  bind h fun _ _ => done rfl

theorem dressed {ds : List Directive}
    (ha : back a = [.part (if ds.isEmpty then x else x.withDirectives ds)]) :
    Gives m n true (Pure.pure a) s (ds.map .directive ++ [.loose x]) moved back := by
  refine pure (fun s₀ st steps => ?_) (moved_le moved a)
  rw [ha]
  cases ds with
  | nil => exact .settle steps
  | cons d ds => exact .dress (append_assoc .. ▸ steps)

theorem anywhere {d : Bool} (h : Gives m (s.rest.length + d.toNat) d p s front moved back)
    (hd : d.toNat ≤ c.toNat) : Gives m n c p s front moved back := by
  intro s₀ st steps bound
  have run := h s₀ st steps (Nat.le_refl _)
  generalize p s = r at run ⊢
  rcases r with ⟨_ | a, t⟩
  · exact run
  · exact ⟨run.1, Nat.le_trans run.2 (Nat.le_trans (Nat.add_le_add_left hd _) bound)⟩

theorem alone (h : Gives m s.rest.length false p s front moved back) :
    Gives m n c p s front moved back := anywhere h (zero_le _)

theorem nested {k : Nat} (h : ReadsBelow m k p g) (hle : n ≤ k) :
    Gives m n true p s [] (fun _ => true) g :=
  fun s₀ st steps bound => h s (Nat.lt_of_lt_of_le bound hle) s₀ st steps bound

theorem within {k : Nat} (h : ReadsBelow m k p g) (hlt : n < k) :
    Gives m n c p s [] (fun _ => true) g :=
  fun s₀ st steps bound =>
    h s (Nat.lt_of_le_of_lt (Nat.le_trans (Nat.le_add_right _ _) bound) hlt) s₀ st steps bound

section Repetition

theorem many {item : Parser (Option α)} (h : ∀ t : State, t.rest.length + c.toNat ≤ n →
      Gives m t.rest.length false item t [] Option.isSome fun r => (r.map g).getD []) :
    Gives m n c (many item) s [] (fun _ => c) fun as => as.flatMap g := by
  have within : ∀ (fuel : Fuel) (t : State), t.rest.length < fuel.length →
      Gives m n c (manyWithin item fuel) t [] (fun _ => c) fun as => as.flatMap g := by
    intro fuel
    induction fuel with
    | nil => exact fun t enough => absurd enough (not_lt_zero _)
    | cons _ fuel ih =>
      intro t enough s₀ st steps bound
      rw [length_cons] at enough
      have run := h t bound s₀ st steps (Nat.le_refl _)
      rw [manyWithin, bind_apply]
      generalize item t = r at run ⊢
      rcases r with ⟨_ | _ | a, u⟩
      · exact run
      · exact ⟨run.1, Nat.le_trans (Nat.add_le_add_right (Nat.le_trans (Nat.le_add_right _ _) run.2) _) bound⟩
      · obtain ⟨steps, shorter⟩ := run
        replace shorter : u.rest.length < t.rest.length := shorter
        have more := ih u (by omega) s₀ (st ++ g a) (by rwa [append_nil]) (by omega)
        dsimp only
        rw [bind_apply]
        generalize manyWithin item fuel u = r at more ⊢
        rcases r with ⟨_ | as, v⟩
        · exact more
        · exact ⟨by rw [flatMap_cons, ← append_assoc]; exact more.1, more.2⟩
  exact within (s.peek :: s.rest) s (lt_succ_self _)

theorem extend {step : α → Parser (Option α)} {r : α → List Item}
    (h : ∀ b (t : State), t.rest.length + c.toNat ≤ n →
      Gives m t.rest.length false (step b) t (r b) Option.isSome fun o => r (o.getD b)) :
    Gives m n c (extend step a) s (r a) (fun _ => c) r := by
  have within : ∀ (fuel : Fuel) (b : α) (t : State), t.rest.length < fuel.length →
      Gives m n c (extendWithin step fuel b) t (r b) (fun _ => c) r := by
    intro fuel
    induction fuel with
    | nil => exact fun b t enough => absurd enough (not_lt_zero _)
    | cons _ fuel ih =>
      intro b t enough s₀ st steps bound
      rw [length_cons] at enough
      have run := h b t bound s₀ st steps (Nat.le_refl _)
      rw [extendWithin, bind_apply]
      generalize step b t = o at run ⊢
      rcases o with ⟨_ | _ | b', u⟩
      · exact run
      · exact ⟨run.1, Nat.le_trans (Nat.add_le_add_right (Nat.le_trans (Nat.le_add_right _ _) run.2) _) bound⟩
      · obtain ⟨steps, shorter⟩ := run
        replace shorter : u.rest.length < t.rest.length := shorter
        exact ih b' u (by omega) s₀ st steps (by omega)
  exact within (s.peek :: s.rest) a s (lt_succ_self _)

variable {item : Parser α} {g : α → List Item}

theorem commaSeparated (h : ReadsBelow m n item g) {f : List α → Parser β}
    (hf : ∀ as t, as ≠ [] → Gives m n true (f as) t (front ++ as.flatMap g) moved' back') :
    Gives m n true (commaSeparated item >>= f) s front moved' back' := by
  refine known ?_ (Yields.cons s) hf
  refine bind (nested h (Nat.le_refl n)) fun first t => part (many (g := g) fun u hu => ?_) fun more u => done rfl
  exact eat (bind (nested h (le_of_succ_le hu)) fun a v => done rfl) (stay rfl rfl)

theorem tighten (h : Gives m n false p s front (fun _ => true) back) :
    Gives m (n + 1) true p s front (fun _ => true) back := by
  intro s₀ st steps bound
  have run := h s₀ st steps (le_of_succ_le_succ bound)
  generalize p s = r at run ⊢
  rcases r with ⟨_ | a, t⟩
  · exact run
  · exact ⟨run.1, le_succ_of_le run.2⟩

theorem commaList {stop : Parser Bool} (h : ReadsBelow m n item g)
    (stops : ∀ t, ∃ b, stop t = (some b, t)) :
    Gives m n true (commaList stop item) s [] (fun _ => true) fun as => as.flatMap g := by
  have rounds : ∀ (fuel : Fuel) (k : Nat) (t : State), k ≤ fuel.length → k ≤ n →
      Gives m k true (commaListWithin stop item fuel) t [] (fun _ => true) fun as => as.flatMap g := by
    intro fuel
    induction fuel with
    | nil =>
      intro k t hk _ _ _ _ bound
      exact absurd (Nat.le_trans bound hk) (Nat.not_succ_le_zero _)
    | cons _ fuel ih =>
      intro k t hk hn
      cases k with
      | zero => exact fun _ _ _ bound => absurd bound (not_succ_le_zero _)
      | succ k =>
        rw [length_cons] at hk
        obtain ⟨b, hb⟩ := stops t
        have run : Gives m (k + 1) true (if b then Pure.pure [] else do
            let first ← item
            if ← Parser.eat (.punct .comma) then return first :: (← commaListWithin stop item fuel)
            return [first]) t [] (fun _ => true) fun as => as.flatMap g := by
          split
          · exact done rfl
          · refine tighten (bind (within h (by omega)) fun first u => eat ?_ ?_)
            · exact part (ih k _ (by omega) (by omega)) fun more v => done rfl
            · exact done (by simp)
        intro s₀ st steps bound
        have := run s₀ st steps bound
        rw [commaListWithin, bind_apply, hb]
        exact this
  intro s₀ st steps bound
  exact anywhere (d := true) (p := .commaList stop item)
    (rounds (s.peek :: s.rest) _ s (Nat.le_refl _) bound) (Nat.le_refl _) s₀ st steps bound

end Repetition

section Directives

theorem sign {g : Token → Parser α} (hk : s.kind = .directive)
    (h : Gives m n true (g s.peek) s.advance (front ++ [Item.sign s.peek]) moved back) :
    Gives m n c (advance >>= g) s front moved back := by
  intro s₀ st steps bound
  have := length_advance (hk ▸ by simp : s.kind ≠ .eof)
  have : true.toNat = 1 := rfl
  exact h s₀ st (append_assoc .. ▸ steps.sign hk) (by omega)

theorem directive (hk : s.kind = .directive) :
    Gives m n c directive s [] (fun _ => true) fun d => [.directive d] := by
  refine sign hk ?_
  split
  · exact refuse (.inr (advance_eq (hk ▸ by simp : s.kind ≠ .eof)).2.symm)
  · rename_i kind hkind
    lift_lets
    intro jp
    have rest (argument : Option String) (t : State) :
        Gives m n true (jp argument) t [.sign s.peek] (fun _ => true) fun d => [.directive d] :=
      look (pure (fun _ _ steps => steps.directive hkind) (Nat.le_refl _))
    split
    · exact mark fun t => expect fun u => mark fun v => rest _ v
    · exact rest _ _

theorem directiveRound :
    Gives m n c directiveRound s [] Option.isSome fun r => (r.map fun d => [.directive d]).getD [] := by
  refine look ?_
  split
  · rename_i hk
    exact bind (directive (beq_iff_eq.mp hk)) fun d u => done rfl
  · exact stay rfl rfl

theorem directives : Gives m n c directives s [] (fun _ => c) fun ds => ds.map .directive := by
  simp only [map_eq_flatMap]
  exact many fun _ _ => directiveRound

theorem directives_none (hk : s.kind ≠ .directive) : Parser.directives s = (some [], s) := by
  unfold Parser.directives Parser.many fuelled
  rw [manyWithin, bind_apply, bind_apply]
  simp only [at?, inspect, beq_false_of_ne hk]
  rfl

theorem pathRound : Gives m n c pathRound s [] Option.isSome fun r => (r.map fun x => [.name x]).getD [] := by
  refine look (look ?_)
  split
  · rename_i hk
    rw [Bool.and_eq_true, beq_iff_eq, beq_iff_eq] at hk
    have hk' : s.advance.kind = .identifier :=
      kindAt_one (hk.1 ▸ by simp : s.kind ≠ .eof) ▸ hk.2
    exact pass hk.1 (named hk' (done rfl))
  · exact stay rfl rfl

theorem path : Gives m n c path s [] (fun _ => true) fun ns => ns.map .name :=
  name fun first t => part (many fun _ _ => pathRound) fun more u =>
    done (by rw [map_cons, map_eq_flatMap]; rfl)

end Directives

theorem moves (h : Gives m s.rest.length false p s [] moved back) : Moves s (p s).2 := by
  have run := h s [] .refl (Nat.le_refl _)
  generalize p s = r at run ⊢
  rcases r with ⟨_ | a, t⟩
  · exact run.moves
  · exact run.1.moves

/-- What becomes of a parser that is tried here: it reads some items, or it fails, having told of a
problem or not. -/
def Tries (m : Mode) (p : Parser α) (g : α → List Item) (s : State) : Prop :=
  ∀ s₀ st, Steps m s₀ st s → match p s with
    | (some a, u) => Steps m s₀ (st ++ g a) u ∧ u.rest.length < s.rest.length
    | (none, u) => ∃ st' v, Steps .plain s st' v ∧ (u = v ∨ v.Told u)

theorem tries (h : ∀ m, Reads m p g s) : Tries m p g s := by
  intro s₀ st steps
  have alone := @h .plain s.rest.length false s [] .refl (Nat.le_refl _)
  have run := @h m s.rest.length false s₀ st (by rwa [append_nil]) (Nat.le_refl _)
  generalize p s = r at alone run ⊢
  rcases r with ⟨_ | a, t⟩
  · obtain ⟨st', v, more, told⟩ := alone
    exact ⟨st', v, more, .inr told⟩
  · exact run

theorem closed_cases (p : Parser α) (s : State) :
    closed p s = p s ∨ ∃ a t, p s = (some a, t) ∧ closed p s = (none, t) := by
  unfold closed
  rw [bind_apply]
  rcases p s with ⟨_ | a, t⟩
  · exact .inl rfl
  · simp only [bind_apply, at?, inspect]
    split
    · exact .inl rfl
    · exact .inr ⟨a, t, rfl, rfl⟩

theorem tries_closed (h : ∀ m, Reads m p g s) : Tries m (closed p) g s := by
  intro s₀ st steps
  have alone := tries (m := .plain) h s [] .refl
  have run := tries h s₀ st steps
  rcases closed_cases p s with heq | ⟨a, t, hp, heq⟩
  · rwa [heq]
  · rw [hp] at alone
    rw [heq]
    exact ⟨_, t, alone.1, .inl rfl⟩

theorem attempt {f : Option α → Parser β} (h : Tries m p g s)
    (hsome : ∀ a t, Gives m n true (f (some a)) t (front ++ g a) moved' back')
    (hnone : ∀ t, Gives m n c (f none) t front moved' back') :
    Gives m n c (attempt p >>= f) s front moved' back' := by
  intro s₀ st steps bound
  have run := h s₀ _ steps
  rw [bind_apply]
  unfold Parser.attempt
  generalize p s = r at run ⊢
  rcases r with ⟨_ | a, t⟩
  · obtain ⟨st', v, more, told⟩ := run
    rw [← rewind_self s] at more
    exact hnone _ s₀ st (steps.tried steps .refl more told) bound
  · exact hsome a t s₀ st (append_assoc .. ▸ run.1) (by have := run.2; simp only [Bool.toNat_true]; omega)

theorem reread {opened : State} {s₀ : State} {st st' st₁ : List Item} {expr : Parser Expr}
    (steps : Steps m s₀ st s) (earlier : Steps m s₀ st' opened) (between : Steps .plain opened st₁ s)
    (h : Tries .plain (closed expr) (fun e => [.expr e]) (opened.rewind s)) :
    ∃ o u, Parser.reread opened (closed expr) s = (some o, u) ∧ Steps m s₀ (st ++ o.toList.map .operand) u ∧
      u.rest = s.rest := by
  have run := h _ [] .refl
  unfold Parser.reread
  generalize closed expr (opened.rewind s) = r at run ⊢
  rcases r with ⟨_ | e, t⟩
  · obtain ⟨st'', v, more, told⟩ := run
    exact ⟨_, _, rfl, by simpa using steps.tried earlier between more told, rfl⟩
  · exact ⟨_, _, rfl, steps.operand earlier between run.1, rfl⟩

end Gives

end Quill.Parser
