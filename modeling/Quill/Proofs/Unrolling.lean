import Mathlib.Logic.Function.Iterate
import Quill.Proofs.TokenLocality

/-!
# Recursions and repetitions without fuel

The recursions and repetitions of the grammar go on only in states with fewer tokens left, so it
does not matter how much fuel they are given.
-/
namespace Quill.Parser

/-- From agreement with `whole` where fewer tokens are left, `step` makes agreement with it. -/
def Ties {σ α : Type} (step : (σ → Parser α) → σ → Parser α) (whole : σ → Parser α) : Prop :=
  ∀ (p : σ → Parser α) (x : σ) (s : State),
    (∀ y t, t.rest.length < s.rest.length → p y t = whole y t) → step p x s = whole x s

/-- Unrolled more often than there are tokens left, the recursion gives the same with anything at its
bottom. -/
def Unrolls {σ α : Type} (step : (σ → Parser α) → σ → Parser α) (whole : σ → Parser α) : Prop :=
  ∀ (bottom : σ → Parser α) (n : Nat) (x : σ) (s : State), s.rest.length < n →
    step^[n] bottom x s = whole x s

theorem Ties.unrolls {σ α : Type} {step : (σ → Parser α) → σ → Parser α} {whole : σ → Parser α}
    (h : Ties step whole) : Unrolls step whole := by
  intro bottom n
  induction n with
  | zero => exact fun _ s enough => absurd enough (Nat.not_lt_zero _)
  | succ n ih =>
    intro x s enough
    rw [Function.iterate_succ_apply']
    exact h _ x s fun y t ht => ih y t (by omega)

theorem bind_congr {α β : Type} {p : Parser α} {f g : α → Parser β} {s : State}
    (h : ∀ a u, p s = (some a, u) → f a u = g a u) : (p >>= f) s = (p >>= g) s := by
  rw [bind_apply, bind_apply]
  rcases hrun : p s with ⟨_ | a, u⟩
  · rfl
  · exact h a u hrun

section Repetition

variable {α : Type}

def manyStep (item : Parser (Option α)) (more : Unit → Parser (List α)) : Unit → Parser (List α) :=
  fun _ => do
    match ← item with
    | none => return []
    | some a => return a :: (← more ())

def extendStep (step : α → Parser (Option α)) (more : α → Parser α) (a : α) : Parser α := do
  match ← step a with
  | none => return a
  | some b => more b

def commaListStep (stop : Parser Bool) (item : Parser α) (more : Unit → Parser (List α)) :
    Unit → Parser (List α) :=
  fun _ => do
    if ← stop then return []
    let first ← item
    if ← eat (.punct .comma) then return first :: (← more ())
    return [first]

def Progresses (item : Parser (Option α)) : Prop :=
  ∀ (s u : State) (a : α), item s = (some (some a), u) → u.rest.length < s.rest.length

def Shrinks {β : Type} (p : Parser β) : Prop := ∀ s : State, (p s).2.rest.length ≤ s.rest.length

theorem manyStep_congr {item : Parser (Option α)} (h : Progresses item)
    {p q : Unit → Parser (List α)} {s : State}
    (hpq : ∀ t, t.rest.length < s.rest.length → p () t = q () t) :
    manyStep item p () s = manyStep item q () s := by
  refine bind_congr fun r u hrun => ?_
  cases r with
  | none => rfl
  | some a =>
    show (p () >>= fun as => pure (a :: as)) u = (q () >>= fun as => pure (a :: as)) u
    rw [bind_apply, bind_apply, hpq u (h s u a hrun)]

theorem extendStep_congr {step : α → Parser (Option α)} (h : ∀ a, Progresses (step a))
    {p q : α → Parser α} {a : α} {s : State}
    (hpq : ∀ b t, t.rest.length < s.rest.length → p b t = q b t) :
    extendStep step p a s = extendStep step q a s := by
  refine bind_congr fun r u hrun => ?_
  cases r with
  | none => rfl
  | some b => exact hpq b u (h a s u b hrun)

theorem commaListStep_congr {stop : Parser Bool} {item : Parser α} (hstop : Shrinks stop)
    (hitem : Shrinks item) {p q : Unit → Parser (List α)} {s : State}
    (hpq : ∀ t, t.rest.length < s.rest.length → p () t = q () t) :
    commaListStep stop item p () s = commaListStep stop item q () s := by
  refine bind_congr fun ended t hended => ?_
  have first := hstop s
  rw [hended] at first
  cases ended with
  | true => rfl
  | false =>
    refine bind_congr fun a u ha => ?_
    have second := hitem t
    rw [ha] at second
    refine bind_congr fun comma v hcomma => ?_
    cases comma with
    | false => rfl
    | true =>
      have shorter : v.rest.length < u.rest.length := by
        unfold eat at hcomma
        split at hcomma
        · rename_i hk
          obtain ⟨-, rfl⟩ := Prod.mk.inj hcomma
          exact State.length_advance (State.kind_ne_eof (eq_of_beq hk) nofun)
        · cases hcomma
      show (p () >>= fun as => pure (a :: as)) v = (q () >>= fun as => pure (a :: as)) v
      rw [bind_apply, bind_apply, hpq v (by dsimp only at first second; omega)]

theorem ties_of_fuel {σ α : Type} {step : (σ → Parser α) → σ → Parser α} {g : Fuel → σ → Parser α}
    (unfolds : ∀ t fuel, g (t :: fuel) = step (g fuel))
    (congr : ∀ (p : σ → Parser α) (fuel : Fuel) (x : σ) (s : State), s.rest.length ≤ fuel.length →
      (∀ y t, t.rest.length < s.rest.length → p y t = g fuel y t) → step p x s = step (g fuel) x s) :
    Ties step fun x => fuelled (g · x) := by
  have same : ∀ (fuel fuel' : Fuel) (x : σ) (s : State), s.rest.length < fuel.length →
      s.rest.length < fuel'.length → g fuel x s = g fuel' x s := by
    intro fuel
    induction fuel with
    | nil => exact fun _ _ s enough => absurd enough (Nat.not_lt_zero _)
    | cons t fuel ih =>
      intro fuel' x s enough enough'
      rcases fuel' with _ | ⟨t', fuel'⟩
      · exact absurd enough' (Nat.not_lt_zero _)
      rw [List.length_cons] at enough enough'
      rw [unfolds, unfolds]
      exact congr _ _ x s (by omega) fun y u hu => ih fuel' y u (by omega) (by omega)
  intro p x s h
  show step p x s = g (s.peek :: s.rest) x s
  rw [unfolds]
  refine congr _ _ x s (Nat.le_refl _) fun y t ht => (h y t ht).trans ?_
  exact same _ _ y t (Nat.lt_succ_self _) ht

theorem ties_many {item : Parser (Option α)} (h : Progresses item) :
    Ties (manyStep item) fun _ => many item :=
  ties_of_fuel (g := fun fuel _ => manyWithin item fuel) (fun _ _ => rfl)
    fun _ _ _ _ _ hpq => manyStep_congr h fun t ht => hpq () t ht

theorem ties_extend {step : α → Parser (Option α)} (h : ∀ a, Progresses (step a)) :
    Ties (extendStep step) (extend step) :=
  ties_of_fuel (g := extendWithin step) (fun _ _ => rfl) fun _ _ _ _ _ hpq => extendStep_congr h hpq

theorem ties_commaList {stop : Parser Bool} {item : Parser α} (hstop : Shrinks stop)
    (hitem : Shrinks item) : Ties (commaListStep stop item) fun _ => commaList stop item :=
  ties_of_fuel (g := fun fuel _ => commaListWithin stop item fuel) (fun _ _ => rfl)
    fun _ _ _ _ _ hpq => commaListStep_congr hstop hitem fun t ht => hpq () t ht

end Repetition

section Recursion

theorem ties_type : Ties (fun nested (_ : Unit) => typeStep (nested ())) fun _ => type := by
  refine ties_of_fuel (g := fun depth _ => typeAt depth) (fun _ _ => rfl) fun p depth _ s enough hp => ?_
  have below : Below s.rest.length (p ()) (typeAt depth) := fun t ht =>
    ⟨hp () t ht, Gives.moves (m := .plain) (Gives.typeAt depth (by omega))⟩
  exact (below.typeStep s (Nat.lt_succ_self _)).1

theorem ties_binary : Ties binaryStep fun least => fuelled (binaryAt · least) := by
  refine ties_of_fuel (fun _ _ => rfl) fun p depth least s enough hp => ?_
  have below (k : Nat) : Below s.rest.length (p k) (binaryAt depth k) := fun t ht =>
    ⟨hp k t ht, Gives.moves (m := .plain) (Gives.binaryAt depth k (by omega))⟩
  exact (Below.binaryStep below least s (Nat.lt_succ_self _)).1

theorem ties_stmt : Ties (fun nested (_ : Unit) => stmtStep (nested ())) fun _ => stmt := by
  refine ties_of_fuel (g := fun depth _ => stmtAt depth) (fun _ _ => rfl) fun p depth _ s enough hp => ?_
  have below : Below s.rest.length (p ()) (stmtAt depth) := fun t ht =>
    ⟨hp () t ht, (Gives.stmtAt depth (by omega)).moves⟩
  exact (below.stmtStep s (Nat.lt_succ_self _)).1

end Recursion

end Quill.Parser
