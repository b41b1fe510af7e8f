import Mathlib.Data.List.Basic

/-!
# Runs

A run shows events and asks for the outcomes of conditions, given as a list. A run without end is
known by what it shows for every finite list of outcomes.
-/
namespace Quill

inductive Exit where
  | finished
  | returned
  | crashed
  /-- The outcome of the next condition is not given. -/
  | waiting
  deriving DecidableEq, Repr

@[ext]
structure RunResult (σ ε : Type) where
  events : List ε
  exit : Exit
  state : σ
  rest : List Bool

/-- A run from a state on outcomes of conditions, which it never gives back. -/
@[ext]
structure Run (σ ε : Type) where
  result : σ → List Bool → RunResult σ ε
  rest_le : ∀ s ω, (result s ω).rest.length ≤ ω.length

namespace Run

variable {σ ε : Type}

def stop (exit : Exit) : Run σ ε where
  result s ω := ⟨[], exit, s, ω⟩
  rest_le _ _ := Nat.le_refl _

def done : Run σ ε := stop .finished

def emit (e : ε) : Run σ ε where
  result s ω := ⟨[e], .finished, s, ω⟩
  rest_le _ _ := Nat.le_refl _

def update (f : σ → σ) : Run σ ε where
  result s ω := ⟨[], .finished, f s, ω⟩
  rest_le _ _ := Nat.le_refl _

/-- Goes on from a result that is finished; others stay as they are. -/
def resume (b : Run σ ε) (r : RunResult σ ε) : RunResult σ ε :=
  match r.exit with
  | .finished =>
    let next := b.result r.state r.rest
    { next with events := r.events ++ next.events }
  | _ => r

theorem resume_finished (b : Run σ ε) {r : RunResult σ ε} (h : r.exit = .finished) :
    b.resume r =
      { b.result r.state r.rest with
        events := r.events ++ (b.result r.state r.rest).events } := by
  simp only [resume, h]

theorem resume_left (b : Run σ ε) {r : RunResult σ ε} (h : r.exit ≠ .finished) :
    b.resume r = r := by
  unfold resume
  split
  · exact absurd ‹_› h
  · rfl

theorem resume_rest_le (b : Run σ ε) (r : RunResult σ ε) :
    (b.resume r).rest.length ≤ r.rest.length := by
  by_cases h : r.exit = .finished
  · rw [resume_finished b h]
    exact b.rest_le _ _
  · exact Nat.le_of_eq (by rw [resume_left b h])

def andThen (a b : Run σ ε) : Run σ ε where
  result s ω := b.resume (a.result s ω)
  rest_le s ω := Nat.le_trans (b.resume_rest_le _) (a.rest_le s ω)

def ofState (f : σ → Run σ ε) : Run σ ε where
  result s ω := (f s).result s ω
  rest_le s ω := (f s).rest_le s ω

/-- A run whose own state starts as `t` and is forgotten. -/
def detached {τ : Type} (t : τ) (a : Run τ ε) : Run σ ε where
  result s ω :=
    let r := a.result t ω
    ⟨r.events, r.exit, s, r.rest⟩
  rest_le _ ω := a.rest_le t ω

/-- Shows the next outcome and goes on as it says. -/
def test (event : Bool → ε) (yes no : Run σ ε) : Run σ ε where
  result s
    | [] => ⟨[], .waiting, s, []⟩
    | b :: ω => ((emit (event b)).andThen (if b then yes else no)).result s ω
  rest_le s ω := by
    cases ω with
    | nil => exact Nat.le_refl _
    | cons b ω => exact Nat.le_trans (Run.rest_le _ s ω) (Nat.le_succ _)

/-- Every round uses up an outcome, so a loop comes to an end or waits. -/
def loopResult (event : Bool → ε) (body : Run σ ε) (s : σ) : List Bool → RunResult σ ε
  | [] => ⟨[], .waiting, s, []⟩
  | false :: ω => ⟨[event false], .finished, s, ω⟩
  | true :: ω =>
    let r := body.result s ω
    match r.exit with
    | .finished =>
      let next := loopResult event body r.state r.rest
      { next with events := event true :: (r.events ++ next.events) }
    | _ => { r with events := event true :: r.events }
termination_by ω => ω.length
decreasing_by
  have := body.rest_le s ω
  simp only [List.length_cons]
  omega

theorem loopResult_rest_le (event : Bool → ε) (body : Run σ ε) (s : σ) (ω : List Bool) :
    (loopResult event body s ω).rest.length ≤ ω.length := by
  fun_induction loopResult event body s ω with
  | case1 => exact Nat.le_refl _
  | case2 => exact Nat.le_succ _
  | case3 s ω r h next ih =>
    exact Nat.le_trans ih (Nat.le_trans (body.rest_le s ω) (Nat.le_succ _))
  | case4 s ω r h => exact Nat.le_trans (body.rest_le s ω) (Nat.le_succ _)

def loop (event : Bool → ε) (body : Run σ ε) : Run σ ε where
  result := loopResult event body
  rest_le := loopResult_rest_le event body

theorem loop_eq (event : Bool → ε) (body : Run σ ε) :
    loop event body = test event (body.andThen (loop event body)) done := by
  ext1
  funext s ω
  match ω with
  | [] => simp only [loop, test, loopResult]
  | false :: ω =>
    simp only [loop, test, loopResult, andThen, emit, resume, done, stop, Bool.false_eq_true,
      ↓reduceIte, List.append_nil]
  | true :: ω =>
    simp only [loop, test, andThen, emit, resume, ↓reduceIte, List.singleton_append]
    rw [loopResult]
    split <;> rfl

@[simp] theorem done_andThen (a : Run σ ε) : done.andThen a = a := by
  ext1
  funext s ω
  simp only [andThen, done, stop, resume, List.nil_append]

@[simp] theorem andThen_done (a : Run σ ε) : a.andThen done = a := by
  ext1
  funext s ω
  by_cases h : (a.result s ω).exit = .finished
  · simp only [andThen, resume_finished _ h, done, stop, List.append_nil, ← h]
  · simp only [andThen, resume_left _ h]

theorem andThen_assoc (a b c : Run σ ε) : (a.andThen b).andThen c = a.andThen (b.andThen c) := by
  ext1
  funext s ω
  by_cases h : (a.result s ω).exit = .finished
  · simp only [andThen, resume_finished _ h]
    by_cases h' : (b.result (a.result s ω).state (a.result s ω).rest).exit = .finished
    · rw [resume_finished c h', resume_finished c (by exact h'), List.append_assoc]
    · rw [resume_left c h', resume_left c (by exact h')]
  · simp only [andThen, resume_left _ h]

def Leaves (a : Run σ ε) : Prop := ∀ s ω, (a.result s ω).exit ≠ .finished

theorem Leaves.stop {exit : Exit} (h : exit ≠ .finished) : (stop exit : Run σ ε).Leaves :=
  fun _ _ => h

theorem Leaves.andThen {a b : Run σ ε} (h : b.Leaves) : (a.andThen b).Leaves := by
  intro s ω
  by_cases he : (a.result s ω).exit = .finished
  · simp only [Run.andThen, resume_finished _ he]
    exact h _ _
  · simp only [Run.andThen, resume_left _ he]
    exact he

def sequence : List (Run σ ε) → Run σ ε
  | [] => done
  | a :: as => a.andThen (sequence as)

end Run

/-- Every event on the left stands for a list of events on the right, in this order. -/
inductive Shows {ε δ : Type} (R : ε → List δ → Prop) : List ε → List δ → Prop where
  | nil : Shows R [] []
  | cons {e ds es ds'} : R e ds → Shows R es ds' → Shows R (e :: es) (ds ++ ds')

/-- Both ended the same way, after as many conditions, and showed the same. -/
structure RunResult.Agrees {σ τ ε δ : Type} (R : ε → List δ → Prop) (r : RunResult σ ε)
    (q : RunResult τ δ) : Prop where
  events : Shows R r.events q.events
  exit : r.exit = q.exit
  rest : r.rest = q.rest

/-- On the outcomes `ω`, the run `a` from state `s` shows what `b` does, and if it finishes its state
is `t`. -/
structure FollowsOn {σ ε δ : Type} (R : ε → List δ → Prop) (a : Run σ ε) (s t : σ)
    (b : Run Unit δ) (ω : List Bool) : Prop where
  agrees : (a.result s ω).Agrees R (b.result () ω)
  state : (a.result s ω).exit = .finished → (a.result s ω).state = t

def Follows {σ ε δ : Type} (R : ε → List δ → Prop) (a : Run σ ε) (s t : σ) (b : Run Unit δ) : Prop :=
  ∀ ω, FollowsOn R a s t b ω

section Simulation

variable {σ ε δ : Type} {R : ε → List δ → Prop}

theorem Shows.append {es es' : List ε} {ds ds' : List δ} (h : Shows R es ds)
    (h' : Shows R es' ds') : Shows R (es ++ es') (ds ++ ds') := by
  induction h with
  | nil => exact h'
  | cons he _ ih =>
    rw [List.cons_append, List.append_assoc]
    exact .cons he ih

theorem Shows.single {e : ε} {ds : List δ} (h : R e ds) : Shows R [e] ds := by
  simpa using Shows.cons h .nil

namespace Run

def emits (ds : List δ) : Run σ δ where
  result s ω := ⟨ds, .finished, s, ω⟩
  rest_le _ _ := Nat.le_refl _

theorem emits_nil : (emits [] : Run σ δ) = done := rfl

theorem emits_append (as bs : List δ) :
    (emits (as ++ bs) : Run σ δ) = (emits as).andThen (emits bs) := rfl

theorem emits_cons (d : δ) (ds : List δ) :
    (emits (d :: ds) : Run σ δ) = (emit d).andThen (emits ds) := rfl

end Run

theorem FollowsOn.andThen {a a' : Run σ ε} {b b' : Run Unit δ} {s t u : σ} {ω : List Bool}
    (h : FollowsOn R a s t b ω) (h' : FollowsOn R a' t u b' (b.result () ω).rest) :
    FollowsOn R (a.andThen a') s u (b.andThen b') ω := by
  by_cases he : (a.result s ω).exit = .finished
  · have hb : (b.result () ω).exit = .finished := h.agrees.exit ▸ he
    constructor
    · simp only [Run.andThen, Run.resume_finished _ he, Run.resume_finished _ hb, h.state he,
        h.agrees.rest]
      exact ⟨h.agrees.events.append h'.agrees.events, h'.agrees.exit, h'.agrees.rest⟩
    · simp only [Run.andThen, Run.resume_finished _ he, h.state he, h.agrees.rest]
      exact h'.state
  · have hb : (b.result () ω).exit ≠ .finished := h.agrees.exit ▸ he
    constructor
    · simp only [Run.andThen, Run.resume_left _ he, Run.resume_left _ hb]
      exact h.agrees
    · simp only [Run.andThen, Run.resume_left _ he]
      exact fun hx => absurd hx he

theorem FollowsOn.test {ev : Bool → ε} {ev' : Bool → δ} {yes no : Run σ ε} {yes' no' : Run Unit δ}
    {s t : σ} {ω : List Bool} {b : Bool}
    (h : FollowsOn R ((Run.emit (ev b)).andThen (if b then yes else no)) s t
      ((Run.emit (ev' b)).andThen (if b then yes' else no')) ω) :
    FollowsOn R (.test ev yes no) s t (.test ev' yes' no') (b :: ω) :=
  ⟨h.agrees, h.state⟩

namespace Follows

theorem stop {exit : Exit} (h : exit ≠ .finished) (s t : σ) :
    Follows R (.stop exit) s t (.stop exit) := fun _ =>
  ⟨⟨.nil, rfl, rfl⟩, fun he => absurd he h⟩

theorem done (s : σ) : Follows R .done s s .done := fun _ =>
  ⟨⟨.nil, rfl, rfl⟩, fun _ => rfl⟩

theorem update (f : σ → σ) (s : σ) : Follows R (.update f) s (f s) .done := fun _ =>
  ⟨⟨.nil, rfl, rfl⟩, fun _ => rfl⟩

theorem emit {e : ε} {ds : List δ} (h : R e ds) (s : σ) :
    Follows R (.emit e) s s (.emits ds) := fun _ =>
  ⟨⟨.single h, rfl, rfl⟩, fun _ => rfl⟩

theorem ofState {f : σ → Run σ ε} {s t : σ} {b : Run Unit δ} (h : Follows R (f s) s t b) :
    Follows R (.ofState f) s t b := fun ω =>
  ⟨(h ω).agrees, (h ω).state⟩

theorem detached {τ : Type} {t t' : τ} {a : Run τ ε} {b : Run Unit δ} (h : Follows R a t t' b)
    (s : σ) : Follows R (.detached t a) s s b := fun ω =>
  ⟨⟨(h ω).agrees.events, (h ω).agrees.exit, (h ω).agrees.rest⟩, fun _ => rfl⟩

theorem andThen {a a' : Run σ ε} {b b' : Run Unit δ} {s t u : σ} (h : Follows R a s t b)
    (h' : Follows R a' t u b') : Follows R (a.andThen a') s u (b.andThen b') := fun ω =>
  (h ω).andThen (h' _)

theorem andThen_left {a a' : Run σ ε} {b : Run Unit δ} {s t u : σ} (h : Follows R a s t b)
    (hb : ∀ ω, (b.result () ω).exit ≠ .finished) : Follows R (a.andThen a') s u b := by
  intro ω
  have ha : (a.result s ω).exit ≠ .finished := (h ω).agrees.exit ▸ hb ω
  constructor
  · simp only [Run.andThen, Run.resume_left _ ha]
    exact (h ω).agrees
  · simp only [Run.andThen, Run.resume_left _ ha]
    exact fun hx => absurd hx ha

theorem test {ev : Bool → ε} {ev' : Bool → δ} {yes no : Run σ ε} {yes' no' : Run Unit δ} {s t : σ}
    (he : ∀ b, R (ev b) [ev' b]) (hy : Follows R yes s t yes') (hn : Follows R no s t no') :
    Follows R (.test ev yes no) s t (.test ev' yes' no') := by
  intro ω
  match ω with
  | [] => exact ⟨⟨.nil, rfl, rfl⟩, nofun⟩
  | true :: ω => exact .test (((emit (he true) s).andThen hy) ω)
  | false :: ω => exact .test (((emit (he false) s).andThen hn) ω)

/-- The event of another round may stand for further events on the right, which come at the front of
the body there. -/
theorem loop {ev : Bool → ε} {ev' : Bool → δ} {ds : List δ} {body : Run σ ε}
    {body' : Run Unit δ} {s : σ} (hmore : R (ev true) (ev' true :: ds))
    (hend : R (ev false) [ev' false]) (hb : Follows R body s s body') :
    Follows R (.loop ev body) s s (.loop ev' ((Run.emits ds).andThen body')) := by
  intro ω
  -- The body uses no outcome twice, so fewer of them are left for the next round.
  induction hn : ω.length using Nat.strongRecOn generalizing ω with
  | ind n ih =>
    subst hn
    rw [Run.loop_eq ev, Run.loop_eq ev']
    match ω with
    | [] => exact ⟨⟨.nil, rfl, rfl⟩, nofun⟩
    | false :: ω => exact .test (((emit hend s).andThen (done s)) ω)
    | true :: ω =>
      have round := (emit hmore s).andThen hb
      have hlen : (((Run.emits (ev' true :: ds)).andThen body').result () ω).rest.length ≤ ω.length :=
        Run.rest_le _ () ω
      have again := (round ω).andThen (ih _ (Nat.lt_succ_of_le hlen) _ rfl)
      rw [Run.emits_cons] at again
      simp only [Run.andThen_assoc] at again
      refine .test ?_
      simpa only [↓reduceIte, Run.andThen_assoc] using again

theorem loop_test {ev : Bool → ε} {ev' : Bool → δ} {body : Run σ ε} {body' : Run Unit δ} {s : σ}
    (he : ∀ b, R (ev b) [ev' b]) (hb : Follows R body s s body') :
    Follows R (.loop ev body) s s (.loop ev' body') :=
  loop (he true) (he false) hb

end Follows
end Simulation
end Quill
