import Mathlib.Data.List.Forall2
import Mathlib.Logic.Relation

/-!
# Walks

Stages of a compilation are computations with a state to which problems are added. What such a
computation may do is a relation of steps; what it achieves is stated for the case without an error.
-/
namespace Quill

open List

open Relation (ReflTransGen)

/-- What a computation may do to a state, step by step, and the states without errors. An error that
was found stays. -/
structure Walk (σ : Type) where
  Step : σ → σ → Prop
  Clean : σ → Prop
  back : ∀ {s s' : σ}, Step s s' → Clean s' → Clean s

theorem Walk.clean_of_steps {σ : Type} (w : Walk σ) {s s' : σ} (h : ReflTransGen w.Step s s')
    (hc : w.Clean s') : w.Clean s := by
  induction h with
  | refl => exact hc
  | tail _ hs ih => exact ih (w.back hs hc)

/-- From states with `pre` the computation takes only such steps, and it leads to `post`. -/
def Proceeds {σ α : Type} (Step : σ → σ → Prop) (pre : σ → Prop) (step : StateM σ α)
    (post : α → σ → Prop) : Prop :=
  ∀ s, pre s → ReflTransGen Step s (step s).2 ∧ post (step s).1 (step s).2

namespace Proceeds

variable {σ α β : Type} {Step : σ → σ → Prop} {pre : σ → Prop} {step : StateM σ α}
  {post : α → σ → Prop}

theorem pure {a : α} (h : ∀ s, pre s → post a s) : Proceeds Step pre (Pure.pure a) post :=
  fun s hp => ⟨.refl, h s hp⟩

theorem bind {f : α → StateM σ β} {post' : β → σ → Prop} (hx : Proceeds Step pre step post)
    (hf : ∀ a, Proceeds Step (post a) (f a) post') : Proceeds Step pre (step >>= f) post' :=
  fun s hp =>
  have first := hx s hp
  have second := hf _ _ first.2
  ⟨first.1.trans second.1, second.2⟩

theorem weaken {pre' : σ → Prop} {post' : α → σ → Prop} (h : Proceeds Step pre step post)
    (hpre : ∀ s, pre' s → pre s) (hpost : ∀ a s, post a s → post' a s) :
    Proceeds Step pre' step post' :=
  fun s hp => (h s (hpre s hp)).imp_right (hpost _ _)

theorem ite {c : Prop} [Decidable c] {other : StateM σ α} (h : Proceeds Step pre step post)
    (h' : Proceeds Step pre other post) : Proceeds Step pre (if c then step else other) post := by
  split
  · exact h
  · exact h'

theorem get {f : σ → StateM σ β} {post' : β → σ → Prop}
    (h : ∀ now, Proceeds Step (fun s => s = now ∧ pre s) (f now) post') :
    Proceeds Step pre (MonadState.get >>= f) post' := fun s hp => h s s ⟨rfl, hp⟩

theorem modify {f : σ → σ} {post : Unit → σ → Prop} (hs : ∀ s, pre s → Step s (f s))
    (h : ∀ s, pre s → post () (f s)) : Proceeds Step pre (modify f : StateM σ Unit) post :=
  fun s hp => ⟨.single (hs s hp), h s hp⟩

theorem within {Step' : σ → σ → Prop} (h : Proceeds Step pre step post)
    (hs : ∀ {s s'}, Step s s' → Step' s s') : Proceeds Step' pre step post :=
  fun s hp => (h s hp).imp_left (ReflTransGen.mono (fun _ _ => hs) _ _)

theorem carry {I : σ → Prop} (h : Proceeds Step pre step post)
    (hI : ∀ {s s'}, Step s s' → I s → I s') :
    Proceeds Step (fun s => pre s ∧ I s) step fun a s => post a s ∧ I s := by
  intro s hp
  obtain ⟨steps, held⟩ := h s hp.1
  refine ⟨steps, held, ?_⟩
  generalize (step s).2 = s' at steps
  induction steps with
  | refl => exact hp.2
  | tail _ hs ih => exact hI hs ih

theorem forM {as : List α} {f : α → StateM σ Unit}
    (h : ∀ a ∈ as, Proceeds Step pre (f a) fun _ => pre) :
    Proceeds Step pre (as.forM f) fun _ => pre := by
  induction as with
  | nil => exact pure fun _ hp => hp
  | cons a as ih =>
    exact bind (h a mem_cons_self) fun _ => ih fun b hb => h b (mem_cons_of_mem a hb)

theorem forM_each {as : List α} {f : α → StateM σ Unit} {I : α → σ → Prop}
    (hI : ∀ a ∈ as, ∀ {s s'}, Step s s' → I a s → I a s')
    (h : ∀ a ∈ as, Proceeds Step pre (f a) fun _ s => pre s ∧ I a s) :
    Proceeds Step pre (as.forM f) fun _ s => pre s ∧ ∀ a ∈ as, I a s := by
  induction as with
  | nil => exact pure fun _ hp => ⟨hp, nofun⟩
  | cons a as ih =>
    have rest := ih (fun b hb => hI b (mem_cons_of_mem a hb)) fun b hb =>
      h b (mem_cons_of_mem a hb)
    refine bind (h a mem_cons_self) fun _ => ?_
    refine (rest.carry (hI a mem_cons_self)).weaken (fun _ hp => hp) fun _ s hp => ?_
    exact ⟨hp.1.1, forall_mem_cons.mpr ⟨hp.2, hp.1.2⟩⟩

end Proceeds

/-- The computation takes only steps of the walk, and if there is no error up to its end it leads
from `pre` to `post`. -/
structure Ensures {σ α : Type} (w : Walk σ) (pre : σ → Prop) (step : StateM σ α)
    (post : α → σ → Prop) : Prop where
  goes : ∀ s, ReflTransGen w.Step s (step s).2
  ensures : ∀ s, pre s → w.Clean (step s).2 → post (step s).1 (step s).2

namespace Ensures

variable {σ α β : Type} {w : Walk σ} {pre : σ → Prop} {step : StateM σ α} {post : α → σ → Prop}

theorem pure {a : α} (h : ∀ s, pre s → post a s) : Ensures w pre (Pure.pure a) post where
  goes _ := .refl
  ensures s hp _ := h s hp

theorem bind {f : α → StateM σ β} {post' : β → σ → Prop} (hx : Ensures w pre step post)
    (hf : ∀ a, Ensures w (post a) (f a) post') : Ensures w pre (step >>= f) post' where
  goes s := (hx.goes s).trans ((hf _).goes _)
  ensures s hp hc :=
    (hf _).ensures _ (hx.ensures s hp (w.clean_of_steps ((hf _).goes _) hc)) hc

theorem weaken {pre' : σ → Prop} {post' : α → σ → Prop} (h : Ensures w pre step post)
    (hpre : ∀ s, pre' s → pre s) (hpost : ∀ a s, post a s → post' a s) :
    Ensures w pre' step post' where
  goes := h.goes
  ensures s hp hc := hpost _ _ (h.ensures s (hpre s hp) hc)

theorem never (h : Ensures w pre step post) {pre' : σ → Prop} {post' : α → σ → Prop}
    (hpre : ∀ s, ¬ pre' s) : Ensures w pre' step post' where
  goes := h.goes
  ensures s hp _ := (hpre s hp).elim

theorem given {P : Prop} (goes : ∀ s, ReflTransGen w.Step s (step s).2)
    (h : P → Ensures w (fun _ => True) step post) : Ensures w (fun _ => P) step post where
  goes := goes
  ensures s hp hc := (h hp).ensures s trivial hc

theorem ite {c : Prop} [Decidable c] {other : StateM σ α} (h : Ensures w pre step post)
    (h' : Ensures w pre other post) : Ensures w pre (if c then step else other) post := by
  split
  · exact h
  · exact h'

theorem get {f : σ → StateM σ β} {post' : β → σ → Prop}
    (h : ∀ now, Ensures w (fun s => s = now ∧ pre s) (f now) post') :
    Ensures w pre (MonadState.get >>= f) post' where
  goes s := (h s).goes s
  ensures s hp hc := (h s).ensures s ⟨rfl, hp⟩ hc

theorem modify {f : σ → σ} {post' : Unit → σ → Prop} (hs : ∀ s, w.Step s (f s))
    (h : ∀ s, pre s → w.Clean (f s) → post' () (f s)) :
    Ensures w pre (modify f : StateM σ Unit) post' where
  goes s := .single (hs s)
  ensures s hp hc := h s hp hc

theorem forM {as : List α} {f : α → StateM σ Unit}
    (h : ∀ a ∈ as, Ensures w pre (f a) fun _ => pre) :
    Ensures w pre (as.forM f) fun _ => pre := by
  induction as with
  | nil => exact pure fun _ hp => hp
  | cons a as ih =>
    exact bind (h a mem_cons_self) fun _ => ih fun b hb => h b (mem_cons_of_mem a hb)

theorem mapM {as : List α} {f : α → StateM σ β} {R : α → β → Prop}
    (h : ∀ a ∈ as, Ensures w (fun _ => True) (f a) fun b _ => R a b) :
    Ensures w (fun _ => True) (as.mapM f) fun bs _ => Forall₂ R as bs := by
  induction as with
  | nil =>
    rw [mapM_nil]
    exact pure fun _ _ => .nil
  | cons a as ih =>
    have rest := ih fun b hb => h b (mem_cons_of_mem a hb)
    rw [mapM_cons]
    refine bind (h a mem_cons_self) fun b => ?_
    have goes (s : σ) : ReflTransGen w.Step s ((as.mapM f >>= fun bs => Pure.pure (b :: bs)) s).2 :=
      rest.goes s
    exact given goes fun hb => bind rest fun bs => pure fun _ hbs => .cons hb hbs

theorem carry {I : σ → Prop} (h : Ensures w pre step post)
    (hI : ∀ {s s'}, w.Step s s' → I s → I s') :
    Ensures w (fun s => pre s ∧ I s) step fun a s => post a s ∧ I s where
  goes := h.goes
  ensures s hp hc := by
    refine ⟨h.ensures s hp.1 hc, ?_⟩
    have hsteps := h.goes s
    generalize (step s).2 = s' at hsteps
    induction hsteps with
    | refl => exact hp.2
    | tail _ hs ih => exact hI hs ih

end Ensures

end Quill
