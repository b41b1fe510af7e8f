import Quill.Proofs.Written
import Quill.Typing.Package

/-!
# What checking can do

Everything that resolving a written type and checking an expression or a statement may do to the
state, as single steps. Invariants of checking are derived from these steps.
-/
namespace Quill

open Array

open Relation (ReflTransGen)

namespace Table

variable {α : Type}

theorem get?_ofSize (n id : Nat) : (ofSize n : Table α).get? id = none := by
  simp only [get?, ofSize, getElem?_replicate]
  split <;> rfl

theorem get?_insert (t : Table α) (id other : Nat) (value : α) :
    (t.insert id value).get? other = if other = id then some value else t.get? other := by
  by_cases hin : id < t.slots.size
  · simp only [insert, if_pos hin, get?, set!_eq_setIfInBounds, getElem?_setIfInBounds]
    by_cases h : id = other
    · subst h
      simp
    · simp [h, Ne.symm h]
  · simp only [insert, if_neg hin, get?]
    have hsize : (t.slots ++ replicate (id - t.slots.size) none).size = id := by
      simp only [size_append, size_replicate]
      omega
    rw [getElem?_push, hsize]
    by_cases h : other = id
    · simp [h]
    · simp only [h, if_false, getElem?_append, getElem?_replicate]
      split
      · rfl
      · rename_i hlt
        rw [getElem?_eq_none (by omega)]
        split <;> rfl

end Table

/-- What checking may do, where facts are recorded for `touched` nodes only. -/
inductive Checking.Step (touched : Nat → Prop) : Checking → Checking → Prop where
  | report (st : Checking) (problem : Problem) (span : Span) :
      Step touched st { st with problems := st.problems ++ [⟨problem, span⟩] }
  | survey (st : Checking) {package : PackageId} {s : Survey}
      (h : Survey.Step package st.toSurvey s) : Step touched st { st with toSurvey := s }
  | type (st : Checking) {node : Nat} (h : touched node) (t : Ty) :
      Step touched st { st with facts := { st.facts with types := st.facts.types.insert node t } }
  | binding (st : Checking) {node : Nat} (h : touched node) (b : Binding) :
      Step touched st
        { st with facts := { st.facts with bindings := st.facts.bindings.insert node b } }
  | written (st : Checking) {node : Nat} (h : touched node) (t : Ty) :
      Step touched st
        { st with facts := { st.facts with written := st.facts.written.insert node t } }
  | locals (st : Checking) (ls : Locals) : Step touched st { st with locals := ls }

namespace Facts

def HasType (f : Facts) (node : Nat) : Prop := (f.types.get? node).isSome

def HasBinding (f : Facts) (node : Nat) : Prop := (f.bindings.get? node).isSome

def HasWritten (f : Facts) (node : Nat) : Prop := (f.written.get? node).isSome

/-- Nothing is lost, and types change for `touched` nodes only. -/
structure Extends (touched : Nat → Prop) (f f' : Facts) : Prop where
  type : ∀ node, f.HasType node → f'.HasType node
  binding : ∀ node, f.HasBinding node → f'.HasBinding node
  written : ∀ node, f.HasWritten node → f'.HasWritten node
  same : ∀ node, ¬ touched node → f'.types.get? node = f.types.get? node

theorem Extends.refl (touched : Nat → Prop) (f : Facts) : Extends touched f f :=
  ⟨fun _ h => h, fun _ h => h, fun _ h => h, fun _ _ => rfl⟩

end Facts

theorem Table.isSome_insert {α : Type} (t : Table α) (id other : Nat) (value : α)
    (h : (t.get? other).isSome) : ((t.insert id value).get? other).isSome := by
  rw [get?_insert]
  split
  · rfl
  · exact h

namespace Checking

variable {touched : Nat → Prop} {st st' : Checking}

abbrev Reaches (touched : Nat → Prop) : Checking → Checking → Prop := ReflTransGen (Step touched)

theorem Reaches.mono {touched' : Nat → Prop} (h : Reaches touched st st')
    (ht : ∀ node, touched node → touched' node) : Reaches touched' st st' := by
  refine ReflTransGen.mono (fun s s' hs => ?_) _ _ h
  cases hs with
  | report problem span => exact .report s problem span
  | survey hs => exact .survey s hs
  | type hn t => exact .type s (ht _ hn) t
  | binding hn b => exact .binding s (ht _ hn) b
  | written hn t => exact .written s (ht _ hn) t
  | locals ls => exact .locals s ls

theorem Step.later (h : Step touched st st') : Survey.Later st.toSurvey st'.toSurvey := by
  cases h with
  | report => exact ⟨.refl _, List.prefix_append _ _⟩
  | survey hs => exact hs.later
  | _ => exact .refl _

theorem Reaches.later (h : Reaches touched st st') : Survey.Later st.toSurvey st'.toSurvey := by
  induction h with
  | refl => exact .refl _
  | tail _ hs ih => exact ih.trans hs.later

theorem Step.extends (h : Step touched st st') : st.facts.Extends touched st'.facts := by
  cases h with
  | type hn t =>
    refine ⟨fun _ => Table.isSome_insert _ _ _ _, fun _ h => h, fun _ h => h, fun other ho => ?_⟩
    rw [Table.get?_insert, if_neg]
    rintro rfl
    exact ho hn
  | binding hn b =>
    exact ⟨fun _ h => h, fun _ => Table.isSome_insert _ _ _ _, fun _ h => h, fun _ _ => rfl⟩
  | written hn t =>
    exact ⟨fun _ h => h, fun _ h => h, fun _ => Table.isSome_insert _ _ _ _, fun _ _ => rfl⟩
  | report | survey | locals => exact .refl _ _

def walk (touched : Nat → Prop) : Walk Checking where
  Step := Step touched
  Clean st := Diagnostic.Clean st.problems
  back h hc := hc.of_prefix h.later.problems

theorem ensures_mono {α : Type} {touched' : Nat → Prop} {pre : Checking → Prop}
    {step : StateM Checking α} {post : α → Checking → Prop}
    (h : Ensures (walk touched) pre step post) (ht : ∀ node, touched node → touched' node) :
    Ensures (walk touched') pre step post :=
  ⟨fun st => Reaches.mono (h.goes st) ht, h.ensures⟩

end Checking
end Quill
