import Quill.Ty.Relation

/-!
# What a conversion lets be written

A pointer may be converted to one that allows less. So a conversion makes storage writable at no
depth but where the two types already count as equal.
-/
namespace Quill

def Ty.behind : Nat → Ty → Option Ty
  | 0, t => some t
  | depth + 1, .pointer t | depth + 1, .mutPointer t => t.behind depth
  | _ + 1, _ => none

namespace StructTable

variable {t : StructTable} {a b x y : Ty}

theorem same_behind {n : Nat} (h : t.same a b = true) (ha : a.behind n = some x)
    (hb : b.behind n = some y) : t.same x y = true := by
  induction n generalizing a b with
  | zero =>
    cases ha
    cases hb
    exact h
  | succ n ih =>
    cases a with
    | pointer a | mutPointer a =>
      cases b with
      | pointer b | mutPointer b => exact ih (a := a) (b := b) h ha hb
      | _ => cases hb
    | _ => cases ha

/-- What conversion adds to equality on pointers: it goes on behind them, but not from one that
forbids writing to one that allows it. -/
theorem converts_pointers (ha : a.behind 1 = some x) (hb : b.behind 1 = some y)
    (h : t.converts a b = true) :
    t.same a b = true ∨ t.converts x y = true ∧ (b = .mutPointer y → a = .mutPointer x) := by
  unfold converts at h
  rw [Bool.or_eq_true] at h
  refine h.imp_right fun h => ?_
  cases a with
  | pointer a | mutPointer a =>
    cases ha
    cases b with
    | pointer b | mutPointer b =>
      cases hb
      simp_all
    | _ => cases hb
  | _ => cases ha

/-- At whatever depth a conversion turns a pointer that forbids writing into one that allows it, both
point to the same type. -/
theorem converts_writable {n : Nat} (h : t.converts a b = true) (ha : a.behind n = some (.pointer x))
    (hb : b.behind n = some (.mutPointer y)) : t.same x y = true := by
  induction n generalizing a b with
  | zero =>
    cases ha
    cases hb
    rcases converts_pointers rfl rfl h with same | ⟨-, writable⟩
    · exact same
    · cases writable rfl
  | succ n ih =>
    have inner (c : Ty) {z : Ty} (hc : c.behind (n + 1) = some z) :
        ∃ d, c.behind 1 = some d ∧ d.behind n = some z := by
      cases c with
      | pointer d | mutPointer d => exact ⟨d, rfl, hc⟩
      | _ => cases hc
    obtain ⟨c, hac, hc⟩ := inner a ha
    obtain ⟨d, hbd, hd⟩ := inner b hb
    rcases converts_pointers hac hbd h with same | ⟨further, -⟩
    · exact same_behind (x := .pointer x) (y := .mutPointer y) same ha hb
    · exact ih further hc hd

/-- Behind a first pointer, to instances of two structs with one content. -/
theorem pairs_writable :
    let pair (id : StructId) : Ty := .instance id [.scalar .char] 0
    let table : StructTable := ⟨#[⟨"Pair", 0, 3, ["T"], []⟩, ⟨"Pair", 1, 3, ["T"], []⟩]⟩
    table.converts (.mutPointer (.pointer (pair 0))) (.pointer (.mutPointer (pair 1))) = true ∧
      table.same (pair 0) (pair 1) = true := by
  intro pair table
  have h : table.converts (.mutPointer (.pointer (pair 0))) (.pointer (.mutPointer (pair 1))) = true := by
    decide
  exact ⟨h, converts_writable h (n := 1) rfl rfl⟩

/-- A pointer to a type without parameters can gain the right to write. -/
theorem readOnly_becomes_writable :
    ¬ ∀ (t : StructTable) (a b : Ty), a.hasGenerics = false → b.hasGenerics = false →
      t.converts a b = true → ∀ (n : Nat) (y : Ty), (a.behind n).any (·.isPointer) = true →
        b.behind n = some (.mutPointer y) → ∃ x, a.behind n = some (.mutPointer x) := by
  intro h
  obtain ⟨x, hx⟩ := h ⟨#[]⟩ (.pointer (.scalar .int)) (.mutPointer (.scalar .int)) rfl rfl (by decide) 0
    (.scalar .int) rfl rfl
  cases hx

end StructTable
end Quill
