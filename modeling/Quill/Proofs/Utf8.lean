import Mathlib.Data.List.Basic
import Quill.Token.Lexer

/-!
# Characters as bytes

A byte of the lower half stands only for the character of its number, and all other characters have
only bytes of the upper half.
-/
namespace Quill

open List

def utf8 (cs : List Char) : List UInt8 := cs.flatMap String.utf8EncodeChar

def textBytes (text : String) : List UInt8 := text.toUTF8.data.toList

theorem textBytes_eq (text : String) : textBytes text = utf8 text.toList := by
  rw [textBytes, String.toUTF8_eq_toByteArray, ← String.utf8Encode_toList, utf8Encode,
    toList_data_toByteArray, utf8]

@[simp] theorem utf8_nil : utf8 [] = [] := rfl

theorem utf8_cons (c : Char) (cs : List Char) :
    utf8 (c :: cs) = String.utf8EncodeChar c ++ utf8 cs := rfl

theorem utf8_append (cs ds : List Char) : utf8 (cs ++ ds) = utf8 cs ++ utf8 ds := flatMap_append

theorem bytes_eq_length (cs : List Char) : Lexer.State.bytes cs = (utf8 cs).length := by
  induction cs with
  | nil => rfl
  | cons c cs ih =>
    rw [Lexer.State.bytes, utf8_cons, length_append, String.length_utf8EncodeChar, ih]

theorem length_utf8_pos (c : Char) (cs : List Char) : 0 < (utf8 (c :: cs)).length := by
  rw [utf8_cons, length_append, String.length_utf8EncodeChar]
  exact Nat.add_pos_left c.utf8Size_pos _

theorem utf8EncodeChar_cases (c : Char) :
    c.toNat < 128 ∧ String.utf8EncodeChar c = [UInt8.ofNat c.toNat] ∨
      128 ≤ c.toNat ∧ ∀ b ∈ String.utf8EncodeChar c, 128 ≤ b.toNat := by
  unfold String.utf8EncodeChar
  dsimp only
  split
  · rename_i h
    exact .inl ⟨Nat.lt_succ_of_le h, rfl⟩
  · rename_i h
    refine .inr ⟨Nat.lt_of_not_le h, ?_⟩
    split
    · simp only [mem_cons, not_mem_nil, or_false, forall_eq_or_imp, forall_eq,
        UInt8.toNat_ofNat']
      omega
    split
    · simp only [mem_cons, not_mem_nil, or_false, forall_eq_or_imp, forall_eq,
        UInt8.toNat_ofNat']
      omega
    · simp only [mem_cons, not_mem_nil, or_false, forall_eq_or_imp, forall_eq,
        UInt8.toNat_ofNat']
      omega

theorem utf8EncodeChar_of_lt {c : Char} (h : c.toNat < 128) :
    String.utf8EncodeChar c = [UInt8.ofNat c.toNat] := by
  rcases utf8EncodeChar_cases c with hc | hc
  · exact hc.2
  · exact absurd hc.1 (Nat.not_le_of_lt h)

theorem toNat_byte {c : Char} (h : c.toNat < 128) : (UInt8.ofNat c.toNat).toNat = c.toNat := by
  rw [UInt8.toNat_ofNat']
  omega

theorem utf8_isPrefix_iff (as : List Char) {cs : List Char} (has : ∀ a ∈ as, a.toNat < 128) :
    utf8 as <+: utf8 cs ↔ as <+: cs := by
  induction as generalizing cs with
  | nil => simp
  | cons a as ih =>
    have ha := has a mem_cons_self
    rw [utf8_cons, utf8EncodeChar_of_lt ha, singleton_append]
    cases cs with
    | nil => simp
    | cons c cs =>
      rw [utf8_cons, cons_prefix_cons]
      rcases utf8EncodeChar_cases c with ⟨hc, heq⟩ | ⟨hc, hbytes⟩
      · rw [heq, singleton_append, cons_prefix_cons,
          ih fun b hb => has b (mem_cons_of_mem a hb), ← UInt8.toNat_inj, toNat_byte ha,
          toNat_byte hc, Char.toNat_inj]
      · -- The first byte tells that the characters differ.
        constructor
        · intro h
          have hmem : UInt8.ofNat a.toNat ∈ String.utf8EncodeChar c := by
            cases hcode : String.utf8EncodeChar c with
            | nil => exact absurd hcode String.utf8EncodeChar_ne_nil
            | cons b bs =>
              rw [hcode, cons_append, cons_prefix_cons] at h
              exact h.1 ▸ mem_cons_self
          have := hbytes _ hmem
          rw [toNat_byte ha] at this
          omega
        · rintro ⟨rfl, -⟩
          omega

theorem count_utf8 {a : Char} (ha : a.toNat < 128) (cs : List Char) :
    (utf8 cs).count (UInt8.ofNat a.toNat) = cs.count a := by
  induction cs with
  | nil => rfl
  | cons c cs ih =>
    rw [utf8_cons, count_append, ih, count_cons, Nat.add_comm]
    congr 1
    rcases utf8EncodeChar_cases c with ⟨hc, heq⟩ | ⟨hc, hbytes⟩
    · rw [heq, count_singleton]
      have hsame : (UInt8.ofNat c.toNat == UInt8.ofNat a.toNat) = (c == a) := by
        rw [Bool.eq_iff_iff, beq_iff_eq, beq_iff_eq, ← UInt8.toNat_inj, toNat_byte ha,
          toNat_byte hc, Char.toNat_inj]
      rw [hsame]
    · have hne : (c == a) = false := by
        rw [beq_eq_false_iff_ne]
        rintro rfl
        omega
      rw [hne, count_eq_zero.mpr]
      · rfl
      · intro hmem
        have := hbytes _ hmem
        rw [toNat_byte ha] at this
        omega

end Quill
