import Mathlib.Data.List.Basic
import Quill.C.Name
import Quill.Package.Path
import Quill.Token.Lexer

/-!
# Names made of parts

C names are made of parts with two underscores between them. Where no part has two underscores in a
row, and none but the last ends with one, the parts can be told from the name.
-/
namespace Quill

open List Lexer

/-- Whether two underscores stand in a row. -/
def underscored : List Char → Bool
  | '_' :: '_' :: _ => true
  | _ :: cs => underscored cs
  | [] => false

theorem underscored_append (before behind : List Char) :
    underscored (before ++ '_' :: '_' :: behind) = true := by
  induction before with
  | nil => rfl
  | cons c cs ih =>
    rw [cons_append]
    unfold underscored
    split
    · rfl
    · rename_i heq
      cases heq
      exact ih
    · rename_i heq
      cases heq

theorem underscored_cons {c : Char} {cs : List Char} (h : underscored (c :: cs) = false) :
    underscored cs = false ∧ ¬ (c = '_' ∧ cs.head? = some '_') := by
  unfold underscored at h
  split at h
  · cases h
  · rename_i hnot heq
    cases heq
    refine ⟨h, ?_⟩
    rintro ⟨rfl, hhead⟩
    cases cs with
    | nil => cases hhead
    | cons d ds =>
      cases hhead
      exact hnot ds rfl rfl
  · rename_i heq
    cases heq

/-- What stands before the first two underscores in a row, and what behind them. -/
def cut : List Char → List Char × Option (List Char)
  | '_' :: '_' :: rest => ([], some rest)
  | c :: cs => (c :: (cut cs).1, (cut cs).2)
  | [] => ([], none)

theorem cut_cons {c : Char} {cs : List Char} (h : ¬ (c = '_' ∧ cs.head? = some '_')) :
    cut (c :: cs) = (c :: (cut cs).1, (cut cs).2) := by
  rw [cut]
  rintro rest rfl rfl
  exact h ⟨rfl, rfl⟩

theorem cut_plain {cs : List Char} (h : underscored cs = false) : cut cs = (cs, none) := by
  induction cs with
  | nil => rfl
  | cons c cs ih =>
    obtain ⟨hcs, hc⟩ := underscored_cons h
    rw [cut_cons hc, ih hcs]

theorem cut_append {part : List Char} (h : underscored part = false)
    (hlast : part.getLast? ≠ some '_') (rest : List Char) :
    cut (part ++ '_' :: '_' :: rest) = (part, some rest) := by
  induction part with
  | nil => rfl
  | cons c cs ih =>
    obtain ⟨hcs, hc⟩ := underscored_cons h
    cases cs with
    | nil =>
      have hne : c ≠ '_' := fun heq => hlast (by rw [heq]; rfl)
      rw [cons_append, cut_cons (fun h => hne h.1)]
      rfl
    | cons d ds => rw [cons_append, cut_cons (by simpa using hc), ih hcs (by simpa using hlast)]

/-- Parts that can be joined and told apart again. -/
inductive Parts : List (List Char) → Prop where
  | last {part : List Char} (plain : underscored part = false) : Parts [part]
  | cons {part : List Char} {parts : List (List Char)} (plain : underscored part = false)
    (ends : part.getLast? ≠ some '_') (rest : Parts parts) : Parts (part :: parts)

theorem Parts.append {before parts : List (List Char)}
    (h : ∀ part ∈ before, underscored part = false ∧ part.getLast? ≠ some '_') (hparts : Parts parts) :
    Parts (before ++ parts) := by
  induction before with
  | nil => exact hparts
  | cons part before ih =>
    obtain ⟨⟨plain, ends⟩, hbefore⟩ := forall_mem_cons.mp h
    exact .cons plain ends (ih hbefore)

def joined (parts : List (List Char)) : List Char := ['_', '_'].intercalate parts

theorem joined_cons (part : List Char) {parts : List (List Char)} (h : parts ≠ []) :
    joined (part :: parts) = part ++ '_' :: '_' :: joined parts := by
  cases parts with
  | nil => exact absurd rfl h
  | cons next parts => simp [joined, intercalate_cons_cons]

theorem joined_singleton (part : List Char) : joined [part] = part := by simp [joined]

theorem Parts.ne_nil {parts : List (List Char)} (h : Parts parts) : parts ≠ [] := by
  cases h <;> exact cons_ne_nil _ _

theorem Parts.cut_joined {part : List Char} {parts : List (List Char)}
    (plain : underscored part = false) (ends : part.getLast? ≠ some '_') (rest : Parts parts) :
    cut (joined (part :: parts)) = (part, some (joined parts)) := by
  rw [joined_cons part rest.ne_nil, cut_append plain ends]

theorem joined_inj {as bs : List (List Char)} (ha : Parts as) (hb : Parts bs)
    (h : joined as = joined bs) : as = bs := by
  induction ha generalizing bs with
  | @last a plain =>
    cases hb with
    | last plain' => simpa [joined_singleton] using h
    | cons plain' ends' rest' =>
      -- The one side is cut, the other is not.
      have halves := congrArg cut h
      rw [Parts.cut_joined plain' ends' rest', joined_singleton, cut_plain plain]
        at halves
      cases halves
  | @cons a as plain ends rest ih =>
    have halves := congrArg cut h
    rw [Parts.cut_joined plain ends rest] at halves
    cases hb with
    | @last b plain' =>
      rw [joined_singleton, cut_plain plain'] at halves
      cases halves
    | @cons b bs plain' ends' rest' =>
      rw [Parts.cut_joined plain' ends' rest'] at halves
      obtain ⟨hpart, hrest⟩ := Prod.mk.inj halves
      rw [hpart, ih rest' (Option.some.inj hrest)]

theorem joined_append_singleton {parts : List (List Char)} (h : parts ≠ []) (last : List Char) :
    joined (parts ++ [last]) = joined parts ++ '_' :: '_' :: last := by
  induction parts with
  | nil => exact absurd rfl h
  | cons part parts ih =>
    cases parts with
    | nil => simp [joined_cons, joined_singleton]
    | cons next parts =>
      rw [cons_append, joined_cons part (append_ne_nil_of_right_ne_nil _ (by simp)),
        ih (by simp), joined_cons part (by simp)]
      simp

namespace PackagePath

/-- What the C names of a package begin with, in parts. -/
def parts (p : PackagePath) : List String := if p.isAnonymous then ["main"] else p.segments

theorem parts_ne_nil (p : PackagePath) : p.parts ≠ [] := by
  unfold parts
  split
  · simp
  · rename_i h
    simpa [isAnonymous] using h

theorem toList_mangle (p : PackagePath) (name : String) :
    (p.mangle name).toList = joined ((p.parts ++ [name]).map String.toList) := by
  have hne : p.parts.map String.toList ≠ [] := by simpa using p.parts_ne_nil
  rw [map_append, map_singleton, joined_append_singleton hne]
  unfold mangle parts
  split
  · simp [joined_singleton]
  · simp [joined]

end PackagePath

def cKeywords : List String :=
  ["auto", "break", "case", "char", "const", "continue", "default", "do", "double", "else", "enum",
    "extern", "float", "for", "goto", "if", "inline", "int", "long", "register", "restrict",
    "return", "short", "signed", "sizeof", "static", "struct", "switch", "typedef", "union",
    "unsigned", "void", "volatile", "while", "_Alignas", "_Alignof", "_Atomic", "_Bool", "_Complex",
    "_Generic", "_Imaginary", "_Noreturn", "_Static_assert", "_Thread_local"]

theorem underscored_of_mem_cKeywords {name : String} (h : name ∈ cKeywords) :
    underscored name.toList = false := by
  have plain : ∀ keyword ∈ cKeywords, underscored keyword.toList = false := by decide
  exact plain name h

/-- An identifier of C: letters, digits and underscores, no digit in front, and no keyword. -/
structure IsIdentifier (name : String) : Prop where
  chars : ∀ c ∈ name.toList, isWordPart c
  starts : ∃ c ∈ name.toList.head?, isWordStart c
  free : name ∉ cKeywords

instance (name : String) : Decidable (IsIdentifier name) :=
  decidable_of_iff (name.toList.all isWordPart = true ∧
      name.toList.head?.any isWordStart = true ∧ name ∉ cKeywords)
    ⟨fun h => ⟨all_eq_true.mp h.1, (Option.any_eq_true _ _).mp h.2.1, h.2.2⟩,
      fun h => ⟨all_eq_true.mpr h.chars, (Option.any_eq_true _ _).mpr h.starts, h.free⟩⟩

theorem mem_joined {parts : List (List Char)} {c : Char} (h : c ∈ joined parts) :
    c = '_' ∨ ∃ part ∈ parts, c ∈ part := by
  induction parts with
  | nil => cases h
  | cons part parts ih =>
    by_cases hnil : parts = []
    · subst hnil
      rw [joined_singleton] at h
      exact .inr ⟨part, mem_singleton_self part, h⟩
    · rw [joined_cons part hnil] at h
      simp only [mem_append, mem_cons] at h
      rcases h with h | rfl | rfl | h
      · exact .inr ⟨part, mem_cons_self, h⟩
      · exact .inl rfl
      · exact .inl rfl
      · exact (ih h).imp_right fun ⟨other, hother, h⟩ => ⟨other, mem_cons_of_mem part hother, h⟩

theorem IsIdentifier.of_joined {name : String} {part : List Char} {parts : List (List Char)}
    (h : name.toList = joined (part :: parts)) (more : parts ≠ [])
    (chars : ∀ p ∈ part :: parts, ∀ c ∈ p, isWordPart c)
    (starts : ∃ c ∈ part.head?, isWordStart c) : IsIdentifier name where
  chars c hc := by
    rcases mem_joined (h ▸ hc) with rfl | ⟨p, hp, hc⟩
    · rfl
    · exact chars p hp c hc
  starts := by
    obtain ⟨c, hc, hstart⟩ := starts
    refine ⟨c, ?_, hstart⟩
    rw [h, joined_cons part more]
    exact mem_head?_append_of_mem_head? hc
  free hmem := by
    have plain := underscored_of_mem_cKeywords hmem
    rw [h, joined_cons part more, underscored_append] at plain
    cases plain

/-- Lowering gives an identifier to a word that does not begin with a digit, unless it is a keyword
that lowering does not know. -/
theorem IsIdentifier.cIdent {name : String} (chars : ∀ c ∈ name.toList, isWordPart c)
    (starts : ∃ c ∈ name.toList.head?, isWordStart c)
    (known : name ∈ cKeywords → name ∈ cReserved) : IsIdentifier (cIdent name) := by
  unfold Quill.cIdent
  split
  · rename_i hreserved
    have good : ∀ word ∈ cReserved, IsIdentifier (word ++ "_") := by decide
    exact good name (contains_iff_mem.mp hreserved)
  · rename_i hfree
    exact ⟨chars, starts, fun hmem => hfree (contains_iff_mem.mpr (known hmem))⟩

/-- Two names are lowered to one only if one of them is reserved and the other is what it is lowered
to. -/
theorem cIdent_inj {a b : String} (h : cIdent a = cIdent b) :
    a = b ∨ a ∈ cReserved ∧ b = a ++ "_" ∨ b ∈ cReserved ∧ a = b ++ "_" := by
  unfold cIdent at h
  simp only [contains_iff_mem] at h
  split at h <;> split at h
  · exact .inl ((String.append_left_inj "_").mp h)
  · rename_i ha _
    exact .inr (.inl ⟨ha, h.symm⟩)
  · rename_i hb
    exact .inr (.inr ⟨hb, h⟩)
  · exact .inl h

theorem isDigit_of_mem_toString {n : Nat} {c : Char} (h : c ∈ (toString n).toList) :
    isDigit c = true := by
  rw [Nat.toString_eq_ofList_toDigits, String.toList_ofList] at h
  exact Nat.isDigit_of_mem_toDigits (b := 10) (by decide) (by decide) h

theorem isWordStart_of_isDigit {c : Char} (h : isDigit c = true) :
    isWordStart c = false := by
  simp only [isDigit, Bool.and_eq_true, decide_eq_true_eq] at h
  have below : c.toNat ≤ 57 := h.2
  have notLetter (low : Char) (hlow : 57 < low.toNat) : ¬ low ≤ c := fun hle => by
    have : low.toNat ≤ c.toNat := hle
    omega
  have notUnderscore : c ≠ '_' := by
    rintro rfl
    exact absurd below (by decide)
  simp [isWordStart, notLetter 'a' (by decide), notLetter 'A' (by decide), notUnderscore]

end Quill
