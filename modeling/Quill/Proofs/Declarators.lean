import Quill.Proofs.InstanceNames

/-!
# Declarators

Read the way C reads declarators, the C type of a type is that type again. A type has none where a
part of it that is not an argument of a struct cannot be written in this way.
-/
namespace Quill

open CType List Nat

inductive CTree where
  | named (name : String)
  | pointer (target : CTree)
  | array (length : Option Nat) (element : CTree)
  deriving DecidableEq, Repr

namespace CTree

def ofReversed : List Char → CTree
  | [] => named ""
  | c :: cs => if c = '*' then pointer (ofReversed cs) else named (String.ofList (c :: cs).reverse)

def ofBase (base : String) : CTree := ofReversed base.toList.reverse

/-- Lengths in brackets. Inside a bracket the number is known up to the next digit. -/
def dims : (inside : Option (Option Nat)) → List Char → Option (List (Option Nat))
  | none, [] => some []
  | some _, [] => none
  | none, c :: cs => if c = '[' then dims (some none) cs else none
  | some length, c :: cs =>
    if c = ']' then (dims none cs).map (length :: ·)
    else if c.isDigit then dims (some (some (10 * length.getD 0 + (c.toNat - '0'.toNat)))) cs
    else none

/-- The type of a name that is declared between these texts. -/
def read (base suffix : String) : Option CTree :=
  (dims none suffix.toList).map (foldr array (ofBase base))

theorem ofBase_name {name : String} (h : '*' ∉ name.toList) : ofBase name = named name := by
  unfold ofBase
  cases hrev : name.toList.reverse with
  | nil =>
    have : name = "" := by simpa using hrev
    rw [this, ofReversed]
  | cons c cs =>
    have hc : c ≠ '*' := by
      rintro rfl
      exact h (mem_reverse.mp (hrev ▸ mem_cons_self))
    rw [ofReversed, if_neg hc, ← hrev, reverse_reverse, String.ofList_toList]

theorem ofBase_star (base : String) : ofBase (base.push '*') = pointer (ofBase base) := by
  simp [ofBase, ofReversed]

theorem dims_digits {ds cs : List Char} (hds : ∀ d ∈ ds, d.isDigit = true) (n : Nat) :
    dims (some (some n)) (ds ++ ']' :: cs) =
      (dims none cs).map (some (ofDigitChars 10 ds n) :: ·) := by
  induction ds generalizing n with
  | nil => simp [dims]
  | cons d ds ih =>
    obtain ⟨hd, hds⟩ := forall_mem_cons.mp hds
    have hne : d ≠ ']' := by
      rintro rfl
      exact absurd hd (by decide)
    rw [cons_append, dims, if_neg hne, if_pos hd, ih hds, ofDigitChars_cons]
    rfl

theorem dims_dimension (n : Option Nat) (cs : List Char) :
    dims none ((dimension n).toList ++ cs) = (dims none cs).map (n :: ·) := by
  cases n with
  | none => simp [dimension, dims]
  | some n =>
    have hdigits : ∀ d ∈ toDigits 10 n, d.isDigit = true :=
      fun d hd => isDigit_of_mem_toDigits (b := 10) (by decide) (by decide) hd
    have hread : ofDigitChars 10 (toDigits 10 n) 0 = n := ofDigitChars_ten_toDigits
    have htext : (dimension (some n)).toList ++ cs = '[' :: (toDigits 10 n ++ ']' :: cs) := by
      simp [dimension]
    rw [htext, dims, if_pos rfl]
    cases hds : toDigits 10 n with
    | nil => exact absurd hds (by simp)
    | cons d ds =>
      rw [hds] at hread hdigits
      obtain ⟨hd, hds'⟩ := forall_mem_cons.mp hdigits
      have hne : d ≠ ']' := by
        rintro rfl
        exact absurd hd (by decide)
      rw [cons_append, dims, if_neg hne, if_pos hd, dims_digits hds']
      rw [ofDigitChars_cons] at hread
      rw [show (10 * (none : Option Nat).getD 0 + (d.toNat - '0'.toNat)) = 10 * 0 + (d.toNat - '0'.toNat)
        from rfl, hread]

theorem read_named (name : String) :
    read (base { name }) (suffix { name }) = some (ofBase name) := by
  have hstars : base { name } = name := String.append_empty
  rw [read, hstars]
  rfl

theorem read_pointer {c : CType} {tree : CTree} (h : read c.base c.suffix = some tree)
    (hc : c.isArray = false) :
    let p := { c with stars := c.stars + 1 }
    read p.base p.suffix = some (pointer tree) := by
  intro p
  have hdims : c.dims = [] := by simpa [isArray] using hc
  have hsuffix : p.suffix = "" ∧ c.suffix = "" := by simp [suffix, p, hdims]
  have hbase : p.base = c.base.push '*' := String.toList_inj.mp (by simp [base, String.pushn, Nat.repeat, p])
  rw [hsuffix.2] at h
  rw [hbase, hsuffix.1, read, ofBase_star, ← Option.some.inj h]
  rfl

theorem read_array {c : CType} {tree : CTree} (h : read c.base c.suffix = some tree)
    (n : Option Nat) :
    let a := { c with dims := n :: c.dims }
    read a.base a.suffix = some (array n tree) := by
  intro a
  have hsuffix : a.suffix.toList = (dimension n).toList ++ c.suffix.toList := by
    simp [suffix, a]
  obtain ⟨ns, hns, rfl⟩ := Option.map_eq_some_iff.mp h
  rw [read, hsuffix, dims_dimension, hns]
  rfl

end CTree

namespace Checked

variable (cx : Checked)

/-- The C name of a named type, where generic structs have these versions. -/
def cName (is : Instances) : Ty → String
  | .void => "void"
  | .scalar s => s.cName
  | .struct id => cx.mangle (cx.structs.get id).package (cx.structs.get id).name
  | .instance id as _ =>
    cx.mangle (cx.structs.get id).package (cx.structs.get id).name ++ "__" ++
      toString (is.instantiate id as).1
  | .abstract name package native => if native then name else cx.mangle package name
  | _ => ""

/-- The type with its pointers alike and its named types under their C names. -/
def inC (is : Instances) : Ty → CTree
  | .pointer t | .mutPointer t => .pointer (inC is t)
  | .array t n => .array n (inC is t)
  | t => .ofBase (cx.cName is t)

/-- A type that C cannot spell, whatever it is made of. -/
def unspelled : Ty → Bool
  | .pointer (.array _ _) | .mutPointer (.array _ _) => true
  | .function _ _ | .package _ | .generic _ _ _ => true
  | .struct id => !(cx.structs.get id).generics.isEmpty
  | .instance _ as _ => Ty.anyGenerics as
  | _ => false

end Checked

/-- The type and what it points to or has for elements. -/
def Ty.outer : Ty → List Ty
  | t@(pointer u) | t@(mutPointer u) | t@(array u _) => t :: u.outer
  | t => [t]

namespace Lower

variable {cx : Checked} {st : Lowering}

theorem isArray_iff {t : Ty} {c : CType} (h : (cType? cx t st).1 = some c) :
    c.isArray = true ↔ ∃ u n, t = .array u n := by
  cases t with
  | pointer t | mutPointer t =>
    simp only [cType?_mutPointer, cType?_pointer, Option.bind_eq_some_iff] at h
    obtain ⟨inner, -, h⟩ := h
    split at h
    · cases h
    · rename_i hinner
      cases h
      simpa [isArray] using hinner
  | array t n =>
    rw [cType?_array] at h
    obtain ⟨inner, -, rfl⟩ := Option.map_eq_some_iff.mp h
    simp [isArray]
  | struct id =>
    have h : (if _ then some _ else none) = some c := h
    split at h <;> cases h
    simp [isArray]
  | «instance» id as v =>
    rw [cType?_instance] at h
    split at h <;> cases h
    simp [isArray]
  | generic | function | package => cases h
  | void | scalar | abstract =>
    cases h
    simp [isArray]

theorem cType?_pointer_eq_none_iff (t : Ty) : (cType? cx (.pointer t) st).1 = none ↔
    cx.unspelled (.pointer t) = true ∨ (cType? cx t st).1 = none := by
  rw [cType?_pointer]
  cases hc : (cType? cx t st).1 with
  | none => simp
  | some c =>
    have harray : c.isArray = true ↔ cx.unspelled (.pointer t) = true := by
      rw [isArray_iff hc]
      cases t <;> simp [Checked.unspelled]
    simp [← harray]

theorem cType?_eq_none_iff (t : Ty) :
    (cType? cx t st).1 = none ↔ ∃ u ∈ t.outer, cx.unspelled u = true := by
  -- A pointer or an array is spelled if what it is made of is, unless it is unspelled itself.
  have around {t u : Ty} (houter : t.outer = t :: u.outer)
      (ih : (cType? cx u st).1 = none ↔ ∃ v ∈ u.outer, cx.unspelled v = true)
      (h : (cType? cx t st).1 = none ↔ cx.unspelled t = true ∨ (cType? cx u st).1 = none) :
      (cType? cx t st).1 = none ↔ ∃ v ∈ t.outer, cx.unspelled v = true := by
    rw [h, houter, exists_mem_cons_iff, ih]
  match t with
  | .pointer t => exact around rfl (cType?_eq_none_iff t) (cType?_pointer_eq_none_iff t)
  | .mutPointer t =>
    have hsame : cx.unspelled (.mutPointer t) = cx.unspelled (.pointer t) := by cases t <;> rfl
    refine around rfl (cType?_eq_none_iff t) ?_
    rw [cType?_mutPointer, hsame]
    exact cType?_pointer_eq_none_iff t
  | .array t n =>
    refine around rfl (cType?_eq_none_iff t) ?_
    simp [cType?_array, Checked.unspelled]
  | .struct id =>
    have h : (cType? cx (.struct id) st).1 = if (cx.structs.get id).generics.isEmpty then
      some { name := cx.mangle (cx.structs.get id).package (cx.structs.get id).name } else none := rfl
    rw [h]
    cases hg : (cx.structs.get id).generics.isEmpty <;> simp [Ty.outer, Checked.unspelled, hg]
  | .instance id as v =>
    rw [cType?_instance]
    cases ha : Ty.anyGenerics as <;> simp [Ty.outer, Checked.unspelled, ha]
  | .generic _ _ _ | .function _ _ | .package _ => exact iff_of_true rfl ⟨_, mem_cons_self, rfl⟩
  | .void | .scalar _ | .abstract _ _ _ =>
    exact iff_of_false nofun (by simp [Ty.outer, Checked.unspelled])

theorem cType?_read {t : Ty} {c : CType} (h : (cType? cx t st).1 = some c) :
    CTree.read c.base c.suffix = some (cx.inC st.instances t) := by
  match t with
  | .pointer t | .mutPointer t =>
    simp only [cType?_mutPointer, cType?_pointer, Option.bind_eq_some_iff] at h
    obtain ⟨inner, hinner, h⟩ := h
    split at h
    · cases h
    · rename_i harray
      cases h
      exact CTree.read_pointer (cType?_read hinner) (Bool.eq_false_iff.mpr harray)
  | .array t n =>
    rw [cType?_array] at h
    obtain ⟨inner, hinner, rfl⟩ := Option.map_eq_some_iff.mp h
    exact CTree.read_array (cType?_read hinner) n
  | .struct id =>
    have h : (if _ then some _ else none) = some c := h
    split at h <;> cases h
    exact CTree.read_named _
  | .instance id as v =>
    rw [cType?_instance] at h
    split at h <;> cases h
    exact CTree.read_named _
  | .generic _ _ _ | .function _ _ | .package _ => cases h
  | .void | .scalar _ | .abstract _ _ _ =>
    cases h
    exact CTree.read_named _

end Lower

/-- What the C type of a type declares is that type, its pointers alike and its named types under their
C names. There is no C type exactly where the type has a part outside the arguments of structs that
cannot be spelled: a pointer to an array, a function, a package, a parameter, a generic struct without
arguments or one whose arguments have parameters. -/
theorem declarators_read (cx : Checked) (t : Ty) (st : Lowering) :
    (∀ c, (Lower.cType? cx t st).1 = some c →
      CTree.read c.base c.suffix = some (cx.inC st.instances t)) ∧
    ((Lower.cType? cx t st).1 = none ↔ ∃ u ∈ t.outer, cx.unspelled u = true) ∧
    ∀ name : String, '*' ∉ name.toList → CTree.ofBase name = .named name :=
  ⟨fun _ => Lower.cType?_read, Lower.cType?_eq_none_iff t, fun _ => CTree.ofBase_name⟩

/-- Two arrays of three pointers each; a pointer to one of them has no C type. -/
theorem declarators_read_nested :
    let cx : Checked := { table := .ofBuckets 1, resolution := ⟨⟨#[], {}, {}⟩, {}, []⟩ }
    let st : Lowering := { instances := {} }
    let row : Ty := .array (.mutPointer (.pointer (.scalar .int))) (some 3)
    (∃ c, (Lower.cType? cx (.array row (some 2)) st).1 = some c ∧
      c.declare "grid" = "int** grid[2][3]" ∧ CTree.read c.base c.suffix =
        some (.array (some 2) (.array (some 3) (.pointer (.pointer (.named "int")))))) ∧
    (Lower.cType? cx (.array (.pointer row) none) st).1 = none := by
  intro cx st row
  obtain ⟨spelled, -, names⟩ := declarators_read cx (.array row (some 2)) st
  have hc : (Lower.cType? cx (.array row (some 2)) st).1 =
      some { name := "int", stars := 2, dims := [some 2, some 3] } := rfl
  refine ⟨⟨_, hc, by decide, ?_⟩, ?_⟩
  · rw [spelled _ hc, ← names "int" (by decide)]
    rfl
  · obtain ⟨-, unspelled, -⟩ := declarators_read cx (.array (.pointer row) none) st
    exact unspelled.mpr ⟨.pointer row, by simp [Ty.outer], rfl⟩

end Quill
