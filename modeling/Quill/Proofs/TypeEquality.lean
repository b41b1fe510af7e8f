import Quill.Proofs.TypeForm
import Quill.Ty.Relation

/-!
# Equality of types

Types that count as the same can stand for each other: the relation is an equality on well-formed
types, but not on all types, for a struct counts as the same as any of its instances.
-/
namespace Quill.StructTable

variable {R : StructId → StructId → Bool}

section Symmetric

mutual

theorem sameBy_refl (hR : ∀ i, R i i = true) (a : Ty) : sameBy R a a = true := by
  cases a with
  | pointer a | mutPointer a => exact sameBy_refl hR a
  | array a n => simp [sameBy, sameBy_refl hR a]
  | function ps r => simp [sameBy, sameAllBy_refl hR ps, sameBy_refl hR r]
  | struct id => exact hR id
  | «instance» id as v => simp [sameBy, hR id, sameAllBy_refl hR as]
  | _ => simp [sameBy]

theorem sameAllBy_refl (hR : ∀ i, R i i = true) (as : List Ty) : sameAllBy R as as = true := by
  cases as with
  | nil => rfl
  | cons a as => simp [sameAllBy, sameBy_refl hR a, sameAllBy_refl hR as]

end

mutual

theorem sameBy_symm (hR : ∀ i j, R i j = true → R j i = true) {a b : Ty}
    (h : sameBy R a b = true) : sameBy R b a = true := by
  cases a with
  | pointer a | mutPointer a =>
    cases b with
    | pointer b | mutPointer b => exact sameBy_symm hR (a := a) (b := b) h
    | _ => simp [sameBy] at h
  | array a m =>
    cases b with
    | array b n =>
      simp only [sameBy, Bool.and_eq_true, beq_iff_eq] at h ⊢
      exact ⟨h.1.symm, sameBy_symm hR h.2⟩
    | _ => simp [sameBy] at h
  | function ps r =>
    cases b with
    | function qs s =>
      simp only [sameBy, Bool.and_eq_true] at h ⊢
      exact ⟨sameAllBy_symm hR h.1, sameBy_symm hR h.2⟩
    | _ => simp [sameBy] at h
  | struct i =>
    cases b with
    | struct j | «instance» j bs w => exact hR i j h
    | _ => simp [sameBy] at h
  | «instance» i as v =>
    cases b with
    | struct j => exact hR i j h
    | «instance» j bs w =>
      simp only [sameBy, Bool.and_eq_true] at h ⊢
      exact ⟨hR i j h.1, sameAllBy_symm hR h.2⟩
    | _ => simp [sameBy] at h
  | void | scalar | generic | abstract | package => cases b <;> simp_all [sameBy]

theorem sameAllBy_symm (hR : ∀ i j, R i j = true → R j i = true) {as bs : List Ty}
    (h : sameAllBy R as bs = true) : sameAllBy R bs as = true := by
  cases as with
  | nil =>
    cases bs with
    | nil => rfl
    | cons b bs => simp [sameAllBy] at h
  | cons a as =>
    cases bs with
    | nil => simp [sameAllBy] at h
    | cons b bs =>
      simp only [sameAllBy, Bool.and_eq_true] at h ⊢
      exact ⟨sameBy_symm hR h.1, sameAllBy_symm hR h.2⟩

end

theorem sameFields_symm {fs gs : List (String × Ty)} (h : sameFields fs gs = true) :
    sameFields gs fs = true := by
  induction fs generalizing gs with
  | nil =>
    cases gs with
    | nil => rfl
    | cons g gs => simp [sameFields] at h
  | cons f fs ih =>
    cases gs with
    | nil => simp [sameFields] at h
    | cons g gs =>
      simp only [sameFields, Bool.and_eq_true, beq_iff_eq] at h ⊢
      refine ⟨⟨h.1.1.symm, sameBy_symm (fun i j hij => ?_) h.1.2⟩, ih h.2⟩
      exact beq_iff_eq.mpr (beq_iff_eq.mp hij).symm

theorem sameStruct_symm (t : StructTable) (i j : StructId) (h : t.sameStruct i j = true) :
    t.sameStruct j i = true := by
  simp only [sameStruct, Bool.or_eq_true, Bool.and_eq_true, beq_iff_eq] at h ⊢
  rcases h with rfl | h
  · exact .inl rfl
  · exact .inr ⟨⟨h.1.1.symm, h.1.2.symm⟩, sameFields_symm h.2⟩

end Symmetric

/-- A relation between structs under which types may be compared: it is transitive and does not
confuse structs with different parameters. -/
structure Comparison (t : StructTable) (R : StructId → StructId → Bool) : Prop where
  trans : ∀ {i j k}, R i j = true → R j k = true → R i k = true
  generics : ∀ {i j}, R i j = true → (t.get i).generics = (t.get j).generics

section Transitive

variable {t : StructTable}

mutual

theorem sameBy_trans (hR : t.Comparison R) {a b c : Ty} (ha : a.Formed t) (hb : b.Formed t)
    (hc : c.Formed t) (h : sameBy R a b = true) (h' : sameBy R b c = true) :
    sameBy R a c = true := by
  cases a with
  | pointer a | mutPointer a =>
    cases b with
    | pointer b | mutPointer b =>
      cases c with
      | pointer c | mutPointer c =>
        exact sameBy_trans hR (a := a) (b := b) (c := c) ha hb hc h h'
      | _ => simp [sameBy] at h'
    | _ => simp [sameBy] at h
  | array a m =>
    cases b with
    | array b n =>
      cases c with
      | array c k =>
        simp only [sameBy, Bool.and_eq_true, beq_iff_eq] at h h' ⊢
        exact ⟨h.1.trans h'.1, sameBy_trans hR (a := a) (b := b) (c := c) ha hb hc h.2 h'.2⟩
      | _ => simp [sameBy] at h'
    | _ => simp [sameBy] at h
  | function ps r =>
    cases b with
    | function qs s =>
      cases c with
      | function rs u =>
        simp only [sameBy, Bool.and_eq_true] at h h' ⊢
        exact ⟨sameAllBy_trans hR ha.1 hb.1 hc.1 h.1 h'.1, sameBy_trans hR ha.2 hb.2 hc.2 h.2 h'.2⟩
      | _ => simp [sameBy] at h'
    | _ => simp [sameBy] at h
  | struct i =>
    cases b with
    | struct j =>
      cases c with
      | struct k => exact hR.trans h h'
      | «instance» k cs w => exact absurd (hR.generics h') (hb.apart hc)
      | _ => simp [sameBy] at h'
    | «instance» j bs w => exact absurd (hR.generics h) (ha.apart hb)
    | _ => simp [sameBy] at h
  | «instance» i as v =>
    cases b with
    | struct j => exact absurd (hR.generics h).symm (hb.apart ha)
    | «instance» j bs w =>
      cases c with
      | struct k => exact absurd (hR.generics h').symm (hc.apart hb)
      | «instance» k cs u =>
        simp only [sameBy, Bool.and_eq_true] at h h' ⊢
        exact ⟨hR.trans h.1 h'.1,
          sameAllBy_trans hR ha.arguments hb.arguments hc.arguments h.2 h'.2⟩
      | _ => simp [sameBy] at h'
    | _ => simp [sameBy] at h
  | void | scalar | generic | abstract | package =>
    cases b <;> simp [sameBy] at h
    cases c <;> simp_all [sameBy]

theorem sameAllBy_trans (hR : t.Comparison R) {as bs cs : List Ty} (ha : Ty.AllFormed t as)
    (hb : Ty.AllFormed t bs) (hc : Ty.AllFormed t cs) (h : sameAllBy R as bs = true)
    (h' : sameAllBy R bs cs = true) : sameAllBy R as cs = true := by
  cases as with
  | nil =>
    cases bs with
    | nil => exact h'
    | cons b bs => simp [sameAllBy] at h
  | cons a as =>
    cases bs with
    | nil => simp [sameAllBy] at h
    | cons b bs =>
      cases cs with
      | nil => simp [sameAllBy] at h'
      | cons c cs =>
        simp only [sameAllBy, Bool.and_eq_true] at h h' ⊢
        exact ⟨sameBy_trans hR ha.1 hb.1 hc.1 h.1 h'.1,
          sameAllBy_trans hR ha.2 hb.2 hc.2 h.2 h'.2⟩

end

theorem Comparison.number (t : StructTable) : t.Comparison (· == ·) where
  trans h h' := beq_iff_eq.mpr ((beq_iff_eq.mp h).trans (beq_iff_eq.mp h'))
  generics h := by rw [beq_iff_eq.mp h]

def FormedFields (t : StructTable) : Prop := ∀ id, ∀ f ∈ (t.get id).fields, f.2.Formed t

theorem sameFields_trans {fs gs hs : List (String × Ty)} (hf : ∀ f ∈ fs, f.2.Formed t)
    (hg : ∀ f ∈ gs, f.2.Formed t) (hh : ∀ f ∈ hs, f.2.Formed t) (h : sameFields fs gs = true)
    (h' : sameFields gs hs = true) : sameFields fs hs = true := by
  induction fs generalizing gs hs with
  | nil =>
    cases gs with
    | nil => exact h'
    | cons g gs => simp [sameFields] at h
  | cons f fs ih =>
    cases gs with
    | nil => simp [sameFields] at h
    | cons g gs =>
      cases hs with
      | nil => simp [sameFields] at h'
      | cons k ks =>
        simp only [sameFields, Bool.and_eq_true, beq_iff_eq] at h h' ⊢
        simp only [List.forall_mem_cons] at hf hg hh
        exact ⟨⟨h.1.1.trans h'.1.1, sameBy_trans (.number t) hf.1 hg.1 hh.1 h.1.2 h'.1.2⟩,
          ih hf.2 hg.2 hh.2 h.2 h'.2⟩

theorem FormedFields.comparison (ht : t.FormedFields) : t.Comparison t.sameStruct where
  trans := @fun i j k h h' => by
    simp only [sameStruct, Bool.or_eq_true, Bool.and_eq_true, beq_iff_eq] at h h' ⊢
    rcases h with rfl | h
    · exact h'
    rcases h' with rfl | h'
    · exact .inr h
    exact .inr ⟨⟨h.1.1.trans h'.1.1, h.1.2.trans h'.1.2⟩,
      sameFields_trans (ht i) (ht j) (ht k) h.2 h'.2⟩
  generics := @fun i j h => by
    simp only [sameStruct, Bool.or_eq_true, Bool.and_eq_true, beq_iff_eq] at h
    rcases h with rfl | h
    · rfl
    · exact h.1.2

end Transitive

theorem converts_of_same {t : StructTable} {a b : Ty} (h : t.same a b = true) :
    t.converts a b = true := by
  unfold converts
  rw [h, Bool.true_or]

theorem casts_of_converts {t : StructTable} {a b : Ty} (h : t.converts a b = true) :
    t.casts a b = true := by
  unfold casts
  rw [h, Bool.true_or]

/-- Types that are the same convert to each other, and on well-formed types being the same is an
equality. -/
theorem same_equality (t : StructTable) :
    (∀ a, t.same a a = true) ∧
    (∀ a b, t.same a b = true → t.same b a = true) ∧
    (∀ a b, t.same a b = true → t.converts a b = true ∧ t.converts b a = true ∧
      t.casts a b = true ∧ t.casts b a = true) ∧
    (t.FormedFields → ∀ a b c : Ty, a.Formed t → b.Formed t → c.Formed t →
      t.same a b = true → t.same b c = true → t.same a c = true) := by
  have symm (a b : Ty) (h : t.same a b = true) : t.same b a = true :=
    sameBy_symm t.sameStruct_symm h
  refine ⟨sameBy_refl fun i => by simp [sameStruct], symm, fun a b h => ?_,
    fun ht a b c ha hb hc h h' => sameBy_trans ht.comparison ha hb hc h h'⟩
  have forth := converts_of_same h
  have back := converts_of_same (symm a b h)
  exact ⟨forth, back, casts_of_converts forth, casts_of_converts back⟩

-- A struct with parameters, used as it is declared, is the same as each of its instances.
example :
    let box : StructTable := ⟨#[⟨"Box", 0, 0, ["T"], [("v", .generic "T" 0 0)]⟩]⟩
    box.same (.instance 0 [.scalar .int] 0) (.struct 0) = true ∧
      box.same (.struct 0) (.instance 0 [.scalar .char] 1) = true ∧
      box.same (.instance 0 [.scalar .int] 0) (.instance 0 [.scalar .char] 1) = false := by
  decide

/-- Three packages that declare the same generic struct. -/
def pairs : StructTable :=
  ⟨#[⟨"Pair", 0, 3, ["T"], [("x", .generic "T" 0 3), ("next", .pointer (.scalar .int))]⟩,
    ⟨"Pair", 1, 3, ["T"], [("x", .generic "T" 0 3), ("next", .mutPointer (.scalar .int))]⟩,
    ⟨"Pair", 2, 3, ["T"], [("x", .generic "T" 0 3), ("next", .pointer (.scalar .int))]⟩]⟩

/-- Instances of the three structs are the same, whatever pointers to them allow. -/
theorem pairs_same :
    let pair (id : StructId) : Ty := .instance id [.scalar .char] 0
    pairs.FormedFields ∧ (Ty.pointer (pair 0)).Formed pairs ∧
      (Ty.mutPointer (pair 1)).Formed pairs ∧ (Ty.pointer (pair 2)).Formed pairs ∧
      pairs.same (.pointer (pair 0)) (.mutPointer (pair 1)) = true ∧
      pairs.same (.mutPointer (pair 1)) (.pointer (pair 2)) = true ∧
      pairs.same (.pointer (pair 0)) (.pointer (pair 2)) = true := by
  intro pair
  have fields : pairs.FormedFields := by
    intro id f hf
    match id with
    | 0 | 1 | 2 =>
      simp only [pairs, get, List.getElem?_toArray, List.getElem?_cons_zero,
        List.getElem?_cons_succ, Option.getD_some, List.mem_cons, List.not_mem_nil, or_false] at hf
      rcases hf with rfl | rfl <;> trivial
    | id + 3 => simp [pairs, get, StructInfo.missing] at hf
  have formed (id : StructId) (h : id < 3) : (pair id).Formed pairs := by
    match id, h with
    | 0, _ | 1, _ | 2, _ => exact ⟨by decide, by decide, rfl, trivial, trivial⟩
  have h0 : (Ty.pointer (pair 0)).Formed pairs := formed 0 (by decide)
  have h1 : (Ty.mutPointer (pair 1)).Formed pairs := formed 1 (by decide)
  have h2 : (Ty.pointer (pair 2)).Formed pairs := formed 2 (by decide)
  have first : pairs.same (.pointer (pair 0)) (.mutPointer (pair 1)) = true := by decide
  have second : pairs.same (.mutPointer (pair 1)) (.pointer (pair 2)) = true := by decide
  exact ⟨fields, h0, h1, h2, first, second,
    (same_equality pairs).2.2.2 fields _ _ _ h0 h1 h2 first second⟩

end Quill.StructTable
