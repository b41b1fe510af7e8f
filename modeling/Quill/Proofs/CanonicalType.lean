import Quill.Proofs.Instances

/-!
# Canonical types

A type is canonical if every version noted in it is the one given out for the arguments it stands
with. Canonical types that differ in versions only are equal.
-/
namespace Quill

namespace Ty

mutual

/-- The type without the versions noted in it. -/
def erase : Ty → Ty
  | pointer t => pointer t.erase
  | mutPointer t => mutPointer t.erase
  | array t n => array t.erase n
  | function ps r => function (eraseAll ps) r.erase
  | .instance decl as _ => .instance decl (eraseAll as) 0
  | t => t

def eraseAll : List Ty → List Ty
  | [] => []
  | t :: ts => t.erase :: eraseAll ts

end

/-- The version that a written type notes: the one given out, and none in a pattern. -/
def Notes (is : Instances) (decl : StructId) (arguments : List Ty) (version : Nat) : Prop :=
  if anyGenerics arguments then version = 0 else is.version? decl arguments = some version

mutual

/-- Every version in the type is the one given out. -/
def Canonical (is : Instances) : Ty → Prop
  | pointer t | mutPointer t | array t _ => t.Canonical is
  | function ps r => AllCanonical is ps ∧ r.Canonical is
  | .instance decl as v => AllCanonical is as ∧ Notes is decl as v
  | _ => True

def AllCanonical (is : Instances) : List Ty → Prop
  | [] => True
  | t :: ts => t.Canonical is ∧ AllCanonical is ts

end

mutual

/-- The versions in the arguments of every instance are those given out. -/
def Steady (is : Instances) : Ty → Prop
  | pointer t | mutPointer t | array t _ => t.Steady is
  | function ps r => AllSteady is ps ∧ r.Steady is
  | .instance _ as _ => AllCanonical is as
  | _ => True

def AllSteady (is : Instances) : List Ty → Prop
  | [] => True
  | t :: ts => t.Steady is ∧ AllSteady is ts

end

mutual

/-- No instance in the type has an argument with a parameter in it. -/
def isFlat : Ty → Bool
  | pointer t | mutPointer t | array t _ => t.isFlat
  | function ps r => allFlat ps && r.isFlat
  | .instance _ as _ => !anyGenerics as
  | _ => true

def allFlat : List Ty → Bool
  | [] => true
  | t :: ts => t.isFlat && allFlat ts

end

mutual

/-- Instances with parameters in them do not stand in the arguments of others. -/
def isShallow : Ty → Bool
  | pointer t | mutPointer t | array t _ => t.isShallow
  | function ps r => allShallow ps && r.isShallow
  | .instance _ as _ => allFlat as
  | _ => true

def allShallow : List Ty → Bool
  | [] => true
  | t :: ts => t.isShallow && allShallow ts

end

variable {is is' : Instances}

theorem Notes.mono {decl : StructId} {as : List Ty} {v : Nat} (h : is.Leads is')
    (hn : Notes is decl as v) : Notes is' decl as v := by
  by_cases hg : anyGenerics as = true
  · rwa [Notes, if_pos hg] at hn ⊢
  · rw [Notes, if_neg hg] at hn ⊢
    exact h.version? hn

theorem Notes.unique {decl : StructId} {as : List Ty} {v w : Nat} (hv : Notes is decl as v)
    (hw : Notes is decl as w) : v = w := by
  by_cases hg : anyGenerics as = true
  · rw [Notes, if_pos hg] at hv hw
    exact hv.trans hw.symm
  · rw [Notes, if_neg hg] at hv hw
    exact Option.some.inj (hv.symm.trans hw)

mutual

theorem Canonical.mono (h : is.Leads is') {t : Ty} (hc : t.Canonical is) : t.Canonical is' := by
  cases t with
  | pointer t | mutPointer t | array t n => exact .mono h (t := t) hc
  | function ps r => exact ⟨.mono h hc.1, .mono h hc.2⟩
  | «instance» decl as v => exact ⟨.mono h hc.1, hc.2.mono h⟩
  | _ => trivial

theorem AllCanonical.mono (h : is.Leads is') {ts : List Ty} (hc : AllCanonical is ts) :
    AllCanonical is' ts := by
  cases ts with
  | nil => trivial
  | cons t ts => exact ⟨.mono h hc.1, .mono h hc.2⟩

end

mutual

theorem Steady.mono (h : is.Leads is') {t : Ty} (hs : t.Steady is) : t.Steady is' := by
  cases t with
  | pointer t | mutPointer t | array t n => exact Steady.mono h (t := t) hs
  | function ps r => exact ⟨AllSteady.mono h hs.1, Steady.mono h hs.2⟩
  | «instance» decl as v => exact AllCanonical.mono h hs
  | _ => trivial

theorem AllSteady.mono (h : is.Leads is') {ts : List Ty} (hs : AllSteady is ts) :
    AllSteady is' ts := by
  cases ts with
  | nil => trivial
  | cons t ts => exact ⟨.mono h hs.1, .mono h hs.2⟩

end

mutual

theorem Canonical.steady {t : Ty} (hc : t.Canonical is) : t.Steady is := by
  cases t with
  | pointer t | mutPointer t | array t n => exact Canonical.steady (t := t) hc
  | function ps r => exact ⟨AllCanonical.steady hc.1, Canonical.steady hc.2⟩
  | «instance» decl as v => exact hc.1
  | _ => trivial

theorem AllCanonical.steady {ts : List Ty} (hc : AllCanonical is ts) : AllSteady is ts := by
  cases ts with
  | nil => trivial
  | cons t ts => exact ⟨Canonical.steady hc.1, AllCanonical.steady hc.2⟩

end

theorem AllCanonical.of_mem {ts : List Ty} (h : ∀ t ∈ ts, t.Canonical is) :
    AllCanonical is ts := by
  induction ts with
  | nil => trivial
  | cons t ts ih => exact ⟨h t List.mem_cons_self, ih fun u hu => h u (List.mem_cons_of_mem t hu)⟩

theorem AllCanonical.mem {ts : List Ty} (hc : AllCanonical is ts) {t : Ty} (ht : t ∈ ts) :
    t.Canonical is := by
  induction ts with
  | nil => cases ht
  | cons u us ih =>
    rcases List.mem_cons.mp ht with rfl | ht
    · exact hc.1
    · exact ih hc.2 ht

mutual

theorem Canonical.eq_of_erase {t u : Ty} (ht : t.Canonical is) (hu : u.Canonical is)
    (h : t.erase = u.erase) : t = u := by
  cases t with
  | pointer t =>
    cases u with
    | pointer u =>
      simp only [erase, pointer.injEq] at h
      rw [Canonical.eq_of_erase (t := t) (u := u) ht hu h]
    | _ => simp [erase] at h
  | mutPointer t =>
    cases u with
    | mutPointer u =>
      simp only [erase, mutPointer.injEq] at h
      rw [Canonical.eq_of_erase (t := t) (u := u) ht hu h]
    | _ => simp [erase] at h
  | array t n =>
    cases u with
    | array u m =>
      simp only [erase, array.injEq] at h
      rw [Canonical.eq_of_erase (t := t) (u := u) ht hu h.1, h.2]
    | _ => simp [erase] at h
  | function ps r =>
    cases u with
    | function qs s =>
      simp only [erase, function.injEq] at h
      rw [AllCanonical.eq_of_erase ht.1 hu.1 h.1, Canonical.eq_of_erase ht.2 hu.2 h.2]
    | _ => simp [erase] at h
  | «instance» decl as v =>
    cases u with
    | «instance» decl' bs w =>
      simp only [erase, instance.injEq] at h
      obtain ⟨rfl, hargs, -⟩ := h
      obtain rfl := AllCanonical.eq_of_erase ht.1 hu.1 hargs
      rw [ht.2.unique hu.2]
    | _ => simp [erase] at h
  | _ => cases u <;> simp_all [erase]

theorem AllCanonical.eq_of_erase {ts us : List Ty} (ht : AllCanonical is ts)
    (hu : AllCanonical is us) (h : eraseAll ts = eraseAll us) : ts = us := by
  cases ts with
  | nil =>
    cases us with
    | nil => rfl
    | cons u us => simp [eraseAll] at h
  | cons t ts =>
    cases us with
    | nil => simp [eraseAll] at h
    | cons u us =>
      simp only [eraseAll, List.cons.injEq] at h
      rw [Canonical.eq_of_erase ht.1 hu.1 h.1, AllCanonical.eq_of_erase ht.2 hu.2 h.2]

end

section

variable (owner : Nat) (arguments : List Ty)

mutual

theorem substitute_of_closed {t : Ty} (h : t.hasGenerics = false) :
    t.substitute owner arguments = t := by
  cases t with
  | pointer t | mutPointer t | array t n =>
    simp only [substitute]
    rw [substitute_of_closed (t := t) h]
  | function ps r =>
    simp only [hasGenerics, Bool.or_eq_false_iff] at h
    rw [substitute, substituteAll_of_closed h.1,
      substitute_of_closed h.2]
  | «instance» decl as v => rw [substitute, substituteAll_of_closed h]
  | generic x i o => cases h
  | _ => rfl

theorem substituteAll_of_closed {ts : List Ty} (h : anyGenerics ts = false) :
    substituteAll owner arguments ts = ts := by
  cases ts with
  | nil => rfl
  | cons t ts =>
    simp only [anyGenerics, Bool.or_eq_false_iff] at h
    rw [substituteAll, substitute_of_closed h.1,
      substituteAll_of_closed h.2]

end

end

mutual

theorem Canonical.substitute {arguments : List Ty} (ha : AllCanonical is arguments) (owner : Nat)
    {t : Ty} (hf : t.isFlat = true) (hc : t.Canonical is) :
    (t.substitute owner arguments).Canonical is := by
  cases t with
  | pointer t | mutPointer t | array t n => exact .substitute ha owner (t := t) hf hc
  | function ps r =>
    simp only [isFlat, Bool.and_eq_true] at hf
    exact ⟨.substitute ha owner hf.1 hc.1, .substitute ha owner hf.2 hc.2⟩
  | «instance» decl as v =>
    simp only [isFlat, Bool.not_eq_true'] at hf
    rwa [substitute_of_closed owner arguments (t := .instance decl as v) hf]
  | generic x i o =>
    rw [Ty.substitute]
    split
    · cases hi : arguments[i]? with
      | none => trivial
      | some t => exact ha.mem (List.mem_of_getElem? hi)
    · trivial
  | _ => exact hc

theorem AllCanonical.substitute {arguments : List Ty} (ha : AllCanonical is arguments)
    (owner : Nat) {ts : List Ty} (hf : allFlat ts = true) (hc : AllCanonical is ts) :
    AllCanonical is (substituteAll owner arguments ts) := by
  cases ts with
  | nil => trivial
  | cons t ts =>
    simp only [allFlat, Bool.and_eq_true] at hf
    exact ⟨.substitute ha owner hf.1 hc.1, .substitute ha owner hf.2 hc.2⟩

end

section

variable {arguments : List Ty} (ha : AllCanonical is arguments) (owner : Nat)

include ha

mutual

/-- With canonical arguments in place a shallow pattern is canonical below its outermost
instances. -/
theorem Canonical.substitute_steady {t : Ty} (hs : t.isShallow = true) (hc : t.Canonical is) :
    (t.substitute owner arguments).Steady is := by
  cases t with
  | pointer t | mutPointer t | array t n =>
    exact Canonical.substitute_steady (t := t) hs hc
  | function ps r =>
    simp only [isShallow, Bool.and_eq_true] at hs
    exact ⟨AllCanonical.substitute_steady hs.1 hc.1,
      Canonical.substitute_steady hs.2 hc.2⟩
  | «instance» decl as v => exact .substitute ha owner hs hc.1
  | generic x i o => exact (Canonical.substitute ha owner (t := .generic x i o) rfl hc).steady
  | _ => trivial

theorem AllCanonical.substitute_steady {ts : List Ty} (hs : allShallow ts = true)
    (hc : AllCanonical is ts) : AllSteady is (substituteAll owner arguments ts) := by
  cases ts with
  | nil => trivial
  | cons t ts =>
    simp only [allShallow, Bool.and_eq_true] at hs
    exact ⟨Canonical.substitute_steady hs.1 hc.1,
      AllCanonical.substitute_steady hs.2 hc.2⟩

end

end

end Ty
end Quill
