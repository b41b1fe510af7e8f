import Quill.Proofs.CompleteLowering
import Quill.Proofs.SteadyTypes

/-!
# Names of generic structs

Uses of a struct whose arguments differ in versions only share a C name as long as no field nests
instances around a parameter; where one does, they get several.
-/
namespace Quill

namespace Ty

def parts : Ty → List Ty
  | pointer t | mutPointer t | array t _ => [t]
  | function ps r => ps ++ [r]
  | .instance _ as _ => as
  | _ => []

theorem Steady.part {is : Instances} {t u : Ty} (h : t.Steady is) (hu : u ∈ t.parts) :
    u.Steady is := by
  cases t with
  | pointer t | mutPointer t | array t n =>
    rw [List.mem_singleton.mp hu]
    exact h
  | function ps r =>
    rcases List.mem_append.mp hu with hu | hu
    · exact h.1.given u hu
    · rw [List.mem_singleton.mp hu]
      exact h.2
  | «instance» decl as v => exact (AllCanonical.mem h hu).steady
  | _ => cases hu

end Ty

/-- The types that occur in a program: those that are recorded or declared, the fields of structs,
also with arguments in place, and all that these are made of. -/
inductive Resolution.Occurs (r : Resolution) : Ty → Prop
  | recorded {node : Nat} {t : Ty} : r.typeOf? node = some t → Occurs r t
  | written {node : Nat} {t : Ty} : r.written? node = some t → Occurs r t
  | declared {p : PackageId} {s : Symbol} {t : Ty} :
    s ∈ (r.globals.scope p).symbols → t ∈ s.kind.types → Occurs r t
  | pattern {id : StructId} {f : String × Ty} :
    f ∈ (r.globals.structs.get id).fields → Occurs r f.2
  | field {t u : Ty} {name : String} :
    Occurs r t → r.globals.structs.fieldType? t name = some u → Occurs r u
  | part {t u : Ty} : Occurs r t → u ∈ t.parts → Occurs r u

theorem Resolution.Occurs.steady {r : Resolution} (hr : r.Steady) {t : Ty} (h : r.Occurs t) :
    t.Steady r.globals.instances := by
  induction h with
  | recorded h => exact hr.types _ _ (Option.mem_toList.mpr h)
  | written h => exact hr.written _ _ (Option.mem_toList.mpr h)
  | declared hs ht => exact (hr.canonical.symbols _ _ hs).given _ ht
  | pattern hf => exact (hr.canonical.fields _ _ hf).steady
  | field _ hu ih => exact hr.canonical.fieldType? hr.shallow ih hu
  | part _ hu ih => exact ih.part hu

theorem Lowering.leads_robust (is : Instances) :
    Lowering.Robust fun st => is.Leads st.instances where
  instantiate _ _ _ h := h.trans (Instances.Leads.single ..)
  report _ _ _ _ h := h

namespace Lower

variable {cx : Checked}

theorem instanceName_eq (decl : StructId) (as : List Ty) (st : Lowering) :
    (instanceName cx decl as st).1 =
      cx.mangle (cx.structs.get decl).package (cx.structs.get decl).name ++ "__" ++
        toString (st.instances.instantiate decl as).1 := rfl

theorem instances_instanceName (decl : StructId) (as : List Ty) (st : Lowering) :
    (instanceName cx decl as st).2.instances = (st.instances.instantiate decl as).2 := rfl

theorem toString_inj {m n : Nat} (h : toString m = toString n) : m = n := by
  have hread := congrArg (fun s => Nat.ofDigitChars 10 s.toList 0) h
  simpa [Nat.toString_eq_ofList_toDigits, Nat.ofDigitChars_ten_toDigits] using hread

theorem instanceName_inj {decl : StructId} {as bs : List Ty} {st st' : Lowering}
    (hr : st.instances.Regular)
    (h : (instanceName cx decl as st).2.instances.Leads st'.instances) :
    (instanceName cx decl as st).1 = (instanceName cx decl bs st').1 ↔ as = bs := by
  rw [instances_instanceName] at h
  rw [instanceName_eq, instanceName_eq, String.append_right_inj,
    ← Instances.instantiate_eq_iff hr h bs]
  exact ⟨fun heq => toString_inj heq, fun heq => heq ▸ rfl⟩

theorem cType?_pointer (t : Ty) (st : Lowering) : cType? cx (.pointer t) st =
    ((cType? cx t st).1.bind fun inner =>
      if inner.isArray then none else some { inner with stars := inner.stars + 1 },
      (cType? cx t st).2) := by
  rw [cType?]
  simp only [bind, StateT.bind]
  rcases cType? cx t st with ⟨_ | inner, st'⟩
  · rfl
  · dsimp only [Option.bind_some]
    split <;> rfl

theorem cType?_mutPointer (t : Ty) (st : Lowering) :
    cType? cx (.mutPointer t) st = cType? cx (.pointer t) st := rfl

theorem cType?_array (t : Ty) (n : Option Nat) (st : Lowering) : cType? cx (.array t n) st =
    ((cType? cx t st).1.map fun inner => { inner with dims := n :: inner.dims },
      (cType? cx t st).2) := by
  rw [cType?]
  simp only [bind, StateT.bind]
  rcases cType? cx t st with ⟨_ | inner, st'⟩ <;> rfl

theorem cType?_instance (decl : StructId) (as : List Ty) (v : Nat) (st : Lowering) :
    cType? cx (.instance decl as v) st =
      if Ty.anyGenerics as then (none, st)
      else (some { name := (instanceName cx decl as st).1 }, (instanceName cx decl as st).2) := by
  rw [cType?]
  split <;> rfl

theorem cType?_eq {is : Instances} (hr : is.Regular) {t u : Ty} (ht : t.Steady is)
    (hu : u.Steady is) (heq : t.erase = u.erase) {st st' : Lowering}
    (hst : is.Leads st.instances) (h : (cType? cx t st).2.instances.Leads st'.instances) :
    (cType? cx t st).1 = (cType? cx u st').1 := by
  cases t with
  | pointer t =>
    cases u with
    | pointer u =>
      simp only [Ty.erase, Ty.pointer.injEq] at heq
      rw [cType?_pointer] at h
      rw [cType?_pointer, cType?_pointer, cType?_eq hr (t := t) (u := u) ht hu heq hst h]
    | _ => simp [Ty.erase] at heq
  | mutPointer t =>
    cases u with
    | mutPointer u =>
      simp only [Ty.erase, Ty.mutPointer.injEq] at heq
      rw [cType?_mutPointer, cType?_pointer] at h
      rw [cType?_mutPointer, cType?_mutPointer, cType?_pointer, cType?_pointer,
        cType?_eq hr (t := t) (u := u) ht hu heq hst h]
    | _ => simp [Ty.erase] at heq
  | array t n =>
    cases u with
    | array u m =>
      simp only [Ty.erase, Ty.array.injEq] at heq
      rw [cType?_array] at h
      rw [cType?_array, cType?_array, cType?_eq hr (t := t) (u := u) ht hu heq.1 hst h, heq.2]
    | _ => simp [Ty.erase] at heq
  | «instance» decl as v =>
    cases u with
    | «instance» decl' bs w =>
      simp only [Ty.erase, Ty.instance.injEq] at heq
      obtain ⟨rfl, hargs, -⟩ := heq
      obtain rfl := Ty.AllCanonical.eq_of_erase ht hu hargs
      rw [cType?_instance] at h
      rw [cType?_instance, cType?_instance]
      split
      · rfl
      · rename_i hclosed
        rw [if_neg hclosed] at h
        rw [(instanceName_inj (hst.regular hr) h).mpr rfl]
    | _ => simp [Ty.erase] at heq
  | function ps r =>
    cases u with
    | function qs s => rfl
    | _ => simp [Ty.erase] at heq
  | void | scalar | struct | generic | abstract | package =>
    cases u <;> cases heq
    rfl

end Lower

section

variable {sources : Sources} {options : Options} {order : List PackageId}

theorem Accepted.steady (h : Accepted sources options order)
    (shallow : (sources.resolved options order).1.globals.structs.Shallow) :
    (sources.resolved options order).1.Steady := by
  refine resolve_steady _ ?_
  have settled := resolve_settled h.holds (fun f hf =>
    (List.nodup_flatMap.mp (parse_numbered .node sources.numbered).nodup).1 f hf) order
    (parse sources.numbered).ids.nodes
  exact settled.structs ▸ shallow

def Sources.checked (sources : Sources) (options : Options) (order : List PackageId) : Checked :=
  ⟨sources.table options, (sources.resolved options order).1⟩

theorem Accepted.files_leads (h : Accepted sources options order) (st : Lowering) :
    st.instances.Leads (Lower.files (sources.checked options order) order st).2.instances := by
  refine Lower.files_keeps (Lowering.leads_robust st.instances) ?_ st .refl
  exact fun id hid file source => h.package_complete hid source

/-- As long as no field nests instances around a parameter, two uses of a generic struct have one C
name just if their arguments are equal up to versions, and types that are equal up to versions have
one C type. This is so at whatever points of the lowering they are met: all that lowering does to
the instances is to give out more versions. -/
theorem one_name_per_instance (h : Accepted sources options order)
    (shallow : (sources.checked options order).structs.Shallow) :
    let cx := sources.checked options order
    let start : Lowering := { instances := cx.resolution.globals.instances }
    (∀ decl as bs v w, cx.resolution.Occurs (.instance decl as v) →
      cx.resolution.Occurs (.instance decl bs w) →
      ∀ st st' : Lowering, start.instances.Leads st.instances →
        (Lower.instanceName cx decl as st).2.instances.Leads st'.instances →
        ((Lower.instanceName cx decl as st).1 = (Lower.instanceName cx decl bs st').1 ↔
          Ty.eraseAll as = Ty.eraseAll bs)) ∧
    (∀ t u, cx.resolution.Occurs t → cx.resolution.Occurs u → t.erase = u.erase →
      ∀ st st' : Lowering, start.instances.Leads st.instances →
        (Lower.cType? cx t st).2.instances.Leads st'.instances →
        (Lower.cType? cx t st).1 = (Lower.cType? cx u st').1) ∧
    start.instances.Leads (Lower.files cx order start).2.instances := by
  have steady : (sources.checked options order).resolution.Steady := h.steady shallow
  refine ⟨fun decl as bs v w ha hb st st' hst hst' => ?_,
    fun t u ht hu heq st st' hst hst' => ?_, h.files_leads _⟩
  · rw [Lower.instanceName_inj (hst.regular steady.regular) hst']
    exact ⟨fun heq => heq ▸ rfl, Ty.AllCanonical.eq_of_erase (ha.steady steady) (hb.steady steady)⟩
  · exact Lower.cType?_eq steady.regular (ht.steady steady) (hu.steady steady) heq hst hst'

end

/-- A struct with an instance around its parameter, and a value for that field. -/
def wrapped : Sources :=
  ["struct Box<T> { T v } struct Wrap<T> { Box<T> b }\n" ++
    "void main() { Box<char> c; Box<Box<int>> x; Wrap<Box<int>> mut w; w.b = x; }"]

/-- Both sides of the assignment have the same C type, though different versions are noted. -/
theorem wrapped_one_name :
    let cx := wrapped.checked {} [0]
    let start : Lowering := { instances := cx.resolution.globals.instances }
    let field : Ty := .instance 0 [.instance 0 [.scalar .int] 1] 0
    let value : Ty := .instance 0 [.instance 0 [.scalar .int] 1] 2
    Accepted wrapped {} [0] ∧ cx.structs.Shallow ∧
      cx.resolution.typeOf? 8 = some field ∧ cx.resolution.typeOf? 9 = some value ∧
      (Lower.cType? cx field start).1 =
        (Lower.cType? cx value (Lower.cType? cx field start).2).1 := by
  have facts : Accepted wrapped {} [0] ∧ (wrapped.checked {} [0]).structs.Shallow ∧
      (wrapped.checked {} [0]).resolution.typeOf? 8 =
        some (.instance 0 [.instance 0 [.scalar .int] 1] 0) ∧
      (wrapped.checked {} [0]).resolution.typeOf? 9 =
        some (.instance 0 [.instance 0 [.scalar .int] 1] 2) := by
    decide +kernel
  obtain ⟨accepted, shallow, hfield, hvalue⟩ := facts
  exact ⟨accepted, shallow, hfield, hvalue, (one_name_per_instance accepted shallow).2.1 _ _
    (.recorded hfield) (.recorded hvalue) (by decide) _ _ .refl .refl⟩

/-- A struct with two instances around its parameter, and a value for that field. -/
def nested : Sources :=
  ["struct Box<T> { T v } struct Wrap<T> { Box<Box<T>> b }\n" ++
    "void main() { Box<char> c; Box<Box<int>> x; Wrap<int> mut w; w.b = x; }"]

/-- The sides of the assignment are equal up to versions and have two C names. -/
theorem nested_two_names :
    let cx := nested.checked {} [0]
    let start : Lowering := { instances := cx.resolution.globals.instances }
    ∃ field value : List Ty, Accepted nested {} [0] ∧
      cx.resolution.typeOf? 8 = some (.instance 0 field 0) ∧
      cx.resolution.typeOf? 9 = some (.instance 0 value 2) ∧
      Ty.eraseAll field = Ty.eraseAll value ∧
      (Lower.instanceName cx 0 field start).1 ≠
        (Lower.instanceName cx 0 value (Lower.instanceName cx 0 field start).2).1 :=
  ⟨[.instance 0 [.scalar .int] 0], [.instance 0 [.scalar .int] 1], by decide +kernel⟩

end Quill
