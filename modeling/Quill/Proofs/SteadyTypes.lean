import Quill.Proofs.CanonicalScope
import Quill.Proofs.Complete
import Quill.Proofs.TypingWalk

/-!
# Types in a checked program

Where no field nests instances around a parameter, all types that checking meets are canonical below
their outermost instances.
-/
namespace Quill

open List Ty

variable {is : Instances} {ts : List Ty} {t : Ty}

def Ty.Given (ts : List Ty) (is : Instances) : Prop := ∀ t ∈ ts, t.Steady is

theorem Ty.Given.mono {is' : Instances} (h : is.Leads is') (hts : Given ts is) :
    Given ts is' := fun t ht => .mono h (hts t ht)

theorem Ty.Given.one (h : t.Steady is) : Given [t] is :=
  forall_mem_singleton.mpr h

theorem Ty.AllSteady.given (h : AllSteady is ts) : Given ts is := by
  induction ts with
  | nil => exact fun _ ht => absurd ht not_mem_nil
  | cons t ts ih => exact forall_mem_cons.mpr ⟨h.1, ih h.2⟩

theorem Ty.AllSteady.of_given (h : Given ts is) : AllSteady is ts := by
  induction ts with
  | nil => trivial
  | cons t ts ih => exact ⟨h t mem_cons_self, ih fun u hu => h u (mem_cons_of_mem t hu)⟩

theorem SymbolKind.Canonical.given {k : SymbolKind} (h : k.Canonical is) : Given k.types is := by
  cases k with
  | struct id => exact nofun
  | typedef t | var t _ => exact .one (Ty.Canonical.steady h)
  | function ps r => exact .one ⟨Ty.AllCanonical.steady h.1, Ty.Canonical.steady h.2⟩

theorem SymbolKind.own_steady {k : SymbolKind} (h : Given k.types is) : k.own.Steady is := by
  cases k with
  | struct id => trivial
  | typedef t | var t _ => exact h t (mem_singleton_self t)
  | function ps r => exact h (.function ps r) (mem_singleton_self _)

def StructTable.Shallow (structs : StructTable) : Prop :=
  ∀ id, ∀ f ∈ (structs.get id).fields, f.2.isShallow = true

theorem StructTable.shallow_iff (structs : StructTable) :
    (∀ info ∈ structs.structs.toList, ∀ f ∈ info.fields, f.2.isShallow = true) ↔
      structs.Shallow := by
  constructor
  · intro h id f hf
    cases hid : structs.structs[id]? with
    | none =>
      rw [get, hid] at hf
      cases hf
    | some info =>
      rw [get, hid] at hf
      exact h info (Array.mem_toList_iff.mpr (Array.mem_of_getElem? hid)) f hf
  · intro h info hinfo f hf
    obtain ⟨id, hid⟩ := Array.getElem?_of_mem (Array.mem_toList_iff.mp hinfo)
    refine h id f ?_
    rwa [get, hid]

instance (structs : StructTable) : Decidable structs.Shallow :=
  decidable_of_iff _ structs.shallow_iff

theorem Globals.Canonical.fieldType? {g : Globals} (hg : g.Canonical) (hs : g.structs.Shallow)
    {u : Ty} {name : String} (ht : t.Steady g.instances) (h : g.structs.fieldType? t name = some u) :
    u.Steady g.instances := by
  have declared {id : StructId} {u : Ty} (h : (g.structs.get id).field? name = some u) :
      u.Canonical g.instances ∧ u.isShallow = true := by
    obtain ⟨f, hf, rfl⟩ := Option.map_eq_some_iff.mp h
    have hmem := mem_of_find?_eq_some hf
    exact ⟨hg.fields id f hmem, hs id f hmem⟩
  cases t with
  | struct id => exact (declared h).1.steady
  | «instance» id arguments v =>
    obtain ⟨pattern, hpattern, rfl⟩ := Option.map_eq_some_iff.mp h
    exact Ty.Canonical.substitute_steady ht _ (declared hpattern).2 (declared hpattern).1
  | _ => cases h

def Locals.types (ls : Locals) : List Ty := ls.flatten.flatMap (·.type.toList)

theorem Locals.types_cons (scope : List Local) (outer : Locals) :
    types (scope :: outer) = scope.flatMap (·.type.toList) ++ types outer := by
  simp [types]

structure Checking.Steady (st : Checking) : Prop where
  canonical : st.globals.Canonical
  shallow : st.globals.structs.Shallow
  types : ∀ id, Given (st.facts.types.get? id).toList st.globals.instances
  written : ∀ id, Given (st.facts.written.get? id).toList st.globals.instances
  locals : Given st.locals.types st.globals.instances

theorem Table.given_insert {table : Table Ty} {node : Nat}
    (h : ∀ id, Given (table.get? id).toList is) (ht : t.Steady is) (id : Nat) :
    Given ((table.insert node t).get? id).toList is := by
  rw [Table.get?_insert]
  split
  · exact .one ht
  · exact h id

theorem Locals.types_use {ls : Locals} {name : String} (h : t ∈ (ls.use name).types) :
    t ∈ ls.types := by
  obtain ⟨l, hl, ht⟩ := mem_flatMap.mp h
  obtain ⟨l', hl', heq⟩ := Locals.mem_use hl
  exact mem_flatMap.mpr ⟨l', hl', heq ▸ ht⟩

theorem Locals.types_tail {ls : Locals} (h : t ∈ types ls.tail) : t ∈ ls.types := by
  cases ls with
  | nil => exact h
  | cons own outer =>
    rw [types_cons]
    exact mem_append_right _ h

theorem Check.declareLocal_adds (l : Local) (st : Checking) :
    (declareLocal l st).2.globals = st.globals ∧ (declareLocal l st).2.facts = st.facts ∧
      ∀ t ∈ (declareLocal l st).2.locals.types, t ∈ l.type ∨ t ∈ st.locals.types := by
  rcases declareLocal_cases l st with ⟨-, h⟩ | ⟨own, outer, hlocals, ⟨-, h⟩ | ⟨-, h⟩⟩ <;> rw [h]
  · exact ⟨rfl, rfl, fun _ => .inr⟩
  · exact ⟨rfl, rfl, fun _ => .inr⟩
  · refine ⟨rfl, rfl, fun t ht => ?_⟩
    rw [Locals.types_cons, flatMap_cons, append_assoc, ← Locals.types_cons] at ht
    rw [hlocals]
    exact (mem_append.mp ht).imp_left Option.mem_toList.mp

def steadyLaw (package : PackageId) : TypingLaw package where
  Sound _ st := st.Steady
  Good g t := t.Steady g.instances
  Node _ := True
  Own _ := True
  Ref _ := True
  mono h ht := .mono h.leads ht
  scalar _ _ := trivial
  pointer := Iff.rfl
  mutPointer := Iff.rfl
  array := Iff.rfl
  function := ⟨fun h => ⟨h.1.given, h.2⟩, fun h => ⟨.of_given h.1, h.2⟩⟩
  field hs ht h := hs.canonical.fieldType? hs.shallow ht h
  symbol hs h := by
    obtain ⟨p, hp⟩ := Globals.mem_of_lookup h
    exact (hs.canonical.symbols p _ hp).given
  resolve t hs := by
    rename_i st
    have onward := (Survey.resolveType_later package none t st.toSurvey).onward
    have canonical : Globals.Canonical _ :=
      hs.canonical.mono (fun p => (onward.scopes p).symbols) onward.structs onward.leads
    refine ⟨⟨canonical, onward.structs ▸ hs.shallow, fun id => (hs.types id).mono onward.leads,
      fun id => (hs.written id).mono onward.leads, hs.locals.mono onward.leads⟩, fun u hu => ?_⟩
    exact ((Survey.resolveType_writes package none t st.toSurvey u hu).canonical canonical).steady
  report _ _ hs :=
    ⟨⟨hs.canonical.symbols, hs.canonical.fields⟩, hs.shallow, hs.types, hs.written, hs.locals⟩
  type hs _ ht :=
    ⟨hs.canonical, hs.shallow, Table.given_insert hs.types ht, hs.written, hs.locals⟩
  written hs _ ht :=
    ⟨hs.canonical, hs.shallow, hs.types, Table.given_insert hs.written ht, hs.locals⟩
  own := @fun st d name s hs _ _ _ _ ht =>
    ⟨hs.canonical, hs.shallow, Table.given_insert hs.types (SymbolKind.own_steady ht), hs.written,
      hs.locals⟩
  near hs _ hl :=
    ⟨fun t ht => hs.locals t
        (mem_flatMap.mpr ⟨_, Checking.mem_of_local? hl, Option.mem_toList.mpr ht⟩),
      hs.canonical, hs.shallow, hs.types, hs.written, fun t ht => hs.locals t (Locals.types_use ht)⟩
  far hs _ _ _ _ := ⟨hs.canonical, hs.shallow, hs.types, hs.written, hs.locals⟩
  opened hs := ⟨hs.canonical, hs.shallow, hs.types, hs.written, hs.locals⟩
  closed hs := ⟨hs.canonical, hs.shallow, hs.types, hs.written,
    fun t ht => hs.locals t (Locals.types_tail ht)⟩
  declared := @fun _ _ st l _ hs ht => by
    obtain ⟨hglobals, hfacts, hlocals⟩ := Check.declareLocal_adds l st
    refine ⟨?_, ?_, ?_, ?_, fun t hmem => ?_⟩ <;> rw [hglobals]
    · exact hs.canonical
    · exact hs.shallow
    · rw [hfacts]
      exact hs.types
    · rw [hfacts]
      exact hs.written
    · exact (hlocals t hmem).elim (ht t) (hs.locals t)

/-- All types that a resolved program knows are steady, and so its fields stay. -/
structure Resolution.Steady (r : Resolution) : Prop where
  regular : r.globals.instances.Regular
  canonical : r.globals.Canonical
  shallow : r.globals.structs.Shallow
  types : ∀ id, Given (r.typeOf? id).toList r.globals.instances
  written : ∀ id, Given (r.written? id).toList r.globals.instances

theorem resolve_steady {table : PackageTable} {order : List PackageId} (nodes : Nat)
    (h : (Survey.ofPackages table order).globals.structs.Shallow) :
    (resolve table order nodes).1.Steady := by
  obtain ⟨canonical, leads⟩ := Survey.ofPackages_canonical table order
  let start : Checking := { Survey.ofPackages table order with facts := .ofSize nodes }
  have unknown (id : Nat) :
      Given ((Table.ofSize nodes).get? id).toList start.globals.instances := by
    rw [Table.get?_ofSize]
    exact nofun
  have steady : start.Steady := ⟨canonical, h, unknown, unknown, nofun⟩
  obtain ⟨⟨canonical', shallow', types, written, -⟩, onward⟩ :=
    TypingLaw.packages_sound steadyLaw (fun _ _ => Iff.rfl) steady
      fun p _ file _ d _ => (steadyLaw p).admitsDecl_of_all (fun _ => trivial) (fun _ => trivial)
        (fun _ => trivial) d
  exact ⟨Instances.Leads.regular (leads.trans onward.leads) .empty, canonical', shallow', types, written⟩

end Quill
