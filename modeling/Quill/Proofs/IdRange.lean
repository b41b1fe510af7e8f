import Quill.Proofs.ClosedScope
import Quill.Proofs.LoweringLaw
import Quill.Proofs.SteadyTypes

/-!
# Numbers in range

Every number of a struct or a package that is written down anywhere is that of one that is there, in
every state from the first declaration to the end of lowering.
-/
namespace Quill

open List StructTable Table

namespace Ty

mutual

/-- The structs and packages in the type are among the first `structs` and `packages`. -/
def InRange (structs packages : Nat) : Ty → Prop
  | pointer t | mutPointer t | array t _ => t.InRange structs packages
  | function ps r => AllInRange structs packages ps ∧ r.InRange structs packages
  | struct id => id < structs
  | .instance id as _ => id < structs ∧ AllInRange structs packages as
  | abstract _ p _ | package p => p < packages
  | void | scalar _ | generic _ _ _ => True

def AllInRange (structs packages : Nat) : List Ty → Prop
  | [] => True
  | t :: ts => t.InRange structs packages ∧ AllInRange structs packages ts

end

variable {m n packages : Nat}

theorem allInRange_iff {ts : List Ty} :
    AllInRange n packages ts ↔ ∀ t ∈ ts, t.InRange n packages := by
  induction ts with
  | nil => simp [AllInRange]
  | cons t ts ih => rw [AllInRange, ih, forall_mem_cons]

mutual

theorem InRange.grow (h : m ≤ n) {t : Ty} (ht : t.InRange m packages) : t.InRange n packages := by
  match t with
  | void | scalar _ | .generic _ _ _ => trivial
  | abstract _ _ _ | package _ => exact ht
  | pointer t | mutPointer t | array t _ => exact .grow h (t := t) ht
  | function ps r => exact ⟨.grow h ht.1, .grow h ht.2⟩
  | struct id => exact Nat.lt_of_lt_of_le ht h
  | .instance id as _ => exact ⟨Nat.lt_of_lt_of_le ht.1 h, .grow h ht.2⟩

theorem AllInRange.grow (h : m ≤ n) {ts : List Ty} (hts : AllInRange m packages ts) :
    AllInRange n packages ts := by
  match ts with
  | [] => trivial
  | t :: ts => exact ⟨.grow h hts.1, .grow h hts.2⟩

end

mutual

theorem InRange.substitute {owner : Nat} {arguments : List Ty}
    (ha : AllInRange n packages arguments) {t : Ty} (ht : t.InRange n packages) :
    (t.substitute owner arguments).InRange n packages := by
  match t with
  | void | scalar _ => trivial
  | abstract _ _ _ | package _ | struct _ => exact ht
  | pointer t | mutPointer t | array t _ => exact .substitute ha (t := t) ht
  | function ps r => exact ⟨.substitute ha ht.1, .substitute ha ht.2⟩
  | .instance id as _ => exact ⟨ht.1, .substitute ha ht.2⟩
  | .generic name index o =>
    rw [Ty.substitute]
    split
    · cases hget : arguments[index]? with
      | none => trivial
      | some a => exact allInRange_iff.mp ha a (mem_of_getElem? hget)
    · trivial

theorem AllInRange.substitute {owner : Nat} {arguments : List Ty}
    (ha : AllInRange n packages arguments) {ts : List Ty} (hts : AllInRange n packages ts) :
    AllInRange n packages (substituteAll owner arguments ts) := by
  match ts with
  | [] => trivial
  | t :: ts => exact ⟨.substitute ha hts.1, .substitute ha hts.2⟩

end

mutual

theorem InRange.mentioned {t : Ty} (ht : t.InRange n packages) :
    ∀ u ∈ Lower.mentioned t, u.1 < n ∧ AllInRange n packages u.2 := by
  match t with
  | pointer t | mutPointer t | array t _ => exact InRange.mentioned (t := t) ht
  | .instance id as v =>
    intro u hu
    rw [Lower.mentioned] at hu
    split at hu
    · cases hu
    · rcases mem_append.mp hu with hu | hu
      · exact AllInRange.mentionedIn ht.2 u hu
      · rw [mem_singleton.mp hu]
        exact ht
  | void | scalar _ | struct _ | abstract _ _ _ | package _ | .generic _ _ _ | function _ _ =>
    intro u hu
    cases hu

theorem AllInRange.mentionedIn {ts : List Ty} (hts : AllInRange n packages ts) :
    ∀ u ∈ Lower.mentionedIn ts, u.1 < n ∧ AllInRange n packages u.2 := by
  match ts with
  | [] =>
    intro u hu
    cases hu
  | t :: ts =>
    exact forall_mem_append.mpr ⟨InRange.mentioned hts.1, AllInRange.mentionedIn hts.2⟩

end

end Ty

def SymbolKind.InRange (structs packages : Nat) : SymbolKind → Prop
  | .struct id => id < structs
  | .typedef t | .var t _ => t.InRange structs packages
  | .function ps r => (Ty.function ps r).InRange structs packages

def Binding.InRange (packages : Nat) : Binding → Prop
  | .global p _ | .function p _ => p < packages
  | .local | .foreign _ => True

structure Scope.InRange (structs packages : Nat) (is : Instances) (s : Scope) : Prop where
  symbols : ∀ symbol ∈ s.symbols, symbol.package < packages ∧ symbol.kind.InRange structs packages
  leaves : ∀ b ∈ s.packages, b.2 < packages
  names : ∀ b ∈ s.names, b.2 < packages
  wildcards : ∀ p ∈ s.wildcards, p < packages
  instances : ∀ u ∈ s.instances, u.1 < structs ∧ ∃ i, is.get? u.1 u.2 = some i

def Instances.InRange (structs packages : Nat) (is : Instances) : Prop :=
  ∀ i ∈ is.list, i.decl < structs ∧ Ty.AllInRange structs packages i.arguments

/-- There is a scope for each package, and all numbers in scopes, structs and instances are in
range. -/
structure Globals.InRange (packages : Nat) (g : Globals) : Prop where
  size : g.scopes.size = packages
  scopes : ∀ p, (g.scope p).InRange g.structs.size packages g.instances
  structs : ∀ id < g.structs.size, (g.structs.get id).package < packages
  fields : ∀ id, ∀ f ∈ (g.structs.get id).fields, f.2.InRange g.structs.size packages
  instances : g.instances.InRange g.structs.size packages

theorem SymbolKind.InRange.grow {m n packages : Nat} (h : m ≤ n) {k : SymbolKind}
    (hk : k.InRange m packages) : k.InRange n packages := by
  cases k with
  | struct id => exact Nat.lt_of_lt_of_le hk h
  | typedef t | var t _ | function ps r => exact Ty.InRange.grow h hk

theorem SymbolKind.InRange.own {n packages : Nat} {k : SymbolKind} (hk : k.InRange n packages) :
    k.own.InRange n packages := by
  cases k <;> exact hk

theorem SymbolKind.InRange.types {n packages : Nat} {k : SymbolKind} (hk : k.InRange n packages) :
    ∀ t ∈ k.types, t.InRange n packages := by
  intro t ht
  cases k with
  | struct id => cases ht
  | typedef | var | function =>
    rw [mem_singleton.mp ht]
    exact hk

namespace Instances

theorem InRange.instantiate {n packages : Nat} {is : Instances} (h : is.InRange n packages)
    {decl : StructId} {arguments : List Ty} (hdecl : decl < n)
    (harguments : Ty.AllInRange n packages arguments) :
    (is.instantiate decl arguments).2.InRange n packages := by
  intro i hi
  rcases mem_instantiate hi with hi | ⟨rfl, rfl⟩
  · exact h i hi
  · exact ⟨hdecl, harguments⟩

theorem get?_instantiate_of_get? {is : Instances} {decl : StructId} {version : Nat}
    (h : ∃ i, is.get? decl version = some i) (other : StructId) (arguments : List Ty) :
    ∃ i, (is.instantiate other arguments).2.get? decl version = some i := by
  obtain ⟨i, hi⟩ := h
  obtain ⟨hmem, rfl, rfl⟩ := mem_of_get? hi
  exact get?_of_mem (mem_instantiate_of_mem hmem other arguments)

theorem get?_instantiate_self (is : Instances) (decl : StructId) (arguments : List Ty) :
    ∃ i, (is.instantiate decl arguments).2.get? decl (is.instantiate decl arguments).1 = some i := by
  obtain ⟨i, hi, hdecl, -, hversion⟩ :=
    exists_of_version? (version?_instantiate_self is decl arguments)
  have found := get?_of_mem hi
  rwa [hdecl, hversion] at found

end Instances

namespace Scope.InRange

variable {m n packages : Nat} {is is' : Instances} {s : Scope}

theorem empty : ({} : Scope).InRange n packages is := by
  constructor <;> exact fun _ h => absurd h not_mem_nil

theorem mono (h : s.InRange m packages is) (hmn : m ≤ n)
    (his : ∀ u ∈ s.instances, (∃ i, is.get? u.1 u.2 = some i) → ∃ i, is'.get? u.1 u.2 = some i) :
    s.InRange n packages is' where
  symbols symbol hs := ⟨(h.symbols symbol hs).1, (h.symbols symbol hs).2.grow hmn⟩
  leaves := h.leaves
  names := h.names
  wildcards := h.wildcards
  instances u hu :=
    ⟨Nat.lt_of_lt_of_le (h.instances u hu).1 hmn, his u hu (h.instances u hu).2⟩

theorem imported {target : PackageId} {s' : Scope} (h : s.InRange n packages is)
    (htarget : target < packages) (himported : Survey.Imported target s s') :
    s'.InRange n packages is := by
  have rebound {bs : List (String × PackageId)} (hbs : ∀ b ∈ bs, b.2 < packages) (name : String) :
      ∀ b ∈ rebind bs name target, b.2 < packages := by
    refine forall_mem_append.mpr ⟨fun b hb => hbs b (mem_of_mem_filter hb), ?_⟩
    exact forall_mem_singleton.mpr htarget
  cases himported with
  | whole =>
    exact ⟨h.symbols, h.leaves, h.names, forall_mem_append.mpr
      ⟨h.wildcards, forall_mem_singleton.mpr htarget⟩, h.instances⟩
  | package leaf => exact ⟨h.symbols, rebound h.leaves leaf, h.names, h.wildcards, h.instances⟩
  | name name => exact ⟨h.symbols, h.leaves, rebound h.names name, h.wildcards, h.instances⟩

theorem note (h : s.InRange n packages is) {u : StructId × Nat}
    (hu : u.1 < n ∧ ∃ i, is.get? u.1 u.2 = some i) :
    (if s.instances.contains u then s
      else { s with instances := s.instances ++ [u] }).InRange n packages is := by
  split
  · exact h
  · exact ⟨h.symbols, h.leaves, h.names, h.wildcards,
      forall_mem_append.mpr ⟨h.instances, forall_mem_singleton.mpr hu⟩⟩

end Scope.InRange

namespace Globals.InRange

variable {packages : Nat} {g : Globals}

section

variable (h : g.InRange packages)

include h

theorem symbol {observer : PackageId} {path : List String} {s : Symbol}
    (found : g.lookup observer path = .ok (.symbol s)) :
    s.package < packages ∧ s.kind.InRange g.structs.size packages := by
  obtain ⟨p, hp⟩ := mem_of_lookup found
  exact (h.scopes p).symbols s hp

theorem modifyScope (id : PackageId) {f : Scope → Scope}
    (hf : (g.scope id).InRange g.structs.size packages g.instances → (f (g.scope id)).InRange g.structs.size packages g.instances)
    : (g.modifyScope id f).InRange packages := by
  refine ⟨Array.size_modify.trans h.size, fun p => ?_, h.structs, h.fields, h.instances⟩
  rcases g.scope_modifyScope id p f with heq | ⟨rfl, heq⟩ <;> rw [heq]
  · exact h.scopes p
  · exact hf (h.scopes p)

theorem writes {package : PackageId} {params : Option GenericParams} {t : Ty}
    (ht : g.Writes package params t) : t.InRange g.structs.size packages := by
  induction ht with
  | void | scalar => trivial
  | param hparam =>
    unfold Survey.genericParam? at hparam
    split at hparam
    · obtain ⟨index, -, rfl⟩ := Option.map_eq_some_iff.mp hparam
      trivial
    · cases hparam
  | pointer _ ih | mutPointer _ ih | array _ _ ih => exact ih
  | «alias» found kind =>
    have known := (h.symbol found).2
    rwa [kind] at known
  | struct found kind _ =>
    have known := (h.symbol found).2
    rwa [kind] at known
  | «instance» found kind _ _ _ _ ih =>
    have known := (h.symbol found).2
    rw [kind] at known
    exact ⟨known, Ty.allInRange_iff.mpr ih⟩

theorem fieldType? {t u : Ty} {name : String} (ht : t.InRange g.structs.size packages)
    (hu : g.structs.fieldType? t name = some u) : u.InRange g.structs.size packages := by
  have declared {id : StructId} {u : Ty} (hf : (g.structs.get id).field? name = some u) :
      u.InRange g.structs.size packages := by
    obtain ⟨f, hfound, rfl⟩ := Option.map_eq_some_iff.mp hf
    exact h.fields id f (mem_of_find?_eq_some hfound)
  cases t with
  | struct id => exact declared hu
  | «instance» id arguments v =>
    obtain ⟨pattern, hpattern, rfl⟩ := Option.map_eq_some_iff.mp hu
    exact .substitute ht.2 (declared hpattern)
  | _ => cases hu

theorem addStruct {info : StructInfo} (hpackage : info.package < packages)
    (hfields : info.fields = []) :
    InRange packages { g with structs := (g.structs.add info).2 } := by
  have grows : g.structs.size ≤ (g.structs.add info).2.size := (g.structs.size_lt_add info).le
  refine ⟨h.size, fun p => (h.scopes p).mono grows fun _ _ hi => hi, fun id hid => ?_,
    fun id f hf => ?_, fun i hi => ?_⟩
  · by_cases hold : id < g.structs.size
    · rw [StructTable.get_add_of_lt _ _ hold]
      exact h.structs id hold
    · have hsize : (g.structs.add info).2.size = g.structs.size + 1 := by
        simp [StructTable.add, StructTable.size]
      obtain rfl : id = g.structs.size := by
        rw [hsize] at hid
        omega
      rw [StructTable.get_add_size]
      exact hpackage
  · rcases g.structs.get_add info id with heq | heq <;> rw [heq] at hf
    · exact (h.fields id f hf).grow grows
    · rw [hfields] at hf
      cases hf
  · exact ⟨Nat.lt_of_lt_of_le (h.instances i hi).1 grows, (h.instances i hi).2.grow grows⟩

theorem setFields (id : StructId) {fields : List (String × Ty)}
    (hfields : ∀ f ∈ fields, f.2.InRange g.structs.size packages) :
    InRange packages { g with structs := g.structs.setFields id fields } := by
  have hsize := g.structs.size_setFields id fields
  refine ⟨h.size, fun p => hsize ▸ h.scopes p, fun other hother => ?_, fun other f hf => ?_,
    hsize ▸ h.instances⟩
  · rw [package_setFields]
    exact h.structs other (hsize ▸ hother)
  · show f.2.InRange (g.structs.setFields id fields).size packages
    rw [hsize]
    rcases fields_setFields hf with old | ⟨-, new⟩
    · exact h.fields other f old
    · exact hfields f new

theorem withSymbol {symbol : Symbol} (hpackage : symbol.package < packages)
    (hkind : symbol.kind.InRange g.structs.size packages) :
    (Survey.withSymbol g symbol).InRange packages := by
  apply h.modifyScope
  intro hs
  exact ⟨forall_mem_append.mpr ⟨hs.symbols, forall_mem_singleton.mpr ⟨hpackage, hkind⟩⟩,
    hs.leaves, hs.names, hs.wildcards, hs.instances⟩

theorem withDefinition (package : PackageId) (name : String) (info : Info) :
    (Survey.withDefinition g package name info).InRange packages := by
  apply h.modifyScope
  intro hs
  refine ⟨forall_mem_map.mpr fun symbol hsymbol => ?_, hs.leaves, hs.names, hs.wildcards,
    hs.instances⟩
  rw [Survey.moved]
  split <;> exact hs.symbols symbol hsymbol

end

theorem useInstance (package : PackageId) {id : StructId} {arguments : List Ty} {s : Survey}
    (h : s.globals.InRange packages) (hid : id < s.globals.structs.size)
    (harguments : Ty.AllInRange s.globals.structs.size packages arguments) :
    (Survey.useInstance package id arguments s).2.globals.InRange packages := by
  have given : InRange packages { s.globals with
      instances := (s.globals.instances.instantiate id arguments).2 } :=
    ⟨h.size, fun p => (h.scopes p).mono (Nat.le_refl _)
      fun _ _ hi => Instances.get?_instantiate_of_get? hi id arguments, h.structs, h.fields,
      h.instances.instantiate hid harguments⟩
  apply given.modifyScope
  intro hs
  exact hs.note ⟨hid, Instances.get?_instantiate_self s.globals.instances id arguments⟩

theorem ofSize (packages : Nat) : (Globals.ofSize packages).InRange packages := by
  refine ⟨Array.size_replicate, fun p => ?_, fun id hid => absurd hid (Nat.not_lt_zero _),
    fun id f hf => ?_, fun i hi => absurd hi (Array.not_mem_empty i)⟩
  · rw [Globals.scope_ofSize]
    exact .empty
  · cases hf

end Globals.InRange

namespace PackageTable

theorem lt_size_of_get? {t : PackageTable} {id : PackageId} {p : Package} (h : t.get? id = some p) :
    id < t.size := (Array.getElem?_eq_some_iff.mp h).1

theorem lt_size_of_lookup {t : PackageTable} {p : PackagePath} {id : PackageId}
    (h : t.lookup p = some id) : id < t.size := by
  obtain ⟨package, hget⟩ := get?_of_lookup h
  exact lt_size_of_get? hget

end PackageTable

section Survey

open Survey

theorem Survey.Step.inRange {packages : Nat} {package : PackageId} {s s' : Survey}
    (h : Step package s s') (hs : s.globals.InRange packages) : s'.globals.InRange packages := by
  cases h with
  | report => exact hs
  | use found kind _ _ written _ =>
    have known := (hs.symbol found).2
    rw [kind] at known
    exact hs.useInstance package known (Ty.allInRange_iff.mpr fun t ht => hs.writes (written t ht))

theorem Survey.Makes.inRange {packages : Nat} {g : Globals} (hg : g.InRange packages) {site : Site}
    (hsite : site.id < packages) {d : Decl} {symbol : Symbol} (h : Makes g site d symbol) :
    symbol.package < packages ∧ symbol.kind.InRange g.structs.size packages := by
  cases h with
  | unknown => exact ⟨hsite, hsite⟩
  | «alias» _ _ _ written | var _ _ written => exact ⟨hsite, hg.writes written⟩
  | header _ _ _ written | function _ _ _ _ written =>
    obtain ⟨hresult, hparams⟩ := forall_mem_cons.mp written
    exact ⟨hsite, Ty.allInRange_iff.mpr fun t ht => hg.writes (hparams t ht), hg.writes hresult⟩

def rangeLaw (table : PackageTable) : SurveyLaw table where
  Sound s := s.globals.InRange table.size
  resolve step hs := step.inRange hs
  imports hs _ _ _ target himported := hs.modifyScope _ fun hscope =>
    hscope.imported (PackageTable.lt_size_of_lookup target) (himported _)
  struct hs _ hsite _ _ := (hs.addStruct hsite.lt_size rfl).withSymbol hsite.lt_size
    (size_lt_add _ _)
  taken hs _ hsite _ := hs.addStruct hsite.lt_size rfl
  symbol hs _ hsite _ makes _ := by
    obtain ⟨hpackage, hkind⟩ := makes.inRange hs hsite.lt_size
    exact hs.withSymbol hpackage hkind
  define hs _ _ _ _ _ _ _ _ := hs.withDefinition ..
  fields := @fun s _ _ _ _ id fields hs _ _ _ _ hfields _ => by
    refine hs.setFields id fun f hf => ?_
    rcases hfields f hf with written | old
    · exact hs.writes written
    · exact hs.fields id f old

theorem Survey.ofPackages_inRange (table : PackageTable) (order : List PackageId) :
    (ofPackages table order).globals.InRange table.size :=
  (rangeLaw table).ofPackages_sound (.ofSize _) fun _ _ => trivial

end Survey

structure Checking.InRange (packages : Nat) (st : Checking) : Prop where
  globals : st.globals.InRange packages
  types : ∀ node t, st.facts.types.get? node = some t → t.InRange st.globals.structs.size packages
  written : ∀ node t, st.facts.written.get? node = some t →
    t.InRange st.globals.structs.size packages
  bindings : ∀ node b, st.facts.bindings.get? node = some b → b.InRange packages
  locals : ∀ t ∈ st.locals.types, t.InRange st.globals.structs.size packages

theorem Table.all_insert {α : Type} {P : α → Prop} {table : Table α}
    (h : ∀ node a, table.get? node = some a → P a) {node : Nat} {a : α} (ha : P a) :
    ∀ other b, (table.insert node a).get? other = some b → P b := by
  intro other b hb
  rw [get?_insert] at hb
  split at hb
  · cases hb
    exact ha
  · exact h other b hb

def rangeTypingLaw (packages : Nat) (package : PackageId) : TypingLaw package where
  Sound _ st := st.InRange packages
  Good g t := t.InRange g.structs.size packages
  Node _ := True
  Own _ := True
  Ref _ := True
  mono h ht := h.structs ▸ ht
  scalar _ _ := trivial
  pointer := Iff.rfl
  mutPointer := Iff.rfl
  array := Iff.rfl
  function := and_congr_left fun _ => Ty.allInRange_iff
  field hs ht h := hs.globals.fieldType? ht h
  symbol hs h := (hs.globals.symbol h).2.types
  resolve := @fun scopes st t hs => by
    have onward := (Survey.resolveType_later package none t st.toSurvey).onward
    have ranged : (Survey.resolveType package none t st.toSurvey).2.globals.InRange packages :=
      Survey.resolveType_keeps package none t st.toSurvey Survey.Step.inRange hs.globals
    refine ⟨⟨ranged, onward.structs ▸ hs.types, onward.structs ▸ hs.written, hs.bindings,
      onward.structs ▸ hs.locals⟩, fun u hu => ?_⟩
    exact ranged.writes
      (Survey.resolveType_writes package none t st.toSurvey u hu)
  report _ _ hs := ⟨hs.globals, hs.types, hs.written, hs.bindings, hs.locals⟩
  type hs _ ht := ⟨hs.globals, all_insert hs.types ht, hs.written, hs.bindings, hs.locals⟩
  written hs _ ht := ⟨hs.globals, hs.types, all_insert hs.written ht, hs.bindings, hs.locals⟩
  own hs _ _ hsymbol _ _ := by
    have known := ((hs.globals.scopes package).symbols _ (mem_of_find?_eq_some hsymbol)).2
    exact ⟨hs.globals, all_insert hs.types known.own, hs.written, hs.bindings, hs.locals⟩
  near hs _ hl :=
    ⟨fun t ht => hs.locals t
        (mem_flatMap.mpr ⟨_, Checking.mem_of_local? hl, Option.mem_toList.mpr ht⟩),
      hs.globals, hs.types, hs.written, all_insert hs.bindings trivial,
      fun t ht => hs.locals t (Locals.types_use ht)⟩
  far hs _ _ found bound := by
    refine ⟨hs.globals, hs.types, hs.written, all_insert hs.bindings ?_, hs.locals⟩
    cases bound with
    | foreign => trivial
    | global | function => exact (hs.globals.symbol found).1
  opened hs := ⟨hs.globals, hs.types, hs.written, hs.bindings, hs.locals⟩
  closed hs := ⟨hs.globals, hs.types, hs.written, hs.bindings,
    fun t ht => hs.locals t (Locals.types_tail ht)⟩
  declared := @fun _ _ st l _ hs ht => by
    obtain ⟨hglobals, hfacts, hlocals⟩ := Check.declareLocal_adds l st
    refine ⟨?_, ?_, ?_, ?_, fun t hmem => ?_⟩
    · rw [hglobals]
      exact hs.globals
    · rw [hglobals, hfacts]
      exact hs.types
    · rw [hglobals, hfacts]
      exact hs.written
    · rw [hfacts]
      exact hs.bindings
    · rw [hglobals]
      exact (hlocals t hmem).elim (ht t) (hs.locals t)

structure Resolution.InRange (packages : Nat) (r : Resolution) : Prop where
  globals : r.globals.InRange packages
  types : ∀ node t, r.typeOf? node = some t → t.InRange r.globals.structs.size packages
  written : ∀ node t, r.written? node = some t → t.InRange r.globals.structs.size packages
  bindings : ∀ node b, r.binding? node = some b → b.InRange packages

section

variable (table : PackageTable) (order : List PackageId) (nodes : Nat)

include table order nodes

theorem Survey.checking_inRange :
    let start : Checking := { ofPackages table order with facts := .ofSize nodes }
    ((order.forM (Check.package table)) start).2.InRange table.size ∧
      start.globals.Onward ((order.forM (Check.package table)) start).2.globals := by
  intro start
  have unknown {α : Type} {P : α → Prop} (node : Nat) (a : α)
      (h : (ofSize nodes).get? node = some a) : P a := by
    rw [get?_ofSize] at h
    cases h
  have started : start.InRange table.size :=
    ⟨Survey.ofPackages_inRange table order, unknown, unknown, unknown,
      fun t ht => absurd ht not_mem_nil⟩
  exact TypingLaw.packages_sound (rangeTypingLaw table.size) (fun _ _ => Iff.rfl) started
    fun p _ file _ d _ => (rangeTypingLaw table.size p).admitsDecl_of_all
      (fun _ => trivial) (fun _ => trivial) (fun _ => trivial) d

/-- Whatever packages are resolved, in whatever order, all numbers are in range. -/
theorem resolve_inRange : (resolve table order nodes).1.InRange table.size := by
  obtain ⟨ended, -⟩ := Survey.checking_inRange table order nodes
  exact ⟨ended.globals, ended.types, ended.written, ended.bindings⟩

theorem resolve_regular : (resolve table order nodes).1.globals.instances.Regular := by
  obtain ⟨-, onward⟩ := Survey.checking_inRange table order nodes
  exact Instances.Leads.regular ((Survey.ofPackages_canonical table order).2.trans onward.leads)
    .empty

end

end Quill
