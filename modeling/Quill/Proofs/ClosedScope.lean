import Quill.Proofs.SymbolSource
import Quill.Proofs.TypeForm
import Quill.Proofs.TypingLaw

/-!
# Closed declarations

Parameters of generic structs stay inside the fields of their structs: whatever a package declares
otherwise has a closed type, whether or not problems were found on the way.
-/
namespace Quill

open List Instances StructInfo StructTable

variable {file : File} {g : Globals} {i : Instance} {is : Instances} {package : PackageId}
  {site : Site} {id : StructId} {t : StructTable}

/-- The struct is in the table as one of the package, with the node and the parameters of a
declaration there. -/
def Globals.Shell (table : PackageTable) (g : Globals) (p : PackageId) (id : StructId) : Prop :=
  id < g.structs.size ∧ (g.structs.get id).package = p ∧ ∃ file info decl,
    table.sourceOf? p = some file ∧ .struct info decl ∈ file.decls ∧
    (g.structs.get id).node = info.id ∧ (g.structs.get id).generics = decl.generics

/-- The type is well formed and its parameters are those of the struct. -/
def StructTable.Holds (structs : StructTable) (id : StructId) (t : Ty) : Prop :=
  t.Formed structs ∧ t.Within (structs.get id).node (structs.get id).generics.length

/-- No parameter is known outside its struct, and no type is ill formed. -/
structure Globals.Closed (table : PackageTable) (g : Globals) : Prop where
  symbols : ∀ p, ∀ s ∈ (g.scope p).symbols, ∀ t ∈ s.kind.types, t.Closed g.structs
  shells : ∀ p, ∀ s ∈ (g.scope p).symbols, ∀ id, s.kind = .struct id → g.Shell table p id
  fields : ∀ id, ∀ f ∈ (g.structs.get id).fields, g.structs.Holds id f.2
  instances : ∀ i ∈ g.instances.list, (Ty.instance i.decl i.arguments i.version).Closed g.structs
  used : ∀ p, ∀ u ∈ (g.scope p).instances, ∃ i, g.instances.get? u.1 u.2 = some i

namespace StructTable

theorem get_add_of_lt (t : StructTable) (info : StructInfo) (h : id < t.size) :
    (t.add info).2.get id = t.get id := by
  have hne : id ≠ t.structs.size := Nat.ne_of_lt h
  simp only [get, add, Array.getElem?_push, if_neg hne]

theorem get_add_size (t : StructTable) (info : StructInfo) : (t.add info).2.get t.size = info := by
  simp [add, get, size]

theorem size_lt_add (t : StructTable) (info : StructInfo) : t.size < (t.add info).2.size := by
  simp [add, size]

theorem add_grows (t : StructTable) (info : StructInfo) : t.Grows (t.add info).2 where
  size := by simp [add, size]
  package id h := congrArg package (t.get_add_of_lt info h)
  node id h := congrArg node (t.get_add_of_lt info h)
  generics id h := congrArg generics (t.get_add_of_lt info h)

theorem size_setFields (t : StructTable) (id : StructId) (fields : List (String × Ty)) :
    (t.setFields id fields).size = t.size := Array.size_modify

section

variable (t : StructTable) (id other : StructId) (fields : List (String × Ty))

theorem info_setFields :
    ∃ fields', (t.setFields id fields).get other = { t.get other with fields := fields' } := by
  simp only [get, setFields, Array.getElem?_modify]
  split
  · cases t.structs[other]? with
    | none => exact ⟨[], rfl⟩
    | some info => exact ⟨fields, rfl⟩
  · exact ⟨_, rfl⟩

theorem package_setFields :
    ((t.setFields id fields).get other).package = (t.get other).package := by
  obtain ⟨_, h⟩ := t.info_setFields id other fields
  rw [h]

theorem node_setFields : ((t.setFields id fields).get other).node = (t.get other).node := by
  obtain ⟨_, h⟩ := t.info_setFields id other fields
  rw [h]

theorem generics_setFields :
    ((t.setFields id fields).get other).generics = (t.get other).generics := by
  obtain ⟨_, h⟩ := t.info_setFields id other fields
  rw [h]

end

theorem setFields_grows (t : StructTable) (id : StructId) (fields : List (String × Ty)) :
    t.Grows (t.setFields id fields) where
  size := (t.size_setFields id fields).ge
  package other _ := t.package_setFields id other fields
  node other _ := t.node_setFields id other fields
  generics other _ := t.generics_setFields id other fields

theorem fields_setFields {other : StructId} {fields : List (String × Ty)} {f : String × Ty}
    (h : f ∈ ((t.setFields id fields).get other).fields) :
    f ∈ (t.get other).fields ∨ other = id ∧ f ∈ fields := by
  simp only [get, setFields, Array.getElem?_modify] at h
  split at h
  · rename_i heq
    cases hinfo : t.structs[other]? with
    | none =>
      rw [hinfo] at h
      cases h
    | some info =>
      rw [hinfo] at h
      exact .inr ⟨heq.symm, h⟩
  · exact .inl h

theorem lt_size_of_mem_fields {f : String × Ty} (h : f ∈ (t.get id).fields) : id < t.size := by
  refine Nat.lt_of_not_le fun hle => ?_
  rw [get, Array.getElem?_eq_none hle] at h
  cases h

theorem Holds.grow {t' : StructTable} (h : t.Grows t') (hid : id < t.size) {type : Ty}
    (ht : t.Holds id type) : t'.Holds id type := by
  refine ⟨ht.1.grow h, ?_⟩
  rw [h.node id hid, h.generics id hid]
  exact ht.2

theorem closed_fieldType? (ht : ∀ id, ∀ f ∈ (t.get id).fields, t.Holds id f.2) {type u : Ty}
    {name : String} (hc : type.Closed t) (h : t.fieldType? type name = some u) : u.Closed t := by
  have declared {id : StructId} {u : Ty} (h : (t.get id).field? name = some u) : t.Holds id u := by
    obtain ⟨f, hf, rfl⟩ := Option.map_eq_some_iff.mp h
    exact ht id f (mem_of_find?_eq_some hf)
  cases type with
  | struct id =>
    have held := declared h
    rw [Holds, hc.2.plain] at held
    exact ⟨Ty.Within.hasGenerics held.2, held.1⟩
  | «instance» id arguments v =>
    obtain ⟨pattern, hpattern, rfl⟩ := Option.map_eq_some_iff.mp h
    have held := declared hpattern
    rw [Holds, ← hc.2.2.2.1] at held
    exact .substitute hc.arguments held.2 held.1
  | _ => cases h

end StructTable

namespace Instances

theorem mem_instantiate {decl : StructId} {arguments : List Ty}
    (h : i ∈ (is.instantiate decl arguments).2.list) :
    i ∈ is.list ∨ i.decl = decl ∧ i.arguments = arguments := by
  unfold instantiate at h
  split at h
  · exact .inl h
  · rcases Array.mem_push.mp h with h | rfl
    · exact .inl h
    · exact .inr ⟨rfl, rfl⟩

theorem mem_instantiate_of_mem (h : i ∈ is.list) (decl : StructId) (arguments : List Ty) :
    i ∈ (is.instantiate decl arguments).2.list := by
  unfold instantiate
  split
  · exact h
  · exact Array.mem_push_of_mem _ h

theorem get?_of_mem (h : i ∈ is.list) : ∃ j, is.get? i.decl i.version = some j := by
  rw [← Option.isSome_iff_exists, get?, Array.find?_isSome]
  exact ⟨i, h, by simp⟩

theorem mem_of_get? {decl : StructId} {version : Nat} (h : is.get? decl version = some i) :
    i ∈ is.list ∧ i.decl = decl ∧ i.version = version := by
  have hmatch := Array.find?_some h
  simp only [Bool.and_eq_true, beq_iff_eq] at hmatch
  exact ⟨Array.mem_of_find?_eq_some h, hmatch⟩

end Instances

theorem Scope.mem_of_note {s : Scope} {i u : StructId × Nat}
    (h : u ∈ (if s.instances.contains i then s
      else { s with instances := s.instances ++ [i] }).instances) : u ∈ s.instances ∨ u = i := by
  split at h
  · exact .inl h
  · exact (mem_append.mp h).imp_right mem_singleton.mp

namespace Globals

variable {table : PackageTable}

theorem Shell.grow {g' : Globals} (h : g.structs.Grows g'.structs) {p : PackageId}
    (hid : g.Shell table p id) : g'.Shell table p id := by
  obtain ⟨hlt, hpackage, file, info, decl, source, hd, hnode, hgenerics⟩ := hid
  exact ⟨Nat.lt_of_lt_of_le hlt h.size, (h.package id hlt).trans hpackage, file, info, decl, source,
    hd, (h.node id hlt).trans hnode, (h.generics id hlt).trans hgenerics⟩

theorem Closed.symbol (hg : g.Closed table) {observer : PackageId} {path : List String} {s : Symbol}
    (h : g.lookup observer path = .ok (.symbol s)) :
    (∀ t ∈ s.kind.types, t.Closed g.structs) ∧
      ∀ id, s.kind = .struct id → id < g.structs.size := by
  obtain ⟨p, hp⟩ := mem_of_lookup h
  exact ⟨hg.symbols p s hp, fun id hid => (hg.shells p s hp id hid).1⟩

theorem Writes.formed (hg : g.Closed table) {params : Option GenericParams} {t : Ty}
    (h : g.Writes package params t) : t.Formed g.structs := by
  induction h with
  | void | scalar => trivial
  | param h =>
    unfold Survey.genericParam? at h
    split at h
    · obtain ⟨index, -, rfl⟩ := Option.map_eq_some_iff.mp h
      trivial
    · cases h
  | pointer _ ih | mutPointer _ ih | array _ _ ih => exact ih
  | «alias» found kind =>
    exact ((hg.symbol found).1 _ (kind ▸ mem_singleton_self _)).2
  | struct found kind plain => exact ⟨(hg.symbol found).2 _ kind, plain⟩
  | «instance» found kind _ given arity _ ih =>
    refine ⟨(hg.symbol found).2 _ kind, fun hnone => given ?_, arity, Ty.allFormed_iff.mpr ih⟩
    rw [hnone] at arity
    exact length_eq_zero_iff.mp arity

theorem Writes.within (hg : g.Closed table) {params : Option GenericParams} {t : Ty}
    (h : g.Writes package params t) :
    t.Within (params.elim 0 (·.owner)) (params.elim 0 (·.names.length)) := by
  induction h with
  | void | scalar | struct => trivial
  | param h =>
    unfold Survey.genericParam? at h
    split at h
    · obtain ⟨index, hindex, rfl⟩ := Option.map_eq_some_iff.mp h
      exact ⟨rfl, findIdx?_eq_some_iff_getElem.mp hindex |>.1⟩
    · cases h
  | pointer _ ih | mutPointer _ ih | array _ _ ih => exact ih
  | «alias» found kind =>
    exact Ty.within_of_hasGenerics ((hg.symbol found).1 _ (kind ▸ mem_singleton_self _)).1
  | «instance» _ _ _ _ _ _ ih => exact Ty.allWithin_iff.mpr ih

theorem Writes.closed (hg : g.Closed table) {t : Ty} (h : g.Writes package none t) :
    t.Closed g.structs :=
  ⟨(h.within hg).hasGenerics, h.formed hg⟩

end Globals

namespace Survey

variable {table : PackageTable}

theorem useInstance_closed (package : PackageId) {arguments : List Ty} {s : Survey}
    (hs : s.globals.Closed table) (hc : (Ty.instance id arguments 0).Closed s.globals.structs) :
    (useInstance package id arguments s).2.globals.Closed table := by
  have onward := Globals.Onward.useInstance package id arguments s
  have structs := onward.structs
  refine ⟨fun p symbol hsymbol => ?_, fun p symbol hsymbol => ?_, ?_, fun i hi => ?_,
    fun p u hu => ?_⟩
  · rw [(onward.scopes p).symbols] at hsymbol
    exact hs.symbols p symbol hsymbol
  · rw [(onward.scopes p).symbols] at hsymbol
    exact hs.shells p symbol hsymbol
  · exact hs.fields
  · rcases mem_instantiate hi with hi | ⟨rfl, rfl⟩
    · exact hs.instances i hi
    · exact hc
  · obtain ⟨i, hi, hdecl, -, hversion⟩ := exists_of_version?
      (version?_instantiate_self s.globals.instances id arguments)
    have kept {u : StructId × Nat} (h : ∃ i, s.globals.instances.get? u.1 u.2 = some i) :
        ∃ i, (s.globals.instances.instantiate id arguments).2.get? u.1 u.2 = some i := by
      obtain ⟨j, hj⟩ := h
      obtain ⟨hmem, hdecl, hversion⟩ := mem_of_get? hj
      rw [← hdecl, ← hversion]
      exact get?_of_mem (mem_instantiate_of_mem hmem id arguments)
    rcases Globals.scope_modifyScope { s.globals with instances := _ } package p _ with
      heq | ⟨-, heq⟩
    · exact kept (hs.used p u ((congrArg Scope.instances heq) ▸ hu))
    · rcases Scope.mem_of_note ((congrArg Scope.instances heq) ▸ hu) with hu | rfl
      · exact kept (hs.used p u hu)
      · have new := get?_of_mem hi
        rwa [hdecl, hversion] at new

theorem Step.closed {s s' : Survey} (h : Step package s s') (hs : s.globals.Closed table) :
    s'.globals.Closed table := by
  cases h with
  | report => exact ⟨hs.symbols, hs.shells, hs.fields, hs.instances, hs.used⟩
  | use found kind given arity written closed =>
    refine useInstance_closed package hs ⟨closed, (hs.symbol found).2 _ kind, fun hnone => ?_, arity,
      Ty.allFormed_iff.mpr fun t ht => (written t ht).formed hs⟩
    rw [hnone] at arity
    exact given (length_eq_zero_iff.mp arity)

theorem Imported.instances {target : PackageId} {scope scope' : Scope}
    (h : Imported target scope scope') : scope'.instances = scope.instances := by
  cases h <;> rfl

theorem Site.Of.lt_size (h : site.Of table file) :
    site.id < table.size := PackageTable.lt_size_of_sourceOf? h.source

theorem exists_of_ownStruct? {node : Nat} {name : String}
    (h : ownStruct? g package node name = some id) :
    ∃ s, (g.scope package).symbol? name = some s ∧ s.kind = .struct id ∧
      (g.structs.get id).node = node := by
  unfold ownStruct? at h
  split at h
  · rename_i hsymbol
    split at h
    · rename_i hnode
      cases h
      exact ⟨_, hsymbol, rfl, beq_iff_eq.mp hnode⟩
    · cases h
  · cases h

theorem Makes.closed (hg : g.Closed table) {d : Decl} {symbol : Symbol} (h : Makes g site d symbol) :
    (∀ t ∈ symbol.kind.types, t.Closed g.structs) ∧ ∀ id, symbol.kind ≠ .struct id := by
  cases h with
  | unknown =>
    exact ⟨forall_mem_singleton.mpr ⟨rfl, trivial⟩, fun _ h => SymbolKind.noConfusion h⟩
  | «alias» _ _ _ written | var _ _ written =>
    exact ⟨forall_mem_singleton.mpr (written.closed hg), fun _ h => SymbolKind.noConfusion h⟩
  | header _ _ _ written | function _ _ _ _ written =>
    refine ⟨forall_mem_singleton.mpr (Ty.closed_function.mpr ⟨fun t ht => ?_, ?_⟩),
      fun _ h => SymbolKind.noConfusion h⟩
    · exact (written t (mem_cons_of_mem _ ht)).closed hg
    · exact (written _ mem_cons_self).closed hg

end Survey

open Survey

namespace Globals.Closed

variable {table : PackageTable} {g : Globals}

section

variable (hg : g.Closed table)

include hg

theorem grow {structs : StructTable} (h : g.structs.Grows structs)
    (hfields : ∀ id, ∀ f ∈ (structs.get id).fields, structs.Holds id f.2) :
    Closed table { g with structs } where
  symbols p s hs t ht := (hg.symbols p s hs t ht).grow h
  shells p s hs id hid := (hg.shells p s hs id hid).grow h
  fields := hfields
  instances i hi := (hg.instances i hi).grow h
  used := hg.used

theorem withStruct {info : StructInfo} (hinfo : info.fields = []) :
    Closed table { g with structs := (g.structs.add info).2 } := by
  have grows := g.structs.add_grows info
  refine hg.grow grows fun id f hf => ?_
  rcases g.structs.get_add info id with heq | heq <;> rw [heq] at hf
  · exact (hg.fields id f hf).grow grows (lt_size_of_mem_fields hf)
  · rw [hinfo] at hf
    cases hf

theorem setFields {fields : List (String × Ty)} (hfields : ∀ f ∈ fields, g.structs.Holds id f.2) :
    Closed table { g with structs := g.structs.setFields id fields } := by
  have grows := g.structs.setFields_grows id fields
  refine hg.grow grows fun other f hf => ?_
  have inside : other < g.structs.size :=
    g.structs.size_setFields id fields ▸ lt_size_of_mem_fields hf
  rcases fields_setFields hf with old | ⟨rfl, new⟩
  · exact (hg.fields other f old).grow grows inside
  · exact (hfields f new).grow grows inside

theorem withImport (id : PackageId) {f : Scope → Scope} {target : PackageId}
    (h : ∀ scope, Imported target scope (f scope)) : (g.modifyScope id f).Closed table := by
  have alike (p : PackageId) :
      ((g.modifyScope id f).scope p).symbols = (g.scope p).symbols ∧
      ((g.modifyScope id f).scope p).instances = (g.scope p).instances := by
    rcases g.scope_modifyScope id p f with heq | ⟨-, heq⟩ <;> rw [heq]
    · exact ⟨rfl, rfl⟩
    · exact ⟨(h _).symbols, (h _).instances⟩
  exact ⟨fun p s hs => hg.symbols p s ((alike p).1 ▸ hs),
    fun p s hs => hg.shells p s ((alike p).1 ▸ hs), hg.fields, hg.instances,
    fun p u hu => hg.used p u ((alike p).2 ▸ hu)⟩

theorem withSymbol {symbol : Symbol} (closed : ∀ t ∈ symbol.kind.types, t.Closed g.structs)
    (shell : ∀ id, symbol.kind = .struct id → g.Shell table symbol.package id) :
    (Survey.withSymbol g symbol).Closed table := by
  have cases (p : PackageId) :
      ((Survey.withSymbol g symbol).scope p).instances = (g.scope p).instances ∧
      ∀ s ∈ ((Survey.withSymbol g symbol).scope p).symbols,
        s ∈ (g.scope p).symbols ∨ p = symbol.package ∧ s = symbol := by
    rcases g.scope_modifyScope symbol.package p _ with heq | ⟨hp, heq⟩ <;>
      rw [Survey.withSymbol, heq]
    · exact ⟨rfl, fun _ => .inl⟩
    · exact ⟨rfl, fun s hs => (mem_append.mp hs).imp_right fun h =>
        ⟨hp, mem_singleton.mp h⟩⟩
  refine ⟨fun p s hs => ?_, fun p s hs => ?_, hg.fields, hg.instances,
    fun p u hu => hg.used p u ((cases p).1 ▸ hu)⟩
  · rcases (cases p).2 s hs with hs | ⟨-, rfl⟩
    · exact hg.symbols p s hs
    · exact closed
  · rcases (cases p).2 s hs with hs | ⟨rfl, rfl⟩
    · exact hg.shells p s hs
    · exact shell

theorem withShell (hsite : site.Of table file) {info : Info} {decl : StructDecl}
    (hd : Decl.struct info decl ∈ file.decls) :
    (Survey.withShell g site info decl).Closed table := by
  have added := get_add_size g.structs ⟨decl.name, site.id, info.id, decl.generics, []⟩
  refine (hg.withStruct rfl).withSymbol (fun t ht => absurd ht not_mem_nil) fun id hid => ?_
  obtain rfl : g.structs.size = id := SymbolKind.struct.inj hid
  exact ⟨size_lt_add _ _, congrArg package added, file, info, decl,
    hsite.source, hd, congrArg node added, congrArg generics added⟩

theorem withDefinition (package : PackageId) (name : String) (info : Info) :
    (Survey.withDefinition g package name info).Closed table := by
  have cases (p : PackageId) :
      ((Survey.withDefinition g package name info).scope p).instances = (g.scope p).instances ∧
      ∀ s ∈ ((Survey.withDefinition g package name info).scope p).symbols,
        ∃ s' ∈ (g.scope p).symbols, s'.kind = s.kind := by
    rcases g.scope_modifyScope package p _ with heq | ⟨-, heq⟩ <;>
      rw [Survey.withDefinition, heq]
    · exact ⟨rfl, fun s hs => ⟨s, hs, rfl⟩⟩
    · refine ⟨rfl, fun s hs => ?_⟩
      obtain ⟨s', hs', rfl⟩ := mem_map.mp hs
      refine ⟨s', hs', ?_⟩
      rw [moved]
      split <;> rfl
  refine ⟨fun p s hs => ?_, fun p s hs => ?_, hg.fields, hg.instances,
    fun p u hu => hg.used p u ((cases p).1 ▸ hu)⟩
  · obtain ⟨s', hs', kind⟩ := (cases p).2 s hs
    exact kind ▸ hg.symbols p s' hs'
  · obtain ⟨s', hs', kind⟩ := (cases p).2 s hs
    exact kind ▸ hg.shells p s' hs'

end

end Globals.Closed

section Law

variable {table : PackageTable}
  (nodup : ∀ p file, table.sourceOf? p = some file → (file.declIds .node).Nodup)

include nodup

theorem Globals.Closed.ownStruct? (hg : g.Closed table) (hsite : site.Of table file) {info : Info}
    {decl : StructDecl} (hd : .struct info decl ∈ file.decls)
    (h : Survey.ownStruct? g site.id info.id decl.name = some id) :
    id < g.structs.size ∧ (g.structs.get id).package = site.id ∧
      (g.structs.get id).node = info.id ∧ (g.structs.get id).generics = decl.generics := by
  obtain ⟨s, hs, kind, hnode⟩ := exists_of_ownStruct? h
  obtain ⟨hlt, hpackage, file', info', decl', source, hd', hnode', hgenerics⟩ :=
    hg.shells site.id s (mem_of_find?_eq_some hs) id kind
  obtain rfl : file = file' := Option.some.inj (hsite.source.symm.trans source)
  have same : Decl.struct info decl = .struct info' decl' := by
    by_contra hne
    refine File.decls_apart (nodup _ _ source) hd hd' hne (Decl.id_mem_ids _) ?_
    rw [show (Decl.struct info decl).id = (Decl.struct info' decl').id from hnode.symm.trans hnode']
    exact Decl.id_mem_ids _
  cases same
  exact ⟨hlt, hpackage, hnode, hgenerics⟩

def closedLaw : SurveyLaw table where
  Sound s := s.globals.Closed table
  resolve step hs := step.closed hs
  imports hs _ _ _ _ himported := hs.withImport _ himported
  struct hs _ hsite hd _ := hs.withShell hsite hd
  taken hs _ _ _ := hs.withStruct rfl
  symbol hs _ _ _ makes _ := by
    obtain ⟨closed, plain⟩ := makes.closed hs
    exact hs.withSymbol closed fun id hid => absurd hid (plain id)
  define hs _ _ _ _ _ _ _ _ := hs.withDefinition ..
  fields := @fun s site file info decl id fields hs _ hsite hd hown hfields _ => by
    obtain ⟨-, -, hnode, hgenerics⟩ := hs.ownStruct? nodup hsite hd hown
    refine hs.setFields fun f hf => ?_
    rcases hfields f hf with written | old
    · refine ⟨written.formed hs, ?_⟩
      rw [hnode, hgenerics]
      exact written.within hs
    · exact hs.fields id f old

theorem Survey.ofPackages_closed (order : List PackageId) :
    (ofPackages table order).globals.Closed table := by
  refine (closedLaw nodup).ofPackages_sound ⟨fun p s hs => ?_, fun p s hs => ?_, fun id f hf => ?_,
    fun i hi => ?_, fun p u hu => ?_⟩ fun _ _ => trivial
  · rw [Globals.scope_ofSize] at hs
    cases hs
  · rw [Globals.scope_ofSize] at hs
    cases hs
  · cases hf
  · exact absurd hi (Array.not_mem_empty i)
  · rw [Globals.scope_ofSize] at hu
    cases hu

end Law
end Quill
