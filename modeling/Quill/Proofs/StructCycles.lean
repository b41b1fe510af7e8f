import Quill.Proofs.Accepted
import Quill.Proofs.Embedding
import Quill.Proofs.GraphOrder
import Quill.Proofs.Registration

/-!
# Structs without cycles

Behind the last package, if there was nothing to report, no struct of any package is found to embed
itself. What may remain are cycles that meet a generic struct with different arguments.
-/
namespace Quill

open Diagnostic StructTable List

namespace StructTable

theorem Extends.unembedded {t t' : StructTable} (h : t.Extends t')
    (held : ∀ id, ∀ f ∈ (t.get id).fields, t.Holds id f.2) {id : StructId} (hid : id < t.size)
    (hu : t.Unembedded id) : t'.Unembedded id := by
  intro f hf
  rw [h.get id hid] at hf
  rw [h.embeds held nodup_range nodup_range (fun other hother => ?_) (held id f hf).1]
  · exact hu f hf
  · have size := h.size
    rw [mem_range, mem_range]
    omega

theorem Extends.trans {t₁ t₂ t₃ : StructTable} (h : t₁.Extends t₂) (h' : t₂.Extends t₃) :
    t₁.Extends t₃ where
  size := Nat.le_trans h.size h'.size
  get id hid := (h'.get id (Nat.lt_of_lt_of_le hid h.size)).trans (h.get id hid)

theorem size_add (t : StructTable) (info : StructInfo) : (t.add info).2.size = t.size + 1 :=
  Array.size_push ..

theorem extends_add (t : StructTable) (info : StructInfo) : t.Extends (t.add info).2 where
  size := (t.size_lt_add info).le
  get _ hid := t.get_add_of_lt info hid

theorem get_setFields_of_ne (t : StructTable) {id other : StructId} (hne : other ≠ id)
    (fields : List (String × Ty)) : (t.setFields id fields).get other = t.get other := by
  rw [get, setFields, Array.getElem?_modify, if_neg hne.symm, get]

end StructTable

namespace Survey

theorem ownStruct?_of_symbol? {g : Globals} {package : PackageId} {node : Nat} {name : String}
    {s : Symbol} {id : StructId} (h : (g.scope package).symbol? name = some s)
    (kind : s.kind = .struct id) (hnode : (g.structs.get id).node = node) :
    ownStruct? g package node name = some id := by
  obtain ⟨_, _, _, _, _, _⟩ := s
  cases kind
  rw [ownStruct?, h]
  exact if_pos (beq_iff_eq.mpr hnode)

theorem ownStruct?_mono {g g' : Globals} {package : PackageId} {node : Nat} {name : String}
    {id : StructId} (hsymbol : ∀ s, (g.scope package).symbol? name = some s →
      ∃ s', (g'.scope package).symbol? name = some s' ∧ s'.kind = s.kind)
    (hnode : (g'.structs.get id).node = (g.structs.get id).node)
    (h : ownStruct? g package node name = some id) :
    ownStruct? g' package node name = some id := by
  obtain ⟨s, hs, kind, hid⟩ := exists_of_ownStruct? h
  obtain ⟨s', hs', kind'⟩ := hsymbol s hs
  exact ownStruct?_of_symbol? hs' (kind'.trans kind) (hnode.trans hid)

end Survey

open Survey

/-- Package `p` is being declared on top of the structs in `base`. As long as there is no error,
every further struct belongs to a declaration of the package. -/
structure Survey.Stage (table : PackageTable) (base : StructTable) (p : PackageId) (s : Survey) :
    Prop where
  closed : s.globals.Closed table
  scopes : s.globals.scopes.size = table.size
  before : base.Extends s.globals.structs
  owned : Clean s.problems → ∀ id, base.size ≤ id → id < s.globals.structs.size →
    ∃ file info decl, table.sourceOf? p = some file ∧ .struct info decl ∈ file.decls ∧
      ownStruct? s.globals p info.id decl.name = some id

namespace Survey.Stage

variable {table : PackageTable} {base : StructTable} {p : PackageId} {s s' : Survey}

theorem keep (h : Stage table base p s) (closed : s'.globals.Closed table)
    (scopes : s'.globals.scopes.size = s.globals.scopes.size)
    (before : base.Extends s'.globals.structs)
    (size : s'.globals.structs.size = s.globals.structs.size)
    (own : ∀ node name id, ownStruct? s.globals p node name = some id →
      ownStruct? s'.globals p node name = some id)
    (clean : Clean s'.problems → Clean s.problems) :
    Stage table base p s' where
  closed := closed
  scopes := scopes.trans h.scopes
  before := before
  owned hc id hle hlt := by
    obtain ⟨file, info, decl, source, hd, hown⟩ := h.owned (clean hc) id hle (size ▸ hlt)
    exact ⟨file, info, decl, source, hd, own info.id decl.name id hown⟩

theorem withShell (h : Stage table base p s) {site : Site} (hp : site.id = p) {file : File}
    (hsite : site.Of table file) {info : Info} {decl : StructDecl}
    (hd : .struct info decl ∈ file.decls)
    (hfree : (s.globals.scope site.id).symbol? decl.name = none) :
    Stage table base p { s with globals := Survey.withShell s.globals site info decl } := by
  subst hp
  let added : StructInfo := ⟨decl.name, site.id, info.id, decl.generics, []⟩
  have extended := s.globals.structs.extends_add added
  refine ⟨h.closed.withShell hsite hd, Array.size_modify.trans h.scopes,
    h.before.trans extended, fun hc id hle hlt => ?_⟩
  have hlt : id < s.globals.structs.size + 1 := s.globals.structs.size_add added ▸ hlt
  rcases Nat.lt_succ_iff_lt_or_eq.mp hlt with hold | rfl
  · obtain ⟨file', info', decl', source, hd', hown⟩ := h.owned hc id hle hold
    refine ⟨file', info', decl', source, hd', ownStruct?_mono (g := s.globals)
      (fun symbol hsymbol => ⟨symbol, symbol?_withSymbol hsymbol, rfl⟩) ?_ hown⟩
    exact congrArg StructInfo.node (extended.get id hold)
  · have scope : site.id < s.globals.scopes.size :=
      h.scopes ▸ PackageTable.lt_size_of_sourceOf? hsite.source
    refine ⟨file, info, decl, hsite.source, hd,
      ownStruct?_of_symbol? (symbol?_withSymbol_self scope hfree) rfl ?_⟩
    exact congrArg StructInfo.node (s.globals.structs.get_add_size added)

end Survey.Stage

section Law

variable {table : PackageTable}
  (nodup : ∀ p file, table.sourceOf? p = some file → (file.declIds .node).Nodup)
  {base : StructTable} {p : PackageId} (apart : ∀ id < base.size, (base.get id).package ≠ p)

/-- A package is declared on top of others that stay as they are. -/
def stageLaw : SurveyLaw table where
  Sound := Stage table base p
  Visits q := q = p
  resolve step hs := by
    have onward := step.later.onward
    refine hs.keep (step.closed hs.closed) onward.size (onward.structs ▸ hs.before)
      (congrArg size onward.structs) (fun node name id => ?_)
      fun hc => hc.of_prefix step.later.problems
    refine ownStruct?_mono (fun symbol hsymbol => ⟨symbol, ?_, rfl⟩) (by rw [onward.structs])
    exact (onward.toSettled.symbol? p name).trans hsymbol
  imports := @fun s site _ _ _ _ f hs hvisit hsite hd htarget himported => by
    refine hs.keep ((closedLaw nodup).imports hs.closed trivial hsite hd htarget himported)
      Array.size_modify hs.before rfl (fun node name id => ?_) fun hc => hc
    refine ownStruct?_mono (fun symbol hsymbol => ⟨symbol, ?_, rfl⟩) rfl
    rcases s.globals.scope_modifyScope site.id p f with heq | ⟨-, heq⟩
    · rwa [heq]
    · rwa [heq, Scope.symbol?, (himported _).symbols]
  struct hs hvisit hsite hd hfree := hs.withShell hvisit hsite hd hfree
  taken := @fun s site file info decl hs hvisit hsite hd =>
    ⟨hs.closed.withStruct rfl, hs.scopes, hs.before.trans (extends_add _ _),
      fun hc => absurd hc (not_clean_report s.problems rfl _)⟩
  symbol := @fun s site file d symbol hs _ hsite hd makes hfree =>
    hs.keep ((closedLaw nodup).symbol hs.closed trivial hsite hd makes hfree) Array.size_modify
      hs.before rfl (fun _ _ _ => ownStruct?_mono (fun other hother =>
        ⟨other, symbol?_withSymbol hother, rfl⟩) rfl) fun hc => hc
  define := @fun s site file info sig body existing params result hs _ hsite hd found header kind
      arity written => by
    refine hs.keep (hs.closed.withDefinition ..) Array.size_modify hs.before rfl
      (fun node name id => ownStruct?_mono (fun other hother => ?_) rfl) fun hc => hc
    rcases symbol?_withDefinition site.id sig.name info hother with hsame | ⟨-, hmoved⟩
    · exact ⟨other, hsame, rfl⟩
    · refine ⟨_, hmoved, ?_⟩
      rw [moved]
      split <;> rfl
  fields := @fun s site file info decl id fields hs hvisit hsite hd hown hfields named => by
    subst hvisit
    have package := (hs.closed.ownStruct? nodup hsite hd hown).2.1
    refine hs.keep ((closedLaw nodup).fields hs.closed trivial hsite hd hown hfields named) rfl
      ⟨?_, fun other hother => ?_⟩ (size_setFields _ _ _)
      (fun node name id => ownStruct?_mono (fun other hother => ⟨other, hother, rfl⟩)
        (node_setFields _ _ _ _)) fun hc => hc
    · exact hs.before.size.trans (size_setFields _ _ _).ge
    · rw [get_setFields_of_ne, hs.before.get other hother]
      rintro rfl
      rw [hs.before.get other hother] at package
      exact apart other hother package

/-- The packages have been declared without an error, and none of their structs is found to embed
itself. -/
structure Survey.Behind (table : PackageTable) (done : List PackageId) (s : Survey) : Prop where
  closed : s.globals.Closed table
  scopes : s.globals.scopes.size = table.size
  packages : ∀ id < s.globals.structs.size, (s.globals.structs.get id).package ∈ done
  unembedded : ∀ id < s.globals.structs.size, s.globals.structs.Unembedded id

include nodup

theorem Survey.Behind.step {done : List PackageId} {s : Survey} (h : Behind table done s)
    (new : p ∉ done) (hc : Clean (declarePackage table p s).2.problems) :
    Behind table (p :: done) (declarePackage table p s).2 := by
  have apart : ∀ id < s.globals.structs.size, (s.globals.structs.get id).package ≠ p :=
    fun id hid heq => new (heq ▸ h.packages id hid)
  have started : Stage table s.globals.structs p s :=
    ⟨h.closed, h.scopes, ⟨Nat.le_refl _, fun _ _ => rfl⟩, fun _ id hle hlt => by omega⟩
  have ended : Stage table s.globals.structs p (declarePackage table p s).2 :=
    (stageLaw nodup apart).declarePackage_sound rfl started
  have each : ∀ id < (declarePackage table p s).2.globals.structs.size,
      ((declarePackage table p s).2.globals.structs.get id).package ∈ p :: done ∧
        (declarePackage table p s).2.globals.structs.Unembedded id := by
    intro id hlt
    by_cases hold : id < s.globals.structs.size
    · refine ⟨?_, ended.before.unembedded h.closed.fields hold (h.unembedded id hold)⟩
      rw [ended.before.get id hold]
      exact mem_cons_of_mem p (h.packages id hold)
    · obtain ⟨file, info, decl, source, hd, hown⟩ := ended.owned hc id (Nat.le_of_not_lt hold) hlt
      obtain ⟨symbol, hsymbol, kind, -⟩ := exists_of_ownStruct? hown
      have shell := ended.closed.shells p symbol (mem_of_find?_eq_some hsymbol) id kind
      obtain ⟨site, rfl, hsite⟩ := Site.Of.exists_of_source source
      refine ⟨?_, (declarePackage_proceeds hsite s trivial).2.2 hc info decl hd id hown⟩
      rw [shell.2.1]
      exact mem_cons_self
  exact ⟨ended.closed, ended.scopes, fun id hid => (each id hid).1, fun id hid => (each id hid).2⟩

theorem Survey.Behind.run {order done : List PackageId} {s : Survey} (h : Behind table done s)
    (distinct : order.Nodup) (new : ∀ q ∈ order, q ∉ done)
    (hc : Clean (order.forM (declarePackage table) s).2.problems) :
    ∃ done', Behind table done' (order.forM (declarePackage table) s).2 := by
  induction order generalizing done s with
  | nil => exact ⟨done, h⟩
  | cons q order ih =>
    obtain ⟨once, distinct⟩ := nodup_cons.mp distinct
    have clean := clean_of_declaring (packages_proceeds order _ trivial).1 hc
    refine ih (h.step nodup (new q mem_cons_self) clean) distinct (fun r hr hmem => ?_) hc
    rcases mem_cons.mp hmem with rfl | hmem
    · exact once hr
    · exact new r (mem_cons_of_mem q hr) hmem

theorem Survey.ofPackages_unembedded {order : List PackageId} (distinct : order.Nodup)
    (hc : Clean (ofPackages table order).problems) :
    ∀ id < (ofPackages table order).globals.structs.size,
      (ofPackages table order).globals.structs.Unembedded id := by
  have start : Behind table [] { globals := .ofSize table.size } := by
    refine ⟨ofPackages_closed nodup [], by simp [Globals.ofSize], ?_, ?_⟩ <;>
      exact fun id hid => absurd hid (Nat.not_lt_zero id)
  obtain ⟨done, behind⟩ := start.run nodup distinct (fun _ _ => not_mem_nil) hc
  exact behind.unembedded

end Law

/-- If the packages of a program are declared without an error, a struct that contains itself by
value does so by way of a generic struct with two different lists of arguments. -/
theorem Sources.struct_cycle_repeats {sources : Sources} {options : Options}
    {order : List PackageId} (distinct : order.Nodup)
    (clean : Diagnostic.Clean (Survey.ofPackages (sources.table options) order).problems) :
    let structs := (Survey.ofPackages (sources.table options) order).globals.structs
    ∀ a way, structs.Applied a → structs.Route a way a →
      ∃ x ∈ a :: way, ∃ y ∈ a :: way,
        x.1 = y.1 ∧ (structs.get x.1).generics ≠ [] ∧ x.2 ≠ y.2 := by
  intro structs a way applied route
  have nodup (p : PackageId) (file : File)
      (source : (sources.table options).sourceOf? p = some file) : (file.declIds .node).Nodup :=
    PackageTable.registered_nodup source
  have held := (Survey.ofPackages_closed nodup order).fields
  have inside : ∀ x ∈ a :: way, structs.Applied x :=
    List.forall_mem_cons.mpr ⟨applied, applied.route held route⟩
  obtain ⟨x, hx, y, hy, same, differ⟩ := StructTable.route_meets_twice held applied route
    fun x hx => Survey.ofPackages_unembedded nodup distinct clean x.1 (inside x hx).inside
  refine ⟨x, hx, y, hy, same, fun plain => differ ?_, differ⟩
  have none (z : StructUse) (hz : structs.Applied z) (heq : x.1 = z.1) : z.2 = [] :=
    List.eq_nil_of_length_eq_zero (by rw [hz.arity, ← heq, plain, List.length_nil])
  rw [none x (inside x hx) rfl, none y (inside y hy) same]

/-- Two structs that hold each other, each in a struct around its parameter. -/
def wrappedInEachOther : Sources :=
  ["struct Wrap<T> { T v } struct I { Wrap<A> w } struct A { Wrap<I> w }\nvoid main() { }"]

/-- The way from one of them back to it meets the struct around them twice. -/
theorem wrappedInEachOther_repeats :
    let structs := (Survey.ofPackages (wrappedInEachOther.table {}) [0]).globals.structs
    let way : List StructUse := [(0, [.struct 1]), (1, []), (0, [.struct 2])]
    ([0] : List PackageId).Nodup ∧
      Diagnostic.Clean (Survey.ofPackages (wrappedInEachOther.table {}) [0]).problems ∧
      structs.Applied (2, []) ∧ structs.Route (2, []) way (2, []) ∧
      ∃ x ∈ (2, []) :: way, ∃ y ∈ (2, []) :: way,
        x.1 = y.1 ∧ (structs.get x.1).generics ≠ [] ∧ x.2 ≠ y.2 := by
  have clean : Diagnostic.Clean (Survey.ofPackages (wrappedInEachOther.table {}) [0]).problems := by
    unfold Diagnostic.Clean
    decide +kernel
  have applied : (Survey.ofPackages (wrappedInEachOther.table {}) [0]).globals.structs.Applied
      (2, []) := ⟨by decide +kernel, by decide +kernel, trivial⟩
  have route : (Survey.ofPackages (wrappedInEachOther.table {}) [0]).globals.structs.Route (2, [])
      [(0, [.struct 1]), (1, []), (0, [.struct 2])] (2, []) := by decide +kernel
  have distinct : ([0] : List PackageId).Nodup := by decide
  have repeats := Sources.struct_cycle_repeats distinct clean (2, []) _ applied route
  exact ⟨distinct, clean, applied, route, repeats⟩

def wrappedTwice : Sources :=
  ["struct Wrap<T> { T v } struct A { Wrap<Wrap<A>> w }\nvoid main() { }"]

/-- No stage up to checking finds an error, and the struct contains itself: the cycle is reported as
late as the C code is made. -/
theorem wrappedTwice_undetected :
    let structs := (wrappedTwice.resolved {} [0]).1.globals.structs
    Accepted wrappedTwice {} [0] ∧ (structs.get 1).generics = [] ∧
      structs.Route (1, []) [(0, [.instance 0 [.struct 1] 0]), (0, [.struct 1])] (1, []) := by
  decide +kernel

end Quill
