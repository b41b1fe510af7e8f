import Quill.Proofs.Accepted
import Quill.Proofs.ClosedScope
import Quill.Proofs.Registration
import Quill.Proofs.SteadyTypes

/-!
# Closed types in a resolved program

All types that checking records are closed, in spite of the problems it may find; only the
declaration of a generic struct is recorded as the bare struct.
-/
namespace Quill

variable {table : PackageTable}

/-- The types recorded for nodes are closed, apart from those of generic structs themselves. -/
def Facts.Closed (table : PackageTable) (structs : StructTable) (types : Table Ty) : Prop :=
  ∀ node t, types.get? node = some t → t.Closed structs ∨
    ∃ p file info decl id, table.sourceOf? p = some file ∧ .struct info decl ∈ file.decls ∧
      node = info.id ∧ t = .struct id ∧ id < structs.size ∧ (structs.get id).generics ≠ []

structure Checking.Closed (table : PackageTable) (st : Checking) : Prop where
  globals : st.globals.Closed table
  types : Facts.Closed table st.globals.structs st.facts.types
  written : ∀ node t, st.facts.written.get? node = some t → t.Closed st.globals.structs
  locals : ∀ t ∈ st.locals.types, t.Closed st.globals.structs

theorem Facts.Closed.insert {structs : StructTable} {types : Table Ty}
    (h : Facts.Closed table structs types) {node : Nat} {t : Ty} (ht : t.Closed structs) :
    Facts.Closed table structs (types.insert node t) := by
  intro other u hu
  rw [Table.get?_insert] at hu
  split at hu
  · cases hu
    exact .inl ht
  · exact h other u hu

theorem Checking.Closed.own {st : Checking} (hs : st.Closed table) {package : PackageId}
    {file : File} (source : table.sourceOf? package = some file) {d : Decl} (hd : d ∈ file.decls)
    {s : Symbol} (hsymbol : s ∈ (st.globals.scope package).symbols) (stands : s.StandsFor d)
    (named : d.name?.isSome) :
    Facts.Closed table st.globals.structs (st.facts.types.insert d.id s.kind.own) := by
  have plain (h : s.kind.own ∈ s.kind.types) :
      Facts.Closed table st.globals.structs (st.facts.types.insert d.id s.kind.own) :=
    hs.types.insert (hs.globals.symbols package s hsymbol _ h)
  cases d with
  | struct info decl =>
    obtain ⟨-, id, kind⟩ := stands
    obtain ⟨inside, -⟩ := hs.globals.shells package s hsymbol id kind
    intro node t ht
    rw [kind, Table.get?_insert] at ht
    split at ht
    · rename_i hnode
      cases ht
      by_cases hplain : (st.globals.structs.get id).generics = []
      · exact .inl ⟨rfl, inside, hplain⟩
      · exact .inr ⟨package, file, info, decl, id, source, hd, hnode, rfl, inside, hplain⟩
    · exact hs.types node t ht
  | typedef info name type =>
    obtain ⟨-, t, kind⟩ := stands
    exact plain (by simp [kind, SymbolKind.own, SymbolKind.types])
  | header info sig =>
    obtain ⟨params, result, kind⟩ := stands
    exact plain (by simp [kind, SymbolKind.own, SymbolKind.types])
  | function info sig body =>
    obtain ⟨-, params, result, kind⟩ := stands
    exact plain (by simp [kind, SymbolKind.own, SymbolKind.types])
  | var info decl =>
    obtain ⟨-, type, mutable, kind⟩ := stands
    exact plain (by simp [kind, SymbolKind.own, SymbolKind.types])
  | separator | package | imports => cases named

def closedTypingLaw (table : PackageTable) (package : PackageId) : TypingLaw package where
  Sound _ st := st.Closed table
  Good g t := t.Closed g.structs
  Node _ := True
  Own d := ∃ file, table.sourceOf? package = some file ∧ d ∈ file.decls
  Ref _ := True
  mono h ht := h.structs ▸ ht
  scalar _ _ := ⟨rfl, trivial⟩
  pointer := Iff.rfl
  mutPointer := Iff.rfl
  array := Iff.rfl
  function := Ty.closed_function
  field hs ht h := StructTable.closed_fieldType? hs.globals.fields ht h
  symbol hs h := (hs.globals.symbol h).1
  resolve := @fun scopes st t hs => by
    have onward := (Survey.resolveType_later package none t st.toSurvey).onward
    have closed : (Survey.resolveType package none t st.toSurvey).2.globals.Closed table :=
      Survey.resolveType_keeps package none t st.toSurvey Survey.Step.closed hs.globals
    refine ⟨⟨closed, onward.structs ▸ hs.types, onward.structs ▸ hs.written,
      onward.structs ▸ hs.locals⟩, fun u hu => ?_⟩
    exact (Survey.resolveType_writes package none t st.toSurvey u hu).closed closed
  report _ _ hs := ⟨⟨hs.globals.symbols, hs.globals.shells, hs.globals.fields, hs.globals.instances,
    hs.globals.used⟩, hs.types, hs.written, hs.locals⟩
  type hs _ ht := ⟨hs.globals, hs.types.insert ht, hs.written, hs.locals⟩
  written := @fun scopes st node t hs _ ht => by
    refine ⟨hs.globals, hs.types, fun other u hu => ?_, hs.locals⟩
    rw [show (Check.setWritten node t st).2.facts.written = st.facts.written.insert node t from rfl,
      Table.get?_insert] at hu
    split at hu
    · cases hu
      exact ht
    · exact hs.written other u hu
  own hs hown hname hsymbol stands _ := by
    obtain ⟨file, source, hd⟩ := hown
    exact ⟨hs.globals, hs.own source hd (List.mem_of_find?_eq_some hsymbol) stands (by simp [hname]),
      hs.written, hs.locals⟩
  near hs _ hl :=
    ⟨fun t ht => hs.locals t
        (List.mem_flatMap.mpr ⟨_, Checking.mem_of_local? hl, Option.mem_toList.mpr ht⟩),
      hs.globals, hs.types, hs.written, fun t ht => hs.locals t (Locals.types_use ht)⟩
  far hs _ _ _ _ := ⟨hs.globals, hs.types, hs.written, hs.locals⟩
  opened hs := ⟨hs.globals, hs.types, hs.written, hs.locals⟩
  closed hs := ⟨hs.globals, hs.types, hs.written, fun t ht => hs.locals t (Locals.types_tail ht)⟩
  declared := @fun _ _ st l _ hs ht => by
    obtain ⟨hglobals, hfacts, hlocals⟩ := Check.declareLocal_adds l st
    refine ⟨?_, ?_, ?_, fun t hmem => ?_⟩ <;> rw [hglobals]
    · exact hs.globals
    · rw [hfacts]
      exact hs.types
    · rw [hfacts]
      exact hs.written
    · exact (hlocals t hmem).elim (ht t) (hs.locals t)

theorem Survey.checking_closed
    (nodup : ∀ p file, table.sourceOf? p = some file → (file.declIds .node).Nodup)
    (order : List PackageId) (nodes : Nat) :
    Checking.Closed table { ofPackages table order with facts := .ofSize nodes } := by
  refine ⟨ofPackages_closed nodup order, fun node t ht => ?_, fun node t ht => ?_, nofun⟩
  · rw [show (Facts.ofSize nodes).types = .ofSize nodes from rfl, Table.get?_ofSize] at ht
    cases ht
  · rw [show (Facts.ofSize nodes).written = .ofSize nodes from rfl, Table.get?_ofSize] at ht
    cases ht

theorem resolve_closed
    (nodup : ∀ p file, table.sourceOf? p = some file → (file.declIds .node).Nodup)
    (order : List PackageId) (nodes : Nat) :
    (resolve table order nodes).1.globals.Closed table ∧
      Facts.Closed table (resolve table order nodes).1.globals.structs
        (resolve table order nodes).1.facts.types ∧
      ∀ node t, (resolve table order nodes).1.written? node = some t →
        t.Closed (resolve table order nodes).1.globals.structs := by
  let start : Checking := { Survey.ofPackages table order with facts := .ofSize nodes }
  have started : start.Closed table := Survey.checking_closed nodup order nodes
  have admitted : ∀ p ∈ order, ∀ file, table.sourceOf? p = some file → ∀ d ∈ file.decls,
      (closedTypingLaw table p).AdmitsDecl start.globals d := by
    intro p _ file source d hd
    have own : ∃ file, table.sourceOf? p = some file ∧ d ∈ file.decls := ⟨file, source, hd⟩
    cases d with
    | function => exact fun _ _ _ _ _ _ => ⟨own, fun _ _ => trivial, fun _ _ => trivial⟩
    | var => exact ⟨own, fun _ _ => trivial, fun _ _ => trivial⟩
    | _ => exact own
  obtain ⟨ended, -⟩ :=
    TypingLaw.packages_sound (closedTypingLaw table) (fun _ _ => Iff.rfl) started admitted
  exact ⟨ended.globals, ended.types, ended.written⟩

/-- Whatever the sources and whatever problems they have, a resolved program holds no generic
parameter outside the fields of generic structs. Types of nodes, written types, the types of
symbols, the instances given out and those noted in scopes are all closed, and so are the fields of
closed types. The one exception is the node that declares a generic struct, which has that struct
as its type. -/
theorem Sources.resolved_closed (sources : Sources) (options : Options) (order : List PackageId) :
    let r := (sources.resolved options order).1
    let structs := r.globals.structs
    (∀ node t, r.typeOf? node = some t → t.Closed structs ∨
      ∃ p file info decl id, (sources.table options).sourceOf? p = some file ∧
        .struct info decl ∈ file.decls ∧ node = info.id ∧ t = .struct id ∧
        id < structs.size ∧ (structs.get id).generics ≠ []) ∧
    (∀ node t, r.written? node = some t → t.Closed structs) ∧
    (∀ p, ∀ s ∈ (r.globals.scope p).symbols, ∀ t ∈ s.kind.types, t.Closed structs) ∧
    (∀ i ∈ r.globals.instances.list, (Ty.instance i.decl i.arguments i.version).Closed structs) ∧
    (∀ p, ∀ u ∈ (r.globals.scope p).instances, ∃ i, r.globals.instances.get? u.1 u.2 = some i ∧
      (Ty.instance u.1 i.arguments u.2).Closed structs) ∧
    ∀ t name u, t.Closed structs → structs.fieldType? t name = some u → u.Closed structs := by
  have nodup (p : PackageId) (file : File)
      (source : (sources.table options).sourceOf? p = some file) : (file.declIds .node).Nodup :=
    PackageTable.registered_nodup source
  obtain ⟨globals, types, written⟩ :=
    resolve_closed nodup order (parse sources.numbered).ids.nodes
  refine ⟨types, written, globals.symbols, globals.instances, fun p u hu => ?_,
    fun t name u ht hu => StructTable.closed_fieldType? globals.fields ht hu⟩
  obtain ⟨i, hi⟩ := globals.used p u hu
  obtain ⟨hmem, hdecl, hversion⟩ := Instances.mem_of_get? hi
  exact ⟨i, hi, hdecl ▸ hversion ▸ globals.instances i hmem⟩

end Quill
