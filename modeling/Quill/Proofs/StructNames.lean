import Quill.Proofs.ClosedScope
import Quill.Proofs.CompleteLowering
import Quill.Proofs.SymbolSource

/-!
# Names of structs and fields

Without an error, every struct is what the symbol of its name stands for in its package, so a
package and a name tell one struct.
-/
namespace Quill

variable {file : File} {site : Site}

/-- The symbols of the first are there in the second and stand for the same. -/
def Globals.Retains (g g' : Globals) : Prop :=
  ∀ p name s, (g.scope p).symbol? name = some s → ∃ s', (g'.scope p).symbol? name = some s' ∧
    s'.kind = s.kind ∧ s'.foreign = s.foreign

/-- Structs and unknown types are found by their names, and fields are told by theirs. -/
structure Globals.Titled (table : PackageTable) (g : Globals) : Prop where
  structs : ∀ id < g.structs.size, ∃ s,
    (g.scope (g.structs.get id).package).symbol? (g.structs.get id).name = some s ∧
    s.kind = .struct id ∧
    ∀ package ∈ table.get? (g.structs.get id).package, s.foreign = package.isForeign
  named : ∀ p, ∀ s ∈ (g.scope p).symbols, ∀ id, s.kind = .struct id →
    id < g.structs.size ∧ (g.structs.get id).name = s.name
  unknown : ∀ p, ∀ s ∈ (g.scope p).symbols, ∀ type owner,
    s.kind = .typedef (.abstract type owner false) → ∃ s',
    (g.scope owner).symbol? type = some s' ∧ s'.kind = .typedef (.abstract type owner false) ∧
    s'.foreign = false
  distinct : ∀ id, ((g.structs.get id).fields.map (·.1)).Nodup
  written : ∀ id, ∀ f ∈ (g.structs.get id).fields, ∃ p file info decl,
    table.sourceOf? p = some file ∧ .struct info decl ∈ file.decls ∧
    f.1 ∈ decl.fields.map (·.name)

namespace Survey

theorem mem_withSymbol_cases {g : Globals} {symbol s : Symbol} {p : PackageId}
    (h : s ∈ ((withSymbol g symbol).scope p).symbols) :
    s ∈ (g.scope p).symbols ∨ p = symbol.package ∧ s = symbol := by
  rcases g.scope_modifyScope symbol.package p _ with heq | ⟨hp, heq⟩ <;>
    rw [withSymbol, heq] at h
  · exact .inl h
  · exact (List.mem_append.mp h).imp_right fun h => ⟨hp, List.mem_singleton.mp h⟩

theorem mem_withDefinition_cases {g : Globals} {package p : PackageId} {name : String} {info : Info}
    {s : Symbol} (h : s ∈ ((withDefinition g package name info).scope p).symbols) :
    ∃ s' ∈ (g.scope p).symbols, s'.kind = s.kind ∧ s'.name = s.name := by
  rcases g.scope_modifyScope package p _ with heq | ⟨-, heq⟩ <;>
    rw [withDefinition, heq] at h
  · exact ⟨s, h, rfl, rfl⟩
  · obtain ⟨s', hs', rfl⟩ := List.mem_map.mp h
    refine ⟨s', hs', ?_⟩
    rw [moved]
    split <;> exact ⟨rfl, rfl⟩

end Survey

open Survey

namespace Globals.Titled

variable {table : PackageTable} {g : Globals}

theorem eq_of_name (h : g.Titled table) {i j : StructId} (hi : i < g.structs.size)
    (hj : j < g.structs.size) (package : (g.structs.get i).package = (g.structs.get j).package)
    (name : (g.structs.get i).name = (g.structs.get j).name) : i = j := by
  obtain ⟨s, hs, kind, -⟩ := h.structs i hi
  obtain ⟨s', hs', kind', -⟩ := h.structs j hj
  rw [package, name, hs'] at hs
  obtain rfl := Option.some.inj hs
  exact SymbolKind.struct.inj (kind.symm.trans kind')

theorem retain (h : g.Titled table) {g' : Globals} (structs : g'.structs = g.structs)
    (retains : g.Retains g')
    (symbols : ∀ p, ∀ s ∈ (g'.scope p).symbols, ∃ s' ∈ (g.scope p).symbols,
      s'.kind = s.kind ∧ s'.name = s.name) : g'.Titled table where
  structs id hid := by
    rw [structs] at hid ⊢
    obtain ⟨s, hs, kind, foreign⟩ := h.structs id hid
    obtain ⟨s', hs', kind', foreign'⟩ := retains _ _ s hs
    exact ⟨s', hs', kind'.trans kind, fun package hp => foreign'.trans (foreign package hp)⟩
  named p s hs id kind := by
    obtain ⟨old, hold, same, name⟩ := symbols p s hs
    rw [structs, ← name]
    exact h.named p old hold id (same.trans kind)
  unknown p s hs type owner kind := by
    obtain ⟨old, hold, same, -⟩ := symbols p s hs
    obtain ⟨s, hs, kind, foreign⟩ := h.unknown p old hold type owner (same.trans kind)
    obtain ⟨s', hs', kind', foreign'⟩ := retains _ _ s hs
    exact ⟨s', hs', kind'.trans kind, foreign'.trans foreign⟩
  distinct id := structs ▸ h.distinct id
  written id := structs ▸ h.written id

theorem withShell (h : g.Titled table) (scopes : g.scopes.size = table.size)
    (hsite : site.Of table file) (info : Info) (decl : StructDecl)
    (hfree : (g.scope site.id).symbol? decl.name = none) :
    (Survey.withShell g site info decl).Titled table := by
  let added : StructInfo := ⟨decl.name, site.id, info.id, decl.generics, []⟩
  let symbol := site.symbol info decl.name (.struct g.structs.size) site.foreign
  have own : ((Survey.withShell g site info decl).scope site.id).symbol? decl.name = some symbol :=
    @symbol?_withSymbol_self (withStruct g site info decl) symbol
      (scopes ▸ PackageTable.lt_size_of_sourceOf? hsite.source) hfree
  have info_cases (id : StructId) : (g.structs.add added).2.get id = g.structs.get id ∨
      (g.structs.add added).2.get id = added := g.structs.get_add added id
  refine ⟨fun id hid => ?_, fun p s hs id kind => ?_, fun p s hs type owner kind => ?_,
    fun id => ?_, fun id f hf => ?_⟩
  · replace hid : id < (g.structs.add added).2.size := hid
    have hid : id < g.structs.size + 1 := by simpa [StructTable.add, StructTable.size] using hid
    rcases Nat.lt_succ_iff_lt_or_eq.mp hid with hold | rfl
    · have same : (Survey.withShell g site info decl).structs.get id = g.structs.get id :=
        g.structs.get_add_of_lt added hold
      obtain ⟨s, hs, rest⟩ := h.structs id hold
      rw [same]
      exact ⟨s, symbol?_withSymbol (g := withStruct g site info decl) hs, rest⟩
    · have new : (Survey.withShell g site info decl).structs.get g.structs.size = added :=
        g.structs.get_add_size added
      rw [new]
      refine ⟨symbol, own, rfl, fun package hp => ?_⟩
      obtain ⟨isEntry, header, hget, hforeign⟩ := hsite
      rw [show table.get? added.package = _ from hget] at hp
      obtain rfl := Option.some.inj hp
      exact hforeign
  · have size : (g.structs.add added).2.size = g.structs.size + 1 := Array.size_push ..
    show id < (g.structs.add added).2.size ∧ ((g.structs.add added).2.get id).name = s.name
    rw [size]
    rcases mem_withSymbol_cases hs with hs | ⟨-, rfl⟩
    · obtain ⟨inside, name⟩ := h.named p s hs id kind
      rw [g.structs.get_add_of_lt added inside]
      exact ⟨Nat.lt_succ_of_lt inside, name⟩
    · obtain rfl := SymbolKind.struct.inj kind
      rw [g.structs.get_add_size added]
      exact ⟨Nat.lt_succ_self _, rfl⟩
  · rcases mem_withSymbol_cases hs with hs | ⟨-, rfl⟩
    · obtain ⟨s', hs', rest⟩ := h.unknown p s hs type owner kind
      exact ⟨s', symbol?_withSymbol (g := withStruct g site info decl) hs', rest⟩
    · cases kind
  · show (((g.structs.add added).2.get id).fields.map (·.1)).Nodup
    rcases info_cases id with heq | heq <;> rw [heq]
    · exact h.distinct id
    · exact List.nodup_nil
  · replace hf : f ∈ ((g.structs.add added).2.get id).fields := hf
    rcases info_cases id with heq | heq <;> rw [heq] at hf
    · exact h.written id f hf
    · cases hf

theorem withSymbol (h : g.Titled table) (scopes : g.scopes.size = table.size)
    (hsite : site.Of table file) {d : Decl} {symbol : Symbol} (makes : Makes g site d symbol)
    (hfree : (g.scope site.id).symbol? symbol.name = none) :
    (Survey.withSymbol g symbol).Titled table := by
  have hpackage := makes.package
  have lasting {p : PackageId} {name : String} {s : Symbol}
      (hs : (g.scope p).symbol? name = some s) :
      ((Survey.withSymbol g symbol).scope p).symbol? name = some s := symbol?_withSymbol hs
  refine ⟨fun id hid => ?_, fun p s hs id kind => ?_, fun p s hs type owner kind => ?_,
    h.distinct, h.written⟩
  · obtain ⟨s, hs, rest⟩ := h.structs id hid
    exact ⟨s, lasting hs, rest⟩
  · rcases mem_withSymbol_cases hs with hs | ⟨-, rfl⟩
    · exact h.named p s hs id kind
    · cases makes <;> cases kind
  · rcases mem_withSymbol_cases hs with hs | ⟨-, rfl⟩
    · obtain ⟨s', hs', rest⟩ := h.unknown p s hs type owner kind
      exact ⟨s', lasting hs', rest⟩
    · have own : ((Survey.withSymbol g s).scope s.package).symbol? s.name = some s :=
        symbol?_withSymbol_self
          (hpackage ▸ scopes ▸ PackageTable.lt_size_of_sourceOf? hsite.source) (hpackage ▸ hfree)
      cases makes with
      | unknown info name =>
        simp only [Site.symbol, SymbolKind.typedef.injEq, Ty.abstract.injEq,
          Bool.or_eq_false_iff] at kind
        obtain ⟨htype, rfl, foreign, cFile⟩ := kind
        obtain rfl : name = type := by rw [← htype, if_neg (Bool.eq_false_iff.mp cFile)]
        refine ⟨_, own, ?_, foreign⟩
        simp [Site.symbol, foreign, cFile]
      | «alias» info name written found =>
        obtain rfl := SymbolKind.typedef.inj kind
        cases found with
        | param h => cases h
        | «alias» found kind =>
          obtain ⟨q, hq⟩ := Globals.mem_of_lookup found
          obtain ⟨s', hs', rest⟩ := h.unknown q _ hq type owner kind
          exact ⟨s', lasting hs', rest⟩
      | header | function | var => cases kind

theorem setFields (h : g.Titled table) (hsite : site.Of table file) {info : Info}
    {decl : StructDecl} (hd : .struct info decl ∈ file.decls) (id : StructId)
    {fields : List (String × Ty)} (named : FieldsOf decl (g.structs.get id).fields fields) :
    Titled table { g with structs := g.structs.setFields id fields } := by
  have new : (fields.map (·.1)).Nodup ∧ ∀ f ∈ fields, ∃ p file info decl,
      table.sourceOf? p = some file ∧ .struct info decl ∈ file.decls ∧
      f.1 ∈ decl.fields.map (·.name) := by
    rcases named with old | ⟨distinct, named⟩
    · exact ⟨(h.distinct id).sublist (old.map _), fun f hf => h.written id f (old.mem hf)⟩
    · exact ⟨distinct, fun f hf => ⟨site.id, file, info, decl, hsite.source, hd, named f hf⟩⟩
  refine ⟨fun other hother => ?_, fun p s hs other kind => ?_, h.unknown, fun other => ?_,
    fun other f hf => ?_⟩
  · obtain ⟨fields', same⟩ := g.structs.info_setFields id other fields
    rw [same]
    exact h.structs other (g.structs.size_setFields id fields ▸ hother)
  · obtain ⟨fields', same⟩ := g.structs.info_setFields id other fields
    rw [same, g.structs.size_setFields]
    exact h.named p s hs other kind
  · show (((g.structs.setFields id fields).get other).fields.map (·.1)).Nodup
    rcases g.structs.get_setFields id other fields with heq | heq <;> rw [heq]
    · exact h.distinct other
    · exact new.1
  · rcases g.structs.get_setFields id other fields with heq | heq
    · exact h.written other f (heq ▸ hf)
    · exact new.2 f (heq ▸ hf)

end Globals.Titled

def titledLaw (table : PackageTable) : SurveyLaw table where
  Sound s := Diagnostic.Clean s.problems →
    s.globals.scopes.size = table.size ∧ s.globals.Titled table
  resolve step hs hc := by
    have onward := step.later.onward
    obtain ⟨scopes, titled⟩ := hs (hc.of_prefix step.later.problems)
    refine ⟨onward.size.trans scopes, titled.retain onward.structs (fun p name s h => ?_)
      fun p s h => ⟨s, (onward.scopes p).symbols ▸ h, rfl, rfl⟩⟩
    exact ⟨s, (onward.toSettled.symbol? p name).trans h, rfl, rfl⟩
  imports := @fun s site _ _ _ _ f hs _ _ _ _ himported hc => by
    have same (p : PackageId) :
        ((s.globals.modifyScope site.id f).scope p).symbols = (s.globals.scope p).symbols := by
      rcases s.globals.scope_modifyScope site.id p f with heq | ⟨-, heq⟩ <;> rw [heq]
      exact (himported _).symbols
    refine ⟨Array.size_modify.trans (hs hc).1, (hs hc).2.retain rfl
      (fun p name s h => ⟨s, ?_, rfl, rfl⟩) fun p s h => ⟨s, same p ▸ h, rfl, rfl⟩⟩
    rw [Scope.symbol?, same]
    exact h
  struct hs _ hsite _ hfree hc :=
    ⟨Array.size_modify.trans (hs hc).1, (hs hc).2.withShell (hs hc).1 hsite _ _ hfree⟩
  taken _ _ _ _ hc := absurd hc (Diagnostic.not_clean_report _ rfl _)
  symbol hs _ hsite _ makes hfree hc :=
    ⟨Array.size_modify.trans (hs hc).1, (hs hc).2.withSymbol (hs hc).1 hsite makes hfree⟩
  define := @fun s site file info sig body existing params result hs _ _ _ _ _ _ _ _ hc => by
    refine ⟨Array.size_modify.trans (hs hc).1, (hs hc).2.retain rfl (fun p name symbol h => ?_)
      fun p symbol => mem_withDefinition_cases⟩
    rcases symbol?_withDefinition site.id sig.name info h with hsame | ⟨-, hmoved⟩
    · exact ⟨symbol, hsame, rfl, rfl⟩
    · refine ⟨_, hmoved, ?_⟩
      rw [moved]
      split <;> exact ⟨rfl, rfl⟩
  fields hs _ hsite hd _ _ named hc := ⟨(hs hc).1, (hs hc).2.setFields hsite hd _ named⟩

theorem Survey.ofPackages_titled (table : PackageTable) (order : List PackageId)
    (hc : Diagnostic.Clean (ofPackages table order).problems) :
    (ofPackages table order).globals.Titled table := by
  refine ((titledLaw table).ofPackages_sound (fun _ => ⟨Array.size_replicate, nofun, fun p s hs => ?_,
    fun p s hs => ?_, fun id => List.nodup_nil, nofun⟩) (fun _ _ => trivial) hc).2 <;>
  · rw [Globals.scope_ofSize] at hs
    cases hs

theorem Accepted.titled {sources : Sources} {options : Options} {order : List PackageId}
    (h : Accepted sources options order) :
    (sources.resolved options order).1.globals.Titled (sources.table options) := by
  have clean := survey_clean h.holds sources.nodes_apart h.checked
  have settled := resolve_settled h.holds sources.nodes_apart order
    (parse sources.numbered).ids.nodes
  exact (Survey.ofPackages_titled _ order clean).retain settled.structs
    (fun p name s hs => ⟨s, (settled.symbol? p name).trans hs, rfl, rfl⟩)
    fun p s hs => ⟨s, (settled.scopes p).symbols ▸ hs, rfl, rfl⟩

end Quill
