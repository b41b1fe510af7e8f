import Quill.Proofs.CanonicalScope

/-!
# Where symbols come from

Every symbol of a package is made for one of its declarations.
-/
namespace Quill

variable {d : Decl} {g : Globals} {site : Site} {s : Symbol}

/-- The symbol has the shape that the declaration gives it, in a package that is `foreign` or not. -/
def Symbol.Fits (s : Symbol) (foreign : Bool) : Decl → Prop
  | .struct _ _ => ∃ id, s.kind = .struct id
  | .typedef _ _ _ => ∃ t, s.kind = .typedef t
  | .header _ sig | .function _ sig _ =>
    ∃ params result, s.kind = .function params result ∧ params.length = sig.params.length
  | .var info decl => (∃ t, s.kind = .var t decl.mutable) ∧
      s.foreign = (foreign || Directive.present info.directives .external)
  | .separator _ | .package _ _ | .imports _ _ => False

structure Symbol.MadeFor (s : Symbol) (foreign : Bool) (d : Decl) : Prop where
  node : s.node = d.id
  name : d.name? = some s.name
  fits : s.Fits foreign d

/-- Whether what is declared is said to be defined in C code. -/
def Decl.external : Decl → Bool
  | .header info _ | .function info _ _ | .var info _ =>
    Directive.present info.directives .external
  | _ => false

/-- Every symbol belongs to a declaration of its package, and one of the same name says whether it
is foreign. -/
def Globals.Sourced (table : PackageTable) (g : Globals) : Prop :=
  ∀ p name s, (g.scope p).symbol? name = some s → s.package = p ∧
    ∃ path file isEntry header, table.get? p = some ⟨path, some file, isEntry, header⟩ ∧
      (∃ d ∈ file.decls, s.MadeFor header.isSome d) ∧
      ∃ d ∈ file.decls, d.name? = some s.name ∧ s.foreign = (header.isSome || d.external)

theorem Globals.Sourced.settled {table : PackageTable} {g' : Globals} (h : g.Sourced table)
    (hg : g.Settled g') : g'.Sourced table := fun p name s hs =>
  h p name s ((hg.symbol? p name).symm.trans hs)

namespace Survey

theorem Makes.madeFor (h : Makes g site d s) :
    s.MadeFor site.foreign d ∧ s.foreign = (site.foreign || d.external) := by
  cases h with
  | unknown | «alias» => exact ⟨⟨rfl, rfl, _, rfl⟩, (Bool.or_false _).symm⟩
  | header _ _ arity | function _ _ _ arity => exact ⟨⟨rfl, rfl, _, _, rfl, arity⟩, rfl⟩
  | var => exact ⟨⟨rfl, rfl, ⟨_, rfl⟩, rfl⟩, rfl⟩

theorem Makes.package (h : Makes g site d s) : s.package = site.id := by
  cases h <;> rfl

theorem symbol?_withSymbol_cases {symbol : Symbol} {p : PackageId} {name : String}
    (h : ((withSymbol g symbol).scope p).symbol? name = some s) :
    (g.scope p).symbol? name = some s ∨ p = symbol.package ∧ s = symbol := by
  rcases g.scope_modifyScope symbol.package p _ with heq | ⟨hp, heq⟩ <;>
    rw [withSymbol, heq] at h
  · exact .inl h
  · rw [Scope.symbol?, List.find?_append, Option.or_eq_some_iff] at h
    rcases h with h | ⟨-, h⟩
    · exact .inl h
    · exact .inr ⟨hp, List.mem_singleton.mp (List.mem_of_find?_eq_some h)⟩

theorem symbol?_withDefinition_cases {package p : PackageId} {name other : String} {info : Info}
    (h : ((withDefinition g package name info).scope p).symbol? other = some s) :
    ∃ old, (g.scope p).symbol? other = some old ∧
      (s = old ∨ p = package ∧ other = name ∧ s = { old with node := info.id, span := info.span }) := by
  cases hold : (g.scope p).symbol? other with
  | none =>
    rcases g.scope_modifyScope package p _ with heq | ⟨hp, heq⟩ <;>
      rw [withDefinition, heq] at h
    · rw [hold] at h
      cases h
    · rw [Scope.symbol?, List.find?_map, Option.map_eq_some_iff] at h
      obtain ⟨a, ha, -⟩ := h
      have named : a.name == other := by
        have := List.find?_some ha
        simp only [Function.comp, moved] at this
        split at this <;> exact this
      have hnone := List.find?_eq_none.mp hold a (List.mem_of_find?_eq_some ha)
      exact absurd named hnone
  | some old =>
    refine ⟨old, rfl, ?_⟩
    rcases symbol?_withDefinition package name info hold with heq | ⟨hp, heq⟩ <;>
      rw [heq] at h
    · exact .inl (Option.some.inj h).symm
    · obtain rfl := Option.some.inj h
      rw [moved]
      split
      · rename_i hname
        exact .inr ⟨hp, (Scope.name_of_symbol? hold).symm.trans (beq_iff_eq.mp hname), rfl⟩
      · exact .inl rfl

end Survey

open Survey

theorem Globals.Sourced.withSymbol {table : PackageTable} (hg : g.Sourced table) {file : File}
    (hsite : site.Of table file) (hd : d ∈ file.decls) {symbol : Symbol}
    (made : symbol.MadeFor site.foreign d ∧ symbol.foreign = (site.foreign || d.external))
    (hpackage : symbol.package = site.id) : (Survey.withSymbol g symbol).Sourced table := by
  intro p name found hfound
  rcases symbol?_withSymbol_cases hfound with h | ⟨rfl, rfl⟩
  · exact hg p name found h
  · obtain ⟨isEntry, header, hget, hforeign⟩ := hsite
    rw [hforeign] at made
    rw [hpackage]
    exact ⟨rfl, site.path, file, isEntry, header, hget, ⟨d, hd, made.1⟩, d, hd, made.1.name, made.2⟩

def sourcedLaw (table : PackageTable) : SurveyLaw table where
  Sound s := s.globals.Sourced table
  resolve step hs p name s hfound :=
    hs p name s (step.later.onward.toSettled.symbol? p name ▸ hfound)
  imports := @fun s site _ _ _ _ f hs _ _ _ _ himported p name symbol hfound => by
    refine hs p name symbol ?_
    have same : ((s.globals.modifyScope site.id f).scope p).symbols = (s.globals.scope p).symbols := by
      rcases s.globals.scope_modifyScope site.id p f with heq | ⟨-, heq⟩
      · exact congrArg Scope.symbols heq
      · exact (congrArg Scope.symbols heq).trans (himported _).symbols
    rwa [Scope.symbol?, same] at hfound
  struct hs _ hsite hd _ :=
    hs.withSymbol hsite hd ⟨⟨rfl, rfl, _, rfl⟩, (Bool.or_false _).symm⟩ rfl
  taken hs _ _ _ := hs
  symbol hs _ hsite hd makes _ := hs.withSymbol hsite hd makes.madeFor makes.package
  define := @fun s site file info sig body existing params result hs _ hsite hd hexisting _ hkind
      harity _ p name found hfound => by
    obtain ⟨old, hold, rfl | ⟨rfl, rfl, rfl⟩⟩ := symbol?_withDefinition_cases hfound
    · exact hs p name _ hold
    · obtain rfl : existing = old := Option.some.inj (hexisting.symm.trans hold)
      obtain ⟨hpackage, path, file', isEntry, header, hget, -, saying⟩ := hs _ _ _ hold
      obtain ⟨isEntry', header', hget', -⟩ := hsite
      rw [hget'] at hget
      cases hget
      exact ⟨hpackage, site.path, file, isEntry, header, hget', ⟨.function info sig body, hd, rfl,
        congrArg some (Scope.name_of_symbol? hold).symm, params, result, hkind, harity⟩, saying⟩
  fields hs _ _ _ _ _ _ := hs

theorem Survey.ofPackages_sourced (table : PackageTable) (order : List PackageId) :
    (ofPackages table order).globals.Sourced table := by
  refine (sourcedLaw table).ofPackages_sound (fun p name s hs => ?_) fun _ _ => trivial
  rw [Globals.scope_ofSize] at hs
  cases hs

end Quill
