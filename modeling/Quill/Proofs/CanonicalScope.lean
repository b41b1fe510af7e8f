import Quill.Proofs.CanonicalType
import Quill.Proofs.SurveyLaw

/-!
# Canonical declarations

Whatever a package declares has a canonical type, from the first declaration to the last.
-/
namespace Quill

open List

variable {g : Globals}

def SymbolKind.Canonical (is : Instances) : SymbolKind → Prop
  | .struct _ => True
  | .typedef t | .var t _ => t.Canonical is
  | .function ps r => Ty.AllCanonical is ps ∧ r.Canonical is

theorem SymbolKind.Canonical.mono {is is' : Instances} (h : is.Leads is') {k : SymbolKind}
    (hk : k.Canonical is) : k.Canonical is' := by
  cases k with
  | struct => trivial
  | typedef t | var t _ => exact Ty.Canonical.mono h hk
  | function ps r => exact ⟨.mono h hk.1, .mono h hk.2⟩

structure Globals.Canonical (g : Globals) : Prop where
  symbols : ∀ p, ∀ s ∈ (g.scope p).symbols, s.kind.Canonical g.instances
  fields : ∀ id, ∀ f ∈ (g.structs.get id).fields, f.2.Canonical g.instances

theorem Globals.Canonical.mono {g' : Globals} (h : g.Canonical)
    (hsymbols : ∀ p, (g'.scope p).symbols = (g.scope p).symbols) (hstructs : g'.structs = g.structs)
    (hinstances : g.instances.Leads g'.instances) : g'.Canonical where
  symbols p s hs := (h.symbols p s (hsymbols p ▸ hs)).mono hinstances
  fields id f hf := .mono hinstances (h.fields id f (hstructs ▸ hf))

theorem Globals.mem_of_lookupName {observer : PackageId} {name : String} {s : Symbol}
    (h : g.lookupName observer name = .ok (.symbol s)) : ∃ p, s ∈ (g.scope p).symbols := by
  unfold lookupName at h
  dsimp only at h
  split at h
  · rename_i s' hs
    cases h
    exact ⟨observer, mem_of_find?_eq_some hs⟩
  · split at h
    · rename_i origin _
      split at h
      · rename_i s' hs
        cases h
        exact ⟨origin, mem_of_find?_eq_some hs⟩
      · cases h
    · split at h
      · rename_i s' hs
        cases h
        obtain ⟨p, -, hp⟩ := exists_of_findSome?_eq_some hs
        exact ⟨p, mem_of_find?_eq_some hp⟩
      · split at h <;> cases h

theorem Globals.mem_of_lookup {observer : PackageId} {path : List String} {s : Symbol}
    (h : g.lookup observer path = .ok (.symbol s)) : ∃ p, s ∈ (g.scope p).symbols := by
  unfold lookup at h
  split at h
  · exact mem_of_lookupName h
  · split at h
    · cases h
    · rename_i id _
      split at h
      · rename_i s' hs
        cases h
        exact ⟨id, mem_of_find?_eq_some hs⟩
      · cases h
  · cases h

theorem Survey.genericParam?_canonical {params : Option GenericParams} {path : List String} {t : Ty}
    (h : genericParam? params path = some t) (is : Instances) : t.Canonical is := by
  unfold genericParam? at h
  split at h
  · obtain ⟨index, -, rfl⟩ := Option.map_eq_some_iff.mp h
    trivial
  · cases h

theorem Globals.Writes.canonical (hg : g.Canonical) {package : PackageId}
    {params : Option GenericParams} {t : Ty} (h : g.Writes package params t) :
    t.Canonical g.instances := by
  induction h with
  | void | scalar => trivial
  | param h => exact Survey.genericParam?_canonical h _
  | pointer _ ih | mutPointer _ ih | array _ _ ih => exact ih
  | «alias» found kind =>
    obtain ⟨p, hp⟩ := mem_of_lookup found
    have canonical := hg.symbols p _ hp
    rwa [kind] at canonical
  | struct => trivial
  | «instance» found kind _ _ _ noted ih =>
    exact ⟨.of_mem ih, noted.version⟩

theorem StructTable.get_setFields (t : StructTable) (id other : StructId)
    (fields : List (String × Ty)) :
    ((t.setFields id fields).get other).fields = (t.get other).fields ∨
      ((t.setFields id fields).get other).fields = fields := by
  simp only [get, setFields, Array.getElem?_modify]
  split
  · cases t.structs[other]? with
    | none => exact .inl rfl
    | some info => exact .inr rfl
  · exact .inl rfl

theorem StructTable.get_add (t : StructTable) (info : StructInfo) (other : StructId) :
    (t.add info).2.get other = t.get other ∨ (t.add info).2.get other = info := by
  simp only [get, add, Array.getElem?_push]
  split
  · exact .inr rfl
  · exact .inl rfl

theorem Globals.Canonical.withStruct (hg : g.Canonical) {info : StructInfo}
    (hinfo : info.fields = []) :
    Globals.Canonical { g with structs := (g.structs.add info).2 } := by
  refine ⟨hg.symbols, fun id f hf => ?_⟩
  rcases g.structs.get_add info id with heq | heq <;> rw [heq] at hf
  · exact hg.fields id f hf
  · rw [hinfo] at hf
    cases hf

theorem Globals.Canonical.withSymbol (hg : g.Canonical) {symbol : Symbol}
    (h : symbol.kind.Canonical g.instances) : (Survey.withSymbol g symbol).Canonical := by
  refine ⟨fun p s hs => ?_, hg.fields⟩
  rcases g.scope_modifyScope symbol.package p _ with heq | ⟨-, heq⟩ <;>
    rw [Survey.withSymbol, heq] at hs
  · exact hg.symbols p s hs
  · rcases mem_append.mp hs with hs | hs
    · exact hg.symbols p s hs
    · rw [mem_singleton.mp hs]
      exact h

theorem Globals.Canonical.withDefinition (hg : g.Canonical) (package : PackageId) (name : String)
    (info : Info) : (Survey.withDefinition g package name info).Canonical := by
  refine ⟨fun p s hs => ?_, hg.fields⟩
  rcases g.scope_modifyScope package p _ with heq | ⟨-, heq⟩ <;>
    rw [Survey.withDefinition, heq] at hs
  · exact hg.symbols p s hs
  · obtain ⟨s', hs', rfl⟩ := mem_map.mp hs
    rw [Survey.moved]
    split
    · exact hg.symbols p s' hs'
    · exact hg.symbols p s' hs'

theorem Survey.Makes.canonical (hg : g.Canonical) {site : Site} {d : Decl} {symbol : Symbol}
    (h : Makes g site d symbol) : symbol.kind.Canonical g.instances := by
  cases h with
  | unknown => trivial
  | «alias» _ _ _ written | var _ _ written => exact written.canonical hg
  | header _ _ _ written | function _ _ _ _ written =>
    exact ⟨.of_mem fun t ht => (written t (mem_cons_of_mem _ ht)).canonical hg,
      (written _ mem_cons_self).canonical hg⟩

def canonicalLaw (table : PackageTable) : SurveyLaw table where
  Sound s := s.globals.Canonical ∧ Instances.Leads {} s.globals.instances
  resolve step hs := by
    have onward := step.later.onward
    exact ⟨hs.1.mono (fun p => (onward.scopes p).symbols) onward.structs onward.leads,
      hs.2.trans onward.leads⟩
  imports := @fun s site _ _ _ _ f hs _ _ _ _ himported => by
    refine ⟨hs.1.mono (fun p => ?_) rfl .refl, hs.2⟩
    rcases s.globals.scope_modifyScope site.id p f with heq | ⟨-, heq⟩
    · exact congrArg Scope.symbols heq
    · exact (congrArg Scope.symbols heq).trans (himported _).symbols
  struct hs _ _ _ _ := ⟨(hs.1.withStruct rfl).withSymbol trivial, hs.2⟩
  taken hs _ _ _ := ⟨hs.1.withStruct rfl, hs.2⟩
  symbol hs _ _ _ makes _ := ⟨hs.1.withSymbol (makes.canonical hs.1), hs.2⟩
  define hs _ _ _ _ _ _ _ _ := ⟨hs.1.withDefinition .., hs.2⟩
  fields := @fun s _ _ _ _ id fields hs _ _ _ _ hfields _ => by
    refine ⟨⟨hs.1.symbols, fun other f hf => ?_⟩, hs.2⟩
    rcases s.globals.structs.get_setFields id other fields with heq | heq <;> rw [heq] at hf
    · exact hs.1.fields other f hf
    · rcases hfields f hf with written | old
      · exact written.canonical hs.1
      · exact hs.1.fields id f old

theorem Survey.ofPackages_canonical (table : PackageTable) (order : List PackageId) :
    (ofPackages table order).globals.Canonical ∧
      Instances.Leads {} (ofPackages table order).globals.instances := by
  refine (canonicalLaw table).ofPackages_sound ⟨⟨fun p s hs => ?_, nofun⟩, .refl⟩ fun _ _ => trivial
  simp only [Globals.scope, Globals.ofSize, Array.getElem?_replicate] at hs
  split at hs <;> cases hs

end Quill
