import Quill.Proofs.Declared

/-!
# Laws of declaring

A law says which states are sound and that each step of declaring leads to sound states again.
-/
namespace Quill

open Survey

structure SurveyLaw (table : PackageTable) where
  Sound : Survey → Prop
  Visits : PackageId → Prop := fun _ => True
  resolve : ∀ {package : PackageId} {s s' : Survey}, Step package s s' → Sound s → Sound s'
  imports : ∀ {s : Survey} {site : Site} {file : File} {info : Info} {decl : Import}
    {target : PackageId} {f : Scope → Scope}, Sound s → Visits site.id → site.Of table file →
    .imports info decl ∈ file.decls →
    table.lookup (site.path.importTarget decl.kind decl.segments) = some target →
    (∀ scope, Imported target scope (f scope)) →
    Sound { s with globals := s.globals.modifyScope site.id f }
  struct : ∀ {s : Survey} {site : Site} {file : File} {info : Info} {decl : StructDecl}, Sound s →
    Visits site.id → site.Of table file → .struct info decl ∈ file.decls →
    (s.globals.scope site.id).symbol? decl.name = none →
    Sound { s with globals := withShell s.globals site info decl }
  taken : ∀ {s : Survey} {site : Site} {file : File} {info : Info} {decl : StructDecl}, Sound s →
    Visits site.id → site.Of table file → .struct info decl ∈ file.decls →
    Sound (Survey.report (.name (.redeclaredInPackage decl.name)) info.span
      { s with globals := withStruct s.globals site info decl }).2
  symbol : ∀ {s : Survey} {site : Site} {file : File} {d : Decl} {symbol : Symbol}, Sound s →
    Visits site.id → site.Of table file → d ∈ file.decls → Makes s.globals site d symbol →
    (s.globals.scope site.id).symbol? symbol.name = none →
    Sound { s with globals := withSymbol s.globals symbol }
  define : ∀ {s : Survey} {site : Site} {file : File} {info : Info} {sig : Signature} {body : Block}
    {existing : Symbol} {params : List Ty} {result : Ty}, Sound s → Visits site.id →
    site.Of table file → .function info sig body ∈ file.decls →
    (s.globals.scope site.id).symbol? sig.name = some existing →
    isHeader file existing.node = true →
    existing.kind = .function params result → params.length = sig.params.length →
    (∀ t ∈ result :: params, s.globals.Writes site.id none t) →
    Sound { s with globals := withDefinition s.globals site.id sig.name info }
  fields : ∀ {s : Survey} {site : Site} {file : File} {info : Info} {decl : StructDecl}
    {id : StructId} {fields : List (String × Ty)}, Sound s → Visits site.id → site.Of table file →
    .struct info decl ∈ file.decls →
    ownStruct? s.globals site.id info.id decl.name = some id →
    (∀ f ∈ fields, s.globals.Writes site.id (some ⟨info.id, decl.generics⟩) f.2 ∨
      f ∈ (s.globals.structs.get id).fields) →
    FieldsOf decl (s.globals.structs.get id).fields fields →
    Sound { s with globals := { s.globals with structs := s.globals.structs.setFields id fields } }

namespace SurveyLaw

variable {table : PackageTable} (L : SurveyLaw table)

theorem step {site : Site} {file : File} (hsite : site.Of table file) (hvisit : L.Visits site.id)
    {s s' : Survey} (h : Declaring table site file s s') (hs : L.Sound s) : L.Sound s' := by
  cases h with
  | resolve step => exact L.resolve step hs
  | imports hd htarget imported => exact L.imports hs hvisit hsite hd htarget imported
  | struct hd free => exact L.struct hs hvisit hsite hd free
  | taken hd => exact L.taken hs hvisit hsite hd
  | symbol hd makes free => exact L.symbol hs hvisit hsite hd makes free
  | define hd found header kind arity written =>
    exact L.define hs hvisit hsite hd found header kind arity written
  | fields hd own written named => exact L.fields hs hvisit hsite hd own written named

theorem declarePackage_sound {id : PackageId} (hvisit : L.Visits id) {s : Survey}
    (hs : L.Sound s) : L.Sound (declarePackage table id s).2 := by
  cases source : table.sourceOf? id with
  | none =>
    rw [declarePackage_of_none source]
    exact hs
  | some file =>
    obtain ⟨site, rfl, hsite⟩ := Site.Of.exists_of_source source
    have steps := (declarePackage_proceeds hsite s trivial).1
    generalize (declarePackage table site.id s).2 = s' at steps
    induction steps with
    | refl => exact hs
    | tail _ h ih => exact L.step hsite hvisit h ih

theorem ofPackages_sound (h : L.Sound { globals := .ofSize table.size })
    {order : List PackageId} (hvisit : ∀ id ∈ order, L.Visits id) :
    L.Sound (ofPackages table order) := by
  have sound {s : Survey} (hs : L.Sound s) : L.Sound (order.forM (declarePackage table) s).2 := by
    induction order generalizing s with
    | nil => exact hs
    | cons id order ih =>
      rw [List.forall_mem_cons] at hvisit
      exact ih hvisit.2 (L.declarePackage_sound hvisit.1 hs)
  exact sound h

end SurveyLaw
end Quill
