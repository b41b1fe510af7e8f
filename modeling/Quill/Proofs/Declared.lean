import Mathlib.Data.List.Nodup
import Quill.Proofs.PackageSource
import Quill.Scope.Declare

/-!
# Declared packages

If declaring the packages finds no error, every declaration has a symbol of its kind in its package.
-/
namespace Quill

open List Diagnostic Directive Decl Option

variable {d : Decl} {file file' : File} {g : Globals} {id p package : PackageId} {name : String}
  {s' : Survey} {s symbol : Symbol}

theorem Decl.id_mem_ids (d : Decl) : d.id ∈ d.ids .node := by
  cases d <;> simp [ids, id, info, Info.nodeIds]

theorem File.decls_apart (h : (file.declIds .node).Nodup) {d' : Decl} (hd : d ∈ file.decls)
    (hd' : d' ∈ file.decls) (hne : d ≠ d') : (d.ids .node).Disjoint (d'.ids .node) := by
  have : Std.Symm (Function.onFun List.Disjoint (Decl.ids .node)) :=
    ⟨fun _ _ h _ hi hi' => h hi' hi⟩
  exact (nodup_flatMap.mp h).2.forall hd hd' hne

theorem PackageTable.Holds.decl_eq {table : PackageTable} {files : List File}
    (holds : table.Holds files) (nodup : ∀ f ∈ files, (f.declIds .node).Nodup) {p' : PackageId}
    {d' : Decl} (source : table.sourceOf? p = some file) (hd : d ∈ file.decls)
    (source' : table.sourceOf? p' = some file') (hd' : d' ∈ file'.decls) {i : Nat}
    (hi : i ∈ d.ids .node) (hi' : i ∈ d'.ids .node) : p = p' ∧ d = d' := by
  by_cases hp : p = p'
  · subst hp
    obtain rfl : file = file' := some.inj (source.symm.trans source')
    refine ⟨rfl, ?_⟩
    by_contra hne
    exact File.decls_apart (nodup file (holds.among p file source)) hd hd' hne hi hi'
  · have apart := holds.apart p p' file file' source source' hp
    exact absurd (mem_flatMap.mpr ⟨d', hd', hi'⟩)
      (fun h => apart (mem_flatMap.mpr ⟨d, hd, hi⟩) h)

/-- The name under which a declaration is known in its package. -/
def Decl.name? : Decl → Option String
  | .struct _ decl => some decl.name
  | .typedef _ name _ => some name
  | .header _ sig | .function _ sig _ => some sig.name
  | .var _ decl => some decl.name
  | .separator _ | .package _ _ | .imports _ _ => none

/-- The symbol is the one of the declaration; a header may have left its own to a definition. -/
def Symbol.StandsFor (s : Symbol) : Decl → Prop
  | .struct info _ => s.node = info.id ∧ ∃ id, s.kind = .struct id
  | .typedef info _ _ => s.node = info.id ∧ ∃ type, s.kind = .typedef type
  | .function info _ _ => s.node = info.id ∧ ∃ params result, s.kind = .function params result
  | .header _ _ => ∃ params result, s.kind = .function params result
  | .var info _ => s.node = info.id ∧ ∃ type mutable, s.kind = .var type mutable
  | .separator _ | .package _ _ | .imports _ _ => True

theorem Scope.name_of_symbol? {scope : Scope} (h : scope.symbol? name = some s) : s.name = name :=
  beq_iff_eq.mp (find?_some (p := fun x : Symbol => x.name == name) h)

def Globals.Declares (g : Globals) (package : PackageId) (d : Decl) : Prop :=
  ∀ name, d.name? = some name → ∃ s, (g.scope package).symbol? name = some s ∧ s.StandsFor d

theorem Globals.Declares.of_symbol? {g' : Globals} (h : g.Declares package d)
    (hs : ∀ name s, (g.scope package).symbol? name = some s →
      (g'.scope package).symbol? name = some s) : g'.Declares package d := by
  intro name hname
  obtain ⟨s, hfound, hs'⟩ := h name hname
  exact ⟨s, hs name s hfound, hs'⟩

def Decl.isShell : Decl → Bool
  | .struct _ _ | .typedef _ _ none => true
  | _ => false

def Decl.isAlias : Decl → Bool
  | .typedef _ _ (some _) => true
  | _ => false

def Decl.isValue : Decl → Bool
  | .header _ _ | .function _ _ _ | .var _ _ => true
  | _ => false

namespace Survey

def withSymbol (g : Globals) (symbol : Symbol) : Globals :=
  g.modifyScope symbol.package fun scope => { scope with symbols := scope.symbols ++ [symbol] }

/-- A symbol, at another node if it is the one of this name. -/
def moved (name : String) (info : Info) (symbol : Symbol) : Symbol :=
  if symbol.name == name then { symbol with node := info.id, span := info.span } else symbol

/-- The globals with the symbol of a function at another node. -/
def withDefinition (g : Globals) (package : PackageId) (name : String) (info : Info) : Globals :=
  g.modifyScope package fun scope => { scope with symbols := scope.symbols.map (moved name info) }

/-- The declarations in `file` are gone through as those of `site`. -/
def Site.Of (table : PackageTable) (site : Site) (file : File) : Prop :=
  ∃ isEntry header, table.get? site.id = some ⟨site.path, some file, isEntry, header⟩ ∧
    site.foreign = header.isSome

def withStruct (g : Globals) (site : Site) (info : Info) (decl : StructDecl) : Globals :=
  { g with structs := (g.structs.add ⟨decl.name, site.id, info.id, decl.generics, []⟩).2 }

def withShell (g : Globals) (site : Site) (info : Info) (decl : StructDecl) : Globals :=
  withSymbol (withStruct g site info decl)
    (site.symbol info decl.name (.struct g.structs.size) site.foreign)

inductive Imported (target : PackageId) : Scope → Scope → Prop
  | whole (scope : Scope) :
    Imported target scope { scope with wildcards := scope.wildcards ++ [target] }
  | package (scope : Scope) (leaf : String) :
    Imported target scope { scope with packages := rebind scope.packages leaf target }
  | name (scope : Scope) (name : String) :
    Imported target scope { scope with names := rebind scope.names name target }

/-- The symbol is made for the declaration, of anything but a struct. -/
inductive Makes (g : Globals) (site : Site) : Decl → Symbol → Prop
  | unknown (info : Info) (name : String) :
    Makes g site (.typedef info name none) (site.symbol info name
      (.typedef (.abstract (if present info.directives .cFile then "FILE" else name)
        site.id (site.foreign || present info.directives .cFile))) site.foreign)
  | alias (info : Info) (name : String) (type : TypeExpr) {t : Ty}
    (written : g.Writes site.id none t) :
    Makes g site (.typedef info name (some type))
      (site.symbol info name (.typedef t) site.foreign)
  | header (info : Info) (sig : Signature) {params : List Ty} {result : Ty}
    (arity : params.length = sig.params.length)
    (written : ∀ t ∈ result :: params, g.Writes site.id none t) :
    Makes g site (.header info sig) (site.symbol info sig.name (.function params result)
      (site.foreign || present info.directives .external))
  | function (info : Info) (sig : Signature) (body : Block) {params : List Ty} {result : Ty}
    (arity : params.length = sig.params.length)
    (written : ∀ t ∈ result :: params, g.Writes site.id none t) :
    Makes g site (.function info sig body) (site.symbol info sig.name (.function params result)
      (site.foreign || present info.directives .external))
  | var (info : Info) (decl : VarDecl) {t : Ty} (written : g.Writes site.id none t) :
    Makes g site (.var info decl) (site.symbol info decl.name (.var t decl.mutable)
      (site.foreign || present info.directives .external))

/-- The fields are named by different fields of the declaration, or some of those before. -/
def FieldsOf (decl : StructDecl) (old fields : List (String × Ty)) : Prop :=
  fields.Sublist old ∨
    (fields.map (·.1)).Nodup ∧ ∀ f ∈ fields, f.1 ∈ decl.fields.map (·.name)

/-- What declaring a package may do, and what is known of the declaration it is done for. -/
inductive Declaring (table : PackageTable) (site : Site) (file : File) : Survey → Survey → Prop
  | resolve {s s' : Survey} (step : Step site.id s s') : Declaring table site file s s'
  | imports (s : Survey) {info : Info} {decl : Import} {target : PackageId} {f : Scope → Scope}
      (hd : .imports info decl ∈ file.decls)
      (htarget : table.lookup (site.path.importTarget decl.kind decl.segments) = some target)
      (imported : ∀ scope, Imported target scope (f scope)) :
      Declaring table site file s { s with globals := s.globals.modifyScope site.id f }
  | struct (s : Survey) {info : Info} {decl : StructDecl} (hd : .struct info decl ∈ file.decls)
      (free : (s.globals.scope site.id).symbol? decl.name = none) :
      Declaring table site file s { s with globals := withShell s.globals site info decl }
  /-- A struct whose name is taken gets no symbol. -/
  | taken (s : Survey) {info : Info} {decl : StructDecl} (hd : .struct info decl ∈ file.decls) :
      Declaring table site file s
        (report (.name (.redeclaredInPackage decl.name)) info.span
          { s with globals := withStruct s.globals site info decl }).2
  | symbol (s : Survey) {d : Decl} {symbol : Symbol} (hd : d ∈ file.decls)
      (makes : Makes s.globals site d symbol)
      (free : (s.globals.scope site.id).symbol? symbol.name = none) :
      Declaring table site file s { s with globals := withSymbol s.globals symbol }
  /-- A definition takes over the symbol that stands for a header of the same type. -/
  | define (s : Survey) {info : Info} {sig : Signature} {body : Block} {existing : Symbol}
      {params : List Ty} {result : Ty} (hd : .function info sig body ∈ file.decls)
      (found : (s.globals.scope site.id).symbol? sig.name = some existing)
      (header : isHeader file existing.node = true) (kind : existing.kind = .function params result)
      (arity : params.length = sig.params.length)
      (written : ∀ t ∈ result :: params, s.globals.Writes site.id none t) :
      Declaring table site file s
        { s with globals := withDefinition s.globals site.id sig.name info }
  | fields (s : Survey) {info : Info} {decl : StructDecl} {id : StructId}
      {fields : List (String × Ty)} (hd : .struct info decl ∈ file.decls)
      (own : ownStruct? s.globals site.id info.id decl.name = some id)
      (written : ∀ f ∈ fields, s.globals.Writes site.id (some ⟨info.id, decl.generics⟩) f.2 ∨
        f ∈ (s.globals.structs.get id).fields)
      (named : FieldsOf decl (s.globals.structs.get id).fields fields) :
      Declaring table site file s
        { s with globals := { s.globals with structs := s.globals.structs.setFields id fields } }

theorem symbol?_withSymbol (h : (g.scope p).symbol? name = some s) :
    ((withSymbol g symbol).scope p).symbol? name = some s := by
  rcases g.scope_modifyScope symbol.package p _ with heq | ⟨-, heq⟩ <;> rw [withSymbol, heq]
  · exact h
  · exact find?_append.trans (by rw [← Scope.symbol?, h]; rfl)

theorem symbol?_withSymbol_self (hscope : symbol.package < g.scopes.size)
    (free : (g.scope symbol.package).symbol? symbol.name = none) :
    ((withSymbol g symbol).scope symbol.package).symbol? symbol.name = some symbol := by
  rw [withSymbol, Globals.scope_modifyScope_self hscope, Scope.symbol?, find?_append,
    ← Scope.symbol?, free]
  simp

theorem find?_map_moved {symbols : List Symbol} {other : String}
    (h : symbols.find? (·.name == other) = some s) (name : String) (info : Info) :
    (symbols.map (moved name info)).find? (·.name == other) = some (moved name info s) := by
  have hname : (fun x : Symbol => x.name == other) ∘ moved name info =
      fun x : Symbol => x.name == other := by
    funext symbol
    simp only [Function.comp, moved]
    split <;> rfl
  rw [find?_map, hname, h]
  rfl

theorem symbol?_withDefinition (package : PackageId) (name : String) (info : Info) {other : String}
    (h : (g.scope p).symbol? other = some s) :
    ((withDefinition g package name info).scope p).symbol? other = some s ∨
      p = package ∧ ((withDefinition g package name info).scope p).symbol? other =
        some (moved name info s) := by
  rcases g.scope_modifyScope package p _ with heq | ⟨hp, heq⟩ <;> rw [withDefinition, heq]
  · exact .inl h
  · exact .inr ⟨hp, find?_map_moved h name info⟩

theorem symbol?_withDefinition_self (h : (g.scope package).symbol? name = some s)
    (hsize : package < g.scopes.size) (info : Info) :
    ((withDefinition g package name info).scope package).symbol? name =
      some { s with node := info.id, span := info.span } := by
  rw [withDefinition, Globals.scope_modifyScope_self hsize, Scope.symbol?,
    find?_map_moved h name info, moved, Scope.name_of_symbol? h, if_pos (beq_self_eq_true name)]

theorem exists_header {node : Nat} (h : isHeader file node = true) :
    ∃ info sig, .header info sig ∈ file.decls ∧ info.id = node := by
  obtain ⟨d, hd, hnode⟩ := any_eq_true.mp h
  split at hnode
  · rename_i info sig
    exact ⟨info, sig, hd, beq_iff_eq.mp hnode⟩
  · cases hnode

theorem Imported.symbols {target : PackageId} {scope scope' : Scope}
    (h : Imported target scope scope') : scope'.symbols = scope.symbols := by
  cases h <;> rfl

theorem Site.Of.source {table : PackageTable} {site : Site} (h : site.Of table file) :
    table.sourceOf? site.id = some file := by
  obtain ⟨isEntry, header, hget, -⟩ := h
  rw [PackageTable.sourceOf?, hget]
  rfl

namespace Declaring

variable {table : PackageTable} {site : Site} {file : File} {s s' : Survey}

section

variable (h : Declaring table site file s s')

include h

theorem declares (hsite : site.Of table file) (source : table.sourceOf? package = some file')
    (hnodup : (file'.declIds .node).Nodup) (hd : d ∈ file'.decls)
    (declared : s.globals.Declares package d) : s'.globals.Declares package d := by
  cases h with
  | resolve step =>
    exact declared.of_symbol? fun name sym hsym =>
      (step.later.onward.toSettled.symbol? package name).trans hsym
  | @imports info decl target f _ _ imported =>
    refine declared.of_symbol? fun name sym hsym => ?_
    rcases s.globals.scope_modifyScope site.id package f with heq | ⟨-, heq⟩
    · rwa [heq]
    · rwa [heq, Scope.symbol?, (imported _).symbols]
  | struct | symbol => exact declared.of_symbol? fun name sym hsym => symbol?_withSymbol hsym
  | taken | fields => exact declared
  | @define info sig body existing params result _ found header kind _ _ =>
    intro own hown
    obtain ⟨sym, hsym, hstands⟩ := declared own hown
    rcases symbol?_withDefinition site.id sig.name info hsym with hsame | ⟨rfl, hmoved⟩
    · exact ⟨sym, hsame, hstands⟩
    refine ⟨_, hmoved, ?_⟩
    rw [moved]
    split
    swap
    · exact hstands
    -- The symbol that moves is one of a header, so it is not that of a definition in the file.
    rename_i hname
    obtain rfl : own = sig.name := (Scope.name_of_symbol? hsym).symm.trans (beq_iff_eq.mp hname)
    obtain rfl : sym = existing := some.inj (hsym.symm.trans found)
    obtain rfl : file' = file := some.inj (source.symm.trans hsite.source)
    cases d with
    | header => exact hstands
    | function info' sig' body' =>
      obtain ⟨info'', sig'', hmem, hid⟩ := exists_header header
      refine absurd (File.decls_apart hnodup hd hmem (by simp)) fun hdisjoint => ?_
      refine hdisjoint (id_mem_ids _) ?_
      have hsame : Decl.id (.header info'' sig'') = Decl.id (.function info' sig' body') :=
        hid.trans hstands.1
      exact hsame ▸ id_mem_ids _
    | struct =>
      obtain ⟨-, id, hkind⟩ := hstands
      simp [hkind] at kind
    | typedef =>
      obtain ⟨-, type, hkind⟩ := hstands
      simp [hkind] at kind
    | var =>
      obtain ⟨-, type, mutable, hkind⟩ := hstands
      simp [hkind] at kind
    | separator | package | imports => trivial

theorem size : s'.globals.scopes.size = s.globals.scopes.size := by
  cases h with
  | resolve step => exact step.later.onward.size
  | taken | fields => rfl
  | _ => exact Array.size_modify

theorem clean (hc : Clean s'.problems) : Clean s.problems := by
  cases h with
  | resolve step => exact hc.of_prefix step.later.problems
  | taken => exact absurd hc (not_clean_report s.problems rfl _)
  | _ => exact hc

end

end Declaring

/-- Unless there is an error, a declaration of a package with a scope has its symbol. -/
def Knows (package : PackageId) (d : Decl) (s : Survey) : Prop :=
  Clean s.problems → package < s.globals.scopes.size → s.globals.Declares package d

variable {table : PackageTable} {site : Site} {file : File} {pre : Survey → Prop} {d : Decl}

theorem Knows.of_declaring {s : Survey} (h : Declaring table site file s s')
    (hsite : site.Of table file) (source : table.sourceOf? package = some file')
    (hnodup : (file'.declIds .node).Nodup) (hd : d ∈ file'.decls) (known : Knows package d s) :
    Knows package d s' :=
  fun hc hsize => h.declares hsite source hnodup hd (known (h.clean hc) (h.size ▸ hsize))

theorem Knows.of_report (s : Survey) {problem : Problem} (error : problem.isError = true)
    (span : Span) : Knows package d { s with problems := s.problems ++ [⟨problem, span⟩] } :=
  fun hc => absurd hc (not_clean_report s.problems error span)

theorem Knows.of_symbol {s : Survey} (hname : d.name? = some name)
    (h : package < s.globals.scopes.size → (s.globals.scope package).symbol? name = some symbol)
    (stands : symbol.StandsFor d) : Knows package d s := by
  intro _ hsize own hown
  obtain rfl : name = own := some.inj (hname.symm.trans hown)
  exact ⟨symbol, h hsize, stands⟩

theorem Makes.stands (h : Makes g site d symbol) :
    symbol.package = site.id ∧ d.name? = some symbol.name ∧ symbol.StandsFor d := by
  cases h with
  | unknown | «alias» => exact ⟨rfl, rfl, rfl, _, rfl⟩
  | header => exact ⟨rfl, rfl, _, _, rfl⟩
  | function | var => exact ⟨rfl, rfl, rfl, _, _, rfl⟩

theorem declare_eq (symbol : Symbol) (s : Survey) :
    declare symbol s =
      if ((s.globals.scope symbol.package).symbol? symbol.name).isSome then
        report (.name (.redeclaredInPackage symbol.name)) symbol.span s
      else ((), { s with globals := withSymbol s.globals symbol }) := by
  show (if _ then _ else _ : StateM Survey Unit) s = _
  split <;> rfl

theorem declare_proceeds (hd : d ∈ file.decls) :
    Proceeds (Declaring table site file) (fun s => Makes s.globals site d symbol) (declare symbol)
      fun _ => Knows site.id d := by
  intro s makes
  obtain ⟨package, hname, stands⟩ := makes.stands
  rw [declare_eq]
  split
  · exact ⟨.single (.resolve (.report s rfl _)), .of_report s rfl _⟩
  · rename_i hfree
    have free : (s.globals.scope symbol.package).symbol? symbol.name = none := by simpa using hfree
    refine ⟨.single (.symbol s hd makes (package ▸ free)),
      .of_symbol hname (fun hsize => ?_) stands⟩
    have hscope : symbol.package < s.globals.scopes.size := by
      rw [package]
      exact lt_of_lt_of_eq hsize Array.size_modify
    exact package ▸ symbol?_withSymbol_self hscope free

theorem declareImport_proceeds (hd : d ∈ file.decls) :
    Proceeds (Declaring table site file) (fun _ => True) (declareImport table site d)
      fun _ _ => True := by
  cases d with
  | imports info decl =>
    rw [declareImport]
    split
    · rename_i target htarget
      have noted {f : Scope → Scope} (imported : ∀ scope, Imported target scope (f scope)) :
          Proceeds (Declaring table site file) (fun _ => True)
            (modify fun s => { s with globals := s.globals.modifyScope site.id f })
            fun _ _ => True :=
        .modify (fun s _ => .imports s hd htarget imported) fun _ h => h
      split
      · exact noted .whole
      · exact noted fun scope => .package scope _
      · exact .pure fun _ h => h
      · exact noted fun scope => .name scope _
      · exact fun s h => ⟨.single (.resolve (.report s rfl _)), h⟩
    · exact .pure fun _ h => h
  | _ => exact .pure fun _ h => h

theorem declareShell_struct (site : Site) (info : Info) (decl : StructDecl) (s : Survey) :
    declareShell site (.struct info decl) s =
      if ((s.globals.scope site.id).symbol? decl.name).isSome then
        Survey.report (.name (.redeclaredInPackage decl.name)) info.span
          { s with globals := withStruct s.globals site info decl }
      else ((), { s with globals := withShell s.globals site info decl }) :=
  declare_eq _ { s with globals := withStruct s.globals site info decl }

theorem declareShell_proceeds (hd : d ∈ file.decls) :
    Proceeds (Declaring table site file) (fun _ => True) (declareShell site d)
      fun _ s => d.isShell = true → Knows site.id d s := by
  cases d with
  | struct info decl =>
    intro s _
    rw [declareShell_struct]
    split
    · exact ⟨.single (.taken s hd), fun _ => .of_report _ rfl _⟩
    · rename_i hfree
      have free : (s.globals.scope site.id).symbol? decl.name = none := by simpa using hfree
      have found (hsize : site.id < (withShell s.globals site info decl).scopes.size) :=
        @symbol?_withSymbol_self (withStruct s.globals site info decl)
          (site.symbol info decl.name (.struct s.globals.structs.size) site.foreign)
          (lt_of_lt_of_eq hsize Array.size_modify) free
      exact ⟨.single (.struct s hd free), fun _ => .of_symbol rfl found ⟨rfl, _, rfl⟩⟩
  | typedef info name type =>
    cases type with
    | none => exact (declare_proceeds hd).weaken (fun _ _ => .unknown info name) fun _ _ h _ => h
    | some t => exact .pure fun _ _ h => by cases h
  | _ => exact .pure fun _ _ h => by cases h

theorem declareAlias_proceeds (hd : d ∈ file.decls) :
    Proceeds (Declaring table site file) (fun _ => True) (declareAlias site d)
      fun _ s => d.isAlias = true → Knows site.id d s := by
  cases d with
  | typedef info name type =>
    cases type with
    | none => exact .pure fun _ _ h => by cases h
    | some written =>
      refine .bind ((resolveType_proceeds site.id none written).within .resolve) fun r => ?_
      cases r with
      | none => exact .pure fun _ h _ hc => absurd hc h
      | some t =>
        exact (declare_proceeds hd).weaken (fun _ h => .alias info name written h) fun _ _ h _ => h
  | _ => exact .pure fun _ _ h => by cases h

theorem structFields_proceeds (site : Site) (params : GenericParams) (decl : StructDecl)
    (self : StructId) {fields : List Field} (hfields : fields ⊆ decl.fields)
    {known : List (String × Ty)} (hknown : FieldsOf decl [] known) :
    Proceeds (Step site.id) (fun s => ∀ f ∈ known, s.globals.Writes site.id (some params) f.2)
      (structFields site params decl self known fields)
      fun r s => (∀ f ∈ r, s.globals.Writes site.id (some params) f.2) ∧ FieldsOf decl [] r := by
  induction fields generalizing known with
  | nil => exact .pure fun _ h => ⟨h, hknown⟩
  | cons field fields ih =>
    obtain ⟨hfield, hfields⟩ := cons_subset.mp hfields
    have lasting {s s' : Survey} (hs : Step site.id s s')
        (h : ∀ f ∈ known, s.globals.Writes site.id (some params) f.2) :
        ∀ f ∈ known, s'.globals.Writes site.id (some params) f.2 :=
      fun f hf => (h f hf).mono hs.later.onward
    have reported {problem : Problem} (error : problem.isError = true) (span : Span) :
        Proceeds (Step site.id) (fun s => ∀ f ∈ known, s.globals.Writes site.id (some params) f.2)
          (report problem span)
          fun _ s => ∀ f ∈ known, s.globals.Writes site.id (some params) f.2 :=
      fun s h => ⟨.single (.report s error span), lasting (.report s error span) h⟩
    rw [structFields]
    split
    · exact .bind (reported rfl _) fun _ => ih hfields hknown
    rename_i hnew
    refine .bind (((resolveType_proceeds site.id (some params) field.type).carry lasting).weaken
      (fun _ h => ⟨trivial, h⟩) fun _ _ h => h) fun r => ?_
    cases r with
    | none => exact (ih hfields hknown).weaken (fun _ h => h.2) fun _ _ h => h
    | some t =>
      refine .ite ((Proceeds.bind (reported rfl _) fun _ => ih hfields hknown).weaken
        (fun _ h => h.2) fun _ _ h => h) ((ih hfields (.inr ?_)).weaken (fun s h => ?_) fun _ _ h => h)
      · obtain ⟨distinct, named⟩ := hknown.elim (fun h => by simp [sublist_nil.mp h]) id
        refine ⟨?_, forall_mem_append.mpr
          ⟨named, forall_mem_singleton.mpr (mem_map_of_mem hfield)⟩⟩
        rw [map_append, nodup_append]
        refine ⟨distinct, nodup_singleton _, fun name hname other hother heq => ?_⟩
        obtain ⟨f, hf, rfl⟩ := mem_map.mp hname
        obtain rfl := mem_singleton.mp hother
        exact hnew (any_eq_true.mpr ⟨f, hf, beq_iff_eq.mpr heq⟩)
      · exact forall_mem_append.mpr ⟨h.2, forall_mem_singleton.mpr h.1⟩

theorem paramTypes_proceeds (package : PackageId) (params : List Param) :
    Proceeds (Step package) (fun _ => True) (paramTypes package params) (Answers fun ts s =>
      ts.length = params.length ∧ ∀ t ∈ ts, s.globals.Writes package none t) := by
  induction params with
  | nil => exact .pure fun _ _ => ⟨rfl, fun _ ht => absurd ht not_mem_nil⟩
  | cons p ps ih =>
    refine .bind (resolveType_proceeds package none p.type) fun r => ?_
    have lasting {s s' : Survey} (hs : Step package s s')
        (h : Answers (fun t s => s.globals.Writes package none t) r s) :
        Answers (fun t s => s.globals.Writes package none t) r s' := by
      cases r with
      | none => exact fun hc => h (hc.of_prefix hs.later.problems)
      | some t => exact h.mono hs.later.onward
    refine .bind ((ih.carry lasting).weaken (fun _ h => ⟨trivial, h⟩) fun _ _ h => h) fun rs =>
      .pure fun s h => ?_
    cases r with
    | none => exact h.2
    | some t =>
      cases rs with
      | none => exact h.1
      | some ts => exact ⟨congrArg (· + 1) h.1.1, forall_mem_cons.mpr ⟨h.2, h.1.2⟩⟩

theorem declareSignature_eq (site : Site) (file : File) (info : Info) (name : String)
    (hasBody : Bool) (kind : SymbolKind) (s : Survey) :
    declareSignature site file info name hasBody kind s =
      match (s.globals.scope site.id).symbol? name with
      | none =>
        declare (site.symbol info name kind
          (site.foreign || present info.directives .external)) s
      | some existing =>
        if existing.kind = kind ∧ (isHeader file existing.node ∨ !hasBody) then
          if hasBody then ((), { s with globals := withDefinition s.globals site.id name info })
          else ((), s)
        else report (.name (.redeclaredInPackage name)) info.span s := by
  show (match (s.globals.scope site.id).symbol? name with | none => _ | some existing => _ :
    StateM Survey Unit) s = _
  cases (s.globals.scope site.id).symbol? name with
  | none => rfl
  | some existing =>
    dsimp only
    split
    · split <;> rfl
    · rfl

/-- A declaration of a function shares its symbol only with others of the same type. -/
theorem declareFunction_proceeds (hd : d ∈ file.decls) {info : Info} {sig : Signature}
    {hasBody : Bool} (hform : (hasBody = false ∧ d = .header info sig) ∨
      (hasBody = true ∧ ∃ body, d = .function info sig body)) :
    Proceeds (Declaring table site file) (fun _ => True) (declareFunction site file info sig hasBody)
      fun _ => Knows site.id d := by
  refine .bind ((paramTypes_proceeds site.id sig.params).within .resolve) fun params => ?_
  rcases params with _ | params
  · have wrong : Proceeds (Declaring table site file) (fun s => ¬ Clean s.problems)
        (resolveType site.id none sig.result) fun _ s => ¬ Clean s.problems :=
      (((resolveType_proceeds site.id none sig.result).within .resolve).carry fun hs h hc =>
        h (Declaring.clean hs hc)).weaken (fun _ h => ⟨trivial, h⟩) fun _ _ h => h.2
    exact .bind wrong fun _ => .pure fun _ h hc => absurd hc h
  have lasting {s s' : Survey} (hs : Step site.id s s')
      (h : params.length = sig.params.length ∧ ∀ t ∈ params, s.globals.Writes site.id none t) :
      params.length = sig.params.length ∧ ∀ t ∈ params, s'.globals.Writes site.id none t :=
    h.imp_right hs.writes
  refine .bind ((((resolveType_proceeds site.id none sig.result).carry lasting).within
    .resolve).weaken (fun _ h => ⟨trivial, h⟩) fun _ _ h => h) fun result => ?_
  rcases result with _ | result
  · exact .pure fun _ h hc => absurd hc h.1
  rintro s ⟨hresult, arity, hparams⟩
  have written : ∀ t ∈ result :: params, s.globals.Writes site.id none t :=
    forall_mem_cons.mpr ⟨hresult, hparams⟩
  show _ ∧ Knows _ _ (declareSignature site file info sig.name hasBody (.function params result) s).2
  show Relation.ReflTransGen _ _
    (declareSignature site file info sig.name hasBody (.function params result) s).2 ∧ _
  rw [declareSignature_eq]
  split
  · refine declare_proceeds hd s ?_
    rcases hform with ⟨-, rfl⟩ | ⟨-, body, rfl⟩
    · exact .header info sig arity written
    · exact .function info sig body arity written
  · rename_i existing found
    split
    · rename_i same
      rcases hform with ⟨rfl, rfl⟩ | ⟨rfl, body, rfl⟩
      · exact ⟨.refl, .of_symbol rfl (fun _ => found) ⟨_, _, same.1⟩⟩
      · have header : isHeader file existing.node = true := by simpa using same.2
        have moved (hsize : site.id < (withDefinition s.globals site.id sig.name info).scopes.size) :=
          symbol?_withDefinition_self found (lt_of_lt_of_eq hsize Array.size_modify) info
        exact ⟨.single (.define s hd found header same.1 arity written),
          .of_symbol rfl moved ⟨rfl, _, _, same.1⟩⟩
    · exact ⟨.single (.resolve (.report s rfl _)), .of_report s rfl _⟩

theorem declareValue_proceeds (hd : d ∈ file.decls) :
    Proceeds (Declaring table site file) (fun _ => True) (declareValue site file d)
      fun _ s => d.isValue = true → Knows site.id d s := by
  cases d with
  | struct info decl =>
    refine .get fun now => ?_
    split
    · rename_i id hid
      have lasting {s s' : Survey} (hs : Step site.id s s')
          (h : ownStruct? s.globals site.id info.id decl.name = some id) :
          ownStruct? s'.globals site.id info.id decl.name = some id := by
        have onward := hs.later.onward
        unfold ownStruct? at h ⊢
        rwa [onward.toSettled.symbol?, onward.structs]
      refine .bind ((((structFields_proceeds site ⟨info.id, decl.generics⟩ decl id
        (List.Subset.refl _) (.inl (nil_sublist _))).carry lasting).within .resolve).weaken
        (fun s h => ⟨fun _ hf => absurd hf not_mem_nil, h.1 ▸ hid⟩) fun _ _ h => h)
        fun fields => .modify (fun s h => ?_) fun _ _ h => by cases h
      exact .fields s hd h.2 (fun f hf => .inl (h.1.1 f hf))
        (h.1.2.imp_left fun hnil => hnil.trans (nil_sublist _))
    · exact .pure fun _ _ h => by cases h
  | header info sig =>
    exact (declareFunction_proceeds hd (.inl ⟨rfl, rfl⟩)).weaken (fun _ h => h) fun _ _ h _ => h
  | function info sig body =>
    exact (declareFunction_proceeds hd (.inr ⟨rfl, body, rfl⟩)).weaken (fun _ h => h)
      fun _ _ h _ => h
  | var info decl =>
    rw [declareValue]
    cases decl.type with
    | none => exact fun s _ => ⟨.single (.resolve (.report s rfl _)), fun _ => .of_report s rfl _⟩
    | some written =>
      refine .bind ((resolveType_proceeds site.id none written).within .resolve) fun r => ?_
      cases r with
      | none => exact .pure fun _ h _ hc => absurd hc h
      | some t => exact (declare_proceeds hd).weaken (fun _ h => .var info decl h) fun _ _ h _ => h
  | _ => exact .pure fun _ _ h => by cases h

end Survey

/-- No field of the struct is found to lead to the struct itself. -/
def StructTable.Unembedded (t : StructTable) (id : StructId) : Prop :=
  ∀ f ∈ (t.get id).fields, t.embeds id (List.range t.size) f.2 = false

theorem StructTable.setFields_fields (t : StructTable) (id : StructId) :
    t.setFields id (t.get id).fields = t := by
  refine congrArg StructTable.mk (Array.ext_getElem? fun i => ?_)
  rw [Array.getElem?_modify]
  split
  · rename_i heq
    subst heq
    rw [get]
    cases t.structs[id]? <;> rfl
  · rfl

namespace Survey

variable {table : PackageTable} {site : Site} {file : File} {d : Decl}

/-- Fields through which a struct would contain itself are reported; without an error nothing
changes, for there are none. -/
theorem breakCycles_proceeds (hd : d ∈ file.decls) (g : Globals) :
    Proceeds (Declaring table site file) (fun s => Clean s.problems → s.globals = g)
      (breakCycles site d) fun _ s => Clean s.problems → s.globals = g ∧
        ∀ info decl, d = .struct info decl → ∀ id,
          ownStruct? g site.id info.id decl.name = some id → g.structs.Unembedded id := by
  cases d with
  | struct info decl =>
    refine .get fun now => ?_
    dsimp only
    split
    · rename_i id hid
      rw [partition_eq_filter_filter]
      have reports (cyclic : List (String × Ty)) : Proceeds (Declaring table site file)
          (fun s => s = now ∧ (Clean s.problems → s.globals = g))
          (cyclic.forM fun f => report (.usage (.structThroughField decl.name f.1))
            (((decl.fields.find? (·.name == f.1)).map (·.span)).getD info.span))
          fun _ s => s.globals = now.globals ∧
            (Clean s.problems → cyclic = [] ∧ now.globals = g) := by
        cases cyclic with
        | nil => exact .pure fun s h => ⟨h.1 ▸ rfl, fun hc => ⟨rfl, h.1 ▸ h.2 hc⟩⟩
        | cons f fs =>
          have wrong {pre : Survey → Prop} (hpre : ∀ s, pre s → s.globals = now.globals)
              {problem : Problem} (error : problem.isError = true) (span : Span) :
              Proceeds (Declaring table site file) pre (report problem span) fun _ s =>
                s.globals = now.globals ∧ ¬ Clean s.problems :=
            fun s h => ⟨.single (.resolve (.report s error span)), hpre s h,
              not_clean_report s.problems error span⟩
          refine .bind (wrong (fun s h => congrArg Survey.globals h.1) rfl _) fun _ => ?_
          exact (Proceeds.forM fun f _ => wrong (fun s h => And.left h) rfl _).weaken (fun _ h => h)
            fun _ s h => ⟨h.1, fun hc => absurd hc h.2⟩
      refine .bind (reports _) fun _ => .modify (fun s h => ?_) fun s h hc => ?_
      · refine .fields s hd (h.1 ▸ hid) (fun f hf => .inr ?_) (.inl ?_)
        · exact h.1 ▸ (mem_filter.mp hf).1
        · exact h.1 ▸ filter_sublist
      · obtain ⟨none, rfl⟩ := h.2 hc
        have unembedded : now.globals.structs.Unembedded id := fun f hf =>
          Bool.eq_false_iff.mpr (filter_eq_nil_iff.mp none f hf)
        have all : (now.globals.structs.get id).fields.filter (not ∘ fun f =>
            now.globals.structs.embeds id (List.range now.globals.structs.size) f.2) =
            (now.globals.structs.get id).fields :=
          filter_eq_self.mpr fun f hf => by rw [Function.comp, unembedded f hf, Bool.not_false]
        refine ⟨?_, fun _ _ heq id' hid' => ?_⟩
        · dsimp only
          rw [h.1, all, StructTable.setFields_fields]
        · cases heq
          obtain rfl : id = id' := some.inj (hid.symm.trans hid')
          exact unembedded
    · rename_i hnone
      refine .pure fun s hs hc => ⟨hs.2 hc, fun _ _ heq id hid => ?_⟩
      cases heq
      rw [← hs.2 hc, hs.1] at hid
      exact absurd hid (hnone id)
  | _ => exact .pure fun _ h hc => ⟨h hc, fun _ _ heq => by cases heq⟩

theorem declarePackage_of_none (h : table.sourceOf? id = none) :
    declarePackage table id = pure () := by
  unfold declarePackage
  split
  · rename_i path file isEntry header hget
    simp [PackageTable.sourceOf?, hget] at h
  · rfl

/-- The declarations that `sel` picks out of the file have their symbols. -/
def KnownBy (sel : Decl → Bool) (package : PackageId) (file : File) (s : Survey) : Prop :=
  (file.declIds .node).Nodup → ∀ d ∈ file.decls, sel d = true → Knows package d s

theorem KnownBy.of_declaring (hsite : site.Of table file) {sel : Decl → Bool}
    (source : table.sourceOf? package = some file') {s : Survey}
    (h : Declaring table site file s s') (known : KnownBy sel package file' s) :
    KnownBy sel package file' s' := fun nodup d hd hsel =>
  (known nodup d hd hsel).of_declaring h hsite source nodup hd

theorem round_proceeds (hsite : site.Of table file) (done sel : Decl → Bool)
    {f : Decl → StateM Survey Unit}
    (h : ∀ d ∈ file.decls, Proceeds (Declaring table site file) (fun _ => True) (f d)
      fun _ s => sel d = true → Knows site.id d s) :
    Proceeds (Declaring table site file) (KnownBy done site.id file) (file.decls.forM f)
      fun _ => KnownBy (fun d => done d || sel d) site.id file := by
  have round : Proceeds (Declaring table site file) (KnownBy done site.id file)
      (file.decls.forM f) fun _ s => KnownBy done site.id file s ∧ ∀ d ∈ file.decls,
        (file.declIds .node).Nodup → sel d = true → Knows site.id d s := by
    refine .forM_each (fun d hd s s' hs known nodup hsel => ?_) fun d hd => ?_
    · exact (known nodup hsel).of_declaring hs hsite hsite.source nodup hd
    · exact ((h d hd).carry fun hs => .of_declaring hsite hsite.source hs).weaken
        (fun _ hp => ⟨trivial, hp⟩) fun _ _ hp => ⟨hp.2, fun _ => hp.1⟩
  refine round.weaken (fun _ h => h) fun _ s h nodup d hd hd' => ?_
  rcases Bool.or_eq_true_iff.mp hd' with hd' | hd'
  · exact h.1 nodup d hd hd'
  · exact h.2 d hd nodup hd'

/-- Behind the declarations of a package, unless there is an error, each has its symbol, and no struct
is found to embed itself. -/
theorem declarePackage_proceeds (hsite : site.Of table file) :
    Proceeds (Declaring table site file) (fun _ => True) (declarePackage table site.id) fun _ s =>
      KnownBy (fun _ => true) site.id file s ∧
      (Clean s.problems → ∀ info decl, .struct info decl ∈ file.decls →
        ∀ id, ownStruct? s.globals site.id info.id decl.name = some id →
          s.globals.structs.Unembedded id) := by
  have imports := round_proceeds hsite (fun _ => false) (fun _ => false) fun d hd =>
    (declareImport_proceeds hd).weaken (fun _ h => h) fun _ _ _ h => by cases h
  have shells (done : Decl → Bool) :=
    round_proceeds hsite done isShell fun d hd => declareShell_proceeds hd
  have aliases (done : Decl → Bool) :=
    round_proceeds hsite done isAlias fun d hd => declareAlias_proceeds hd
  have values (done : Decl → Bool) :=
    round_proceeds hsite done isValue fun d hd => declareValue_proceeds hd
  have declares : declarePackage table site.id = (do
      file.decls.forM (declareImport table site)
      file.decls.forM (declareShell site)
      file.decls.forM (declareAlias site)
      file.decls.forM (declareValue site file)
      file.decls.forM (breakCycles site)) := by
    obtain ⟨isEntry, header, hget, hforeign⟩ := hsite
    unfold declarePackage
    rw [hget]
    obtain ⟨p, path, foreign⟩ := site
    obtain rfl : foreign = header.isSome := hforeign
    rfl
  rw [declares]
  refine .bind (imports.weaken (fun _ _ _ _ _ h => by cases h) fun _ _ h => h) fun _ =>
    .bind (shells _) fun _ => .bind (aliases _) fun _ => .bind (values _) fun _ => fun s known => ?_
  have cycles : Proceeds (Declaring table site file)
      (fun s' => Clean s'.problems → s'.globals = s.globals)
      (file.decls.forM (breakCycles site)) _ :=
    .forM_each (I := fun (d : Decl) s' => Clean s'.problems → ∀ info decl,
        d = .struct info decl → ∀ id, ownStruct? s.globals site.id info.id decl.name = some id →
          s.globals.structs.Unembedded id)
      (fun d _ => fun hs h hc => h (Declaring.clean hs hc)) fun d hd =>
        (breakCycles_proceeds hd s.globals).weaken (fun _ h => h)
          fun _ _ h => ⟨fun hc => (h hc).1, fun hc => (h hc).2⟩
  obtain ⟨steps, ⟨same, unembedded⟩, known⟩ :=
    (cycles.carry fun hs => .of_declaring hsite hsite.source hs) s ⟨fun _ => rfl, known⟩
  refine ⟨steps, fun nodup d hd _ => ?_, fun hc info decl hd id hid => ?_⟩
  · cases hname : d.name? with
    | none => exact fun _ _ name hname' => by simp [hname] at hname'
    | some name =>
      refine known nodup d hd ?_
      cases d with
      | typedef info name type => cases type <;> rfl
      | separator | package | imports => cases hname
      | _ => rfl
  · rw [same hc] at hid ⊢
    exact unembedded _ hd hc info decl rfl id hid

def DeclaringAny (table : PackageTable) (s s' : Survey) : Prop :=
  ∃ site file, site.Of table file ∧ Declaring table site file s s'

theorem clean_of_declaring {s : Survey} (h : Relation.ReflTransGen (DeclaringAny table) s s')
    (hc : Clean s'.problems) : Clean s.problems := by
  induction h with
  | refl => exact hc
  | tail _ hs ih =>
    obtain ⟨site, file, -, step⟩ := hs
    exact ih (step.clean hc)

theorem Site.Of.exists_of_source (h : table.sourceOf? id = some file) :
    ∃ site : Site, site.id = id ∧ site.Of table file := by
  obtain ⟨⟨path, source, isEntry, header⟩, hget, rfl⟩ := bind_eq_some_iff.mp h
  exact ⟨⟨id, path, header.isSome⟩, rfl, isEntry, header, hget, rfl⟩

theorem packages_proceeds (order : List PackageId) :
    Proceeds (DeclaringAny table) (fun _ => True) (order.forM (declarePackage table)) fun _ s =>
      True ∧ ∀ id ∈ order, ∀ file, table.sourceOf? id = some file →
        KnownBy (fun _ => true) id file s := by
  refine .forM_each (fun id _ s s' hs known file source => ?_) fun id _ => ?_
  · obtain ⟨site, file', hsite, step⟩ := hs
    exact (known file source).of_declaring hsite source step
  · cases source : table.sourceOf? id with
    | none =>
      rw [declarePackage_of_none source]
      exact .pure fun _ h => ⟨h, nofun⟩
    | some file =>
      obtain ⟨site, rfl, hsite⟩ := Site.Of.exists_of_source source
      refine ((declarePackage_proceeds hsite).within fun hs => ⟨site, file, hsite, hs⟩).weaken
        (fun _ h => h) fun _ s h => ⟨trivial, fun file' source' => ?_⟩
      exact some.inj source' ▸ h.1

theorem ofPackages_declared {order : List PackageId} (hnodup : (file.declIds .node).Nodup)
    (hclean : Clean (ofPackages table order).problems) (hid : id ∈ order)
    (source : table.sourceOf? id = some file) (hd : d ∈ file.decls) :
    (ofPackages table order).globals.Declares id d := by
  let start : Survey := { globals := .ofSize table.size }
  obtain ⟨steps, -, known⟩ := packages_proceeds order start trivial
  refine known id hid file source hnodup d hd rfl hclean ?_
  have sized : (order.forM (declarePackage table) start).2.globals.scopes.size = table.size := by
    generalize (order.forM (declarePackage table) start).2 = s at steps
    induction steps with
    | refl => exact Array.size_replicate
    | tail _ hs ih =>
      obtain ⟨site, file, -, step⟩ := hs
      exact step.size.trans ih
  exact sized ▸ PackageTable.lt_size_of_sourceOf? source

end Survey
end Quill
