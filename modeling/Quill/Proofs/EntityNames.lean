import Quill.Proofs.ClosedTypes
import Quill.Proofs.Entities
import Quill.Proofs.IdRange
import Quill.Proofs.OutputFiles

/-!
# Names in generated files

Every item of the generated files that has a name introduces an entity of the program under the
entity's own C name, unless the item is about C code that the package binds.
-/
namespace Quill

open List Lower Symbol

def Lower.Sections.items (s : Sections) : List CItem :=
  s.types ++ s.varDecls ++ s.varDefs ++ s.prototypes ++ s.bodies

namespace Lower

variable {cx : Checked} {last : Instances}

/-- The types that lowering meets in definitions: generic structs with an argument for each
parameter. -/
def Applied (cx : Checked) (u : StructId × List Ty) : Prop := (Ty.instance u.1 u.2 0).Closed cx.structs

mutual

theorem applied_of_mentioned {t : Ty} (ht : t.Closed cx.structs) :
    ∀ u ∈ mentioned t, Applied cx u := by
  match t with
  | .pointer t | .mutPointer t | .array t _ => exact applied_of_mentioned (t := t) ht
  | .instance id as v =>
    intro u hu
    rw [mentioned] at hu
    split at hu
    · cases hu
    · rcases mem_append.mp hu with hu | hu
      · exact applied_of_mentionedIn ht.arguments u hu
      · rw [mem_singleton.mp hu]
        exact ht
  | .void | .scalar _ | .struct _ | .abstract _ _ _ | .package _ | .generic _ _ _ | .function _ _ =>
    intro u hu
    cases hu

theorem applied_of_mentionedIn {ts : List Ty} (hts : ∀ t ∈ ts, t.Closed cx.structs) :
    ∀ u ∈ mentionedIn ts, Applied cx u := by
  match ts with
  | [] =>
    intro u hu
    cases hu
  | t :: ts =>
    obtain ⟨ht, hts⟩ := forall_mem_cons.mp hts
    exact forall_mem_append.mpr ⟨applied_of_mentioned ht, applied_of_mentionedIn hts⟩

end

theorem applied_of_mentionedInFields {fields : List (String × Ty)}
    (h : ∀ f ∈ fields, f.2.Closed cx.structs) : ∀ u ∈ mentionedInFields fields, Applied cx u := by
  intro u hu
  obtain ⟨f, hf, hu⟩ := mem_flatMap.mp hu
  exact applied_of_mentioned (h f hf) u hu

section

variable {table : PackageTable} (closed : cx.resolution.globals.Closed table)

include closed

theorem Applied.fieldsWith {u : StructId × List Ty} (h : Applied cx u) :
    ∀ f ∈ cx.structs.fieldsWith u.1 u.2, f.2.Closed cx.structs := by
  intro f hf
  obtain ⟨pattern, hpattern, rfl⟩ := mem_map.mp hf
  obtain ⟨formed, within⟩ := closed.fields u.1 pattern hpattern
  replace within : pattern.2.Within (cx.structs.get u.1).node (cx.structs.get u.1).generics.length :=
    within
  rw [← h.2.2.2.1] at within
  exact .substitute h.arguments within formed

theorem applied_of_usedInstances {package : PackageId} :
    ∀ u ∈ usedInstances cx package, Applied cx u := by
  intro u hu
  obtain ⟨⟨decl, version⟩, -, hu⟩ := mem_filterMap.mp hu
  obtain ⟨i, hi, rfl⟩ := Option.map_eq_some_iff.mp hu
  exact closed.instances i (Instances.mem_of_get? hi).1

theorem closed_of_plain {id : StructId} (plain : (cx.structs.get id).generics = []) :
    ∀ f ∈ (cx.structs.get id).fields, f.2.Closed cx.structs := by
  intro f hf
  have held := closed.fields id f hf
  rw [StructTable.Holds] at held
  have within := held.2
  rw [show cx.resolution.globals.structs.get id = cx.structs.get id from rfl, plain] at within
  exact ⟨within.hasGenerics, held.1⟩

end

/-- Members are the fields of a definition, under their C names. -/
def NamedAlike (_ : List Definition) (d : Definition) (m : Members) : Prop :=
  m.1.map (·.2) = d.fields.map (cIdent ·.1)

theorem types_written {table : PackageTable} (closed : cx.resolution.globals.Closed table)
    (package : PackageId) (file : File) :
    Ensures (toward last) (fun _ => True) (types cx package file)
      fun items _ => Typeset cx last (Applied cx) NamedAlike package file items := by
  refine types_typeset (fun u hu => ?_) (fun d hd => ?_) (applied_of_usedInstances closed) ?_
  · exact applied_of_mentionedInFields (hu.fieldsWith closed)
  · obtain ⟨info, decl, id, -, -, plain, rfl⟩ := mem_declaredStructs hd
    exact applied_of_mentionedInFields (closed_of_plain closed plain)
  · intro defs _ d _
    exact ⟨fun st => definitionFields_keeps (moves_robust st) defs _ _ st .refl,
      fun st _ _ => definitionFields_names defs d.span d.fields st⟩

theorem emitted_written {table : PackageTable} (closed : cx.resolution.globals.Closed table)
    {ids : List PackageId} (complete : ∀ id ∈ ids, ∀ file, cx.table.sourceOf? id = some file →
      ∀ d ∈ file.decls, d.Complete cx.resolution.facts) {st : Lowering}
    (hc : (toward last).Clean (emitted cx ids st).2) {l : Emitted} (hl : l ∈ (emitted cx ids st).1) :
    Typeset cx last (Applied cx) NamedAlike l.id l.file l.sections.types := by
  obtain ⟨hid, hget, -⟩ := mem_emitted hl
  obtain ⟨st', hsections, clean⟩ := emitted_clean complete hc hl
  have source : cx.table.sourceOf? l.id = some l.file := by
    rw [PackageTable.sourceOf?, hget]
    rfl
  have rest := LoweringLaw.decls_keeps (L := (moves_robust (types cx l.id l.file st').2).law cx)
    (fun d hd => .inr (complete l.id hid l.file source d hd)) l.id l.isEntry []
  rw [hsections]
  exact (types_written closed l.id l.file).ensures st' trivial
    ((toward last).clean_of_steps (rest _ .refl) clean)

/-- An item of the types of a package that has a name announces an unknown type or a definition, or
defines a struct with the members of a definition. -/
inductive TypeItem (cx : Checked) (file : File) (defs : List Definition) : CItem → Prop
  | unknown {item : CItem} (h : item ∈ declaredAbstract cx file) : TypeItem cx file defs item
  | announced {d : Definition} (h : d ∈ defs) : TypeItem cx file defs (.forward d.name)
  | defined {d : Definition} (h : d ∈ defs) {m : Members} (alike : NamedAlike defs d m) :
    TypeItem cx file defs (.struct d.name m.1)

theorem eq_of_mem_guarded {guard : String} {item other : CItem} (h : other ∈ guarded guard item)
    {name : String} (hname : other.name? = some name) : other = item := by
  simp only [guarded, mem_cons, not_mem_nil, or_false] at h
  rcases h with rfl | rfl | rfl | rfl
  · cases hname
  · cases hname
  · rfl
  · cases hname

theorem eq_of_mem_announce {d : Definition} {item : CItem} (h : item ∈ d.announce) {name : String}
    (hname : item.name? = some name) : item = .forward d.name := by
  unfold Definition.announce at h
  split at h
  · exact eq_of_mem_guarded h hname
  · exact mem_singleton.mp h

theorem eq_of_mem_define {d : Definition} {fields : List (CType × String)} {item : CItem}
    (h : item ∈ d.define fields) {name : String} (hname : item.name? = some name) :
    item = .struct d.name fields := by
  unfold Definition.define at h
  dsimp only at h
  split at h
  · exact eq_of_mem_guarded h hname
  · exact mem_singleton.mp h

theorem Typeset.typeItem {Good : StructId × List Ty → Prop} {package : PackageId} {file : File}
    {items : List CItem} (h : Typeset cx last Good NamedAlike package file items) :
    ∃ defs, Defined cx last Good (declaredStructs cx package file) (asked cx package file) defs ∧
      ∀ item ∈ items, ∀ name, item.name? = some name → TypeItem cx file defs item := by
  cases h with
  | @written defs lowered order defined members ordered =>
    refine ⟨defs, defined, fun item hitem name hname => ?_⟩
    rcases mem_append.mp hitem with hitem | hitem
    · rcases mem_append.mp hitem with hitem | hitem
      · exact .unknown hitem
      · obtain ⟨d, hd, hitem⟩ := mem_flatMap.mp hitem
        rw [eq_of_mem_announce hitem hname]
        exact .announced hd
    · obtain ⟨i, -, hitem⟩ := mem_flatMap.mp hitem
      unfold writtenAt at hitem
      split at hitem
      · rename_i d fields needed hd hm
        rw [eq_of_mem_define hitem hname]
        obtain ⟨inside, hget⟩ := List.getElem?_eq_some_iff.mp hd
        obtain ⟨inside', hget'⟩ := List.getElem?_eq_some_iff.mp hm
        have alike := (forall₂_iff_get.mp members).2 i inside inside'
        rw [get_eq_getElem, get_eq_getElem, hget, hget'] at alike
        exact .defined (mem_of_getElem? hd) alike
      · cases hitem

theorem params_named (ps : List Param) (ts : List Ty) (st : Lowering) :
    ∀ c ∈ (params cx ps ts st).1, ∃ p ∈ ps, c.name = cIdent p.name := by
  induction ps generalizing ts st with
  | nil =>
    intro c hc
    cases hc
  | cons p ps ih =>
    cases ts with
    | nil =>
      intro c hc
      cases hc
    | cons t ts =>
      intro c hc
      rcases mem_cons.mp hc with rfl | hc
      · exact ⟨p, mem_cons_self, rfl⟩
      · obtain ⟨q, hq, hname⟩ := ih ts _ c hc
        exact ⟨q, mem_cons_of_mem p hq, hname⟩

theorem prototype?_named {package : PackageId} {info : Info} {sig : Signature} {st : Lowering}
    {head : CPrototype} (h : (prototype? cx package info sig st).1 = some head) :
    ∀ c ∈ head.params, ∃ p ∈ sig.params, c.name = cIdent p.name := by
  unfold prototype? at h
  generalize cx.resolution.typeOf? info.id = type at h
  rcases type with _ | t
  · cases h
  cases t with
  | function types result =>
    revert h
    show ((ite _ _ _ : Lower (Option CPrototype)) _).1 = some head → _
    split <;>
    · rintro ⟨⟩
      exact params_named sig.params types _
  | _ => cases h

theorem decl_heads {package : PackageId} {isEntry : Bool} {known : List String} {d : Decl}
    {st : Lowering} {head : CPrototype}
    (h : .prototype head ∈ (decl cx package isEntry known d st).1.2.prototypes) :
    ∀ c ∈ head.params, ∃ x ∈ d.locals, c.name = cIdent x := by
  have named {sig : Signature} (hlocals : ∀ p ∈ sig.params, p.name ∈ d.locals)
      (hhead : ∀ c ∈ head.params, ∃ p ∈ sig.params, c.name = cIdent p.name) :
      ∀ c ∈ head.params, ∃ x ∈ d.locals, c.name = cIdent x := by
    intro c hc
    obtain ⟨p, hp, hname⟩ := hhead c hc
    exact ⟨p.name, hlocals p hp, hname⟩
  cases d with
  | header info sig =>
    replace h : .prototype head ∈
        ((ite _ _ _ : Lower (List String × Sections)) st).1.2.prototypes := h
    split at h
    · cases h
    · obtain ⟨head', hhead, heq⟩ := mem_map.mp h
      obtain rfl := CItem.prototype.inj heq
      exact named (fun p hp => mem_map_of_mem hp)
        (prototype?_named (Option.mem_toList.mp hhead))
  | function info sig body =>
    rw [decl] at h
    simp only [bind, StateT.bind] at h
    cases hhead : (prototype? cx package info sig st).1 with
    | none =>
      generalize prototype? cx package info sig st = r at hhead h
      obtain ⟨_, st'⟩ := r
      cases hhead
      cases h
    | some head' =>
      have params := prototype?_named hhead
      generalize prototype? cx package info sig st = r at hhead h
      obtain ⟨_, st'⟩ := r
      cases hhead
      revert h
      dsimp only
      rcases cx.resolution.typeOf? info.id with _ | t
      · exact fun h => absurd h not_mem_nil
      cases t with
      | function types result =>
        show .prototype head ∈
          ((ite _ _ _ : Lower (List String × Sections)) _).1.2.prototypes → _
        split
        · exact fun h => absurd h not_mem_nil
        · intro h
          obtain rfl := CItem.prototype.inj (mem_singleton.mp h)
          exact named (fun p hp => mem_append_left _ (mem_map_of_mem hp)) params
      | _ => exact fun h => absurd h not_mem_nil
  | var info decl =>
    have declares := @decl_declares cx package isEntry known (.var info decl) st
    obtain ⟨-, isFor⟩ := declares.prototypes _ h
    cases isFor.kind
  | _ => cases h

section

variable {id : PackageId} {path : PackagePath} {isEntry : Bool} {file : File} {st : Lowering}
  {s : Sections} (h : s = (package cx id path isEntry file st).1)

include h

theorem package_items {item : CItem} (hitem : item ∈ s.items) :
    item ∈ s.types ∨ ∃ d ∈ file.decls, ∃ kind, IsFor cx id d kind item := by
  obtain ⟨types, st', hpackage, -⟩ := package_eq cx id path isEntry file st
  rw [h, hpackage] at hitem ⊢
  have declares := @decl_declares cx id isEntry
  simp only [Sections.items, mem_append] at hitem
  rcases hitem with (((hitem | hitem) | hitem) | hitem) | hitem
  · exact .inl hitem
  · obtain ⟨d, hd, known, st, hitem⟩ := exists_of_mem_decls (·.varDecls) rfl (fun _ _ => rfl) hitem
    exact .inr ⟨d, hd, _, ((declares known d st).vars item (mem_append_left _ hitem)).2⟩
  · obtain ⟨d, hd, known, st, hitem⟩ := exists_of_mem_decls (·.varDefs) rfl (fun _ _ => rfl) hitem
    exact .inr ⟨d, hd, _, ((declares known d st).vars item (mem_append_right _ hitem)).2⟩
  · obtain ⟨d, hd, known, st, hitem⟩ :=
      exists_of_mem_decls (·.prototypes) rfl (fun _ _ => rfl) hitem
    exact .inr ⟨d, hd, _, ((declares known d st).prototypes item hitem).2⟩
  · obtain ⟨d, hd, known, st, hitem⟩ := exists_of_mem_decls (·.bodies) rfl (fun _ _ => rfl) hitem
    exact .inr ⟨d, hd, _, (declares known d st).bodies item hitem⟩

theorem package_heads {head : CPrototype} (hhead : .prototype head ∈ s.prototypes) :
    ∃ d ∈ file.decls, ∀ c ∈ head.params, ∃ x ∈ d.locals, c.name = cIdent x := by
  obtain ⟨types, st', hpackage, -⟩ := package_eq cx id path isEntry file st
  rw [h, hpackage] at hhead
  obtain ⟨d, hd, known, st, hhead⟩ :=
    exists_of_mem_decls (·.prototypes) rfl (fun _ _ => rfl) hhead
  exact ⟨d, hd, decl_heads hhead⟩

end

end Lower

section Accepted

variable {sources : Sources} {options : Options} {order : List PackageId}

/-- The instances that are there when all packages are lowered. -/
def Sources.lastInstances (sources : Sources) (options : Options) (order : List PackageId) :
    Instances :=
  let cx := sources.checked options order
  (files cx order { instances := cx.resolution.globals.instances }).2.instances

namespace Accepted

theorem lastInstances_regular (h : Accepted sources options order) :
    (sources.lastInstances options order).Regular :=
  (h.files_leads _).regular (resolve_regular _ order _)

theorem generated_files (_ : Accepted sources options order) :
    (generate (sources.table options) (sources.resolved options order).1).1 =
      (sources.emitted options order).flatMap (·.files) :=
  congrArg (·.1) (files_eq (sources.checked options order) order _)

theorem closed (_ : Accepted sources options order) :
    (sources.resolved options order).1.globals.Closed (sources.table options) :=
  (resolve_closed (fun _ _ => PackageTable.registered_nodup) order _).1

section

variable (h : Accepted sources options order) {l : Emitted}
  (hl : l ∈ sources.emitted options order) {d : Decl} (hd : d ∈ l.file.decls)

include h hl hd

theorem symbol_of_decl {name : String} (hname : d.name? = some name) {t : Ty}
    (ht : (sources.resolved options order).1.typeOf? d.id = some t) : ∃ s,
      ((sources.resolved options order).1.globals.scope l.id).symbol? name = some s ∧
      s.StandsFor d ∧ t = s.kind.own ∧ (s.node = d.id → s.MadeFor false d) := by
  have source := Sources.source_of_emitted hl
  obtain ⟨hid, hget, -⟩ := mem_emitted hl
  obtain ⟨s, hs, stands, own⟩ :=
    resolve_owned h.holds sources.nodes_apart order _ source hd hname ht
  refine ⟨s, hs, stands, own, fun hnode => ?_⟩
  obtain ⟨package, hget', made⟩ :=
    h.sourced.madeFor h.holds sources.nodes_apart source hd hs hnode
  obtain rfl := Option.some.inj (hget.symm.trans hget')
  exact made

theorem typed (hnamed : d.name?.isSome = true) :
    ∃ t, (sources.resolved options order).1.typeOf? d.id = some t := by
  obtain ⟨hid, -, -⟩ := mem_emitted hl
  have complete := h.package_complete hid (Sources.source_of_emitted hl) d hd
  cases d with
  | function | var => exact Option.isSome_iff_exists.mp complete.1
  | struct | typedef | header => exact Option.isSome_iff_exists.mp complete
  | separator | package | imports => cases hnamed

end

variable {last : Instances}

section

variable (h : Accepted sources options order) {l : Emitted}
  (hl : l ∈ sources.emitted options order)

include h hl

theorem value_named {d : Decl} (hd : d ∈ l.file.decls) {kind : EntityKind}
    (hkind : d.valueKind? = some kind) {name : String}
    (hname : (sources.checked options order).declName? l.id d = some name) :
    (sources.checked options order).isForeign l.id name = true ∨
      ∃ e, (sources.checked options order).Names last e name ∧ e.kind = kind := by
  have function {sig : Signature} (hfunction : d.name? = some sig.name) (hkind : kind = .function)
      (hname : name = (sources.checked options order).functionName l.id sig.name)
      (hstands : ∀ s : Symbol, s.StandsFor d →
        ∃ params result, s.kind = .function params result) :
      (sources.checked options order).isForeign l.id name = true ∨
        ∃ e, (sources.checked options order).Names last e name ∧ e.kind = kind := by
    obtain ⟨t, ht⟩ := h.typed hl hd (by rw [hfunction]; rfl)
    obtain ⟨s, hs, stands, -, -⟩ := h.symbol_of_decl hl hd hfunction ht
    obtain ⟨params, result, shape⟩ := hstands s stands
    by_cases hforeign : (sources.checked options order).isForeign l.id sig.name = true
    · rw [Checked.functionName, if_pos hforeign] at hname
      exact .inl (hname ▸ hforeign)
    · rw [Checked.functionName, if_neg hforeign] at hname
      have own : s.foreign = false := by
        rw [Checked.isForeign, Sources.checked, hs] at hforeign
        simpa using hforeign
      refine .inr ⟨.declared .function l.id sig.name, ?_, hkind.symm⟩
      rw [hname]
      exact .declared hs (by simp [entityKind?, own, shape])
  cases d with
  | var info decl =>
    cases hkind
    obtain ⟨t, ht⟩ := h.typed hl hd rfl
    obtain ⟨s, hs, ⟨hnode, type, mutable, shape⟩, -, made⟩ := h.symbol_of_decl hl hd rfl ht
    have foreign := (made hnode).fits.2
    rw [Bool.false_or] at foreign
    obtain rfl := Option.some.inj hname
    split
    · rename_i external
      rw [external] at foreign
      left
      rw [Checked.isForeign, Sources.checked, hs]
      exact foreign
    · rename_i external
      rw [Bool.eq_false_iff.mpr external] at foreign
      exact .inr ⟨.declared .global l.id decl.name,
        .declared hs (by simp [entityKind?, foreign, shape]), rfl⟩
  | header info sig =>
    cases hkind
    exact function rfl rfl (Option.some.inj hname).symm fun s stands => stands
  | function info sig body =>
    cases hkind
    exact function rfl rfl (Option.some.inj hname).symm fun s stands => stands.2
  | _ => cases hkind

theorem unknown_named {item : CItem}
    (hitem : item ∈ declaredAbstract (sources.checked options order) l.file) {name : String}
    (hname : item.name? = some name) :
    ∃ e, (sources.checked options order).Names last e name ∧ item.introduces e.kind = true := by
  obtain ⟨d, hd, hitem⟩ := mem_filterMap.mp hitem
  split at hitem
  · rename_i info type _
    split at hitem
    · rename_i unknown owner ht
      cases hitem
      obtain rfl := Option.some.inj hname
      obtain ⟨s, hs, ⟨-, t, shape⟩, own, -⟩ := h.symbol_of_decl hl hd rfl ht
      rw [shape] at own
      obtain ⟨s', hs', shape', foreign⟩ := h.titled.unknown l.id s
        (mem_of_find?_eq_some hs) unknown owner (shape.trans (congrArg SymbolKind.typedef own.symm))
      obtain ⟨hpackage, -⟩ := h.sourced owner unknown s' hs'
      refine ⟨.declared .unknown owner unknown, .declared hs' ?_, rfl⟩
      simp [entityKind?, foreign, shape', Scope.name_of_symbol? hs', hpackage]
    · cases hitem
  · cases hitem

/-- The struct of a definition: one that the package declares, or a generic one with arguments, whose
symbol tells its name either way. -/
theorem definition_named {defs : List Definition}
    (defined : Defined (sources.checked options order) last (Applied (sources.checked options order)) (declaredStructs (sources.checked options order) l.id l.file) (asked (sources.checked options order) l.id l.file) defs)
    {d : Definition} (hd : d ∈ defs) :
    ∃ e, (sources.checked options order).Names last e d.name ∧ e.kind = .struct ∧ ∃ id s,
      id < (sources.checked options order).structs.size ∧
      ((sources.resolved options order).1.globals.scope
        ((sources.checked options order).structs.get id).package).symbol?
          ((sources.checked options order).structs.get id).name = some s ∧
      s.kind = .struct id ∧ s.tells (sources.checked options order).structs = true ∧
      d.fields.map (·.1) = (((sources.checked options order).structs.get id).fields).map (·.1) := by
  rcases defined.instances d hd with hd | ⟨⟨u, applied, named, fields, -⟩, -⟩
  · obtain ⟨info, decl, id, hdecl, ht, plain, rfl⟩ := mem_declaredStructs hd
    obtain ⟨s, hs, ⟨hnode, id', shape⟩, own, -⟩ := h.symbol_of_decl hl hdecl rfl ht
    obtain rfl : id = id' := by
      rw [shape] at own
      exact Ty.struct.inj own
    obtain ⟨inside, hpackage, -⟩ := h.closed.shells l.id s (mem_of_find?_eq_some hs) id shape
    obtain ⟨s', hs', shape', foreign⟩ := h.titled.structs id inside
    obtain ⟨-, hget, -⟩ := mem_emitted hl
    have hforeign : s'.foreign = false := by
      refine foreign ⟨l.path, some l.file, l.isEntry, none⟩ ?_
      rw [hpackage]
      exact hget
    have kind : s'.entityKind? (sources.checked options order).structs = some .struct := by
      simp [entityKind?, hforeign, shape', plain]
    have symbol : ((sources.resolved options order).1.globals.scope l.id).symbol?
        ((sources.checked options order).structs.get id).name = some s' := by
      rw [← hpackage]
      exact hs'
    have tells : s'.tells (sources.checked options order).structs = true := by
      rw [tells, kind]
      rfl
    have names : (sources.checked options order).Names last _ _ := .declared symbol kind
    dsimp only
    exact ⟨_, names, rfl, id, s', inside, hs', shape', tells, rfl⟩
  · obtain ⟨v, version, hname⟩ := named
    obtain ⟨s, hs, shape, -⟩ := h.titled.structs u.1 applied.2.1
    refine ⟨.applied ((sources.checked options order).structs.get u.1).package
      ((sources.checked options order).structs.get u.1).name u.2, ?_, rfl, u.1, s, applied.2.1, hs,
      shape, ?_, ?_⟩
    · rw [hname]
      exact .applied applied.2.1 applied.2.2.1 version
    · have generic : s.isGeneric (sources.checked options order).structs = true := by
        rw [isGeneric, shape]
        simpa using applied.2.2.1
      rw [tells, generic, Bool.or_true]
    · rw [fields, StructTable.fieldsWith, map_map]
      rfl

end

section

variable (h : Accepted sources options order)

include h

theorem emitted_typeset
    (clean : Diagnostic.hasErrors (generate (sources.table options) (sources.resolved options order).1).2 = false)
    {l : Emitted} (hl : l ∈ sources.emitted options order) :
    Typeset (sources.checked options order) (sources.lastInstances options order)
      (Applied (sources.checked options order)) NamedAlike l.id l.file
      l.sections.types := by
  have files := congrArg (·.2) (files_eq (sources.checked options order) order
    { instances := (sources.checked options order).resolution.globals.instances })
  dsimp only at files
  refine emitted_written h.closed ?_ ?_ hl
  · intro id hid file source
    exact h.package_complete hid source
  · rw [← files]
    exact ⟨.refl, clean⟩

theorem type_named {l : Emitted} (hl : l ∈ sources.emitted options order)
    (typeset : Typeset (sources.checked options order) last (Applied (sources.checked options order)) NamedAlike l.id l.file l.sections.types)
    {item : CItem} (hitem : item ∈ l.sections.types) {name : String}
    (hname : item.name? = some name) :
    ∃ e, (sources.checked options order).Names last e name ∧ item.introduces e.kind = true := by
  obtain ⟨defs, defined, items⟩ := typeset.typeItem
  have known {d : Definition} (hd : d ∈ defs) : ∃ e,
      (sources.checked options order).Names last e d.name ∧ e.kind = .struct := by
    obtain ⟨e, names, kind, -⟩ := h.definition_named hl defined hd
    exact ⟨e, names, kind⟩
  cases items item hitem name hname with
  | unknown hitem => exact h.unknown_named hl hitem hname
  | announced hd =>
    obtain rfl := Option.some.inj hname
    obtain ⟨e, names, kind⟩ := known hd
    exact ⟨e, names, by rw [kind]; rfl⟩
  | defined hd alike =>
    obtain rfl := Option.some.inj hname
    obtain ⟨e, names, kind⟩ := known hd
    exact ⟨e, names, by rw [kind]; rfl⟩

theorem members_apart (apart : (sources.checked options order).NamesApart) {l : Emitted}
    (hl : l ∈ sources.emitted options order)
    (typeset : Typeset (sources.checked options order) last (Applied (sources.checked options order)) NamedAlike l.id l.file l.sections.types)
    {name : String} {fields : List (CType × String)}
    (hitem : .struct name fields ∈ l.sections.types) :
    (fields.map (·.2)).Nodup ∧ ∀ f ∈ fields, IsIdentifier f.2 := by
  obtain ⟨defs, defined, items⟩ := typeset.typeItem
  generalize hstruct : CItem.struct name fields = item at hitem
  cases items item hitem name (hstruct ▸ rfl) with
  | unknown hitem =>
    obtain ⟨d, -, hitem⟩ := mem_filterMap.mp hitem
    subst hstruct
    split at hitem
    · split at hitem <;> cases hitem
    · cases hitem
  | announced hd => cases hstruct
  | @defined d hd m alike =>
    cases hstruct
    obtain ⟨-, -, -, id, s, inside, hs, shape, tells, names⟩ := h.definition_named hl defined hd
    have own := (h.spoken apart hs tells).2.fields
    rw [fields, shape] at own
    replace alike : m.1.map (·.2) =
        (((sources.checked options order).structs.get id).fields.map (·.1)).map cIdent := by
      rw [← names, map_map]
      exact alike
    have told (f : String)
        (hf : f ∈ ((sources.checked options order).structs.get id).fields.map (·.1)) :
        Speakable f ∧ ∀ g ∈ ((sources.checked options order).structs.get id).fields.map (·.1),
          f ∈ cReserved → g ≠ f ++ "_" := by
      obtain ⟨field, hfield, rfl⟩ := mem_map.mp hf
      exact ⟨(own field hfield).1, forall_mem_map.mpr (own field hfield).2⟩
    constructor
    · rw [alike]
      refine (h.titled.distinct id).map_on fun f hf g hg heq => ?_
      rcases cIdent_inj heq with heq | ⟨reserved, heq⟩ | ⟨reserved, heq⟩
      · exact heq
      · exact absurd heq ((told f hf).2 g hg reserved)
      · exact absurd heq ((told g hg).2 f hf reserved)
    · refine forall_mem_map.mp ?_
      rw [alike]
      refine forall_mem_map.mpr fun f hf => ?_
      obtain ⟨field, hfield, rfl⟩ := mem_map.mp hf
      obtain ⟨p, file, info, decl, source, hdecl, hwritten⟩ := h.titled.written id field hfield
      refine (h.isWord source hdecl (.self ?_)).isIdentifier (told field.1 hf).1
      exact mem_cons_of_mem _ (mem_append_right _ hwritten)

theorem local_isIdentifier (apart : (sources.checked options order).NamesApart)
    {l : Emitted} (hl : l ∈ sources.emitted options order) {d : Decl}
    (hd : d ∈ l.file.decls) :
    ∀ x ∈ d.locals, IsIdentifier (cIdent x) := by
  intro x hx
  obtain ⟨-, hget, -⟩ := mem_emitted hl
  have source := Sources.source_of_emitted hl
  have own : l.file ∈ (sources.checked options order).ownFiles := by
    refine mem_filterMap.mpr ⟨l.id,
      mem_range.mpr (PackageTable.lt_size_of_sourceOf? source), ?_⟩
    rw [hget]
    rfl
  exact (h.isWord source hd (Decl.mentions_of_mem_locals hx)).isIdentifier (apart.locals _ own d hd x hx)

theorem item_named {l : Emitted} (hl : l ∈ sources.emitted options order)
    (typeset : Typeset (sources.checked options order) last (Applied (sources.checked options order)) NamedAlike l.id l.file l.sections.types)
    {item : CItem} (hitem : item ∈ l.sections.items) {name : String}
    (hname : item.name? = some name) :
    (sources.checked options order).isForeign l.id name = true ∨
      ∃ e, (sources.checked options order).Names last e name ∧ item.introduces e.kind = true := by
  obtain ⟨-, -, st, hsections⟩ := mem_emitted hl
  rcases package_items hsections hitem with htype | ⟨d, hd, kind, isFor⟩
  · exact .inr (h.type_named hl typeset htype hname)
  · rcases h.value_named hl hd isFor.kind (isFor.name.symm.trans hname) with
      foreign | ⟨e, names, rfl⟩
    · exact .inl foreign
    · exact .inr ⟨e, names, isFor.introduces⟩

end

section

variable (h : Accepted sources options order) (apart : (sources.checked options order).NamesApart)
  {l : Emitted} (hl : l ∈ sources.emitted options order)

include h apart hl

theorem head_isIdentifier {head : CPrototype} (hhead : .prototype head ∈ l.sections.prototypes) :
    ∀ c ∈ head.params, IsIdentifier c.name := by
  obtain ⟨-, -, st, hsections⟩ := mem_emitted hl
  obtain ⟨d, hd, named⟩ := package_heads hsections hhead
  intro c hc
  obtain ⟨x, hx, hname⟩ := named c hc
  rw [hname]
  exact h.local_isIdentifier apart hl hd x hx

theorem body_declares {item : CItem} (hitem : item ∈ l.sections.bodies) :
    Mark.Declare IsIdentifier item.marks := by
  have marks : item.marks ∈ l.sections.bodies.map CItem.marks := mem_map_of_mem hitem
  rw [h.emitted_marks hl] at marks
  obtain ⟨f, hf, hmarks⟩ := mem_map.mp marks
  rw [← hmarks]
  obtain ⟨d, hd, hfunction⟩ := mem_filterMap.mp hf
  obtain ⟨info, rfl⟩ := Decl.eq_of_function? hfunction
  apply Mark.Declare.bare
  intro m hm name hname
  have declared := functionMarks_declare f.1.params f.2.body (h.local_isIdentifier apart hl hd)
    m hm name hname
  exact declared.isIdentifier fun _ hx => hx

end

end Accepted

/-- Where names can be taken apart, entities of compiled sources have different C names, all of them
identifiers. Each item of the generated files that has a name introduces the entity of that name,
unless the package binds it from C code. The members of each struct have different names, and
members, parameters and locals are identifiers. -/
theorem entity_names {artifact : Artifact} (h : compile sources options = .ok artifact)
    (apart : (sources.checked options (sources.order options)).NamesApart) :
    let cx := sources.checked options (sources.order options)
    let last := sources.lastInstances options (sources.order options)
    artifact.files = (sources.emitted options (sources.order options)).flatMap (·.files) ∧
    (∀ e n e' n', cx.Names last e n → cx.Names last e' n' → (e = e' ↔ n = n')) ∧
    (∀ e n, cx.Names last e n → IsIdentifier n) ∧
    ∀ l ∈ sources.emitted options (sources.order options),
      (∀ item ∈ l.sections.items, ∀ n, item.name? = some n →
        cx.isForeign l.id n = true ∨ ∃ e, cx.Names last e n ∧ item.introduces e.kind = true) ∧
      (∀ name fields, .struct name fields ∈ l.sections.types →
        (fields.map (·.2)).Nodup ∧ ∀ f ∈ fields, IsIdentifier f.2) ∧
      (∀ head, .prototype head ∈ l.sections.prototypes → ∀ c ∈ head.params, IsIdentifier c.name) ∧
      ∀ item ∈ l.sections.bodies, Mark.Declare IsIdentifier item.marks := by
  obtain ⟨accepted, -, generated, clean⟩ := accepted_of_compile h
  have legible := accepted.legible apart
  refine ⟨?_, ?_, ?_, ?_⟩
  · exact generated.trans accepted.generated_files
  · intro e n e' n' hn hn'
    exact legible.names_iff accepted.lastInstances_regular hn hn'
  · intro e n hn
    exact legible.names_isIdentifier hn
  · intro l hl
    have typeset := accepted.emitted_typeset clean hl
    refine ⟨?_, ?_, ?_, ?_⟩
    · intro item hitem n hname
      exact accepted.item_named hl typeset hitem hname
    · intro name fields hitem
      exact accepted.members_apart apart hl typeset hitem
    · intro head hhead
      exact accepted.head_isIdentifier apart hl hhead
    · intro item hitem
      exact accepted.body_declares apart hl hitem

end Accepted
/-- Two packages with declarations of the same names, a generic struct that is used with two
arguments, a field that C reserves, and a function of C. -/
def labelled : Sources :=
  ["import lib;\nstruct Box<T> \x7b T register \x7d\nint mut count;\n@extern int abs(int x);\n" ++
      "void main() \x7b Box<int> mut b; Box<Box<int>> mut w; b.register = abs(count); " ++
      "w.register = b; lib::put(b.register); \x7d",
    "package lib;\nstruct Box \x7b int v \x7d\nint mut count;\n" ++
      "void put(int x) \x7b Box mut b; b.v = x; count = b.v; \x7d"]

theorem entity_names_labelled :
    let cx := labelled.checked {} (labelled.order {})
    let last := labelled.lastInstances {} (labelled.order {})
    ∃ artifact, compile labelled {} = .ok artifact ∧ cx.NamesApart ∧
    artifact.files = (labelled.emitted {} (labelled.order {})).flatMap (·.files) ∧
    (labelled.emitted {} (labelled.order {})).map (·.sections.items.filterMap CItem.name?) =
      [["lib__Box", "lib__Box", "lib__count", "lib__count", "lib__put", "lib__put"],
        ["main__Box__0", "main__Box__1", "main__Box__0", "main__Box__1", "main__count",
          "main__count", "abs", "main__main", "main__main"]] ∧
    (∀ e n e' n', cx.Names last e n → cx.Names last e' n' → (e = e' ↔ n = n')) ∧
    ∀ l ∈ labelled.emitted {} (labelled.order {}), ∀ item ∈ l.sections.items, ∀ n,
      item.name? = some n →
        cx.isForeign l.id n = true ∨ ∃ e, cx.Names last e n ∧ item.introduces e.kind = true := by
  obtain ⟨compiles, apart, named⟩ : (compile labelled {}).toOption.isSome = true ∧
      (labelled.checked {} (labelled.order {})).NamesApart ∧
      (labelled.emitted {} (labelled.order {})).map (·.sections.items.filterMap CItem.name?) =
        [["lib__Box", "lib__Box", "lib__count", "lib__count", "lib__put", "lib__put"],
          ["main__Box__0", "main__Box__1", "main__Box__0", "main__Box__1", "main__count",
            "main__count", "abs", "main__main", "main__main"]] := by
    decide +kernel
  cases h : compile labelled {} with
  | error failure =>
    rw [h] at compiles
    cases compiles
  | ok artifact =>
    obtain ⟨files, names, identifiers, items⟩ := entity_names h apart
    exact ⟨artifact, rfl, apart, files, named, names, fun l hl => (items l hl).1⟩

/-- Two packages, the path of one of which is continued by a name of the other. -/
def spliced : Sources :=
  ["import a;\nimport a/b;\nvoid main() \x7b a::b__c(); b::c(); \x7d",
    "package a;\nvoid b__c() \x7b \x7d", "package a/b;\nvoid c() \x7b \x7d"]

/-- A struct with a field that C reserves and another that is called what the first becomes, and
locals that begin with a digit or that C takes for a keyword. -/
def crowded : Sources :=
  ["struct S \x7b int auto, int auto_ \x7d\n" ++
    "void main() \x7b S mut s; int mut 9x; int mut _Bool; 9x = s.auto; _Bool = s.auto_; \x7d"]

/-- Functions of two packages have one C name, and so have two fields of a struct; locals have
names that are no identifiers. -/
theorem entity_names_collide :
    (compile spliced {}).toOption.isSome = true ∧
    (spliced.emitted {} (spliced.order {})).map (·.sections.bodies.filterMap CItem.name?) =
      [["a__b__c"], ["a__b__c"], ["main__main"]] ∧
    (compile crowded {}).toOption.isSome = true ∧
    (crowded.emitted {} (crowded.order {})).map (·.sections.types.filterMap fun item =>
      match item with
      | .struct _ fields => some (fields.map (·.2))
      | _ => none) = [[["auto_", "auto_"]]] ∧
    (crowded.emitted {} (crowded.order {})).map (·.sections.bodies.map fun item =>
      item.marks.filterMap Mark.declared?) = [[["s", "9x", "_Bool"]]] := by
  decide +kernel

end Quill
