import Quill.Proofs.EntityNames

/-!
# Structs that a package needs

A package needs the structs without parameters that it declares, the instances that are noted for
it, and every instance in a field of a struct that it needs. Its types define each of these once,
behind the structs that are stored in it.
-/
namespace Quill

open List hiding modify

/-- A struct of C: one without parameters, or a generic one with arguments. -/
inductive CStruct where
  | plain (id : StructId)
  | applied (id : StructId) (arguments : List Ty)
  deriving DecidableEq

/-- The instance occurs in the type, under pointers, in arrays or in arguments. -/
inductive Ty.Mentions (id : StructId) (as : List Ty) : Ty → Prop
  | self {v : Nat} : Ty.anyGenerics as = false → Mentions id as (.instance id as v)
  | argument {id' : StructId} {bs : List Ty} {v : Nat} {t : Ty} : t ∈ bs → Mentions id as t →
    Mentions id as (.instance id' bs v)
  | pointer {t : Ty} : Mentions id as t → Mentions id as (.pointer t)
  | mutPointer {t : Ty} : Mentions id as t → Mentions id as (.mutPointer t)
  | array {t : Ty} {n : Option Nat} : Mentions id as t → Mentions id as (.array t n)

/-- A value of the type has one of the struct in it, or an array of them. -/
inductive Ty.Stores : Ty → CStruct → Prop
  | plain {id : StructId} : Stores (.struct id) (.plain id)
  | applied {id : StructId} {as : List Ty} {v : Nat} : Stores (.instance id as v) (.applied id as)
  | array {t : Ty} {n : Option Nat} {s : CStruct} : Stores t s → Stores (.array t n) s

namespace CStruct

def id : CStruct → StructId
  | plain id | applied id _ => id

def fields (structs : StructTable) : CStruct → List (String × Ty)
  | plain id => (structs.get id).fields
  | applied id as => structs.fieldsWith id as

def Formed (cx : Checked) : CStruct → Prop
  | plain id => (cx.structs.get id).generics = []
  | applied id as => Lower.Applied cx (id, as)

def name? (cx : Checked) (last : Instances) : CStruct → Option String
  | plain id => some (cx.structName id)
  | applied id as => (last.version? id as).map (cx.instanceText id)

theorem name?_applied {cx : Checked} {last : Instances} {id : StructId} {as : List Ty} {name : String} :
    (applied id as).name? cx last = some name ↔ cx.InstanceNamed last (id, as) name := by
  unfold name? Checked.InstanceNamed
  rw [Option.map_eq_some_iff]
  simp only [eq_comm]

end CStruct

inductive Required (cx : Checked) (package : PackageId) (file : File) : CStruct → Prop
  | declared {info : Info} {decl : StructDecl} {id : StructId} :
    .struct info decl ∈ file.decls → cx.resolution.typeOf? info.id = some (.struct id) →
    (cx.structs.get id).generics = [] → Required cx package file (.plain id)
  | noted {id : StructId} {version : Nat} {i : Instance} :
    (id, version) ∈ (cx.resolution.globals.scope package).instances →
    cx.resolution.globals.instances.get? id version = some i →
    Required cx package file (.applied i.decl i.arguments)
  | mentioned {s : CStruct} {f : String × Ty} {id : StructId} {as : List Ty} :
    Required cx package file s → f ∈ s.fields cx.structs → f.2.Mentions id as →
    Required cx package file (.applied id as)

def structNames (items : List CItem) : List String :=
  items.filterMap fun
    | .struct name _ => some name
    | _ => none

/-- The structs that a package needs are defined once each, behind announcements of all, and each
behind those that are stored in it. -/
structure Completed (cx : Checked) (last : Instances) (package : PackageId) (file : File)
    (items : List CItem) : Prop where
  once : ∀ s, Required cx package file s →
    ∃ name, s.name? cx last = some name ∧ (structNames items).count name = 1
  required : ∀ name ∈ structNames items, ∃ s, Required cx package file s ∧ s.name? cx last = some name
  announced : ∃ before after, items = before ++ after ∧ structNames before = [] ∧
    ∀ name ∈ structNames items, .forward name ∈ before
  behind : ∀ s, Required cx package file s → ∀ f ∈ s.fields cx.structs, ∀ s', f.2.Stores s' →
    ∀ name name', s.name? cx last = some name → s'.name? cx last = some name' → name' ∈ structNames items →
    ∀ before after, structNames items = before ++ name :: after → name' ∈ before

namespace Lower

/-- The computation does not look at the problems that were found before. -/
def Blind {α : Type} (x : Lower α) : Prop :=
  ∀ st ps, x { st with problems := ps ++ st.problems } =
    ((x st).1, { (x st).2 with problems := ps ++ (x st).2.problems })

namespace Blind

variable {α β : Type} {cx : Checked}

theorem pure (a : α) : Blind (pure a) := fun _ _ => rfl

theorem bind {x : Lower α} {f : α → Lower β} (hx : Blind x) (hf : ∀ a, Blind (f a)) :
    Blind (x >>= f) := by
  intro st ps
  change f (x _).1 (x _).2 = _
  rw [hx st ps]
  exact hf _ _ ps

theorem mapM {f : α → Lower β} (hf : ∀ a, Blind (f a)) (as : List α) : Blind (as.mapM f) := by
  induction as with
  | nil => exact pure []
  | cons a as ih =>
    rw [mapM_cons]
    exact bind (hf a) fun b => bind ih fun bs => pure _

theorem report (problem : LoweringProblem) (span : Span) : Blind (report problem span) := by
  intro st ps
  simp [Lower.report, modify, modifyGet, MonadStateOf.modifyGet, StateT.modifyGet, Pure.pure]

theorem instanceName (id : StructId) (as : List Ty) : Blind (instanceName cx id as) := fun _ _ => rfl

theorem cType? : (t : Ty) → Blind (.cType? cx t)
  | .pointer t | .mutPointer t => by
    refine bind (cType? t) fun inner => ?_
    split
    · split <;> exact pure _
    · exact pure _
  | .array t _ => by
    refine bind (cType? t) fun inner => ?_
    split <;> exact pure _
  | .instance _ as _ => by
    unfold Lower.cType?
    split
    · exact pure _
    · exact bind (instanceName _ as) fun _ => pure _
  | .struct _ | .void | .scalar _ | .abstract _ _ _ | .generic _ _ _ | .function _ _ | .package _ =>
    pure _

theorem cType (t : Ty) (span : Span) : Blind (cType cx t span) := by
  refine bind (cType? t) fun c => ?_
  split
  · exact pure _
  · exact bind (report _ span) fun _ => pure _

theorem definitionFields (defs : List Definition) (span : Span) (fields : List (String × Ty)) :
    Blind (definitionFields cx defs span fields) := by
  induction fields with
  | nil => exact pure _
  | cons f fields ih =>
    refine bind (cType f.2 span) fun c => bind ?_ fun stored => bind ih fun more => pure _
    unfold storedName
    split
    · exact pure _
    · exact bind (cType? f.2) fun c => pure _

theorem nextInstance (defs : List Definition) (pending : List (StructId × List Ty)) :
    Blind (nextInstance cx defs pending) := by
  induction pending with
  | nil => exact pure _
  | cons u pending ih =>
    refine bind (instanceName u.1 u.2) fun name => ?_
    split
    · exact ih
    · exact pure _

theorem withInstances (span : Span) (budget : Nat) (defs : List Definition)
    (pending : List (StructId × List Ty)) : Blind (withInstances cx span budget defs pending) := by
  fun_induction Lower.withInstances cx span budget defs pending with
  | case1 => exact pure _
  | case2 => exact bind (report _ span) fun _ => pure _
  | case3 budget defs waiting pending ih =>
    refine bind (nextInstance defs _) fun found => ?_
    split
    · exact ih _ _ _
    · exact pure _

theorem types (package : PackageId) (file : File) : Blind (types cx package file) := by
  refine bind (withInstances _ _ _ _) fun found => ?_
  split
  · refine bind (mapM (fun d => definitionFields _ _ _) _) fun lowered => ?_
    dsimp only
    split
    · split
      · exact bind (report _ _) fun _ => pure _
      · exact pure _
    · exact pure _
  · exact pure _

theorem ensures {x : Lower α} (hx : Blind x) {last : Instances} {post : α → Prop}
    (h : Ensures (toward last) (fun _ => True) x fun a _ => post a) {st : Lowering}
    (leads : (x st).2.instances.Leads last) (silent : (x st).2.problems = st.problems) :
    post (x st).1 := by
  have heq := hx { st with problems := [] } st.problems
  simp only [append_nil] at heq
  rw [heq] at leads silent ⊢
  refine h.ensures _ trivial ⟨leads, ?_⟩
  rw [append_right_eq_self.mp silent]
  rfl

end Blind

variable {cx : Checked} {last : Instances} {package : PackageId} {file : File}

mutual

theorem mem_mentioned_iff {id : StructId} {as : List Ty} {t : Ty} (ht : t.hasGenerics = false) :
    (id, as) ∈ mentioned t ↔ t.Mentions id as := by
  match t with
  | .pointer t | .mutPointer t | .array t _ =>
    refine (mem_mentioned_iff (t := t) ht).trans ⟨fun h => ?_, fun h => ?_⟩
    · constructor
      exact h
    · cases h
      assumption
  | .instance id' bs v =>
    rw [Ty.hasGenerics] at ht
    rw [mentioned, if_neg (Bool.eq_false_iff.mp ht), mem_append, mem_singleton,
      mem_mentionedIn_iff ht]
    constructor
    · rintro (⟨t, ht, h⟩ | h)
      · exact .argument ht h
      · cases h
        exact .self ht
    · intro h
      cases h with
      | self => exact .inr rfl
      | argument ht h => exact .inl ⟨_, ht, h⟩
  | .void | .scalar _ | .struct _ | .abstract _ _ _ | .package _ | .generic _ _ _ | .function _ _ =>
    exact iff_of_false not_mem_nil nofun

theorem mem_mentionedIn_iff {id : StructId} {as : List Ty} {ts : List Ty}
    (hts : Ty.anyGenerics ts = false) :
    (id, as) ∈ mentionedIn ts ↔ ∃ t ∈ ts, t.Mentions id as := by
  match ts with
  | [] => exact iff_of_false not_mem_nil nofun
  | t :: ts =>
    rw [Ty.anyGenerics, Bool.or_eq_false_iff] at hts
    rw [mentionedIn, mem_append, mem_mentioned_iff hts.1, mem_mentionedIn_iff hts.2]
    simp

end

theorem mem_mentionedInFields_iff {id : StructId} {as : List Ty} {fields : List (String × Ty)}
    (h : ∀ f ∈ fields, f.2.Closed cx.structs) :
    (id, as) ∈ mentionedInFields fields ↔ ∃ f ∈ fields, f.2.Mentions id as := by
  refine mem_flatMap.trans ⟨?_, ?_⟩ <;>
  · rintro ⟨f, hf, hmentions⟩
    exact ⟨f, hf, by simpa only [mem_mentioned_iff (h f hf).1] using hmentions⟩

theorem required_closed {table : PackageTable} (closed : cx.resolution.globals.Closed table)
    {s : CStruct} (h : Required cx package file s) :
    s.Formed cx ∧ ∀ f ∈ s.fields cx.structs, f.2.Closed cx.structs := by
  have applied {u : StructId × List Ty} (h : Applied cx u) :
      Applied cx u ∧ ∀ f ∈ cx.structs.fieldsWith u.1 u.2, f.2.Closed cx.structs :=
    ⟨h, h.fieldsWith closed⟩
  induction h with
  | declared _ _ plain => exact ⟨plain, closed_of_plain closed plain⟩
  | noted _ hi => exact applied (closed.instances _ (Instances.mem_of_get? hi).1)
  | mentioned _ hf hmentions ih =>
    have hclosed := ih.2 _ hf
    exact applied (applied_of_mentioned hclosed _ ((mem_mentioned_iff hclosed.1).mpr hmentions))

theorem cType?_stores {t : Ty} {s : CStruct} (h : t.Stores s) (closed : t.Closed cx.structs) :
    Ensures (toward last) (fun _ => True) (cType? cx t)
      fun r _ => ∃ c, r = some c ∧ s.name? cx last = some c.name := by
  induction h with
  | @plain id =>
    refine .pure fun _ _ => ⟨_, if_pos (List.isEmpty_iff.mpr closed.2.plain), rfl⟩
  | @applied id as v =>
    have plain : Ty.anyGenerics as = false := closed.1
    rw [cType?, if_neg (Bool.eq_false_iff.mp plain)]
    exact .bind (instanceName_named id as) fun name => .pure fun _ named =>
      ⟨_, rfl, CStruct.name?_applied.mpr named⟩
  | array _ ih =>
    refine .bind (ih closed) fun r => ?_
    rcases r with _ | c
    · refine .pure fun _ h => ?_
      obtain ⟨_, h, -⟩ := h
      cases h
    · refine .pure fun _ h => ⟨_, rfl, ?_⟩
      obtain ⟨c', h, named⟩ := h
      rw [Option.some.inj h]
      exact named

theorem storedName_named {t : Ty} {s : CStruct} (h : t.Stores s) (closed : t.Closed cx.structs) :
    Ensures (toward last) (fun _ => True) (storedName cx t)
      fun r _ => ∃ name, r = some name ∧ s.name? cx last = some name := by
  obtain ⟨use, hstored⟩ : ∃ use, t.stored? = some use := by
    induction h with
    | plain | applied => exact ⟨_, rfl⟩
    | array _ ih => exact ih closed
  rw [storedName, hstored]
  refine .bind (cType?_stores h closed) fun r => .pure fun _ hr => ?_
  obtain ⟨c, rfl, named⟩ := hr
  exact ⟨c.name, rfl, named⟩

/-- The places of all definitions that the fields store are there. -/
def Placed (cx : Checked) (last : Instances) (defs : List Definition) (fields : List (String × Ty))
    (places : List Nat) : Prop :=
  ∀ f ∈ fields, ∀ s, f.2.Stores s → ∀ name, s.name? cx last = some name → name ∈ defs.map (·.name) →
    ∃ j ∈ places, (defs.map (·.name))[j]? = some name

theorem definitionFields_placed (defs : List Definition) (span : Span) {fields : List (String × Ty)}
    (closed : ∀ f ∈ fields, f.2.Closed cx.structs) :
    Ensures (toward last) (fun _ => True) (definitionFields cx defs span fields)
      fun r _ => Placed cx last defs fields r.2 := by
  induction fields with
  | nil => exact .pure fun _ _ _ hf => absurd hf not_mem_nil
  | cons f fields ih =>
    obtain ⟨name, type⟩ := f
    obtain ⟨hclosed, closed⟩ := forall_mem_cons.mp closed
    have typed : Ensures (toward last) (fun _ => True) (cType cx type span) fun _ _ => True :=
      ⟨fun st => cType_keeps (moves_robust st) type span st .refl, fun _ _ _ => trivial⟩
    have stored : Ensures (toward last) (fun _ => True) (storedName cx type)
        fun r _ => ∀ s, type.Stores s → ∃ name, r = some name ∧ s.name? cx last = some name :=
      ⟨fun st => (LoweringLaw.storedName_keeps (L := (moves_robust st).law cx) fun _ _ => trivial) st .refl,
        fun st _ hc s hs => (storedName_named hs hclosed).ensures st trivial hc⟩
    refine .bind typed fun c => .bind stored fun r => .given (ih closed).goes fun hr => ?_
    refine .bind (ih closed) fun more => .pure fun _ hmore f hf s hs name named hname => ?_
    rcases mem_cons.mp hf with rfl | hf
    · obtain ⟨name', rfl, named'⟩ := hr s hs
      obtain rfl := Option.some.inj (named.symm.trans named')
      obtain ⟨j, hj⟩ : ∃ j, defs.findIdx? (·.name == name) = some j := by
        refine Option.isSome_iff_exists.mp ?_
        simpa [findIdx?_isSome] using hname
      obtain ⟨inside, heq, -⟩ := findIdx?_eq_some_iff_getElem.mp hj
      refine ⟨j, mem_append_left _ (Option.mem_toList.mpr hj), ?_⟩
      rw [getElem?_map, getElem?_eq_getElem inside]
      exact congrArg some (beq_iff_eq.mp heq)
    · obtain ⟨j, hj, hat⟩ := hmore f hf s hs name named hname
      exact ⟨j, mem_append_right _ hj, hat⟩

theorem eq_of_named {table : PackageTable} (closed : cx.resolution.globals.Closed table)
    (regular : last.Regular) {s s' : CStruct} (h : Required cx package file s)
    (h' : Required cx package file s') {name : String} (named : s.name? cx last = some name)
    (named' : s'.name? cx last = some name) (same : s.id = s'.id) : s = s' := by
  have formed := (required_closed closed h).1
  have formed' := (required_closed closed h').1
  cases s with
  | plain id =>
    cases s' with
    | plain id' => exact congrArg CStruct.plain same
    | applied id' as =>
      cases same
      exact absurd formed formed'.2.generic
  | applied id as =>
    cases s' with
    | plain id' =>
      cases same
      exact absurd formed' formed.2.generic
    | applied id' bs =>
      cases same
      obtain ⟨v, hv, rfl⟩ := CStruct.name?_applied.mp named
      obtain ⟨w, hw, htext⟩ := CStruct.name?_applied.mp named'
      obtain rfl : v = w := toString_inj (String.append_right_inj _ |>.mp htext)
      exact congrArg (CStruct.applied id) (regular.arguments_eq hv hw)

/-- The structs that a package needs are told by their C names. -/
structure Told (cx : Checked) (last : Instances) (package : PackageId) (file : File) : Prop where
  closed : ∀ s, Required cx package file s → ∀ f ∈ s.fields cx.structs, f.2.Closed cx.structs
  own : ∀ info decl id, .struct info decl ∈ file.decls →
    cx.resolution.typeOf? info.id = some (.struct id) → (cx.structs.get id).package = package
  nodup : ((declaredStructs cx package file).map (·.name)).Nodup
  eq_of_named : ∀ s s' name, Required cx package file s → Required cx package file s' →
    s.name? cx last = some name → s'.name? cx last = some name → s = s'

namespace Told

variable {defs : List Definition} (told : Told cx last package file)
  (defined : Defined cx last (fun u => Required cx package file (.applied u.1 u.2))
    (declaredStructs cx package file) (asked cx package file) defs)
include told defined

omit defined in
theorem name?_plain {info : Info} {decl : StructDecl} {id : StructId}
    (hdecl : .struct info decl ∈ file.decls) (ht : cx.resolution.typeOf? info.id = some (.struct id)) :
    (CStruct.plain id).name? cx last = some (cx.mangle package (cx.structs.get id).name) := by
  rw [CStruct.name?, Checked.structName, told.own info decl id hdecl ht]

theorem needed {d : Definition} (hd : d ∈ defs) : ∃ s, Required cx package file s ∧
    s.name? cx last = some d.name ∧ d.fields = s.fields cx.structs := by
  rcases defined.instances d hd with hd | ⟨⟨u, good, named, fields, -⟩, -⟩
  · obtain ⟨info, decl, id, hdecl, ht, plain, rfl⟩ := mem_declaredStructs hd
    exact ⟨.plain id, .declared hdecl ht plain, told.name?_plain hdecl ht, rfl⟩
  · exact ⟨.applied u.1 u.2, good, CStruct.name?_applied.mpr named, fields⟩

theorem fields_eq {s : CStruct} (hs : Required cx package file s) {d : Definition} (hd : d ∈ defs)
    (named : s.name? cx last = some d.name) : d.fields = s.fields cx.structs := by
  obtain ⟨s', hs', named', fields⟩ := told.needed defined hd
  obtain rfl := told.eq_of_named s s' _ hs hs' named named'
  exact fields

theorem defines {s : CStruct} (hs : Required cx package file s) :
    ∃ d ∈ defs, s.name? cx last = some d.name := by
  have covered {id : StructId} {as : List Ty} (h : Covers cx last defs (id, as)) :
      ∃ d ∈ defs, (CStruct.applied id as).name? cx last = some d.name := by
    obtain ⟨d, hd, named⟩ := h
    exact ⟨d, hd, CStruct.name?_applied.mpr named⟩
  induction hs with
  | @declared info decl id hdecl ht plain =>
    have hmem : ⟨cx.mangle package (cx.structs.get id).name, (cx.structs.get id).fields, false,
        info.span⟩ ∈ declaredStructs cx package file :=
      mem_filterMap.mpr ⟨_, hdecl, by simp [ht, plain]⟩
    exact ⟨_, defined.before hmem, told.name?_plain hdecl ht⟩
  | noted hnoted hi =>
    refine covered (defined.waiting _ (mem_append_right _ ?_))
    exact mem_filterMap.mpr ⟨_, hnoted, Option.map_eq_some_iff.mpr ⟨_, hi, rfl⟩⟩
  | @mentioned s f id as hs hf hmentions ih =>
    obtain ⟨d, hd, named⟩ := ih
    have hmem : (id, as) ∈ mentionedInFields d.fields := by
      rw [told.fields_eq defined hs hd named]
      exact (mem_mentionedInFields_iff (told.closed s hs)).mpr ⟨f, hf, hmentions⟩
    refine covered ?_
    rcases defined.instances d hd with hd | ⟨-, covers⟩
    · exact defined.waiting _ (mem_append_left _ (mem_flatMap.mpr ⟨d, hd, hmem⟩))
    · exact covers _ hmem

end Told

theorem structNames_flatMap {α : Type} (f : α → List CItem) (as : List α) :
    structNames (as.flatMap f) = as.flatMap fun a => structNames (f a) := filterMap_flatMap ..

theorem structNames_declaredAbstract (cx : Checked) (file : File) :
    structNames (declaredAbstract cx file) = [] := by
  refine filterMap_eq_nil_iff.mpr fun item hitem => ?_
  obtain ⟨d, -, hitem⟩ := mem_filterMap.mp hitem
  split at hitem
  · split at hitem <;> cases hitem
    rfl
  · cases hitem

theorem structNames_announce (d : Definition) : structNames d.announce = [] := by
  unfold Definition.announce
  split <;> rfl

theorem structNames_writtenAt {defs : List Definition} {lowered : List Members}
    (length : defs.length = lowered.length) (i : Nat) :
    structNames (writtenAt defs lowered i) = (defs.map (·.name))[i]?.toList := by
  unfold writtenAt
  rw [getElem?_map]
  split
  · rename_i d fields places hd _
    rw [hd, Definition.define]
    split <;> rfl
  · rename_i hnone
    cases hd : defs[i]? with
    | none => rfl
    | some d =>
      obtain ⟨inside, -⟩ := List.getElem?_eq_some_iff.mp hd
      exact absurd (getElem?_eq_getElem (length ▸ inside)) (hnone d _ _ hd)

theorem structNames_types (cx : Checked) (file : File) {defs : List Definition} {lowered : List Members}
    (length : defs.length = lowered.length) (order : List Nat) :
    structNames (declaredAbstract cx file ++ defs.flatMap (·.announce)) = [] ∧
    structNames (declaredAbstract cx file ++ defs.flatMap (·.announce) ++
      order.flatMap (writtenAt defs lowered)) = order.filterMap fun i => (defs.map (·.name))[i]? := by
  have front : structNames (declaredAbstract cx file ++ defs.flatMap (·.announce)) = [] := by
    rw [structNames, filterMap_append]
    refine append_eq_nil_iff.mpr ⟨structNames_declaredAbstract cx file, ?_⟩
    exact (structNames_flatMap _ defs).trans (flatMap_eq_nil_iff.mpr fun d _ => structNames_announce d)
  refine ⟨front, ?_⟩
  rw [structNames, filterMap_append]
  change structNames _ ++ structNames _ = _
  rw [front, structNames_flatMap, nil_append, filterMap_eq_flatMap_toList]
  simp only [structNames_writtenAt length]

theorem types_required {table : PackageTable} (closed : cx.resolution.globals.Closed table) :
    Ensures (toward last) (fun _ => True) (types cx package file) fun items _ =>
      Typeset cx last (fun u => Required cx package file (.applied u.1 u.2))
        (fun defs d m => Placed cx last defs d.fields m.2) package file items := by
  have mentions {s : CStruct} (hs : Required cx package file s) :
      ∀ u ∈ mentionedInFields (s.fields cx.structs), Required cx package file (.applied u.1 u.2) := by
    intro u hu
    obtain ⟨f, hf, hmentions⟩ := (mem_mentionedInFields_iff (required_closed closed hs).2).mp hu
    exact .mentioned hs hf hmentions
  refine types_typeset (fun u hu => mentions (s := .applied u.1 u.2) hu) (fun d hd => ?_) (fun u hu => ?_)
    fun defs defined d hd => definitionFields_placed defs d.span ?_
  · obtain ⟨info, decl, id, hdecl, ht, plain, rfl⟩ := mem_declaredStructs hd
    exact mentions (.declared hdecl ht plain)
  · obtain ⟨⟨id, version⟩, hnoted, hu⟩ := mem_filterMap.mp hu
    obtain ⟨i, hi, rfl⟩ := Option.map_eq_some_iff.mp hu
    exact .noted hnoted hi
  · rcases defined.instances d hd with hd | ⟨⟨u, good, named, fields, -⟩, -⟩
    · obtain ⟨info, decl, id, -, -, plain, rfl⟩ := mem_declaredStructs hd
      exact closed_of_plain closed plain
    · rw [fields]
      exact (required_closed closed good).2

theorem mem_of_finished {g : Graph} {vertices front later : List Nat} {i j : Nat}
    (h : g.Finished vertices (front ++ i :: later)) (needs : g.Needs i j) : j ∈ front := by
  have hlt := (h.behind i (by simp) j needs).2
  have hnew : i ∉ front := fun hi =>
    (nodup_append.mp h.nodup).2.2 i hi i mem_cons_self rfl
  rw [idxOf_append_of_notMem hnew, idxOf_cons_self] at hlt
  by_contra hj
  rw [idxOf_append_of_notMem hj] at hlt
  omega

theorem names_in_order {names : List String} (nodup : names.Nodup) {needs : List (List Nat)}
    (length : names.length = needs.length) {order : List Nat}
    (h : (Graph.mk needs.toArray).order (List.range names.length) = .ok order) :
    (order.filterMap (names[·]?)).Nodup ∧ (∀ name, name ∈ order.filterMap (names[·]?) ↔ name ∈ names) ∧
    ∀ before name after, order.filterMap (names[·]?) = before ++ name :: after →
      ∃ (i : Nat) (places : List Nat), names[i]? = some name ∧ needs[i]? = some places ∧
        ∀ j ∈ places, ∀ name', names[j]? = some name' → name' ∈ before := by
  obtain ⟨finished, all⟩ := Graph.finished_of_order h
  refine ⟨finished.nodup.filterMap fun i j name hi hj => ?_, fun name => ?_, ?_⟩
  · obtain ⟨inside, -⟩ := List.getElem?_eq_some_iff.mp hi
    exact (getElem?_inj inside nodup).mp (hi.trans hj.symm)
  · refine mem_filterMap.trans ⟨fun hname => ?_, fun hname => ?_⟩
    · obtain ⟨i, -, hi⟩ := hname
      exact mem_of_getElem? hi
    · obtain ⟨i, hi⟩ := mem_iff_getElem?.mp hname
      obtain ⟨inside, -⟩ := List.getElem?_eq_some_iff.mp hi
      exact ⟨i, all (mem_range.mpr inside), hi⟩
  · intro before name after hsplit
    obtain ⟨first, rest, rfl, rfl, hrest⟩ := filterMap_eq_append_iff.mp hsplit
    obtain ⟨gap, i, later, rfl, hgap, hi, -⟩ := filterMap_eq_cons_iff.mp hrest
    obtain ⟨inside, -⟩ := List.getElem?_eq_some_iff.mp hi
    have hneeds := getElem?_eq_getElem (length ▸ inside)
    refine ⟨i, _, hi, hneeds, fun j hj name' hname' => ?_⟩
    rw [← append_assoc] at finished
    have hfront := mem_of_finished (j := j) finished (by
      rw [Graph.Needs, Graph.dependencies]
      simpa [hneeds] using hj)
    rcases mem_append.mp hfront with h | h
    · exact mem_filterMap.mpr ⟨j, h, hname'⟩
    · exact absurd (hname'.symm.trans (hgap j h)) (Option.some_ne_none _)

theorem Typeset.completed (told : Told cx last package file) {items : List CItem}
    (h : Typeset cx last (fun u => Required cx package file (.applied u.1 u.2))
      (fun defs d m => Placed cx last defs d.fields m.2) package file items) :
    Completed cx last package file items := by
  cases h with
  | @written defs lowered order defined members ordered =>
  have length := members.length_eq
  obtain ⟨front, names⟩ := structNames_types cx file length order
  rw [← length_map (·.name)] at ordered
  obtain ⟨nodup, mem, behind⟩ :=
    names_in_order (defined.apart told.nodup) (by simpa using length) ordered
  rw [← names] at nodup mem behind
  have defines {name : String} (hname : name ∈ structNames (declaredAbstract cx file ++
      defs.flatMap (·.announce) ++ order.flatMap (writtenAt defs lowered))) :
      ∃ d ∈ defs, d.name = name := mem_map.mp ((mem name).mp hname)
  refine ⟨fun s hs => ?_, fun name hname => ?_, ⟨_, _, rfl, front, fun name hname => ?_⟩, ?_⟩
  · obtain ⟨d, hd, named⟩ := told.defines defined hs
    exact ⟨d.name, named, count_eq_one_of_mem nodup ((mem _).mpr (mem_map_of_mem hd))⟩
  · obtain ⟨d, hd, rfl⟩ := defines hname
    obtain ⟨s, hs, named, -⟩ := told.needed defined hd
    exact ⟨s, hs, named⟩
  · obtain ⟨d, hd, rfl⟩ := defines hname
    refine mem_append_right _ (mem_flatMap.mpr ⟨d, hd, ?_⟩)
    unfold Definition.announce
    split <;> simp [guarded]
  · intro s hs f hf s' stores name name' named named' hname' before after hsplit
    obtain ⟨i, places, hi, hplaces, later⟩ := behind before name after hsplit
    rw [getElem?_map] at hi hplaces
    obtain ⟨d, hd, rfl⟩ := Option.map_eq_some_iff.mp hi
    obtain ⟨m, hm, rfl⟩ := Option.map_eq_some_iff.mp hplaces
    have placed : Placed cx last defs d.fields m.2 := by
      obtain ⟨inside, rfl⟩ := List.getElem?_eq_some_iff.mp hd
      obtain ⟨inside', rfl⟩ := List.getElem?_eq_some_iff.mp hm
      exact (forall₂_iff_get.mp members).2 i inside inside'
    rw [told.fields_eq defined hs (mem_of_getElem? hd) named] at placed
    obtain ⟨j, hj, hat⟩ := placed f hf s' stores name' named' ((mem _).mp hname')
    exact later j hj name' hat

end Lower

namespace Accepted

variable {sources : Sources} {options : Options} {order : List PackageId}

theorem struct_declared (h : Accepted sources options order) {p : PackageId} {file : File}
    (source : (sources.table options).sourceOf? p = some file) {info : Info} {decl : StructDecl}
    (hd : .struct info decl ∈ file.decls) {id : StructId}
    (ht : (sources.checked options order).resolution.typeOf? info.id = some (.struct id)) :
    ((sources.checked options order).structs.get id).package = p ∧
    ((sources.checked options order).structs.get id).name = decl.name ∧ ∃ s,
      ((sources.resolved options order).1.globals.scope p).symbol? decl.name = some s ∧
      s.node = info.id := by
  obtain ⟨s, hs, ⟨hnode, id', shape⟩, own⟩ :=
    resolve_owned h.holds sources.nodes_apart order _ source hd rfl ht
  obtain rfl : id = id' := by
    rw [shape] at own
    exact Ty.struct.inj own
  have hmem := mem_of_find?_eq_some hs
  obtain ⟨-, hpackage, -⟩ := h.closed.shells p s hmem id shape
  refine ⟨hpackage, ?_, s, hs, hnode⟩
  exact (h.titled.named p s hmem id shape).2.trans (Scope.name_of_symbol? hs)

/-- The structs that a package declares have different C names: one name has one symbol, which is made
for one declaration. -/
theorem declaredStructs_nodup (h : Accepted sources options order) {p : PackageId} {file : File}
    (source : (sources.table options).sourceOf? p = some file) :
    ((Lower.declaredStructs (sources.checked options order) p file).map (·.name)).Nodup := by
  have symbol {decl : Decl} (hdecl : decl ∈ file.decls) {d : Lower.Definition}
      (hd : d ∈ Lower.declaredStructs (sources.checked options order) p { file with decls := [decl] }) :
      ∃ name s, d.name = (sources.checked options order).mangle p name ∧
        ((sources.resolved options order).1.globals.scope p).symbol? name = some s ∧
        s.node = decl.id := by
    obtain ⟨info, struct, id, hmem, ht, -, rfl⟩ := Lower.mem_declaredStructs hd
    obtain rfl := mem_singleton.mp hmem
    obtain ⟨-, hname, s, hs, hnode⟩ := h.struct_declared source hdecl ht
    refine ⟨struct.name, s, ?_, hs, hnode⟩
    rw [← hname]
  have apart := (nodup_flatMap.mp
    (sources.nodes_apart file (h.holds.among p file source))).2
  rw [List.Nodup, pairwise_map, Lower.declaredStructs, pairwise_filterMap]
  refine apart.imp_of_mem fun {decl decl'} hdecl hdecl' disjoint d hd d' hd' heq => ?_
  obtain ⟨name, s, hname, hs, hnode⟩ := symbol hdecl (mem_filterMap.mpr ⟨decl, by simp, hd⟩)
  obtain ⟨name', s', hname', hs', hnode'⟩ :=
    symbol hdecl' (mem_filterMap.mpr ⟨decl', by simp, hd'⟩)
  rw [hname, hname'] at heq
  obtain rfl := PackagePath.mangle_inj.mp heq
  obtain rfl := Option.some.inj (hs.symm.trans hs')
  refine disjoint (Decl.id_mem_ids _) ?_
  show decl.id ∈ _
  rw [← hnode, hnode']
  exact Decl.id_mem_ids _

end Accepted

/-- The types of a package that are written without a problem. -/
theorem structs_complete {sources : Sources} {options : Options} {order : List PackageId}
    (h : Accepted sources options order) {p : PackageId} {file : File}
    (source : (sources.table options).sourceOf? p = some file) {st : Lowering}
    (later : (sources.checked options order).resolution.globals.instances.Leads st.instances)
    (silent : (Lower.types (sources.checked options order) p file st).2.problems = st.problems)
    (apart : ∀ s s' name, Required (sources.checked options order) p file s →
      Required (sources.checked options order) p file s' →
      s.name? (sources.checked options order)
        (Lower.types (sources.checked options order) p file st).2.instances = some name →
      s'.name? (sources.checked options order)
        (Lower.types (sources.checked options order) p file st).2.instances = some name →
      s.id = s'.id) :
    Completed (sources.checked options order)
      (Lower.types (sources.checked options order) p file st).2.instances p file
      (Lower.types (sources.checked options order) p file st).1 := by
  have leads : st.instances.Leads (Lower.types (sources.checked options order) p file st).2.instances :=
    ((Lowering.leads_robust st.instances).law _).types_keeps p file st .refl
  have regular := Instances.Leads.regular (later.trans leads) (resolve_regular _ order _)
  have typeset := (Lower.Blind.types p file).ensures (Lower.types_required h.closed) .refl silent
  refine typeset.completed ⟨fun s hs => (Lower.required_closed h.closed hs).2, fun info decl id hd ht =>
    (h.struct_declared source hd ht).1, h.declaredStructs_nodup source, fun s s' name hs hs' hn hn' => ?_⟩
  exact Lower.eq_of_named h.closed regular hs hs' hn hn' (apart s s' name hs hs' hn hn')

/-- In the list are the structs that a package declares, those that are noted for it, and those that
the fields of its members mention. -/
def Encloses (cx : Checked) (package : PackageId) (file : File) (all : List CStruct) : Prop :=
  (∀ d ∈ file.decls, ∀ t ∈ cx.resolution.typeOf? d.id, ∀ use ∈ t.stored?,
    (cx.structs.get use.1).generics = [] → .plain use.1 ∈ all) ∧
  (∀ u ∈ Lower.usedInstances cx package, .applied u.1 u.2 ∈ all) ∧
  ∀ s ∈ all, ∀ u ∈ Lower.mentionedInFields (s.fields cx.structs), .applied u.1 u.2 ∈ all

instance (cx : Checked) (package : PackageId) (file : File) (all : List CStruct) :
    Decidable (Encloses cx package file all) := inferInstanceAs (Decidable (_ ∧ _ ∧ _))

theorem Encloses.mem {sources : Sources} {options : Options} {order : List PackageId}
    {package : PackageId} {file : File} {all : List CStruct}
    (h : Encloses (sources.checked options order) package file all)
    (accepted : Accepted sources options order) {s : CStruct}
    (hs : Required (sources.checked options order) package file s) : s ∈ all := by
  obtain ⟨declared, noted, mentioned⟩ := h
  induction hs with
  | declared hdecl ht plain => exact declared _ hdecl _ ht _ rfl plain
  | noted hnoted hi =>
    exact noted _ (mem_filterMap.mpr ⟨_, hnoted, Option.map_eq_some_iff.mpr ⟨_, hi, rfl⟩⟩)
  | mentioned hs hf hmentions ih =>
    have fields := (Lower.required_closed accepted.closed hs).2
    exact mentioned _ ih (_, _) ((Lower.mem_mentionedInFields_iff fields).mpr ⟨_, hf, hmentions⟩)

/-- A struct with a generic one in it that has an array of another one and a pointer to its own kind,
and with a pointer to a third that stores a fourth. -/
def shelf : Sources :=
  ["struct Pair<T> \x7b T first, T second \x7d\nstruct Box<T> \x7b Pair<T>[2] pairs, Box<T>* next \x7d\n" ++
    "struct Shelf \x7b Box<int> box, Pair<Pair<bool>>* far \x7d\nvoid main() \x7b \x7d"]

theorem structs_complete_shelf :
    let cx := shelf.checked {} [0]
    ∃ file, (shelf.table {}).sourceOf? 0 = some file ∧
      let out := Lower.types cx 0 file { instances := cx.resolution.globals.instances }
      structNames out.1 =
        ["main__Pair__2", "main__Box__0", "main__Shelf", "main__Pair__0", "main__Pair__1"] ∧
      Completed cx out.2.instances 0 file out.1 := by
  have accepted : Accepted shelf {} [0] := by decide +kernel
  have facts : ∀ file ∈ (shelf.table {}).sourceOf? 0,
      let cx := shelf.checked {} [0]
      let out := Lower.types cx 0 file { instances := cx.resolution.globals.instances }
      let all : List CStruct := [.plain 2, .applied 1 [.scalar .int], .applied 0 [.scalar .int],
        .applied 0 [.scalar .bool], .applied 0 [.instance 0 [.scalar .bool] 0]]
      out.2.problems.length = 0 ∧ structNames out.1 =
        ["main__Pair__2", "main__Box__0", "main__Shelf", "main__Pair__0", "main__Pair__1"] ∧
      Encloses cx 0 file all ∧ ∀ s ∈ all, ∀ s' ∈ all,
        s.name? cx out.2.instances = s'.name? cx out.2.instances → s.id = s'.id := by
    decide +kernel
  obtain ⟨file, source⟩ : ∃ file, (shelf.table {}).sourceOf? 0 = some file :=
    Option.isSome_iff_exists.mp (by decide +kernel)
  obtain ⟨silent, names, encloses, apart⟩ := facts file source
  -- For any sources, so that nothing is computed when types are compared.
  have complete (sources : Sources) (h : Accepted sources {} [0])
      (source : (sources.table {}).sourceOf? 0 = some file) :=
    @structs_complete sources {} [0] h 0 file source
      { instances := (sources.checked {} [0]).resolution.globals.instances } .refl
  refine ⟨file, source, names, complete shelf accepted source (length_eq_zero_iff.mp silent)
    fun s s' name hs hs' hname hname' => ?_⟩
  exact apart s (encloses.mem accepted hs) s' (encloses.mem accepted hs') (hname.trans hname'.symm)

/-- A generic struct whose instance has the C name of a declared struct. -/
def boxed : Sources :=
  ["struct Pair<T> \x7b T v \x7d struct Box<T> \x7b Pair<T> p \x7d struct Box__0 \x7b int x \x7d\n" ++
    "void main() \x7b Box<int> b; \x7d"]

/-- The instance counts as defined, and what its field mentions is left out. -/
theorem structs_incomplete :
    let cx := boxed.checked {} [0]
    (compile boxed {}).toOption.isSome = true ∧ ∃ file, (boxed.table {}).sourceOf? 0 = some file ∧
      let out := Lower.types cx 0 file { instances := cx.resolution.globals.instances }
      let pair := CStruct.applied 0 [.scalar .int]
      out.2.problems.length = 0 ∧ Required cx 0 file pair ∧ structNames out.1 = ["main__Box__0"] ∧
      ∀ name, pair.name? cx out.2.instances = some name → name ∉ structNames out.1 := by
  have facts : ∀ file ∈ (boxed.table {}).sourceOf? 0,
      let cx := boxed.checked {} [0]
      let out := Lower.types cx 0 file { instances := cx.resolution.globals.instances }
      out.2.problems.length = 0 ∧ structNames out.1 = ["main__Box__0"] ∧
      (∀ name ∈ (CStruct.applied 0 [.scalar .int]).name? cx out.2.instances, name ∉ structNames out.1) ∧
      (1, 0) ∈ (cx.resolution.globals.scope 0).instances ∧
      (cx.resolution.globals.instances.get? 1 0).map (fun i => (i.decl, i.arguments)) =
        some (1, [.scalar .int]) ∧
      (CStruct.applied 1 [.scalar .int]).fields cx.structs = [("p", .instance 0 [.scalar .int] 0)] := by
    decide +kernel
  obtain ⟨compiles, hsource⟩ : (compile boxed {}).toOption.isSome = true ∧
      ((boxed.table {}).sourceOf? 0).isSome = true := by decide +kernel
  obtain ⟨file, source⟩ := Option.isSome_iff_exists.mp hsource
  obtain ⟨silent, names, missing, hnoted, hget, hfields⟩ := facts file source
  refine ⟨compiles, file, source, silent, ?_, names, missing⟩
  obtain ⟨i, hi, heq⟩ := Option.map_eq_some_iff.mp hget
  have box : Required (boxed.checked {} [0]) 0 file (.applied i.decl i.arguments) := .noted hnoted hi
  rw [(Prod.mk.inj heq).1, (Prod.mk.inj heq).2] at box
  exact .mentioned box (hfields ▸ mem_singleton_self _) (.self rfl)

end Quill
