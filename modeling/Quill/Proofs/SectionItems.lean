import Quill.Proofs.FileSections
import Quill.Proofs.LocalNames

/-!
# Items of sections

What the sections of a package hold. All but the types are lowered declaration by declaration, under
the C names of the declarations.
-/
namespace Quill

open List

variable {item : CItem} {file : File} {st : Lowering} {package : PackageId}

inductive EntityKind where
  | function
  | global
  | struct
  /-- A type of which no more than the name is known. -/
  | unknown
  deriving DecidableEq, Repr

namespace CItem

/-- Whether the item may declare or define something of the kind. -/
def introduces : CItem → EntityKind → Bool
  | prototype _, .function | function _ _, .function | varDecl _, .global | varDef _, .global
  | forward _, .struct | struct _ _, .struct | forward _, .unknown => true
  | _, _ => false

def name? : CItem → Option String
  | forward name | struct name _ => some name
  | varDecl decl | varDef decl => some decl.name
  | prototype head | function head _ => some head.name
  | inclusion _ _ | define _ | ifNotDefined _ | endIf => none

def defines? : CItem → Option String
  | function head _ => some head.name
  | _ => none

end CItem

/-- Whether the package takes what it declares under this name from C code. -/
def Checked.isForeign (cx : Checked) (package : PackageId) (name : String) : Bool :=
  ((cx.resolution.globals.scope package).symbol? name).any (·.foreign)

def Checked.functionName (cx : Checked) (package : PackageId) (name : String) : String :=
  if cx.isForeign package name then name else cx.mangle package name

def Decl.valueKind? : Decl → Option EntityKind
  | .var _ _ => some .global
  | .header _ _ | .function _ _ _ => some .function
  | _ => none

def Checked.declName? (cx : Checked) (package : PackageId) : Decl → Option String
  | .var info decl =>
    some (if Directive.present info.directives .external then decl.name
      else cx.mangle package decl.name)
  | .header _ sig | .function _ sig _ => some (cx.functionName package sig.name)
  | _ => none

theorem getElem?_mapM {σ α β : Type} {f : α → StateM σ β} {as : List α} {s : σ} {i : Nat} {b : β}
    (h : ((as.mapM f) s).1[i]? = some b) : ∃ a s', as[i]? = some a ∧ b = (f a s').1 := by
  induction as generalizing s i with
  | nil =>
    rw [mapM_nil] at h
    cases i <;> cases h
  | cons a as ih =>
    rw [mapM_cons] at h
    replace h : ((f a s).1 :: ((as.mapM f) (f a s).2).1)[i]? = some b := h
    cases i with
    | zero => exact ⟨a, s, rfl, (Option.some.inj h).symm⟩
    | succ i => exact ih h

namespace Lower

variable {cx : Checked}

theorem name_of_prototype? {info : Info} {sig : Signature} {head : CPrototype}
    (h : (prototype? cx package info sig st).1 = some head) :
    head.name = cx.functionName package sig.name := by
  unfold prototype? at h
  generalize cx.resolution.typeOf? info.id = type at h
  rcases type with _ | t
  · cases h
  cases t with
  | function types result =>
    revert h
    show ((ite _ _ _ : Lower (Option CPrototype)) _).1 = some head → _
    split <;>
    · rintro ⟨⟩
      rfl
  | _ => cases h

/-- The item declares or defines what the declaration declares, of this kind. -/
structure IsFor (cx : Checked) (package : PackageId) (d : Decl) (kind : EntityKind) (item : CItem) :
    Prop where
  introduces : item.introduces kind = true
  kind : d.valueKind? = some kind
  name : item.name? = cx.declName? package d

/-- A declaration is lowered to items of its own name, each of the kind of its section. -/
structure Declares (cx : Checked) (package : PackageId) (d : Decl) (s : Sections) : Prop where
  includes : s.includes = []
  types : s.types = []
  vars : ∀ item ∈ s.varDecls ++ s.varDefs, item.defines? = none ∧ IsFor cx package d .global item
  prototypes : ∀ item ∈ s.prototypes, item.defines? = none ∧ IsFor cx package d .function item
  bodies : ∀ item ∈ s.bodies, IsFor cx package d .function item

theorem Declares.empty (package : PackageId) (d : Decl) : Declares cx package d {} :=
  ⟨rfl, rfl, nofun, nofun, nofun⟩

section

variable (package : PackageId) (isEntry : Bool)

theorem globalVar_declares (info : Info) (decl : VarDecl) (st : Lowering) :
    Declares cx package (.var info decl) (globalVar cx package isEntry info decl st).1 := by
  unfold globalVar
  rcases cx.resolution.typeOf? info.id with _ | t
  · exact .empty package _
  · show Declares cx package (.var info decl) ((ite _ _ _ : Lower Sections) _).1
    split
    · rename_i external
      have name : cx.declName? package (.var info decl) = some decl.name :=
        congrArg some (if_pos external)
      show Declares cx package (.var info decl) (ite _ _ _)
      split <;>
      · refine ⟨rfl, rfl, fun item hitem => ?_, nofun, nofun⟩
        obtain rfl := mem_singleton.mp hitem
        exact ⟨rfl, rfl, rfl, name.symm⟩
    · rename_i external
      have name : cx.declName? package (.var info decl) = some (cx.mangle package decl.name) :=
        congrArg some (if_neg external)
      refine ⟨rfl, rfl, fun item hitem => ?_, nofun, nofun⟩
      rcases mem_append.mp hitem with hitem | hitem
      · replace hitem : item ∈ (ite _ _ _ : List CItem) := hitem
        split at hitem
        · cases hitem
        · obtain rfl := mem_singleton.mp hitem
          exact ⟨rfl, rfl, rfl, name.symm⟩
      · obtain rfl := mem_singleton.mp hitem
        exact ⟨rfl, rfl, rfl, name.symm⟩

theorem decl_declares (known : List String) (d : Decl) (st : Lowering) :
    Declares cx package d (decl cx package isEntry known d st).1.2 := by
  cases d with
  | var info decl => exact globalVar_declares package isEntry info decl st
  | header info sig =>
    show Declares cx package (.header info sig)
      ((ite _ _ _ : Lower (List String × Sections)) st).1.2
    split
    · exact .empty package _
    · refine ⟨rfl, rfl, forall_mem_nil _, fun item hitem => ?_, forall_mem_nil _⟩
      obtain ⟨head, hhead, rfl⟩ := mem_map.mp hitem
      exact ⟨rfl, rfl, rfl, congrArg some (name_of_prototype? (Option.mem_toList.mp hhead))⟩
  | function info sig body =>
    rw [decl]
    simp only [bind, StateT.bind]
    cases hhead : (prototype? cx package info sig st).1 with
    | none =>
      generalize prototype? cx package info sig st = r at hhead ⊢
      obtain ⟨_, st'⟩ := r
      cases hhead
      exact .empty package _
    | some head =>
      have name : some head.name = cx.declName? package (.function info sig body) :=
        congrArg some (name_of_prototype? hhead)
      generalize prototype? cx package info sig st = r at hhead ⊢
      obtain ⟨_, st'⟩ := r
      cases hhead
      rcases cx.resolution.typeOf? info.id with _ | t
      · exact .empty package _
      cases t with
      | function types result =>
        show Declares cx package (.function info sig body)
          ((ite _ _ _ : Lower (List String × Sections)) _).1.2
        split
        · refine ⟨rfl, rfl, forall_mem_nil _, forall_mem_nil _, fun item hitem => ?_⟩
          obtain rfl := mem_singleton.mp hitem
          exact ⟨rfl, rfl, name⟩
        · refine ⟨rfl, rfl, forall_mem_nil _, fun item hitem => ?_, fun item hitem => ?_⟩ <;>
            obtain rfl := mem_singleton.mp hitem
          · exact ⟨rfl, rfl, rfl, name⟩
          · exact ⟨rfl, rfl, name⟩
      | _ => exact .empty package _
  | _ => exact .empty package _

theorem decls_cons (known : List String) (d : Decl) (ds : List Decl) (st : Lowering) :
    (decls cx package isEntry known (d :: ds) st).1 =
      (decl cx package isEntry known d st).1.2 ++
        (decls cx package isEntry (decl cx package isEntry known d st).1.1 ds
          (decl cx package isEntry known d st).2).1 := rfl

end

theorem exists_of_mem_decls (part : Sections → List CItem) (hnil : part {} = [])
    (happend : ∀ a b : Sections, part (a ++ b) = part a ++ part b) {isEntry : Bool}
    {known : List String} {ds : List Decl}
    (h : item ∈ part (decls cx package isEntry known ds st).1) :
    ∃ d ∈ ds, ∃ known st, item ∈ part (decl cx package isEntry known d st).1.2 := by
  induction ds generalizing known st with
  | nil =>
    rw [show (decls cx package isEntry known [] st).1 = {} from rfl, hnil] at h
    cases h
  | cons d ds ih =>
    rw [decls_cons, happend] at h
    rcases mem_append.mp h with h | h
    · exact ⟨d, mem_cons_self, known, st, h⟩
    · obtain ⟨d', hd', rest⟩ := ih h
      exact ⟨d', mem_cons_of_mem d hd', rest⟩

theorem mem_declaredStructs {d : Definition} (h : d ∈ declaredStructs cx package file) :
    ∃ info decl id,
      .struct info decl ∈ file.decls ∧ cx.resolution.typeOf? info.id = some (.struct id) ∧
      (cx.structs.get id).generics = [] ∧
      d = ⟨cx.mangle package (cx.structs.get id).name, (cx.structs.get id).fields, false,
        info.span⟩ := by
  obtain ⟨decl, hdecl, h⟩ := mem_filterMap.mp h
  split at h
  · rename_i info decl
    split at h
    · rename_i id htype
      dsimp only at h
      split at h
      · rename_i hplain
        cases h
        exact ⟨info, decl, id, hdecl, htype, List.isEmpty_iff.mp hplain, rfl⟩
      · cases h
    · cases h
  · cases h

/-- The structs that a package defines: those it declares, and the instances that it and their
fields ask for. -/
def definitions (cx : Checked) (package : PackageId) (file : File) :
    Lower (Option (List Definition)) :=
  let declared := declaredStructs cx package file
  withInstances cx file.info.span (maxDefinitions + 1 - declared.length) declared
    (declared.flatMap (mentionedInFields ·.fields) ++ usedInstances cx package)

theorem mem_types (h : item ∈ (types cx package file st).1) :
    item ∈ declaredAbstract cx file ∨
    ∃ defs, (definitions cx package file st).1 = some defs ∧ ∃ d ∈ defs, item ∈ d.announce ∨
      ∃ st', item ∈ d.define (definitionFields cx defs d.span d.fields st').1.1 := by
  have run : types cx package file = definitions cx package file >>= _ := rfl
  rw [run] at h
  simp only [bind, StateT.bind] at h
  generalize definitions cx package file st = r at h
  rcases r with ⟨_ | defs, st'⟩
  · exact .inl h
  refine (em (item ∈ declaredAbstract cx file)).imp_right fun hnot => ⟨defs, rfl, ?_⟩
  dsimp only [bind, StateT.bind] at h
  have lowered (i : Nat) (r : List (CType × String) × List Nat) :=
    @getElem?_mapM _ _ _ (fun d : Definition => definitionFields cx defs d.span d.fields) defs st' i r
  generalize List.mapM (fun d : Definition => definitionFields cx defs d.span d.fields) defs st' = rs
    at h lowered
  obtain ⟨results, st''⟩ := rs
  dsimp only at h
  generalize Graph.order _ _ = ordered at h
  rcases ordered with cycle | order
  · dsimp only at h
    generalize cycle.head?.bind _ = first at h
    rcases first with _ | d <;> exact absurd h hnot
  · replace h : item ∈ declaredAbstract cx file ++ _ ++ _ := h
    rcases mem_append.mp h with h | h
    · rcases mem_append.mp h with h | h
      · exact absurd h hnot
      · obtain ⟨d, hd, h⟩ := mem_flatMap.mp h
        exact ⟨d, hd, .inl h⟩
    · obtain ⟨i, -, h⟩ := mem_flatMap.mp h
      split at h
      · rename_i d fields needed hd hfields
        obtain ⟨_, st'', hd', hr⟩ := lowered i _ hfields
        obtain rfl := Option.some.inj (hd.symm.trans hd')
        exact ⟨d, mem_of_getElem? hd, .inr ⟨st'', by rw [← hr]; exact h⟩⟩
      · cases h

theorem defines?_of_mem_guarded {guard : String} {other : CItem} (h : other ∈ guarded guard item)
    (hitem : item.defines? = none) : other.defines? = none := by
  simp only [guarded, mem_cons, not_mem_nil, or_false] at h
  rcases h with rfl | rfl | rfl | rfl
  · rfl
  · rfl
  · exact hitem
  · rfl

theorem types_defines? (h : item ∈ (types cx package file st).1) : item.defines? = none := by
  rcases mem_types h with h | ⟨defs, -, d, -, h | ⟨st', h⟩⟩
  · obtain ⟨decl, -, h⟩ := mem_filterMap.mp h
    split at h
    · split at h
      · cases h
        rfl
      · cases h
    · cases h
  · unfold Definition.announce at h
    split at h
    · exact defines?_of_mem_guarded h rfl
    · rw [mem_singleton.mp h]
      rfl
  · unfold Definition.define at h
    dsimp only at h
    split at h
    · exact defines?_of_mem_guarded h rfl
    · rw [mem_singleton.mp h]
      rfl

theorem includes_defines? {path : PackagePath} (h : item ∈ includes cx path file) :
    item.defines? = none := by
  obtain ⟨inclusion, -, rfl⟩ := mem_map.mp h
  rfl

def Lowers (cx : Checked) (package : PackageId) (f : Signature × Block) (item : CItem) : Prop :=
  ∃ head result st, item = .function head (functionBody { cx with result } f.2.body st).1 ∧
    head.name = cx.functionName package f.1.name

theorem function_lowers (package : PackageId) (isEntry : Bool) (known : List String) {info : Info}
    {sig : Signature} (body : Block) {types : List Ty} {result : Ty}
    (htype : cx.resolution.typeOf? info.id = some (.function types result))
    (harity : types.length = sig.params.length) (st : Lowering) :
    ∃ item, (decl cx package isEntry known (.function info sig body) st).1.2.bodies = [item] ∧
      Lowers cx package (sig, body) item := by
  obtain ⟨head, hhead, -⟩ := prototype?_names cx package htype harity st
  have name := name_of_prototype? hhead
  rw [decl]
  simp only [bind, StateT.bind]
  generalize prototype? cx package info sig st = r at hhead ⊢
  obtain ⟨_, st'⟩ := r
  cases hhead
  dsimp only
  rw [htype]
  refine ⟨.function head (functionBody { cx with result } body.body st').1, ?_, head, result, st',
    rfl, name⟩
  show ((ite _ _ _ : Lower (List String × Sections)) _).1.2.bodies = _
  split <;> rfl

theorem decls_bodies (package : PackageId) (isEntry : Bool) {ds : List Decl}
    (typed : ∀ info sig body, .function info sig body ∈ ds → ∃ types result,
      cx.resolution.typeOf? info.id = some (.function types result) ∧
        types.length = sig.params.length) (known : List String) (st : Lowering) :
    List.Forall₂ (Lowers cx package) (ds.filterMap Decl.function?)
      (decls cx package isEntry known ds st).1.bodies := by
  induction ds generalizing known st with
  | nil => exact .nil
  | cons d ds ih =>
    have rest := ih (fun i s b hb => typed i s b (mem_cons_of_mem d hb))
      (decl cx package isEntry known d st).1.1 (decl cx package isEntry known d st).2
    rw [decls_cons]
    show List.Forall₂ _ _ ((decl cx package isEntry known d st).1.2.bodies ++ _)
    cases d with
    | function info sig body =>
      obtain ⟨types, result, htype, harity⟩ := typed info sig body mem_cons_self
      obtain ⟨item, hitem, lowers⟩ := function_lowers package isEntry known body htype
        harity st
      rw [hitem]
      exact .cons lowers rest
    | header info sig =>
      rw [header_bodies]
      exact rest
    | var info decl =>
      rw [show (Lower.decl cx package isEntry known (.var info decl) st).1.2.bodies = [] from
        globalVar_bodies cx package isEntry info decl st]
      exact rest
    | _ => exact rest

end Lower
end Quill
