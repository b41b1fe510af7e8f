import Quill.Proofs.InstanceNames
import Quill.Proofs.SectionItems
import Quill.Proofs.StructNames

/-!
# Definitions of structs

A package defines the structs without parameters that it declares, and instances: those it uses, and
with every definition those that its fields mention.
-/
namespace Quill

open List
open Relation (ReflTransGen)

namespace Lower

variable {defs : List Definition} {u : StructId × List Ty}

inductive Moves : Lowering → Lowering → Prop
  | instantiate (st : Lowering) (decl : StructId) (arguments : List Ty) :
    Moves st { st with instances := (st.instances.instantiate decl arguments).2 }
  | report (st : Lowering) (problem : LoweringProblem) (span : Span) :
    Moves st (report problem span st).2

/-- Lowering on the way to its last instances, without a problem. -/
def toward (last : Instances) : Walk Lowering where
  Step := Moves
  Clean st := st.instances.Leads last ∧ Diagnostic.Clean st.problems
  back h hc := by
    cases h with
    | instantiate decl arguments => exact ⟨(Instances.Leads.single ..).trans hc.1, hc.2⟩
    | report problem span => exact ⟨hc.1, Diagnostic.Clean.of_prefix hc.2 (prefix_append _ _)⟩

theorem moves_robust (st : Lowering) : Lowering.Robust (ReflTransGen Moves st) where
  instantiate s decl as h := h.tail (.instantiate s decl as)
  report s problem span _ h := h.tail (.report s problem span)

end Lower

namespace Checked

/-- The C name of a struct, or what the names of its instances begin with. -/
def structName (cx : Checked) (id : StructId) : String :=
  cx.mangle (cx.structs.get id).package (cx.structs.get id).name

def instanceText (cx : Checked) (id : StructId) (version : Nat) : String :=
  cx.structName id ++ "__" ++ toString version

/-- The C name of an instance, told by its last version. -/
def InstanceNamed (cx : Checked) (last : Instances) (u : StructId × List Ty) (name : String) : Prop :=
  ∃ v, last.version? u.1 u.2 = some v ∧ name = cx.instanceText u.1 v

end Checked

namespace Lower

variable {cx : Checked} {last : Instances}

theorem instanceName_named (id : StructId) (as : List Ty) :
    Ensures (toward last) (fun _ => True) (instanceName cx id as)
      fun name _ => cx.InstanceNamed last (id, as) name where
  goes st := .single (.instantiate st id as)
  ensures st _ hc :=
    ⟨_, Instances.Leads.version? hc.1 (Instances.version?_instantiate_self st.instances id as), rfl⟩

theorem report_ensures (problem : LoweringProblem) (span : Span) {pre : Lowering → Prop} :
    Ensures (toward last) pre (report problem span) fun _ _ => False :=
  .modify (fun st => .report st problem span) fun st _ hc =>
    Diagnostic.not_clean_report st.problems rfl span hc.2

/-- Some of the definitions has the name of the instance. -/
def Covers (cx : Checked) (last : Instances) (defs : List Definition) (u : StructId × List Ty) :
    Prop :=
  ∃ d ∈ defs, cx.InstanceNamed last u d.name

structure Definition.Of (cx : Checked) (last : Instances) (d : Definition)
    (u : StructId × List Ty) : Prop where
  named : cx.InstanceNamed last u d.name
  fields : d.fields = cx.structs.fieldsWith u.1 u.2
  isInstance : d.isInstance = true

/-- The next instance of a queue that is not defined, with its name, its fields and the rest of the
queue, if there is one. -/
inductive Next (cx : Checked) (last : Instances) (defs : List Definition) :
    List (StructId × List Ty) →
    Option (String × List (String × Ty) × List (StructId × List Ty)) → Prop
  | done {pending : List (StructId × List Ty)} (covered : ∀ u ∈ pending, Covers cx last defs u) :
    Next cx last defs pending none
  | found {before rest : List (StructId × List Ty)} {u : StructId × List Ty} {name : String}
    (covered : ∀ w ∈ before, Covers cx last defs w) (named : cx.InstanceNamed last u name)
    (fresh : name ∉ defs.map (·.name)) :
    Next cx last defs (before ++ u :: rest) (some (name, cx.structs.fieldsWith u.1 u.2, rest))

theorem Next.cons {pending : List (StructId × List Ty)}
    {r : Option (String × List (String × Ty) × List (StructId × List Ty))}
    (h : Next cx last defs pending r) (hu : Covers cx last defs u) :
    Next cx last defs (u :: pending) r := by
  cases h with
  | done covered => exact .done (forall_mem_cons.mpr ⟨hu, covered⟩)
  | @found before rest w name covered named fresh =>
    have front := forall_mem_cons.mpr ⟨hu, covered⟩
    exact @Next.found cx last defs (u :: before) rest w name front named fresh

theorem nextInstance_next (defs : List Definition) (pending : List (StructId × List Ty)) :
    Ensures (toward last) (fun _ => True) (nextInstance cx defs pending)
      fun r _ => Next cx last defs pending r := by
  induction pending with
  | nil => exact .pure fun _ _ => .done nofun
  | cons u pending ih =>
    obtain ⟨id, as⟩ := u
    rw [nextInstance]
    refine .bind (instanceName_named id as) fun name => ?_
    split
    · rename_i hdefined
      obtain ⟨d, hd, heq⟩ := any_eq_true.mp hdefined
      exact .given ih.goes fun named => ih.weaken (fun _ h => h) fun _ _ h =>
        h.cons ⟨d, hd, beq_iff_eq.mp heq ▸ named⟩
    · rename_i hfresh
      have fresh : name ∉ defs.map (·.name) := by simpa using hfresh
      exact .pure fun _ named => @Next.found cx last defs [] pending (id, as) name nofun named fresh

/-- What is defined besides `defs`: instances of the kind `Good`, each with those that its fields
mention, and those that are waiting. -/
structure Defined (cx : Checked) (last : Instances) (Good : StructId × List Ty → Prop)
    (defs : List Definition) (pending : List (StructId × List Ty)) (out : List Definition) : Prop where
  before : defs ⊆ out
  instances : ∀ d ∈ out, d ∈ defs ∨ (∃ u, Good u ∧ d.Of cx last u) ∧
    ∀ w ∈ mentionedInFields d.fields, Covers cx last out w
  waiting : ∀ u ∈ pending, Covers cx last out u
  apart : (defs.map (·.name)).Nodup → (out.map (·.name)).Nodup

variable {Good : StructId × List Ty → Prop}

theorem Covers.mono {out : List Definition} (h : defs ⊆ out) (hu : Covers cx last defs u) :
    Covers cx last out u := by
  obtain ⟨d, hd, named⟩ := hu
  exact ⟨d, h hd, named⟩

theorem Defined.done {pending : List (StructId × List Ty)}
    (h : ∀ u ∈ pending, Covers cx last defs u) : Defined cx last Good defs pending defs :=
  ⟨List.Subset.refl _, fun _ => .inl, h, id⟩

theorem Defined.step {out : List Definition} {before rest : List (StructId × List Ty)}
    {name : String} {span : Span} (covered : ∀ w ∈ before, Covers cx last defs w)
    (named : cx.InstanceNamed last u name) (fresh : name ∉ defs.map (·.name)) (good : Good u)
    (h : Defined cx last Good (defs ++ [⟨name, cx.structs.fieldsWith u.1 u.2, true, span⟩])
      (rest ++ mentionedInFields (cx.structs.fieldsWith u.1 u.2)) out) :
    Defined cx last Good defs (before ++ u :: rest) out := by
  obtain ⟨added, instances, waiting, apart⟩ := h
  obtain ⟨old, new⟩ := append_subset.mp added
  obtain ⟨hrest, hfields⟩ := forall_mem_append.mp waiting
  refine ⟨old, fun d hd => ?_, forall_mem_append.mpr
    ⟨fun w hw => (covered w hw).mono old, forall_mem_cons.mpr ⟨?_, hrest⟩⟩, fun h => apart ?_⟩
  · rcases instances d hd with hd | hd
    · rcases mem_append.mp hd with hd | hd
      · exact .inl hd
      · obtain rfl := mem_singleton.mp hd
        exact .inr ⟨⟨u, good, named, rfl, rfl⟩, hfields⟩
    · exact .inr hd
  · exact ⟨_, new mem_cons_self, named⟩
  · rw [map_append, map_singleton, ← concat_eq_append]
    exact h.concat fresh

theorem withInstances_defined
    (fields : ∀ u, Good u → ∀ w ∈ mentionedInFields (cx.structs.fieldsWith u.1 u.2), Good w)
    (span : Span) (budget : Nat) (defs : List Definition) {pending : List (StructId × List Ty)}
    (good : ∀ u ∈ pending, Good u) :
    Ensures (toward last) (fun _ => True) (withInstances cx span budget defs pending)
      fun r _ => ∃ out, r = some out ∧ Defined cx last Good defs pending out := by
  have goes (budget : Nat) (defs : List Definition) (pending : List (StructId × List Ty))
      (st : Lowering) : ReflTransGen Moves st (withInstances cx span budget defs pending st).2 :=
    withInstances_keeps (moves_robust st) span budget defs pending st .refl
  have finished (defs : List Definition) :
      Ensures (toward last) (fun _ => True) (pure (some defs) : Lower (Option (List Definition)))
        fun r _ => ∃ out, r = some out ∧ Defined cx last Good defs [] out :=
    .pure fun _ _ => ⟨defs, rfl, .done nofun⟩
  induction budget generalizing defs pending with
  | zero =>
    cases pending with
    | nil => exact finished defs
    | cons u pending => exact .bind (report_ensures _ _) fun _ => .pure fun _ h => h.elim
  | succ budget ih =>
    cases pending with
    | nil => exact finished defs
    | cons u pending =>
      rw [withInstances]
      generalize u :: pending = waiting at good ⊢
      refine .bind (nextInstance_next defs waiting) fun r => ?_
      rcases r with _ | ⟨name, fields', rest⟩
      · refine .pure fun _ next => ?_
        cases next with
        | done covered => exact ⟨defs, rfl, .done covered⟩
      · refine .given (goes budget _ _) fun next => ?_
        cases next with
        | @found before _ w _ covered named fresh =>
          have hw : Good w := good w (mem_append_right _ mem_cons_self)
          refine (ih _ (forall_mem_append.mpr ⟨fun x hx => good x ?_, fields w hw⟩)).weaken
            (fun _ h => h) ?_
          · exact mem_append_right _ (mem_cons_of_mem w hx)
          · rintro _ _ ⟨out, hout, h⟩
            exact ⟨out, hout, .step covered named fresh hw h⟩

def asked (cx : Checked) (package : PackageId) (file : File) : List (StructId × List Ty) :=
  (declaredStructs cx package file).flatMap (mentionedInFields ·.fields) ++ usedInstances cx package

/-- The fields of a definition in C, and the places of the definitions they store inline. -/
abbrev Members := List (CType × String) × List Nat

def writtenAt (defs : List Definition) (lowered : List Members) (i : Nat) : List CItem :=
  match defs[i]?, lowered[i]? with
  | some d, some (fields, _) => d.define fields
  | _, _ => []

/-- The types of a package: unknown ones, announcements of all structs, and their definitions in an
order in which each stands behind those it stores inline. Of members it is known what `Lowered`
tells. -/
inductive Typeset (cx : Checked) (last : Instances) (Good : StructId × List Ty → Prop)
    (Lowered : List Definition → Definition → Members → Prop) (package : PackageId) (file : File) :
    List CItem → Prop
  | written {defs : List Definition} {lowered : List Members} {order : List Nat}
    (defined : Defined cx last Good (declaredStructs cx package file) (asked cx package file) defs)
    (members : List.Forall₂ (Lowered defs) defs lowered)
    (ordered : (Graph.mk (lowered.map (·.2)).toArray).order (List.range defs.length) = .ok order) :
    Typeset cx last Good Lowered package file (declaredAbstract cx file ++
      defs.flatMap (·.announce) ++ order.flatMap (writtenAt defs lowered))

theorem exists_of_cycle {defs : List Definition} {lowered : List Members}
    (length : defs.length = lowered.length) {vertices cycle : List Nat}
    (h : (Graph.mk (lowered.map (·.2)).toArray).order vertices = .error cycle) :
    ∃ d, cycle.head?.bind (defs[·]?) = some d := by
  obtain ⟨isCycle, -⟩ := Graph.isCycle_of_order h
  have leads := isCycle.transGen
  obtain ⟨i, hi⟩ := Option.ne_none_iff_exists'.mp (mt head?_eq_none_iff.mp isCycle.nonempty)
  rw [(head_eq_iff_head?_eq_some isCycle.nonempty).mpr hi] at leads
  obtain ⟨j, needs, -⟩ := Relation.TransGen.head'_iff.mp leads
  have inside := Graph.lt_size_of_needs needs
  simp only [Graph.size, size_toArray, length_map, ← length] at inside
  exact ⟨defs[i], by rw [hi]; exact getElem?_eq_getElem inside⟩

theorem types_typeset {Lowered : List Definition → Definition → Members → Prop}
    (fields : ∀ u, Good u → ∀ w ∈ mentionedInFields (cx.structs.fieldsWith u.1 u.2), Good w)
    {package : PackageId} {file : File}
    (declared : ∀ d ∈ declaredStructs cx package file, ∀ u ∈ mentionedInFields d.fields, Good u)
    (used : ∀ u ∈ usedInstances cx package, Good u)
    (members : ∀ defs,
      Defined cx last Good (declaredStructs cx package file) (asked cx package file) defs →
      ∀ d ∈ defs, Ensures (toward last) (fun _ => True) (definitionFields cx defs d.span d.fields)
        fun r _ => Lowered defs d r) :
    Ensures (toward last) (fun _ => True) (types cx package file)
      fun items _ => Typeset cx last Good Lowered package file items := by
  have waiting : ∀ u ∈ asked cx package file, Good u := by
    refine forall_mem_append.mpr ⟨fun u hu => ?_, used⟩
    obtain ⟨d, hd, hu⟩ := mem_flatMap.mp hu
    exact declared d hd u hu
  refine .bind (withInstances_defined fields _ _ _ waiting) fun found => ?_
  rcases found with _ | defs
  · refine .pure fun _ h => ?_
    obtain ⟨_, hout, -⟩ := h
    cases hout
  refine .given (fun st => ?_) fun h => ?_
  · refine (Keeps.bind (Keeps.mapM fun d _ => definitionFields_keeps (moves_robust st) defs _ _)
      fun lowered => ?_) st .refl
    dsimp only
    split
    · split
      · exact .bind (report_keeps (moves_robust st) rfl _) fun _ => .pure _
      · exact .pure _
    · exact .pure _
  obtain ⟨_, hout, defined⟩ := h
  obtain rfl := Option.some.inj hout
  refine .bind (.mapM fun d hd => members defs defined d hd) fun lowered => ?_
  dsimp only
  split
  · rename_i cycle hcycle
    split
    · exact .bind (report_ensures _ _) fun _ => .pure fun _ h => h.elim
    · rename_i hnone
      refine .pure fun _ members => ?_
      obtain ⟨d, hd⟩ := exists_of_cycle members.length_eq hcycle
      exact absurd hd (hnone d)
  · rename_i order hordered
    exact .pure fun _ members => .written defined members hordered

theorem definitionFields_names (defs : List Definition) (span : Span) (fields : List (String × Ty))
    (st : Lowering) : (definitionFields cx defs span fields st).1.1.map (·.2) =
      fields.map (cIdent ·.1) := by
  induction fields generalizing st with
  | nil => rfl
  | cons f fields ih =>
    obtain ⟨name, type⟩ := f
    rw [definitionFields]
    simp only [bind, StateT.bind]
    exact congrArg (cIdent name :: ·) (ih _)

theorem emitted_clean {ids : List PackageId}
    (complete : ∀ id ∈ ids, ∀ file, cx.table.sourceOf? id = some file →
      ∀ d ∈ file.decls, d.Complete cx.resolution.facts) {st : Lowering}
    (hc : (toward last).Clean (emitted cx ids st).2) {l : Emitted} (hl : l ∈ (emitted cx ids st).1) :
    ∃ st', l.sections = (package cx l.id l.path l.isEntry l.file st').1 ∧
      (toward last).Clean (package cx l.id l.path l.isEntry l.file st').2 := by
  induction ids generalizing st with
  | nil => exact absurd hl not_mem_nil
  | cons id ids ih =>
    have rest {st' : Lowering} := @ih (fun id' hid' => complete id' (mem_cons_of_mem id hid')) st'
    rw [emitted] at hl hc
    rcases hget : cx.table.get? id with _ | ⟨path, _ | file, isEntry, _ | header⟩ <;>
      rw [hget] at hl hc
    case cons.some.some.none =>
      rcases mem_cons.mp hl with rfl | hl
      · refine ⟨st, rfl, (toward last).clean_of_steps ?_ hc⟩
        have later := files_keeps (moves_robust (package cx id path isEntry file st).2)
          (fun id' hid' => complete id' (mem_cons_of_mem id hid')) _ .refl
        rw [files_eq] at later
        exact later
      · exact rest hc hl
    all_goals exact rest hc hl

end Lower
end Quill
