import Quill.Proofs.CompleteBody
import Quill.Proofs.Declared

/-!
# Complete packages

Every declaration finds its own symbol when it is checked, and all that was learned about it is
still known at the end.
-/
namespace Quill

open Checking List Ensures Survey Decl

variable {file : File} {files : List File} {id : PackageId} {table : PackageTable}

def Decl.contained : Decl → Bool
  | .function _ _ body => Stmt.allContained body.body
  | _ => true

/-- All that lowering needs of the declaration is known, and what it defers does not escape. -/
def Decl.Passed (f : Facts) (d : Decl) : Prop := d.Complete f ∧ d.contained = true

theorem Decl.stays {touched : Nat → Prop} (d : Decl) (h : ∀ i ∈ d.ids .node, ¬ touched i) :
    Stays touched (d.Passed ·) := by
  intro f f' hf hp
  refine ⟨?_, hp.2⟩
  have hc := hp.1
  cases d with
  | function info sig body =>
    refine ⟨hf.type _ hc.1, Stmt.allStays body.body (fun i hi => h i ?_) f f' hf hc.2⟩
    simp [ids, Block.ids, hi]
  | var info decl => exact ⟨hf.type _ hc.1, Expr.optionStays touched _ f f' hf hc.2⟩
  | struct | typedef | header => exact hf.type _ hc
  | separator | package | imports => trivial

namespace Check

/-- Something is known, and the packages show the names that `g` shows. -/
structure Standing (g : Globals) (I : Facts → Prop) (st : Checking) : Prop extends Sound I st where
  settled : g.Settled st.globals

variable {g : Globals} {touched : Nat → Prop} {pre : Facts → Prop}

theorem standing {α : Type} {step : Check α} {post : α → Facts → Prop}
    (h : Ensures (walk touched) (Standing g pre) step fun a => Sound (post a)) :
    Ensures (walk touched) (Standing g pre) step fun a => Standing g (post a) := by
  have hsettled {st st' : Checking} (hs : Step touched st st') :
      g.Settled st.globals → g.Settled st'.globals := fun hg => hg.trans hs.later.onward.toSettled
  exact (h.carry hsettled).weaken (fun _ hp => ⟨hp, hp.settled⟩) fun _ _ hp => ⟨hp.1, hp.2⟩

theorem ownSymbol?_learns {package : PackageId} {d : Decl} {name : String}
    (hname : d.name? = some name) :
    Ensures (walk touched) (Standing g fun _ => g.Declares package d)
      (ownSymbol? package name) fun r => Sound fun _ => ∃ s, r = some s ∧ s.StandsFor d := by
  refine .get fun now => .pure fun st hp => ⟨hp.2.locals, ?_⟩
  obtain ⟨s, hs, hstands⟩ := hp.2.facts name hname
  refine ⟨s, ?_, hstands⟩
  rw [← hs, ← hp.1]
  exact hp.2.settled.symbol? package name

theorem params_learns (ps : List Param) (ts : List Ty) :
    Learns touched pre (params ps ts) fun _ => pre := by
  induction ps generalizing ts with
  | nil => exact .pure fun _ h => h
  | cons p ps ih =>
    cases ts with
    | nil => exact .pure fun _ h => h
    | cons t ts =>
      refine bind (Learns.weaken (declareLocal_learns _) (fun _ h => ⟨rfl, h⟩)
        fun _ _ h => h) fun _ => ih ts

theorem function_learns {info : Info} {sig : Signature} {body : Block} (package : PackageId)
    (types : List Ty) (result : Ty) (hs : ((function info sig body).ids .node).Nodup) :
    Learns (· ∈ (function info sig body).ids .node) (fun _ => True)
      (do
        setType info.id (.function types result)
        pushScope
        params sig.params types
        stmts { package, result } body.body
        popScope)
      fun _ => ((function info sig body).Passed ·) := by
  have hbody : (Stmt.allIds .node body.body).Nodup := by
    rw [ids, Block.ids] at hs
    exact (nodup_append.mp (nodup_append.mp (nodup_append.mp hs).1).2.1).1
  have hpart : ∀ i, i ∈ Stmt.allIds .node body.body →
      i ∈ (function info sig body).ids .node := fun i hi => by simp [ids, Block.ids, hi]
  have hstmts := Learns.mono ((stmts_learns { package, result } body.body hbody).carry
    (fun f f' hf (h : f.HasType info.id) => hf.type _ h)) hpart
  refine bind (setType_learns (id_mem_ids _) (Stays.const _) _) fun _ => ?_
  refine .bind pushScope_learns fun _ => .bind (params_learns _ _) fun _ => ?_
  exact .bind (hstmts.weaken (fun _ h => h)
    fun _ _ h => ⟨⟨h.2, h.1.1⟩, h.1.2⟩) fun _ => popScope_learns

theorem initial_learns {init : Option Expr} (he : ∀ i ∈ Expr.optionIds .node init, touched i)
    (hpre : Stays touched pre) (package : PackageId) (type : Ty) :
    Learns touched pre
      (match init with
      | some e => do let _ ← value { package } e type
      | _ => Pure.pure ())
      fun _ f => pre f ∧ Expr.OptionComplete f init := by
  cases init with
  | none => exact Learns.pure fun _ h => ⟨h, trivial⟩
  | some e =>
    exact bind (((value_learns he type).carry hpre).weaken (fun _ h => ⟨trivial, h⟩)
      fun _ _ h => h) fun _ => Learns.pure fun _ h => ⟨h.2, h.1.2⟩

theorem decl_learns {package : PackageId} {d : Decl} (hs : (d.ids .node).Nodup) :
    Ensures (walk (· ∈ d.ids .node)) (Standing g fun _ => g.Declares package d)
      (decl package d) fun _ => Sound (d.Passed ·) := by
  have hid := d.id_mem_ids
  have recorded (t : Ty) {known : Prop} : Learns (· ∈ d.ids .node) (fun _ => known)
      (setType d.id t) fun _ f => f.HasType d.id :=
    (setType_learns hid (.const _) t).weaken (fun _ h => h) fun _ _ h => h.2
  cases d with
  | struct info decl =>
    refine .bind (ownSymbol?_learns rfl) fun r => ?_
    split
    · split
      · exact (recorded _).weaken (fun _ h => h) fun _ _ h => ⟨h, rfl⟩
      · rename_i hnode
        refine Learns.pure fun _ h => ?_
        obtain ⟨s, ⟨⟩, hown, -⟩ := h
        exact absurd (beq_iff_eq.mpr hown) hnode
    · rename_i hother
      refine Learns.pure fun _ h => ?_
      obtain ⟨⟨name, owner, node, span, kind, foreign⟩, hr, -, id, rfl⟩ := h
      exact (hother _ _ _ _ _ _ hr).elim
  | typedef info name type =>
    refine .bind (ownSymbol?_learns rfl) fun r => ?_
    split
    · split
      · exact (recorded _).weaken (fun _ h => h) fun _ _ h => ⟨h, rfl⟩
      · rename_i hnode
        refine Learns.pure fun _ h => ?_
        obtain ⟨s, ⟨⟩, hown, -⟩ := h
        exact absurd (beq_iff_eq.mpr hown) hnode
    · rename_i hother
      refine Learns.pure fun _ h => ?_
      obtain ⟨⟨name, owner, node, span, kind, foreign⟩, hr, -, meaning, rfl⟩ := h
      exact (hother _ _ _ _ _ _ hr).elim
  | header info sig =>
    refine bind (ownSymbol?_learns rfl) fun r => ?_
    split
    · exact (recorded _).weaken (fun _ h => h) fun _ _ h => ⟨h, rfl⟩
    · rename_i hother
      refine Learns.pure fun _ h => ?_
      obtain ⟨⟨name, owner, node, span, kind, foreign⟩, hr, types, result, rfl⟩ := h
      exact (hother _ _ _ _ _ _ _ hr).elim
  | function info sig body =>
    refine .bind (ownSymbol?_learns rfl) fun r => ?_
    split
    · split
      · rename_i hnode
        refine Learns.pure fun _ h => ?_
        obtain ⟨s, ⟨⟩, hown, -⟩ := h
        exact absurd hown (bne_iff_ne.mp hnode)
      · exact (function_learns package _ _ hs).weaken (fun _ _ => trivial) fun _ _ h => h
    · rename_i hother
      refine Learns.pure fun _ h => ?_
      obtain ⟨⟨name, owner, node, span, kind, foreign⟩, hr, -, types, result, rfl⟩ := h
      exact (hother _ _ _ _ _ _ _ hr).elim
  | var info decl =>
    refine .bind (ownSymbol?_learns rfl) fun r => ?_
    split
    · split
      · rename_i hnode
        refine Learns.pure fun _ h => ?_
        obtain ⟨s, ⟨⟩, hown, -⟩ := h
        exact absurd hown (bne_iff_ne.mp hnode)
      · refine bind (recorded _) fun _ => (initial_learns ?_ ?_ package _).weaken
          (fun _ h => h) fun _ _ h => ⟨h, rfl⟩
        · exact fun i hi => by simp [ids, VarDecl.ids, hi]
        · exact fun f f' hf => hf.type _
    · rename_i hother
      refine Learns.pure fun _ h => ?_
      obtain ⟨⟨name, owner, node, span, kind, foreign⟩, hr, -, type, mutable, rfl⟩ := h
      exact (hother _ _ _ _ _ _ _ hr).elim
  | separator | package | imports => exact pure fun _ h => ⟨h.locals, trivial, rfl⟩

/-- Checks of things without common nodes, one after the other. One that is checked again is known
from the last time. -/
theorem forM_learns {α : Type} {as : List α} {f : α → Check Unit} (nodes : α → List Nat)
    {known : Prop} {I : α → Facts → Prop}
    (h : ∀ a ∈ as, Ensures (walk (· ∈ nodes a)) (Standing g fun _ => known) (f a)
      fun _ => Sound (I a))
    (hapart : ∀ a ∈ as, ∀ b ∈ as, a ≠ b → (nodes a).Disjoint (nodes b))
    (hstays : ∀ a (touched : Nat → Prop), (∀ i ∈ nodes a, ¬ touched i) → Stays touched (I a)) :
    Ensures (walk fun i => ∃ a ∈ as, i ∈ nodes a) (Standing g fun _ => known) (as.forM f)
      fun _ => Sound fun facts => ∀ a ∈ as, I a facts := by
  induction as with
  | nil => exact .pure fun _ hp => ⟨hp.locals, nofun⟩
  | cons a as ih =>
    have first := (standing (h a mem_cons_self)).carry (I := fun _ => known) fun _ hk => hk
    have rest := ih (fun b hb => h b (mem_cons_of_mem a hb))
      fun b hb c hc => hapart b (mem_cons_of_mem a hb) c (mem_cons_of_mem a hc)
    have wider : ∀ i, (∃ b ∈ as, i ∈ nodes b) → ∃ b ∈ a :: as, i ∈ nodes b :=
      fun i ⟨b, hb, hi⟩ => ⟨b, mem_cons_of_mem a hb, hi⟩
    have own : ∀ i, i ∈ nodes a → ∃ b ∈ a :: as, i ∈ nodes b :=
      fun i hi => ⟨a, mem_cons_self, hi⟩
    refine bind ((ensures_mono first own).weaken
      (fun _ hp => ⟨hp, hp.facts⟩) fun _ _ hp => hp) fun _ => ?_
    by_cases ha : a ∈ as
    · refine (ensures_mono rest wider).weaken
        (fun _ hp => ⟨⟨hp.1.locals, hp.2⟩, hp.1.settled⟩) fun _ _ hp => ?_
      exact ⟨hp.locals, forall_mem_cons.mpr ⟨hp.facts a ha, hp.facts⟩⟩
    · have hkeep : Stays (fun i => ∃ b ∈ as, i ∈ nodes b) (I a) := by
        refine hstays a _ fun i hi hi' => ?_
        obtain ⟨b, hb, hib⟩ := hi'
        have hne : a ≠ b := fun heq => ha (heq ▸ hb)
        exact hapart a mem_cons_self b (mem_cons_of_mem a hb) hne hi hib
      have carried := rest.carry (I := fun st => I a st.facts) fun hs hi => hkeep _ _ hs.extends hi
      refine (ensures_mono carried wider).weaken
        (fun _ hp => ⟨⟨⟨hp.1.locals, hp.2⟩, hp.1.settled⟩, hp.1.facts⟩) fun _ _ hp => ?_
      exact ⟨hp.1.locals, forall_mem_cons.mpr ⟨hp.2, hp.1.facts⟩⟩

theorem entryMain_learns (package : PackageId) (file : File) :
    Learns touched pre (entryMain package file) fun _ => pre := by
  have hread : Learns touched pre (ownSymbol? package "main") fun _ => pre :=
    .get fun now => .pure fun _ h => h
  refine .bind hread fun r => ?_
  split
  · exact .pure fun _ h => h
  · exact report_learns rfl _
  · exact report_learns rfl _

theorem package_learns (source : table.sourceOf? id = some file)
    (hnodup : (file.declIds .node).Nodup) :
    Ensures (walk (· ∈ file.declIds .node))
      (Standing g fun _ => ∀ d ∈ file.decls, g.Declares id d) (package table id)
      fun _ => Sound fun f => ∀ d ∈ file.decls, d.Passed f := by
  obtain ⟨⟨path, source', isEntry, header⟩, hget, rfl⟩ := Option.bind_eq_some_iff.mp source
  have hids : ∀ i, (∃ d ∈ file.decls, i ∈ d.ids .node) → i ∈ file.declIds .node :=
    fun i hi => mem_flatMap.mpr hi
  have hdecl : ∀ d ∈ file.decls, Ensures (walk (· ∈ d.ids .node))
      (Standing g fun _ => ∀ d ∈ file.decls, g.Declares id d) (decl id d)
      fun _ => Sound (d.Passed ·) := fun d hd =>
    (decl_learns ((nodup_flatMap.mp hnodup).1 d hd)).weaken
      (fun _ hp => ⟨⟨hp.locals, hp.facts d hd⟩, hp.settled⟩) fun _ _ hp => hp
  have hdecls := forM_learns (ids .node) hdecl
    (fun d hmem d' hmem' hne => File.decls_apart hnodup hmem hmem' hne) fun d _ => d.stays
  unfold package
  rw [hget]
  refine bind (ensures_mono hdecls hids) fun _ => ?_
  exact .ite (entryMain_learns id file) (.pure fun _ h => h)

theorem package_of_none (h : table.sourceOf? id = none) : package table id = Pure.pure () := by
  unfold package
  split
  · rename_i path file isEntry header hget
    simp [PackageTable.sourceOf?, hget] at h
  · rfl

end Check

def PackageTable.nodesOf (t : PackageTable) (id : PackageId) : List Nat :=
  ((t.sourceOf? id).map (·.declIds .node)).getD []

theorem PackageTable.nodesOf_of_source {t : PackageTable} (h : t.sourceOf? id = some file) :
    t.nodesOf id = file.declIds .node := by
  rw [nodesOf, h]
  rfl

def Globals.DeclaresAll (g : Globals) (table : PackageTable) (order : List PackageId) : Prop :=
  ∀ id ∈ order, ∀ file, table.sourceOf? id = some file → ∀ d ∈ file.decls, g.Declares id d

section

variable (h : table.Holds files) (hnodup : ∀ f ∈ files, (f.declIds .node).Nodup)

include h hnodup

theorem Check.packages_learns (order : List PackageId) (g : Globals) :
    Ensures (walk fun i => ∃ id ∈ order, i ∈ table.nodesOf id)
      (Standing g fun _ => g.DeclaresAll table order) (order.forM (package table))
      fun _ => Sound fun f => ∀ id ∈ order, ∀ file, table.sourceOf? id = some file →
        ∀ d ∈ file.decls, d.Passed f := by
  let known : PackageId → Facts → Prop := fun id f =>
    ∀ file, table.sourceOf? id = some file → ∀ d ∈ file.decls, d.Passed f
  have hapart : ∀ id ∈ order, ∀ id' ∈ order, id ≠ id' →
      (table.nodesOf id).Disjoint (table.nodesOf id') := by
    intro id _ id' _ hne
    unfold PackageTable.nodesOf
    cases hs : table.sourceOf? id with
    | none => exact disjoint_nil_left _
    | some f =>
      cases hs' : table.sourceOf? id' with
      | none => exact disjoint_nil_right _
      | some f' => exact h.apart id id' f f' hs hs' hne
  have hstays : ∀ id (touched : Nat → Prop), (∀ i ∈ table.nodesOf id, ¬ touched i) →
      Stays touched (known id) := by
    intro id touched hi f f' hf hk file source d hd
    refine d.stays (fun i hmem => hi i ?_) f f' hf (hk file source d hd)
    rw [PackageTable.nodesOf_of_source source]
    exact mem_flatMap.mpr ⟨d, hd, hmem⟩
  refine forM_learns table.nodesOf (I := known) (fun id hid => ?_) hapart hstays
  cases hs : table.sourceOf? id with
  | none =>
    rw [package_of_none hs]
    exact .pure fun _ hp => ⟨hp.locals, fun file source => by simp [hs] at source⟩
  | some file =>
    rw [PackageTable.nodesOf_of_source hs]
    refine (package_learns hs (hnodup file (h.among id file hs))).weaken
      (fun _ hp => ⟨⟨hp.locals, hp.facts id hid file hs⟩, hp.settled⟩) fun _ _ hp => ?_
    refine ⟨hp.locals, fun file' source => ?_⟩
    obtain rfl : file = file' := Option.some.inj (hs.symm.trans source)
    exact hp.facts

theorem resolve_settled (order : List PackageId) (nodes : Nat) :
    (ofPackages table order).globals.Settled (resolve table order nodes).1.globals :=
  (Checking.Reaches.later ((Check.packages_learns h hnodup order
    (ofPackages table order).globals).goes
    { ofPackages table order with facts := .ofSize nodes })).onward.toSettled

theorem survey_clean {order : List PackageId} {nodes : Nat}
    (hclean : Diagnostic.Clean (resolve table order nodes).2) :
    Diagnostic.Clean (ofPackages table order).problems :=
  Walk.clean_of_steps (walk _)
    ((Check.packages_learns h hnodup order (ofPackages table order).globals).goes
      { ofPackages table order with facts := .ofSize nodes }) hclean

/-- All declarations of a program that is checked without an error are complete, and none defers
anything that escapes. -/
theorem resolve_passed {order : List PackageId} {nodes : Nat}
    (hclean : Diagnostic.Clean (resolve table order nodes).2) (hid : id ∈ order)
    (source : table.sourceOf? id = some file) :
    ∀ d ∈ file.decls, d.Passed (resolve table order nodes).1.facts := by
  let survey := ofPackages table order
  let start : Checking := { survey with facts := .ofSize nodes }
  have checked := Check.packages_learns h hnodup order survey.globals
  have hsurvey : Diagnostic.Clean survey.problems := survey_clean h hnodup hclean
  have hdeclared : survey.globals.DeclaresAll table order := fun id hid file source d hd =>
    ofPackages_declared (hnodup file (h.among id file source)) hsurvey hid source hd
  have hend := checked.ensures start ⟨⟨nofun, hdeclared⟩, .refl _⟩ hclean
  exact hend.facts id hid file source

end

end Quill
