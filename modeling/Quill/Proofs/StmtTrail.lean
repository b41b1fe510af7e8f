import Quill.Proofs.ExprTrail
import Quill.Proofs.ScopeStack
import Quill.Proofs.TypingLaw

/-!
# Trails of statements

Checking a piece of code between two places leads from a stack that stands for the scopes at the
first to one that stands for the scopes at the second, and reports whoever is unused in a scope that
ends on the way.
-/
namespace Quill

open List hiding get

variable {st : Checking} {scope : List Declaration} {params : List Ty} {views : List View}
  {id : Nat} {scopes : Scopes}

/-- Nodes that are given once and declare nothing in the scopes. -/
abbrev Scopes.Apart (scopes : Scopes) (ids : List Nat) : Prop :=
  (scopes.origins ++ ids.map Origin.node).Nodup

namespace Scopes.Apart

variable {scopes scopes' : Scopes} {ids ids' : List Nat}

theorem scopes_nodup (h : scopes.Apart ids) : scopes.origins.Nodup := (nodup_append'.mp h).1

theorem ids_nodup (h : scopes.Apart ids) : ids.Nodup := (nodup_append'.mp h).2.1.of_map

theorem not_mem (h : scopes.Apart ids) (hid : id ∈ ids) : .node id ∉ scopes.origins :=
  fun hmem => (nodup_append'.mp h).2.2 hmem (mem_map_of_mem hid)

theorem of_subperm (h : scopes.Apart ids)
    (hpart : (scopes'.origins ++ ids'.map Origin.node).Subperm
      (scopes.origins ++ ids.map Origin.node)) : scopes'.Apart ids' := by
  obtain ⟨part, perm, sublist⟩ := hpart
  exact perm.nodup_iff.mp (h.sublist sublist)

theorem first (h : scopes.Apart (ids ++ ids')) : scopes.Apart ids := by
  refine h.of_subperm ((List.Sublist.refl _).append ?_).subperm
  exact (sublist_append_left ids ids').map _

theorem disjoint (h : scopes.Apart (ids ++ ids')) {i : Nat} (hi : i ∈ ids) : i ∉ ids' :=
  fun hi' => (nodup_append'.mp h.ids_nodup).2.2 hi hi'

theorem second (h : scopes.Apart (ids ++ ids'))
    (hgrows : scopes'.origins.Subperm (scopes.origins ++ ids.map .node)) :
    scopes'.Apart ids' := by
  refine h.of_subperm ?_
  rw [map_append, ← append_assoc]
  exact hgrows.append (.refl _)

end Scopes.Apart

namespace Checking

/-- The stack stands for scopes, after these references were followed. -/
def At (params : List Ty) (scopes : Scopes) (views : List View) (st : Checking) : Prop :=
  Locals.StandFor (st.facts.localType? params) (meant views) scopes st.locals

theorem localType?_eq {facts facts' : Facts} {o : Origin}
    (h : ∀ id, o = .node id → facts'.types.get? id = facts.types.get? id) :
    facts'.localType? params o = facts.localType? params o := by
  cases o with
  | node id => exact h id rfl
  | param | nowhere => rfl

theorem At.knows_eq (h : At params scopes views st) : st.knows = scopes.knows := by
  funext name
  rw [knows, ← Option.isSome_map (f := Local.type), h.find?_type, Option.isSome_map, Scopes.knows]

theorem At.meaning_eq (h : At params scopes views st) (package : PackageId) (r : Reference) :
    st.meaning package r.2 =
      View.meaning ⟨scopes, r.1, r.2⟩ package params st.globals st.facts := by
  have declared : st.localType? r.2 = (View.declaration? ⟨scopes, r.1, r.2⟩).map fun d =>
      st.facts.localType? params d.origin := by
    obtain ⟨node, _ | ⟨name, _ | ⟨other, path⟩⟩⟩ := r
    · rfl
    · exact h.find?_type name
    · rfl
  rw [meaning, View.meaning, declared]
  cases View.declaration? ⟨scopes, r.1, r.2⟩ <;> rfl

end Checking

theorem View.meaning_eq {v : View} {package : PackageId} {g g' : Globals} {facts facts' : Facts}
    (hg : g.Settled g') (h : ∀ d id, v.declaration? = some d → d.origin = .node id →
      facts'.types.get? id = facts.types.get? id) :
    v.meaning package params g' facts' = v.meaning package params g facts := by
  unfold View.meaning
  split
  · rw [Checking.localType?_eq fun id => h _ id ‹_›]
  · exact hg.meaning package v.path

namespace Checking

/-- Checking a piece of code with these nodes followed these references and gave these warnings. -/
structure Passed (package : PackageId) (params : List Ty) (ids : List Nat) (views : List View)
    (warnings : List Diagnostic) (st st' : Checking) : Prop where
  globals : st.globals.Settled st'.globals
  problems : ∃ found, st'.problems = st.problems ++ found ∧
    found.filter (!·.isError) = warnings
  inside : ∀ v ∈ views, v.node ∈ ids
  bindings : ∀ i, (∀ v ∈ views, v.node ≠ i) →
    st'.facts.bindings.get? i = st.facts.bindings.get? i
  types : ∀ i ∉ ids, st'.facts.types.get? i = st.facts.types.get? i
  recorded : ∀ v ∈ views, (st'.facts.bindings.get? v.node, st'.facts.types.get? v.node) =
    v.meaning package params st'.globals st'.facts

namespace Passed

variable {package : PackageId} {params : List Ty} {ids ids' : List Nat} {views views' : List View}
  {warnings warnings' : List Diagnostic} {st st' st'' : Checking}

section

variable (h : Passed package params ids views warnings st st')

include h

theorem fresh (apart : ∀ i ∈ ids', i ∉ ids) (hfresh : st.Fresh ids') : st'.Fresh ids' where
  bindings i hi := by
    rw [h.bindings i fun v hv heq => apart i hi (heq ▸ h.inside v hv)]
    exact hfresh.bindings i hi
  types i hi := by
    rw [h.types i (apart i hi)]
    exact hfresh.types i hi

theorem trans (h' : Passed package params ids' views' warnings' st' st'')
    (apart : ∀ i ∈ ids, i ∉ ids')
    (away : ∀ v ∈ views, ∀ d, v.declaration? = some d → ∀ i ∈ ids', d.origin ≠ .node i) :
    Passed package params (ids ++ ids') (views ++ views') (warnings ++ warnings') st st'' where
  globals := h.globals.trans h'.globals
  problems := by
    obtain ⟨found, hfound, hwarnings⟩ := h.problems
    obtain ⟨found', hfound', hwarnings'⟩ := h'.problems
    refine ⟨found ++ found', ?_, ?_⟩
    · rw [hfound', hfound, append_assoc]
    · rw [filter_append, hwarnings, hwarnings']
  inside := by
    refine forall_mem_append.mpr ⟨fun v hv => ?_, fun v hv => ?_⟩
    · exact mem_append_left _ (h.inside v hv)
    · exact mem_append_right _ (h'.inside v hv)
  bindings i hi := by
    obtain ⟨first, second⟩ := forall_mem_append.mp hi
    rw [h'.bindings i second, h.bindings i first]
  types i hi := by
    obtain ⟨first, second⟩ := not_or.mp (mem_append.not.mp hi)
    rw [h'.types i second, h.types i first]
  recorded := by
    refine forall_mem_append.mpr ⟨fun v hv => ?_, h'.recorded⟩
    have here := apart v.node (h.inside v hv)
    rw [h'.bindings v.node fun v' hv' heq => here (heq ▸ h'.inside v' hv'), h'.types v.node here,
      h.recorded v hv]
    refine (View.meaning_eq h'.globals fun d id hd horigin => ?_).symm
    exact h'.types id fun hmem => away v hv d hd id hmem horigin

theorem mono (hids : ids ⊆ ids') : Passed package params ids' views warnings st st' :=
  ⟨h.globals, h.problems, fun v hv => hids (h.inside v hv), h.bindings,
    fun i hi => h.types i fun hmem => hi (hids hmem), h.recorded⟩

end

end Passed
end Checking

theorem Check.popScope_run {scope : List Local} {outer : Locals} (h : st.locals = scope :: outer) :
    (Check.popScope st).2 =
      { st with
        problems := st.problems ++ (scope.reverse.filter fun l => !(l.used || l.quiet)).map fun l =>
          ⟨.unusedVariable l.name, l.span⟩
        locals := outer } := by
  have reported (ls : List Local) (now : Checking) :
      ((ls.forM fun l => if l.used || l.quiet then pure () else
        .report (.unusedVariable l.name) l.span : Check Unit) now).2 =
        { now with
          problems := now.problems ++ (ls.filter fun l => !(l.used || l.quiet)).map fun l =>
            ⟨.unusedVariable l.name, l.span⟩ } := by
    induction ls generalizing now with
    | nil =>
      rw [filter_nil, map_nil, append_nil]
      rfl
    | cons l ls ih =>
      rw [List.forM]
      by_cases hquiet : (l.used || l.quiet) = true
      · rw [if_pos hquiet, filter_cons_of_neg (by simp [hquiet])]
        exact ih now
      · rw [if_neg hquiet, filter_cons_of_pos (by simpa using hquiet)]
        refine (ih _).trans ?_
        simp
  have read : Check.popScope st = (scope.reverse.forM fun l =>
      if l.used || l.quiet then pure () else .report (.unusedVariable l.name) l.span :
        Check Unit) { st with locals := outer } := by
    simp only [Check.popScope, bind, StateT.bind, get, getThe, MonadStateOf.get, StateT.get, pure, h]
    rfl
  rw [read, reported]

theorem Locals.Are.unused {type : Origin → Option Ty} {used : Origin → Bool} {ds : List Declaration}
    {ls : List Local} (h : Locals.Are type used ds ls) :
    ((ls.filter fun l => !(l.used || l.quiet)).map fun l =>
      (⟨.unusedVariable l.name, l.span⟩ : Diagnostic)) =
        (ds.filter fun d => d.loud && !used d.origin).map fun d => ⟨.unusedVariable d.name, d.span⟩ := by
  induction h with
  | nil => rfl
  | @cons d l ds ls hl _ ih =>
    rw [filter_cons, filter_cons, hl.used, hl.quiet]
    cases d.loud <;> cases used d.origin <;> simpa [hl.name, hl.span] using ih

theorem Diagnostic.filter_errors {found : List Diagnostic} (h : ∀ d ∈ found, d.isError = true) :
    found.filter (!·.isError) = [] :=
  filter_eq_nil_iff.mpr fun d hd => by simp [h d hd]

theorem Declaration.filter_unused (bound : Origin → Bool) (scope : List Declaration) :
    (Declaration.unused bound scope).filter (!·.isError) = Declaration.unused bound scope := by
  refine filter_eq_self.mpr fun d hd => ?_
  obtain ⟨_, -, rfl⟩ := mem_map.mp hd
  rfl

namespace Checking

theorem At.popScope {outer : Scopes} (h : At params (scope :: outer) views st) :
    At params outer views (Check.popScope st).2 ∧
      ∃ locals, (Check.popScope st).2 =
        { st with
          problems := st.problems ++ Declaration.unused (meant views) scope
          locals } := by
  obtain ⟨own, rest, hown, hrest, hlocals⟩ := forall₂_cons_left_iff.mp h
  have run := Check.popScope_run hlocals
  have unused := Locals.Are.unused (forall₂_reverse_iff.mpr hown)
  rw [unused] at run
  constructor
  · rw [run]
    exact hrest
  · exact ⟨rest, run⟩

theorem At.declareLocal {outer : Scopes} {d : Declaration} {l : Local}
    (h : At params (scope :: outer) views st)
    (hl : l.Is (st.facts.localType? params) (meant views) d) :
    At params ((d :: scope) :: outer) views (Check.declareLocal l st).2 ∧
      ∃ (found : List Diagnostic) (locals : Locals), (∀ d ∈ found, d.isError = true) ∧
        (Check.declareLocal l st).2 = { st with problems := st.problems ++ found, locals } := by
  obtain ⟨own, rest, hown, hrest, hlocals⟩ := forall₂_cons_left_iff.mp h
  rcases Check.declareLocal_cases l st with ⟨hnil, -⟩ |
    ⟨own', outer', hlocals', ⟨hany, run⟩ | ⟨hany, run⟩⟩
  · rw [hlocals] at hnil
    cases hnil
  all_goals
    obtain ⟨rfl, rfl⟩ := List.cons.inj (hlocals.symm.trans hlocals')
    rw [Locals.Are.any_name hown, Declaration.any_effective, hl.name] at hany
    rw [run]
  · refine ⟨?_, [_], st.locals, forall_mem_singleton.mpr rfl, rfl⟩
    have shadowed : Locals.StandFor (st.facts.localType? params) (meant views)
        ((d :: scope) :: outer) st.locals := by
      rw [hlocals]
      refine .cons ?_ hrest
      rwa [Declaration.effective, if_pos hany]
    exact shadowed
  · refine ⟨.cons ?_ hrest, [], (l :: own) :: rest, by simp, ?_⟩
    · rw [Declaration.effective, if_neg (by simp [hany])]
      exact .cons hl hown
    · rw [append_nil]

end Checking

namespace Check

open Checking

/-- A piece of code that leads from scopes to scopes, with all references in it and the warnings
for it, given which locals are meant by references. -/
structure Spans (ids : List Nat) (before after : Scopes) (all : List View)
    (warnings : (Origin → Bool) → List Diagnostic) : Prop where
  /-- Nothing is declared but nodes of the piece of code. -/
  grows : after.origins.Subperm (before.origins ++ ids.map .node)
  /-- References mean what was declared before or something in the piece of code. -/
  means : ∀ v ∈ all, ∀ d, v.declaration? = some d →
    d.origin ∈ before.origins ++ ids.map .node
  /-- Warnings are about scopes that have ended. -/
  depends : before.Apart ids → ∀ bound bound', (∀ id ∈ ids, .node id ∉ after.origins →
    bound (.node id) = bound' (.node id)) → warnings bound = warnings bound'

namespace Spans

variable {ids ids' : List Nat} {before mid after : Scopes} {all all' : List View}
  {warnings warnings' : (Origin → Bool) → List Diagnostic}

theorem not_later (h : Spans ids before mid all warnings) (apart : before.Apart (ids ++ ids'))
    (hviews : views ⊆ all) (hid : id ∈ ids') :
    ∀ v ∈ views, ∀ d, v.declaration? = some d → d.origin ≠ .node id := by
  intro v hv d hd heq
  rcases mem_append.mp (heq ▸ h.means v (hviews hv) d hd) with hmem | hmem
  · exact apart.not_mem (mem_append_right _ hid) hmem
  · exact apart.disjoint (by simpa using hmem) hid

theorem not_ended (h' : Spans ids' mid after all' warnings') (apart : before.Apart (ids ++ ids'))
    (hviews : views ⊆ all') (hid : id ∈ ids) (hended : .node id ∉ mid.origins) :
    ∀ v ∈ views, ∀ d, v.declaration? = some d → d.origin ≠ .node id := by
  intro v hv d hd heq
  rcases mem_append.mp (heq ▸ h'.means v (hviews hv) d hd) with hmem | hmem
  · exact hended hmem
  · exact apart.disjoint hid (by simpa using hmem)

theorem append (h : Spans ids before mid all warnings) (h' : Spans ids' mid after all' warnings') :
    Spans (ids ++ ids') before after (all ++ all') fun bound =>
      warnings bound ++ warnings' bound := by
  have nodes : before.origins ++ (ids ++ ids').map .node =
      before.origins ++ ids.map .node ++ ids'.map .node := by
    rw [map_append, append_assoc]
  constructor
  · rw [nodes]
    exact h'.grows.trans (h.grows.append (.refl _))
  · rw [nodes]
    refine forall_mem_append.mpr ⟨fun v hv d hd => ?_, fun v hv d hd => ?_⟩
    · exact mem_append_left _ (h.means v hv d hd)
    · rcases mem_append.mp (h'.means v hv d hd) with hmem | hmem
      · exact mem_append_left _ (h.grows.subset hmem)
      · exact mem_append_right _ hmem
  · intro apart bound bound' agree
    have first : warnings bound = warnings bound' := by
      refine h.depends apart.first bound bound' fun id hid hended => ?_
      refine agree id (mem_append_left _ hid) fun hmem => ?_
      rcases mem_append.mp (h'.grows.subset hmem) with hmem | hmem
      · exact hended hmem
      · exact apart.disjoint hid (by simpa using hmem)
    have second : warnings' bound = warnings' bound' :=
      h'.depends (apart.second h.grows) bound bound' fun id hid =>
        agree id (mem_append_right _ hid)
    rw [first, second]

theorem mono (h : Spans ids before after all warnings) (hids : ids.Subperm ids')
    (hall : all' ⊆ all) : Spans ids' before after all' warnings := by
  have nodes := (List.Subperm.refl before.origins).append (hids.map fun _ _ => Origin.node.inj)
  constructor
  · exact h.grows.trans nodes
  · exact fun v hv d hd => nodes.subset (h.means v (hall hv) d hd)
  · intro apart bound bound' agree
    exact h.depends (apart.of_subperm nodes) bound bound' fun id hid =>
      agree id (hids.subset hid)

end Spans

/-- Checking a piece of code follows some of its references, and among them those that are sure. -/
structure Passes {α : Type} (package : PackageId) (params : List Ty) (ids : List Nat)
    (before after : Scopes) (sure all : List View) (warnings : (Origin → Bool) → List Diagnostic)
    (step : Check α) : Prop extends Spans ids before after all warnings where
  run : ∀ views st, before.Apart ids → (∀ id ∈ ids, meant views (.node id) = false) →
    At params before views st → st.Fresh ids →
    ∃ visited, sure ⊆ visited ∧ visited ⊆ all ∧ At params after (views ++ visited) (step st).2 ∧
      Passed package params ids visited (warnings (meant visited)) st (step st).2

namespace Passes

variable {α β : Type} {package : PackageId} {params : List Ty} {ids ids' : List Nat}
  {before mid after : Scopes} {sure sure' all all' : List View}
  {warnings warnings' : (Origin → Bool) → List Diagnostic} {step : Check α}

theorem bind {f : α → Check β}
    (hx : Passes package params ids before mid sure all warnings step)
    (hf : ∀ a, Passes package params ids' mid after sure' all' warnings' (f a)) :
    Passes package params (ids ++ ids') before after (sure ++ sure') (all ++ all')
      (fun bound => warnings bound ++ warnings' bound) (step >>= f) := by
  have spans := (hf (step { globals := .ofSize 0, facts := .ofSize 0 }).1).toSpans
  refine ⟨hx.toSpans.append spans, fun views st apart unseen hat hfresh => ?_⟩
  obtain ⟨visited, hsure, hall, hmid, passed⟩ := hx.run views st apart.first
    (fun id hid => unseen id (mem_append_left _ hid)) hat
    (hfresh.of_subset (subset_append_left _ _))
  have unmeant : ∀ id ∈ ids', meant visited (.node id) = false := fun id hid =>
    meant_eq_false (hx.not_later apart hall hid)
  have unseen' : ∀ id ∈ ids', meant (views ++ visited) (.node id) = false := by
    intro id hid
    rw [meant_append, unseen id (mem_append_right _ hid), unmeant id hid]
    rfl
  have hfresh' : (step st).2.Fresh ids' :=
    passed.fresh (fun i hi hmem => apart.disjoint hmem hi)
      (hfresh.of_subset (subset_append_right _ _))
  obtain ⟨visited', hsure', hall', hafter, passed'⟩ := (hf (step st).1).run (views ++ visited)
    (step st).2 (apart.second hx.grows) unseen' hmid hfresh'
  refine ⟨visited ++ visited', ?_, ?_, ?_, ?_⟩
  · exact append_subset.mpr ⟨subset_append_of_subset_left _ hsure,
      subset_append_of_subset_right _ hsure'⟩
  · exact append_subset.mpr ⟨subset_append_of_subset_left _ hall,
      subset_append_of_subset_right _ hall'⟩
  · rw [← append_assoc]
    exact hafter
  · have first : warnings (meant (visited ++ visited')) = warnings (meant visited) := by
      refine hx.depends apart.first _ _ fun id hid hended => ?_
      rw [meant_append, meant_eq_false (spans.not_ended apart hall' hid hended), Bool.or_false]
    have second : warnings' (meant (visited ++ visited')) = warnings' (meant visited') := by
      refine spans.depends (apart.second hx.grows) _ _ fun id hid _ => ?_
      rw [meant_append, unmeant id hid, Bool.false_or]
    rw [first, second]
    exact passed.trans passed' (fun i hi => apart.disjoint hi) fun v hv d hd i hi =>
      hx.not_later apart hall hi v hv d hd

theorem mono (h : Passes package params ids before after sure all warnings step)
    (hids : ids.Subperm ids') (hsure : sure' ⊆ sure) (hall : all = all')
    (hwarnings : ∀ bound, warnings bound = warnings' bound) :
    Passes package params ids' before after sure' all' warnings' step := by
  obtain rfl : warnings = warnings' := funext hwarnings
  subst hall
  refine ⟨h.toSpans.mono hids (List.Subset.refl _), fun views st apart unseen hat hfresh => ?_⟩
  have nodes := (List.Subperm.refl before.origins).append (hids.map fun _ _ => Origin.node.inj)
  obtain ⟨visited, before, behind, hafter, passed⟩ := h.run views st (apart.of_subperm nodes)
    (fun id hid => unseen id (hids.subset hid)) hat (hfresh.of_subset hids.subset)
  exact ⟨visited, List.Subset.trans hsure before, behind, hafter, passed.mono hids.subset⟩

theorem of_goes {sure : (String → Bool) → List Reference} {refs : List Reference}
    (h : Goes package ids sure refs step) (scopes : Scopes) :
    Passes package params ids scopes scopes (scopes.views (sure scopes.knows)) (scopes.views refs)
      (fun _ => []) step := by
  constructor
  · constructor
    · exact (sublist_append_left _ _).subperm
    · intro v hv d hd
      obtain ⟨r, -, rfl⟩ := mem_map.mp hv
      exact mem_append_left _ (View.mem_origins hd)
    · exact fun _ _ _ _ => rfl
  · intro views st apart _ hat hfresh
    obtain ⟨trail, hsure, hrefs, follows⟩ := h st
    rw [hat.knows_eq] at hsure
    have types : ∀ o ∈ scopes.origins, (step st).2.facts.localType? params o =
        st.facts.localType? params o := fun o ho =>
      localType?_eq fun id heq => follows.types id fun hid => apart.not_mem hid (heq ▸ ho)
    obtain ⟨found, hfound, errors⟩ := follows.problems
    refine ⟨scopes.views trail, map_subset _ hsure, map_subset _ hrefs, ?_, ?_⟩
    · unfold At
      rw [follows.locals]
      exact (Locals.StandFor.markAll hat apart.scopes_nodup trail).congr types fun _ _ => rfl
    · refine ⟨follows.globals, ⟨found, hfound, ?_⟩, ?_, ?_, follows.types, ?_⟩
      · exact Diagnostic.filter_errors errors
      · intro v hv
        obtain ⟨r, hr, rfl⟩ := mem_map.mp hv
        exact follows.inside r hr
      · exact fun i hi => follows.bindings i fun r hr => hi _ (mem_map_of_mem hr)
      · intro v hv
        obtain ⟨r, hr, rfl⟩ := mem_map.mp hv
        refine (follows.recorded apart.ids_nodup hfresh r hr).trans ?_
        rw [hat.meaning_eq]
        refine (View.meaning_eq follows.globals fun d id hd horigin => ?_).symm
        exact follows.types id fun hid =>
          apart.not_mem hid (horigin ▸ View.mem_origins hd)

theorem of_still (h : Still package step) (scopes : Scopes) :
    Passes package params [] scopes scopes [] [] (fun _ => []) step := of_goes h scopes

theorem pushScope (scopes : Scopes) :
    Passes package params [] scopes ([] :: scopes) [] [] (fun _ => []) .pushScope := by
  constructor
  · refine ⟨?_, by simp, fun _ _ _ _ => rfl⟩
    rw [Scopes.origins_cons]
    exact (sublist_append_left _ _).subperm
  · intro views st _ _ hat _
    refine ⟨[], nil_subset _, nil_subset _, ?_, .refl _,
      ⟨[], (append_nil _).symm, rfl⟩, by simp, fun _ _ => rfl, fun _ _ => rfl, by simp⟩
    rw [append_nil]
    exact .cons .nil hat

theorem closed (h : Passes package params ids scopes (scope :: scopes) sure all warnings step) :
    Passes package params ids scopes scopes sure all
      (fun bound => warnings bound ++ Declaration.unused bound scope)
      (step >>= fun _ => Check.popScope) := by
  have inner (apart : scopes.Apart ids) {d : Declaration} (hd : d ∈ Declaration.effective scope) :
      ∃ id ∈ ids, d.origin = .node id ∧ d.origin ∉ scopes.origins := by
    have own : d.origin ∈ scope.map (·.origin) :=
      mem_map_of_mem ((Declaration.effective_sublist scope).subset hd)
    have nodup : (Scopes.origins (scope :: scopes)).Nodup := by
      obtain ⟨part, perm, sublist⟩ := h.grows
      exact perm.nodup_iff.mp (apart.sublist sublist)
    rw [Scopes.origins_cons] at nodup
    have away : d.origin ∉ scopes.origins := fun hmem => (nodup_append'.mp nodup).2.2 own hmem
    have given := h.grows.subset (Scopes.origins_cons scope scopes ▸ mem_append_left _ own)
    obtain ⟨id, hid, heq⟩ := mem_map.mp ((mem_append.mp given).resolve_left away)
    exact ⟨id, hid, heq.symm, away⟩
  have unused_eq (apart : scopes.Apart ids) {bound bound' : Origin → Bool}
      (agree : ∀ id ∈ ids, .node id ∉ scopes.origins → bound (.node id) = bound' (.node id)) :
      Declaration.unused bound scope = Declaration.unused bound' scope := by
    unfold Declaration.unused
    congr 1
    refine filter_congr fun d hd => ?_
    obtain ⟨id, hid, heq, away⟩ := inner apart (mem_reverse.mp hd)
    rw [heq, agree id hid (heq ▸ away)]
  constructor
  · refine ⟨(sublist_append_left _ _).subperm, h.means, fun apart bound bound' agree => ?_⟩
    rw [unused_eq apart agree]
    congr 1
    refine h.depends apart bound bound' fun id hid hended => agree id hid fun hmem => hended ?_
    rw [Scopes.origins_cons]
    exact mem_append_right _ hmem
  · intro views st apart unseen hat hfresh
    obtain ⟨visited, hsure, hall, hafter, passed⟩ := h.run views st apart unseen hat hfresh
    obtain ⟨hended, locals, run⟩ := hafter.popScope
    refine ⟨visited, hsure, hall, hended, ?_⟩
    show Passed _ _ _ _ _ st (Check.popScope (step st).2).2
    rw [run]
    obtain ⟨found, hfound, hwarnings⟩ := passed.problems
    refine ⟨passed.globals, ⟨found ++ Declaration.unused (meant visited) scope, ?_, ?_⟩,
      passed.inside, passed.bindings, passed.types, passed.recorded⟩
    · have same : Declaration.unused (meant (views ++ visited)) scope =
          Declaration.unused (meant visited) scope := unused_eq apart fun id hid _ => by
        rw [meant_append, unseen id hid, Bool.false_or]
      rw [same, hfound, append_assoc]
    · rw [filter_append, hwarnings, Declaration.filter_unused]

theorem declared {scope : List Declaration} {scopes : Scopes} {node : Nat} {d : Declaration}
    {l : Local} (horigin : d.origin = .node node)
    (hl : l.Is (fun _ => l.type) (fun _ => false) d) :
    Passes package params [node] (scope :: scopes) ((d :: scope) :: scopes) [] [] (fun _ => []) (do
      if let some t := l.type then setType node t
      declareLocal l) := by
  constructor
  · refine ⟨?_, by simp, fun _ _ _ _ => rfl⟩
    rw [Scopes.origins_cons, Scopes.origins_cons, map_cons, map_singleton, ← horigin]
    exact (perm_append_singleton _ _).symm.subperm
  · intro views st apart unseen hat hfresh
    let noted : Checking :=
      { st with facts := { st.facts with types := st.facts.types.record node l.type } }
    have run : (do
        if let some t := l.type then setType node t
        declareLocal l : Check Unit) st = declareLocal l noted := by
      unfold noted
      cases l.type <;> rfl
    have types (i : Nat) (hi : i ≠ node) :
        noted.facts.types.get? i = st.facts.types.get? i :=
      (Table.get?_record _ _ _ _).trans (if_neg hi)
    have type : noted.facts.localType? params d.origin = l.type := by
      have unknown := hfresh.types node (mem_singleton_self _)
      rw [horigin]
      refine (Table.get?_record _ _ _ _).trans ?_
      rw [if_pos rfl, unknown]
      simp
    have standing : At params (scope :: scopes) views noted := by
      refine .congr hat (fun o ho => localType?_eq fun id heq => types id ?_)
        fun _ _ => rfl
      rintro rfl
      exact apart.not_mem (mem_singleton_self _) (heq ▸ ho)
    have here : l.Is (noted.facts.localType? params) (meant views) d := by
      refine ⟨hl.name, type.symm, hl.span, hl.quiet, hl.used.trans ?_⟩
      rw [horigin, unseen node (mem_singleton_self _)]
    obtain ⟨hafter, found, locals, errors, hrun⟩ := standing.declareLocal here
    refine ⟨[], nil_subset _, nil_subset _, ?_⟩
    rw [run, append_nil]
    refine ⟨hafter, ?_⟩
    rw [hrun]
    refine ⟨.refl _, ⟨found, rfl, ?_⟩, by simp, fun _ _ => rfl, ?_, by simp⟩
    · exact Diagnostic.filter_errors errors
    · exact fun i hi => types i (by simpa using hi)

theorem entered {node : Nat} {d : Declaration} {l : Local} {body : Check Unit}
    (horigin : d.origin = .node node) (hl : l.Is (fun _ => l.type) (fun _ => false) d)
    (h : Passes package params ids ([d] :: scopes) (scope :: scopes) sure all warnings body) :
    Passes package params ([node] ++ ids) scopes scopes sure all
      (fun bound => warnings bound ++ Declaration.unused bound scope) (do
        if let some t := l.type then setType node t
        .pushScope
        declareLocal l
        body
        popScope) := by
  have inside := Passes.closed (.bind (.bind (.pushScope scopes) fun _ => .declared horigin hl)
    fun _ => h)
  cases htype : l.type with
  | none =>
    rw [htype] at inside
    exact inside
  | some t =>
    rw [htype] at inside
    exact inside

end Passes

section Walk

variable {cx : Context} {params : List Ty}

theorem value_goes (e : Expr) (t : Ty) :
    Goes cx.package (e.ids .node) (fun knows => e.sure knows) e.refs (value cx e t) := by
  have course : Yields cx True (Visit.all [e]) [t] (value cx e t) :=
    value_course e (.known (mem_singleton_self t))
  simpa using course.goes

theorem Pick.option_eq (pick : Expr → List Reference) (e : Option Expr) :
    Pick.option pick e = e.toList.flatMap pick := by
  cases e <;> simp [Pick.option]

theorem varType_goes (info : Info) (decl : VarDecl) :
    Goes cx.package (decl.ids .node) (fun knows => Pick.option (Expr.sure knows) decl.init)
      (Pick.option Expr.refs decl.init) (varType cx info decl) := by
  have course : Yields cx True (Visit.all decl.init.toList) [] (varType cx info decl) :=
    varType_course info decl
  simp only [VarDecl.ids, TypeExpr.optionIds_node, nil_append, Expr.optionIds_eq,
    Pick.option_eq]
  exact course.goes

theorem iterated_goes (e : Expr) :
    Goes cx.package (e.ids .node) (fun knows => Pick.iterable (Expr.sure knows) e)
      (Pick.iterable Expr.refs e) (iterated cx e) := by
  have plain (e : Expr) : Goes cx.package (e.ids .node) (fun knows => e.sure knows) e.refs
      (elements cx e) := by
    simpa using (@elements_course e cx True []).goes
  cases e with
  | range info low high inclusive =>
    have course := @rangeCounter_course info cx True [] low high
    exact typed_goes (by simpa [Pick.iterable] using course.goes) info.id
  | _ => exact plain _

theorem returned_goes (info : Info) (e : Option Expr) :
    Goes cx.package (Expr.optionIds .node e) (fun knows => Pick.option (Expr.sure knows) e)
      (Pick.option Expr.refs e) (returned cx info e) := by
  have course : Looks cx True (Visit.all e.toList) [cx.result] (returned cx info e) :=
    returned_course info e (.known (mem_singleton_self _))
  simp only [Expr.optionIds_eq, Pick.option_eq]
  exact course.goes

theorem crashMessage_goes (e : Expr) :
    Goes cx.package (e.ids .node) (fun knows => Pick.message (Expr.sure knows) (some e))
      (Pick.message Expr.refs (some e)) (crashMessage cx e) := by
  have spoken (pick : Expr → List Reference) (parts : List (TemplatePart Expr)) :
      parts.flatMap (Pick.part pick) = (parts.flatMap (·.exprs)).flatMap pick := by
    rw [flatMap_assoc]
    exact flatMap_congr fun p _ => by cases p <;> simp [Pick.part, TemplatePart.exprs]
  cases e with
  | template info parts =>
    have course := @message_course cx True [] parts
    have noted : Goes cx.package _ _ _ (crashMessage cx (.template info parts)) :=
      .bind course.goes fun _ => setType_goes info.id .text
    simpa [Pick.message, spoken, Expr.ids, Expr.partIds_eq, Info.nodeIds] using noted
  | _ => exact (value_goes _ .text).ignore

theorem assignment_goes (op : AssignOp) (target source : Expr) :
    Goes cx.package (target.ids .node ++ source.ids .node)
      (fun knows => target.sure knows ++ source.sure knows) (target.refs ++ source.refs)
      (assignment cx op target source) := by
  have course := @assignment_course cx True [] op target source
  simpa using course.goes

theorem localVar_passes (info : Info) (decl : VarDecl) (scope : List Declaration) (outer : Scopes) :
    Passes cx.package params ((Stmt.var info decl).ids .node) (scope :: outer)
      ((.ofVar info decl :: scope) :: outer) ((Stmt.var info decl).views .sure (scope :: outer))
      ((Stmt.var info decl).views .all (scope :: outer)) (fun _ => []) (localVar cx info decl) := by
  have noted (type : Option Ty) := @Passes.declared cx.package params scope outer info.id
    (.ofVar info decl)
    { name := decl.name, type, mutable := decl.mutable, span := info.span,
      quiet := Directive.present info.directives .unused || decl.name.startsWith "_" }
    rfl ⟨rfl, rfl, rfl, by simp [Declaration.ofVar], rfl⟩
  refine .mono (.bind (.of_goes (varType_goes info decl) _) noted) (.refl _) ?_ ?_ fun _ => rfl
  · exact subset_append_left _ _
  · exact append_nil _

mutual

theorem stmt_passes (scope : List Declaration) (outer : Scopes) (s : Stmt) :
    Passes cx.package params (s.ids .node) (scope :: outer) ((s.declarations ++ scope) :: outer)
      (s.views .sure (scope :: outer)) (s.views .all (scope :: outer)) (fun bound => s.unused bound)
      (stmt cx s) := by
  cases s with
  | block info body =>
    rw [stmt]
    refine .mono (.closed (.bind (.pushScope _) fun _ => stmts_passes [] (scope :: outer) body)) ?_
      (List.Subset.refl _) rfl fun bound => ?_
    · exact (sublist_append_left _ _).subperm
    · rw [append_nil]
      rfl
  | var info decl => exact localVar_passes info decl scope outer
  | cond info test onTrue onFalse =>
    rw [stmt, Stmt.declarations, append_assoc]
    refine .mono (.bind (.of_goes (value_goes test .bool) _) fun _ =>
      .bind (stmt_passes scope outer onTrue) fun _ =>
        orElse_passes (onTrue.declarations ++ scope) outer onFalse) ?_ ?_ ?_ fun _ => rfl
    · rw [Stmt.ids, append_assoc (test.ids .node)]
      exact (sublist_append_left _ _).subperm
    · rw [Stmt.views, append_assoc]
      exact List.Subset.refl _
    · rw [Stmt.views, append_assoc]
      rfl
  | loop info test body =>
    rw [stmt]
    exact .mono (.bind (.of_goes (value_goes test .bool) _) fun _ => stmt_passes scope outer body)
      (sublist_append_left _ _).subperm (List.Subset.refl _) rfl fun _ => rfl
  | foreach info binding iterable body =>
    rw [stmt]
    refine .mono (.bind (.of_goes (iterated_goes iterable) _) fun type => .entered
      (l := { name := binding, type, mutable := false, span := info.span, quiet := true }) rfl
      ⟨rfl, rfl, rfl, rfl, rfl⟩ (stmt_passes [.ofBinding info binding] (scope :: outer) body)) ?_
      (List.Subset.refl _) rfl fun _ => rfl
    rw [Stmt.ids, append_assoc]
    exact ((List.Perm.refl _).append perm_append_comm).subperm
  | ret info e =>
    exact .mono (.of_goes (returned_goes info e) _) (sublist_append_left _ _).subperm
      (List.Subset.refl _) rfl fun _ => rfl
  | crash info e =>
    cases e with
    | none =>
      rw [stmt]
      exact .mono (.of_still .pure _) nil_subperm (List.Subset.refl _) rfl fun _ => rfl
    | some message =>
      exact .mono (.of_goes (crashMessage_goes message) _) (sublist_append_left _ _).subperm
        (List.Subset.refl _) rfl fun _ => rfl
  | defer info body =>
    rw [stmt]
    have nodes : (body.ids .node).Subperm ((Stmt.defer info body).ids .node) :=
      (sublist_append_left _ _).subperm
    split
    · exact .mono (.bind (.of_still (report_still rfl _) _) fun _ => stmt_passes scope outer body)
        nodes (List.Subset.refl _) rfl fun _ => rfl
    · exact .mono (stmt_passes scope outer body) nodes (List.Subset.refl _) rfl fun _ => rfl
  | expr info e =>
    exact .mono (.of_goes (expr_goes e none).ignore _) (sublist_append_left _ _).subperm
      (List.Subset.refl _) rfl fun _ => rfl
  | assign info op target value =>
    exact .mono (.of_goes (assignment_goes op target value) _)
      (sublist_append_left _ _).subperm (List.Subset.refl _) rfl fun _ => rfl
  | switch info e =>
    exact .mono (.of_still (report_still rfl _) _) nil_subperm
      (List.Subset.refl _) rfl fun _ => rfl

theorem stmts_passes (scope : List Declaration) (outer : Scopes) (ss : List Stmt) :
    Passes cx.package params (Stmt.allIds .node ss) (scope :: outer)
      ((Stmt.allDeclarations ss ++ scope) :: outer) (Stmt.allViews .sure (scope :: outer) ss)
      (Stmt.allViews .all (scope :: outer) ss) (fun bound => Stmt.allUnused bound ss)
      (stmts cx ss) := by
  cases ss with
  | nil => exact .of_still .pure _
  | cons s ss =>
    rw [Stmt.allDeclarations, append_assoc]
    exact .bind (stmt_passes scope outer s) fun _ => stmts_passes (s.declarations ++ scope) outer ss

theorem orElse_passes (scope : List Declaration) (outer : Scopes) (s : Option Stmt) :
    Passes cx.package params (Stmt.optionIds .node s) (scope :: outer)
      ((Stmt.elseDeclarations s ++ scope) :: outer) (Stmt.elseViews .sure (scope :: outer) s)
      (Stmt.elseViews .all (scope :: outer) s) (fun bound => Stmt.elseUnused bound s)
      (orElse cx s) := by
  cases s with
  | none => exact .of_still .pure _
  | some s => exact stmt_passes scope outer s

end

end Walk
end Check
end Quill
