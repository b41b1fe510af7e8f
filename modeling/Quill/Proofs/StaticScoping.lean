import Quill.Proofs.CompleteLowering
import Quill.Proofs.LocalBinding
import Quill.Proofs.ScopeBalance

/-!
# Local names follow static scopes

Whatever problems a program has, a reference in a function body that is looked at is recorded with
what it means statically. A warning goes to what takes effect and is meant by no such reference.
-/
namespace Quill

open List hiding get

variable {st : Checking} {done : List (PackageId × Decl)} {order : List PackageId}
  {package : PackageId} {start : Survey}

theorem Scopes.map_node_views (scopes : Scopes) (refs : List Reference) :
    (scopes.views refs).map (·.node) = refs.map (·.1) := by
  rw [Scopes.views, map_map]
  rfl

theorem Pick.message_refs (e : Option Expr) : Pick.message Expr.refs e = Expr.optionRefs e := by
  cases e with
  | none => rfl
  | some e =>
    cases e with
    | template info parts =>
      show parts.flatMap (Pick.part Expr.refs) = Expr.partRefs parts
      induction parts with
      | nil => rfl
      | cons part parts ih =>
        rw [flatMap_cons, ih]
        cases part <;> rfl
    | _ => rfl

theorem Pick.option_refs (e : Option Expr) : Pick.option Expr.refs e = Expr.optionRefs e := by
  cases e <;> rfl

theorem Pick.iterable_refs (e : Expr) : Pick.iterable Expr.refs e = e.refs := by
  cases e <;> rfl

mutual

theorem Stmt.views_nodes (scopes : Scopes) (env : Env) (s : Stmt) :
    (s.views .all scopes).map (·.node) = (s.sightings env).map (·.node) := by
  cases s with
  | block info body => exact Stmt.allViews_nodes ([] :: scopes) env body
  | var info decl =>
    rw [Stmt.views, Stmt.sightings, Scopes.map_node_views, Env.map_node_sightings, Pick.all,
      Pick.option_refs]
  | cond info test onTrue onFalse =>
    rw [Stmt.views, Stmt.sightings, map_append, map_append, map_append,
      map_append, Scopes.map_node_views, Env.map_node_sightings,
      Stmt.views_nodes scopes env onTrue, Stmt.elseViews_nodes _ (onTrue.binds ++ env) onFalse]
    rfl
  | loop info test body =>
    rw [Stmt.views, Stmt.sightings, map_append, map_append, Scopes.map_node_views,
      Env.map_node_sightings, Stmt.views_nodes scopes env body]
    rfl
  | foreach info binding iterable body =>
    rw [Stmt.views, Stmt.sightings, map_append, map_append, Scopes.map_node_views,
      Env.map_node_sightings, Stmt.views_nodes _ ((binding, .node info.id) :: env) body, Pick.all,
      Pick.iterable_refs]
  | ret info e =>
    rw [Stmt.views, Stmt.sightings, Scopes.map_node_views, Env.map_node_sightings, Pick.all,
      Pick.option_refs]
  | crash info e =>
    rw [Stmt.views, Stmt.sightings, Scopes.map_node_views, Env.map_node_sightings, Pick.all,
      Pick.message_refs]
  | defer info body => exact Stmt.views_nodes scopes env body
  | expr info e =>
    rw [Stmt.views, Stmt.sightings, Scopes.map_node_views, Env.map_node_sightings, Pick.all]
  | assign info op target value =>
    rw [Stmt.views, Stmt.sightings, map_append, Scopes.map_node_views, Env.map_node_sightings,
      Env.map_node_sightings, map_append, Pick.all]
  | switch info e => rfl

theorem Stmt.allViews_nodes (scopes : Scopes) (env : Env) (ss : List Stmt) :
    (Stmt.allViews .all scopes ss).map (·.node) = (Stmt.allSightings env ss).map (·.node) := by
  cases ss with
  | nil => rfl
  | cons s ss =>
    rw [Stmt.allViews, Stmt.allSightings, map_append, map_append,
      Stmt.views_nodes scopes env s, Stmt.allViews_nodes _ (s.binds ++ env) ss]

theorem Stmt.elseViews_nodes (scopes : Scopes) (env : Env) (s : Option Stmt) :
    (Stmt.elseViews .all scopes s).map (·.node) = (Stmt.elseSightings env s).map (·.node) := by
  cases s with
  | none => rfl
  | some s => exact Stmt.views_nodes scopes env s

end

def Signature.scope (sig : Signature) : List Declaration := Declaration.withParams [] 0 sig.params

def Signature.views (sig : Signature) (pick : Pick) (body : Block) : List View :=
  Stmt.allViews pick [sig.scope] body.body

/-- The warnings for the scopes of a function in the order in which the scopes end, given which
locals are bound. -/
def Signature.unused (sig : Signature) (body : Block) (bound : Origin → Bool) : List Diagnostic :=
  Stmt.allUnused bound body.body ++
    Declaration.unused bound (Stmt.allDeclarations body.body ++ sig.scope)

/-- The types of the parameters of a function, if its name stands for it. -/
def Globals.paramTypes? (g : Globals) (package : PackageId) (info : Info) (sig : Signature) :
    Option (List Ty) :=
  match (g.scope package).symbol? sig.name with
  | some { kind := .function types _, node, .. } => if node = info.id then some types else none
  | _ => none

/-- Whether one of the references is recorded as a local and means this one. -/
def Facts.binds (facts : Facts) (views : List View) (o : Origin) : Bool :=
  views.any fun v =>
    facts.bindings.get? v.node == some .local && v.declaration?.any (·.origin == o)

theorem Globals.symbol_of_paramTypes? {g : Globals} {info : Info} {sig : Signature}
    {types : List Ty} (h : g.paramTypes? package info sig = some types) :
    ∃ s result, (g.scope package).symbol? sig.name = some s ∧ s.node = info.id ∧
      s.kind = .function types result := by
  unfold Globals.paramTypes? at h
  split at h
  · rename_i types' result _ hsymbol
    split at h
    · obtain rfl := Option.some.inj h
      exact ⟨_, result, hsymbol, ‹_›, rfl⟩
    · cases h
  · cases h

theorem Globals.Settled.paramTypes? {g g' : Globals} (h : g.Settled g') (package : PackageId)
    (info : Info) (sig : Signature) :
    g'.paramTypes? package info sig = g.paramTypes? package info sig := by
  rw [Globals.paramTypes?, h.symbol?, Globals.paramTypes?]

theorem Signature.views_sublist (sig : Signature) (info : Info) (body : Block) :
    ((sig.views .all body).map (·.node)).Sublist ((Decl.function info sig body).ids .node) := by
  rw [Signature.views, Stmt.allViews_nodes _ (paramEnv sig.params)]
  exact Decl.sightings_sublist (.function info sig body)

namespace Decl

/-- References in a function are recorded with what they mean, or are of those that need not be
looked at and are not recorded. -/
def Scoped (package : PackageId) (g : Globals) (facts : Facts) : Decl → Prop
  | .function info sig body => ∀ types, g.paramTypes? package info sig = some types →
    ∀ v ∈ sig.views .all body,
      (facts.bindings.get? v.node, facts.types.get? v.node) = v.meaning package types g facts ∨
      v ∉ sig.views .sure body ∧ facts.bindings.get? v.node = none
  | _ => True

def unusedLocals (package : PackageId) (g : Globals) (facts : Facts) : Decl → List Diagnostic
  | .function info sig body =>
    if (g.paramTypes? package info sig).isSome then
      sig.unused body (facts.binds (sig.views .all body))
    else []
  | _ => []

end Decl

namespace Declaration

theorem withParams_origins (scope : List Declaration) (index : Nat) (ps : List Param)
    (nodup : (scope.map (·.origin)).Nodup)
    (earlier : ∀ o ∈ scope.map (·.origin), ∃ i < index, o = .param i) :
    ((withParams scope index ps).map (·.origin)).Nodup ∧
      ∀ o ∈ (withParams scope index ps).map (·.origin), ∃ i, o = .param i := by
  induction ps generalizing scope index with
  | nil =>
    refine ⟨nodup, fun o ho => ?_⟩
    obtain ⟨i, -, heq⟩ := earlier o ho
    exact ⟨i, heq⟩
  | cons p ps ih =>
    refine ih (ofParam index p :: scope) (index + 1) ?_ ?_
    · refine nodup_cons.mpr ⟨fun hmem => ?_, nodup⟩
      obtain ⟨i, hi, heq⟩ := earlier _ hmem
      obtain rfl : index = i := Origin.param.inj heq
      exact absurd hi (Nat.lt_irrefl _)
    · refine forall_mem_cons.mpr ⟨⟨index, Nat.lt_succ_self _, rfl⟩, fun o ho => ?_⟩
      obtain ⟨i, hi, heq⟩ := earlier o ho
      exact ⟨i, Nat.lt_succ_of_lt hi, heq⟩

end Declaration

theorem Signature.scope_apart (sig : Signature) {ids : List Nat} (h : ids.Nodup) :
    Scopes.Apart [sig.scope] ids := by
  obtain ⟨nodup, params⟩ := Declaration.withParams_origins [] 0 sig.params (by simp) (by simp)
  have origins : Scopes.origins [sig.scope] = sig.scope.map (·.origin) := by
    simp [Scopes.origins]
  rw [Scopes.Apart, origins]
  refine nodup_append'.mpr ⟨nodup, h.map fun _ _ => Origin.node.inj, ?_⟩
  intro o ho hnode
  obtain ⟨i, rfl⟩ := params o ho
  obtain ⟨id, -, heq⟩ := mem_map.mp hnode
  cases heq

namespace Check

open Checking

theorem params_at {types : List Ty} (ps : List Param) (ts : List Ty) (index : Nat)
    (scope : List Declaration) (hts : types.drop index = ts) (arity : ps.length = ts.length)
    (hat : At types [scope] [] st) :
    At types [Declaration.withParams scope index ps] [] (params ps ts st).2 ∧
      ∃ (found : List Diagnostic) (locals : Locals), (∀ d ∈ found, d.isError = true) ∧
        (params ps ts st).2 = { st with problems := st.problems ++ found, locals } := by
  induction ps generalizing ts index scope st with
  | nil => exact ⟨hat, [], st.locals, by simp, by rw [append_nil]; rfl⟩
  | cons p ps ih =>
    cases ts with
    | nil => cases arity
    | cons t ts =>
      let l : Local :=
        { name := p.name, type := some t, mutable := p.mutable, span := p.span, quiet := true }
      have type : types[index]? = some t := by
        have head := congrArg List.head? hts
        rwa [head?_drop] at head
      have rest : types.drop (index + 1) = ts := by
        rw [← tail_drop, hts]
        rfl
      obtain ⟨declared, found, locals, errors, run⟩ := hat.declareLocal (l := l)
        (d := .ofParam index p) ⟨rfl, type.symm, rfl, rfl, rfl⟩
      obtain ⟨hat', found', locals', errors', run'⟩ := ih ts (index + 1) (.ofParam index p :: scope)
        rest (Nat.succ.inj arity) declared
      have run_eq : (params (p :: ps) (t :: ts) st).2 = (params ps ts (declareLocal l st).2).2 := rfl
      rw [run_eq]
      refine ⟨hat', found ++ found', locals', forall_mem_append.mpr ⟨errors, errors'⟩, ?_⟩
      rw [run', run, append_assoc]

theorem function_passed {package : PackageId} {info : Info} {sig : Signature} {body : Block}
    {types : List Ty} {result : Ty} {st : Checking} (arity : types.length = sig.params.length)
    (hlocals : st.locals = []) (nodup : ((Decl.function info sig body).ids .node).Nodup)
    (hfresh : st.Fresh ((Decl.function info sig body).ids .node)) :
    ∃ visited, sig.views .sure body ⊆ visited ∧ visited ⊆ sig.views .all body ∧
      Passed package types ((Decl.function info sig body).ids .node) visited
        (sig.unused body (meant visited)) st
        ((do
          setType info.id (.function types result)
          pushScope
          params sig.params types
          stmts { package, result } body.body
          popScope : Check Unit) st).2 := by
  have inner : (Stmt.allIds .node body.body ++ [info.id]).Sublist
      ((Decl.function info sig body).ids .node) := by
    refine List.Sublist.append ?_ (.refl _)
    exact List.Sublist.trans (sublist_append_left _ _) (sublist_append_right _ _)
  obtain ⟨bodyNodup, -, away⟩ := nodup_append'.mp (nodup.sublist inner)
  have apart := sig.scope_apart bodyNodup
  let opened : Checking :=
    { st with
      facts := { st.facts with types := st.facts.types.insert info.id (.function types result) }
      locals := [] :: st.locals }
  have hopened : At types [[]] [] opened := by
    unfold At
    rw [show opened.locals = [[]] from congrArg (List.cons []) hlocals]
    exact .cons .nil .nil
  obtain ⟨hat, found, locals, errors, declared⟩ :=
    params_at sig.params types 0 [] rfl arity.symm hopened
  have types_eq (i : Nat) (hi : i ≠ info.id) :
      opened.facts.types.get? i = st.facts.types.get? i :=
    (Table.get?_insert ..).trans (if_neg hi)
  have fresh : (params sig.params types opened).2.Fresh (Stmt.allIds .node body.body) := by
    rw [declared]
    have member {i} (hi : i ∈ Stmt.allIds .node body.body) :=
      inner.subset (mem_append_left [info.id] hi)
    refine ⟨fun i hi => hfresh.bindings i (member hi), fun i hi => ?_⟩
    refine (types_eq i fun heq => away hi (by simp [heq])).trans ?_
    exact hfresh.types i (member hi)
  obtain ⟨visited, hsure, hall, hafter, passed⟩ :=
    (@stmts_passes { package, result } types sig.scope [] body.body).run [] _ apart
      (fun _ _ => rfl) hat fresh
  obtain ⟨-, rest, closed⟩ := hafter.popScope
  refine ⟨visited, hsure, hall, ?_⟩
  show Passed _ _ _ _ _ st (popScope (stmts { package, result } body.body
    (params sig.params types opened).2).2).2
  rw [closed]
  rw [declared] at passed ⊢
  obtain ⟨found', hfound', hwarnings⟩ := passed.problems
  let unused := Declaration.unused (meant visited) (Stmt.allDeclarations body.body ++ sig.scope)
  refine ⟨passed.globals, ⟨found ++ found' ++ unused, ?_, ?_⟩, ?_, passed.bindings, ?_,
    passed.recorded⟩
  · dsimp only
    rw [hfound', ← append_assoc, ← append_assoc]
    rfl
  · rw [filter_append, filter_append, hwarnings, Diagnostic.filter_errors errors,
      Declaration.filter_unused]
    rfl
  · intro v hv
    exact inner.subset (mem_append_left _ (passed.inside v hv))
  · intro i hi
    refine (passed.types i fun hmem => hi (inner.subset (mem_append_left _ hmem))).trans ?_
    exact types_eq i fun heq => hi (inner.subset (by simp [heq]))

end Check

namespace Checking

section Visited

variable {package : PackageId} {types : List Ty} {ids : List Nat} {sure all visited : List View}
  {warnings : List Diagnostic} {st st' : Checking}

theorem Passed.unrecorded (passed : Passed package types ids visited warnings st st')
    (hall : visited ⊆ all) (nodup : (all.map (·.node)).Nodup)
    (hfresh : ∀ v ∈ all, st.facts.bindings.get? v.node = none) {v : View} (hv : v ∈ all)
    (hvisited : v ∉ visited) : st'.facts.bindings.get? v.node = none := by
  rw [passed.bindings v.node fun v' hv' heq => ?_]
  · exact hfresh v hv
  · rw [inj_on_of_nodup_map nodup (hall hv') hv heq] at hv'
    exact hvisited hv'

theorem Passed.binds_eq (passed : Passed package types ids visited warnings st st')
    (hall : visited ⊆ all) (nodup : (all.map (·.node)).Nodup)
    (hfresh : ∀ v ∈ all, st.facts.bindings.get? v.node = none) :
    st'.facts.binds all = meant visited := by
  funext o
  rw [Bool.eq_iff_iff, Facts.binds, meant, any_eq_true, any_eq_true]
  constructor
  · rintro ⟨v, hv, hbound⟩
    obtain ⟨hlocal, hmeant⟩ := Bool.and_eq_true_iff.mp hbound
    refine ⟨v, ?_, hmeant⟩
    by_contra hvisited
    rw [passed.unrecorded hall nodup hfresh hv hvisited] at hlocal
    cases hlocal
  · rintro ⟨v, hv, hmeant⟩
    refine ⟨v, hall hv, Bool.and_eq_true_iff.mpr ⟨?_, hmeant⟩⟩
    have recorded := congrArg Prod.fst (passed.recorded v hv)
    cases hd : v.declaration? with
    | none =>
      rw [hd] at hmeant
      cases hmeant
    | some d =>
      simp only [View.meaning, hd] at recorded
      rw [recorded]
      rfl

end Visited

/-- Checking a declaration records what references in it mean, and nothing outside. -/
structure Traces (package : PackageId) (d : Decl) (st st' : Checking) : Prop where
  globals : st.globals.Settled st'.globals
  problems : ∃ found, st'.problems = st.problems ++ found ∧
    found.filter (!·.isError) = d.unusedLocals package st'.globals st'.facts
  bindings : ∀ i ∉ d.ids .node, st'.facts.bindings.get? i = st.facts.bindings.get? i
  types : ∀ i ∉ d.ids .node, st'.facts.types.get? i = st.facts.types.get? i
  traced : d.Scoped package st'.globals st'.facts

end Checking

namespace Check

open Checking

variable {package : PackageId}

theorem Goes.traces {α : Type} {ids : List Nat} {sure : (String → Bool) → List Reference}
    {refs : List Reference} {step : Check α} (h : Goes package ids sure refs step) {d : Decl}
    (hids : ids ⊆ d.ids .node) (hscoped : ∀ g facts, d.Scoped package g facts)
    (hunused : ∀ g facts, d.unusedLocals package g facts = []) (st : Checking) :
    Traces package d st (step st).2 := by
  obtain ⟨trail, -, -, follows⟩ := h st
  obtain ⟨found, hfound, errors⟩ := follows.problems
  refine ⟨follows.globals, ⟨found, hfound, ?_⟩, fun i hi => ?_, fun i hi => ?_, hscoped _ _⟩
  · rw [hunused, Diagnostic.filter_errors errors]
  · exact follows.bindings i fun r hr heq => hi (heq ▸ hids (follows.inside r hr))
  · exact follows.types i fun hmem => hi (hids hmem)

theorem function_cases (info : Info) (sig : Signature) (body : Block) (st : Checking) :
    st.globals.paramTypes? package info sig = none ∧
      (decl package (.function info sig body) st).2 = st ∨
    ∃ types result, st.globals.paramTypes? package info sig = some types ∧
      decl package (.function info sig body) st = (do
        setType info.id (.function types result)
        pushScope
        params sig.params types
        stmts { package, result } body.body
        popScope : Check Unit) st := by
  unfold Globals.paramTypes? decl ownSymbol?
  simp only [bind, StateT.bind, get, getThe, MonadStateOf.get, StateT.get, pure]
  rcases (st.globals.scope package).symbol? sig.name with _ | ⟨name, own, node, span, kind, foreign⟩
  · exact .inl ⟨rfl, rfl⟩
  cases kind with
  | struct | typedef | var => exact .inl ⟨rfl, rfl⟩
  | function types result =>
    by_cases hnode : node = info.id
    · refine .inr ⟨types, result, if_pos hnode, ?_⟩
      subst hnode
      change (if (info.id != info.id) = true then (pure () : Check Unit) else _) st = _
      rw [if_neg (by simp)]
      rfl
    · refine .inl ⟨if_neg hnode, ?_⟩
      change ((if (node != info.id) = true then (pure () : Check Unit) else _) st).2 = st
      rw [if_pos (by simpa using hnode)]
      rfl

theorem function_traces {info : Info} {sig : Signature} {body : Block} {st : Checking}
    (arity : ∀ types, st.globals.paramTypes? package info sig = some types →
      types.length = sig.params.length)
    (hlocals : st.locals = []) (nodup : ((Decl.function info sig body).ids .node).Nodup)
    (hfresh : st.Fresh ((Decl.function info sig body).ids .node)) :
    Traces package (.function info sig body) st (decl package (.function info sig body) st).2 := by
  rcases function_cases info sig body st with ⟨hnone, run⟩ | ⟨types, result, htypes, run⟩
  · rw [run]
    refine ⟨.refl _, ⟨[], by simp, ?_⟩, fun _ _ => rfl, fun _ _ => rfl, fun types htypes => ?_⟩
    · simp [Decl.unusedLocals, hnone]
    · rw [hnone] at htypes
      cases htypes
  · rw [run]
    obtain ⟨visited, hsure, hall, passed⟩ :=
      @function_passed package info sig body types result st (arity types htypes) hlocals nodup hfresh
    have nodes := sig.views_sublist info body
    have unknown : ∀ v ∈ sig.views .all body, st.facts.bindings.get? v.node = none := fun v hv =>
      hfresh.bindings v.node (nodes.subset (mem_map_of_mem hv))
    have apart := nodup.sublist nodes
    have settled := passed.globals.paramTypes? package info sig
    rw [htypes] at settled
    obtain ⟨found, hfound, hwarnings⟩ := passed.problems
    refine ⟨passed.globals, ⟨found, hfound, ?_⟩, fun i hi => ?_, passed.types, fun types' h v hv => ?_⟩
    · rw [hwarnings, Decl.unusedLocals, settled, passed.binds_eq hall apart unknown]
      rfl
    · exact passed.bindings i fun v hv heq => hi (heq ▸ passed.inside v hv)
    · obtain rfl := Option.some.inj (settled.symm.trans h)
      by_cases hvisited : v ∈ visited
      · exact .inl (passed.recorded v hvisited)
      · exact .inr ⟨fun hmem => hvisited (hsure hmem),
          passed.unrecorded hall apart unknown hv hvisited⟩

theorem decl_goes (d : Decl) (h : ∀ info sig body, d ≠ .function info sig body) :
    ∃ refs, Goes package (d.ids .node) (fun _ => []) refs (decl package d) := by
  have noted {info : Info} {ids : List Nat} {t : Ty} :
      Goes package (ids ++ info.nodeIds .node) (fun _ => []) [] (setType info.id t) :=
    (setType_goes info.id t).mono (sublist_append_right _ _).subperm
      (fun _ => List.Subset.refl _) (List.Subset.refl _)
  cases d with
  | function info sig body => exact absurd rfl (h info sig body)
  | header info sig =>
    refine ⟨[], .get fun now => ?_⟩
    split
    · exact noted
    · exact .skip .pure _ _
  | var info decl =>
    refine ⟨Expr.optionRefs decl.init, .get fun now => ?_⟩
    split
    · split
      · exact .skip .pure _ _
      · have whole {α : Type} {step : Check α}
            (h : Goes package (info.nodeIds .node ++ Expr.optionIds .node decl.init)
              (fun _ => []) (Expr.optionRefs decl.init) step) :
            Goes package ((Decl.var info decl).ids .node) (fun _ => [])
              (Expr.optionRefs decl.init) step := by
          refine h.mono ?_ (fun _ => List.Subset.refl _) (List.Subset.refl _)
          refine perm_append_comm.subperm.trans (List.Sublist.subperm ?_)
          exact (sublist_append_right _ _).append (.refl _)
        refine whole (.bind (setType_goes info.id _) fun _ => ?_)
        cases decl.init with
        | none => exact .pure
        | some e =>
          exact (@value_goes { package } e _).ignore.mono (.refl _) (fun _ => nil_subset _)
            (List.Subset.refl _)
    · exact .skip .pure _ _
  | struct info decl =>
    refine ⟨[], .get fun now => ?_⟩
    split
    · exact .ite noted (.skip .pure _ _)
    · exact .skip .pure _ _
  | typedef info name type =>
    refine ⟨[], .get fun now => ?_⟩
    split
    · exact .ite noted (.skip .pure _ _)
    · exact .skip .pure _ _
  | separator | package | imports => exact ⟨[], .skip .pure _ _⟩

theorem decl_balanced (package : PackageId) (d : Decl) : Balanced (decl package d) := by
  by_cases hfunction : ∃ info sig body, d = .function info sig body
  · obtain ⟨info, sig, body, rfl⟩ := hfunction
    refine .get fun now => ?_
    split
    · split
      · exact .nothing
      · exact .bind (.setType _ _) fun _ =>
          .enclosed (.bind (params_balanced _ _) fun _ => stmts_balanced body.body)
    · exact .nothing
  · obtain ⟨refs, goes⟩ := decl_goes d fun info sig body h => hfunction ⟨info, sig, body, h⟩
    exact .of_goes goes

theorem decl_traces {d : Decl} (arity : ∀ info sig body types, d = .function info sig body →
      st.globals.paramTypes? package info sig = some types → types.length = sig.params.length)
    (hlocals : st.locals = []) (nodup : (d.ids .node).Nodup) (hfresh : st.Fresh (d.ids .node)) :
    Traces package d st (decl package d st).2 := by
  by_cases hfunction : ∃ info sig body, d = .function info sig body
  · obtain ⟨info, sig, body, rfl⟩ := hfunction
    exact function_traces (fun types => arity info sig body types rfl) hlocals nodup hfresh
  · have other info sig body (h : d = .function info sig body) : False :=
      hfunction ⟨info, sig, body, h⟩
    obtain ⟨refs, goes⟩ := decl_goes d other
    refine goes.traces (List.Subset.refl _) (fun g facts => ?_) (fun g facts => ?_) st
    · cases d with
      | function info sig body => exact (other info sig body rfl).elim
      | _ => trivial
    · cases d with
      | function info sig body => exact (other info sig body rfl).elim
      | _ => rfl

end Check
theorem Decl.scoped_of_eq {package : PackageId} {d : Decl} {g g' : Globals} {facts facts' : Facts}
    (hg : g.Settled g')
    (hbindings : ∀ i ∈ d.ids .node, facts'.bindings.get? i = facts.bindings.get? i)
    (htypes : ∀ i ∈ d.ids .node, facts'.types.get? i = facts.types.get? i) :
    (d.Scoped package g facts → d.Scoped package g' facts') ∧
      d.unusedLocals package g' facts' = d.unusedLocals package g facts := by
  cases d with
  | function info sig body =>
    have nodes {v : View} (hv : v ∈ sig.views .all body) :
        v.node ∈ (Decl.function info sig body).ids .node :=
      (sig.views_sublist info body).subset (mem_map_of_mem hv)
    have meaning {types : List Ty} {v : View} (hv : v ∈ sig.views .all body) :
        v.meaning package types g' facts' = v.meaning package types g facts := by
      refine View.meaning_eq hg fun d id hd horigin => htypes id ?_
      have origins := (@Check.stmts_passes { package } types sig.scope [] body.body).means v hv d hd
      rw [horigin] at origins
      rcases mem_append.mp origins with hparam | hmem
      · exact absurd hparam ((sig.scope_apart (nodup_singleton id)).not_mem
          (mem_singleton_self id))
      · have inside : id ∈ Stmt.allIds .node body.body := by simpa using hmem
        exact mem_append_left _ (mem_append_right _ (mem_append_left _ inside))
    have binds : facts'.binds (sig.views .all body) = facts.binds (sig.views .all body) := by
      funext o
      rw [Bool.eq_iff_iff, Facts.binds, Facts.binds, any_eq_true, any_eq_true]
      refine exists_congr fun v => and_congr_right fun hv => ?_
      rw [hbindings v.node (nodes hv)]
    constructor
    · intro h types hparams v hv
      rw [hg.paramTypes?] at hparams
      rw [hbindings v.node (nodes hv), htypes v.node (nodes hv), meaning hv]
      exact h types hparams v hv
    · rw [Decl.unusedLocals, Decl.unusedLocals, hg.paramTypes?, binds]
  | _ => exact ⟨fun _ => trivial, rfl⟩

def PackageTable.declsOf (table : PackageTable) (package : PackageId) : List Decl :=
  ((table.sourceOf? package).map (·.decls)).getD []

structure Checking.ScopedAll (start : Survey) (done : List (PackageId × Decl)) (st : Checking) :
    Prop where
  locals : st.locals = []
  globals : start.globals.Settled st.globals
  problems : ∃ found, st.problems = start.problems ++ found ∧ found.filter (!·.isError) =
    done.flatMap fun x => x.2.unusedLocals x.1 st.globals st.facts
  fresh : ∀ ids, (∀ i ∈ ids, i ∉ done.flatMap fun x => x.2.ids .node) → st.Fresh ids
  traced : ∀ x ∈ done, x.2.Scoped x.1 st.globals st.facts

namespace Checking.ScopedAll

variable {start : Survey} {done : List (PackageId × Decl)} {st st' : Checking}
  {package : PackageId}

theorem step (h : ScopedAll start done st) {d : Decl} (traces : Traces package d st st')
    (hlocals : st'.locals = [])
    (apart : ∀ i ∈ done.flatMap fun x => x.2.ids .node, i ∉ d.ids .node) :
    ScopedAll start (done ++ [(package, d)]) st' := by
  have same {x : PackageId × Decl} (hx : x ∈ done) := @Decl.scoped_of_eq x.1 x.2 _ _ _ _
    traces.globals
    (fun i hi => traces.bindings i (apart i (mem_flatMap.mpr ⟨x, hx, hi⟩)))
    (fun i hi => traces.types i (apart i (mem_flatMap.mpr ⟨x, hx, hi⟩)))
  constructor
  · exact hlocals
  · exact h.globals.trans traces.globals
  · obtain ⟨found, hfound, hwarnings⟩ := h.problems
    obtain ⟨found', hfound', hwarnings'⟩ := traces.problems
    refine ⟨found ++ found', by rw [hfound', hfound, append_assoc], ?_⟩
    rw [filter_append, hwarnings, hwarnings', flatMap_append, flatMap_singleton]
    congr 1
    exact flatMap_congr fun x hx => (same hx).2.symm
  · intro ids hids
    rw [flatMap_append, flatMap_singleton] at hids
    have fresh := h.fresh ids fun i hi hmem => hids i hi (mem_append_left _ hmem)
    have outside i (hi : i ∈ ids) : i ∉ d.ids .node := fun hmem =>
      hids i hi (mem_append_right _ hmem)
    exact ⟨fun i hi => (traces.bindings i (outside i hi)).trans (fresh.bindings i hi),
      fun i hi => (traces.types i (outside i hi)).trans (fresh.types i hi)⟩
  · refine forall_mem_append.mpr ⟨fun x hx => (same hx).1 (h.traced x hx), ?_⟩
    exact forall_mem_singleton.mpr traces.traced

theorem still {α : Type} {step : Check α} (h : ScopedAll start done st)
    (hstep : Check.Still package step) : ScopedAll start done (step st).2 := by
  obtain ⟨trail, -, htrail, follows⟩ := hstep st
  obtain rfl := eq_nil_of_subset_nil htrail
  have same {x : PackageId × Decl} := @Decl.scoped_of_eq x.1 x.2 _ _ _ _ follows.globals
    (fun i _ => follows.bindings i (by simp)) (fun i _ => follows.types i (by simp))
  obtain ⟨found, hfound, hwarnings⟩ := h.problems
  obtain ⟨found', hfound', errors⟩ := follows.problems
  refine ⟨follows.locals.trans h.locals, h.globals.trans follows.globals,
    ⟨found ++ found', by rw [hfound', hfound, append_assoc], ?_⟩, fun ids hids => ?_,
    fun x hx => same.1 (h.traced x hx)⟩
  · rw [filter_append, hwarnings, Diagnostic.filter_errors errors, append_nil]
    exact flatMap_congr fun x _ => same.2.symm
  · exact follows.fresh (by simp) (h.fresh ids hids)

end Checking.ScopedAll

def Survey.errorsLaw (table : PackageTable) : SurveyLaw table where
  Sound s := ∀ d ∈ s.problems, d.isError = true
  resolve step hs := by
    obtain ⟨found, hfound, errors⟩ := Check.stepErrors step ⟨_, (nil_append _).symm, hs⟩
    rw [hfound]
    exact errors
  imports hs _ _ _ _ _ := hs
  struct hs _ _ _ _ := hs
  taken hs _ _ _ := forall_mem_append.mpr ⟨hs, forall_mem_singleton.mpr rfl⟩
  symbol hs _ _ _ _ _ := hs
  define hs _ _ _ _ _ _ _ _ := hs
  fields hs _ _ _ _ _ _ := hs

theorem Survey.ofPackages_errors (table : PackageTable) (order : List PackageId) :
    ∀ d ∈ (ofPackages table order).problems, d.isError = true :=
  (errorsLaw table).ofPackages_sound (fun _ hd => absurd hd not_mem_nil) fun _ _ => trivial

section Resolve

variable {table : PackageTable} {files : List File} (holds : table.Holds files)
  (nodup : ∀ f ∈ files, (f.declIds .node).Nodup)

include holds nodup

theorem PackageTable.Holds.decls_nodup (once : order.Nodup) :
    (order.flatMap fun p => (table.declsOf p).flatMap (·.ids .node)).Nodup := by
  have own (p : PackageId) : (table.declsOf p).flatMap (·.ids .node) =
      ((table.sourceOf? p).map (·.declIds .node)).getD [] := by
    unfold PackageTable.declsOf
    cases table.sourceOf? p <;> rfl
  refine nodup_flatMap.mpr ⟨fun p _ => ?_, once.imp fun hne => ?_⟩
  · rw [own]
    cases source : table.sourceOf? p with
    | none => exact nodup_nil
    | some file => exact nodup file (holds.among p file source)
  · rename_i p p'
    rw [Function.onFun_apply, own, own]
    cases source : table.sourceOf? p with
    | none => exact disjoint_nil_left _
    | some file =>
      cases source' : table.sourceOf? p' with
      | none => exact disjoint_nil_right _
      | some file' => exact holds.apart p p' file file' source source' hne

open Checking in
theorem Check.decls_scoped (sourced : start.globals.Sourced table) {file : File}
    (source : table.sourceOf? package = some file) {ds : List Decl} (hds : ds ⊆ file.decls)
    (h : ScopedAll start done st)
    (apart : (done.flatMap (fun x => x.2.ids .node) ++ ds.flatMap (·.ids .node)).Nodup) :
    ScopedAll start (done ++ ds.map (package, ·)) (ds.forM (Check.decl package) st).2 := by
  induction ds generalizing done st with
  | nil =>
    rw [map_nil, append_nil]
    exact h
  | cons d ds ih =>
    obtain ⟨hd, hrest⟩ := cons_subset.mp hds
    rw [flatMap_cons, ← append_assoc] at apart
    obtain ⟨first, -, -⟩ := nodup_append'.mp apart
    obtain ⟨-, own, away⟩ := nodup_append'.mp first
    have arity info sig body types (heq : d = .function info sig body)
        (htypes : st.globals.paramTypes? package info sig = some types) :
        types.length = sig.params.length := by
      obtain ⟨s, result, hsymbol, hnode, hkind⟩ := Globals.symbol_of_paramTypes? htypes
      exact (sourced.settled h.globals).arity holds nodup source (heq ▸ hd) hsymbol hnode hkind
    have traces := decl_traces arity h.locals own
      (h.fresh _ fun i hi hmem => away hmem hi)
    have next := h.step traces ((decl_balanced package d).locals_nil h.locals)
      fun i hi hmem => away hi hmem
    have rest := ih hrest next (by
      rw [flatMap_append, flatMap_singleton]
      exact apart)
    rw [append_assoc] at rest
    exact rest

omit holds nodup in
theorem Check.entryMain_still (package : PackageId) (file : File) :
    Still package (.entryMain package file) := by
  refine .get fun now => ?_
  split
  · exact .pure
  · exact report_still rfl _
  · exact report_still rfl _

open Checking in
theorem Check.package_scoped (sourced : start.globals.Sourced table) (h : ScopedAll start done st)
    (apart : (done.flatMap (fun x => x.2.ids .node) ++
      (table.declsOf package).flatMap (·.ids .node)).Nodup) :
    ScopedAll start (done ++ (table.declsOf package).map (package, ·))
      (Check.package table package st).2 := by
  have absent (source : table.sourceOf? package = none) (run : Check.package table package st = ((), st)) :
      ScopedAll start (done ++ (table.declsOf package).map (package, ·))
        (Check.package table package st).2 := by
    rw [run, PackageTable.declsOf, source, Option.map_none, Option.getD_none, map_nil,
      append_nil]
    exact h
  rcases hget : table.get? package with _ | ⟨path, _ | file, isEntry, header⟩
  · refine absent ?_ ?_
    · rw [PackageTable.sourceOf?, hget]
      rfl
    · rw [Check.package, hget]
      rfl
  · refine absent ?_ ?_
    · rw [PackageTable.sourceOf?, hget]
      rfl
    · rw [Check.package, hget]
      rfl
  · have source : table.sourceOf? package = some file := by
      rw [PackageTable.sourceOf?, hget]
      rfl
    rw [PackageTable.declsOf, source] at apart ⊢
    have checked := decls_scoped holds nodup sourced source (List.Subset.refl _) h apart
    have ended : Still package (if isEntry then Check.entryMain package file else pure ()) :=
      .ite (entryMain_still package file) .pure
    rw [Check.package, hget]
    exact checked.still ended

open Checking in
theorem Check.packages_scoped (sourced : start.globals.Sourced table) (h : ScopedAll start done st)
    (apart : (done.flatMap (fun x => x.2.ids .node) ++
      order.flatMap fun p => (table.declsOf p).flatMap (·.ids .node)).Nodup) :
    ScopedAll start (done ++ order.flatMap fun p => (table.declsOf p).map (p, ·))
      (order.forM (Check.package table) st).2 := by
  induction order generalizing done st with
  | nil =>
    rw [flatMap_nil, append_nil]
    exact h
  | cons p order ih =>
    rw [flatMap_cons, ← append_assoc] at apart
    obtain ⟨inner, -, -⟩ := nodup_append'.mp apart
    have first := package_scoped holds nodup sourced h inner
    have rest := ih first (by
      rw [flatMap_append, flatMap_map]
      exact apart)
    rw [append_assoc] at rest
    exact rest

theorem resolve_scoped (once : order.Nodup) (nodes : Nat) :
    ∃ st : Checking, resolve table order nodes = (⟨st.globals, st.facts, order⟩, st.problems) ∧
      st.ScopedAll (Survey.ofPackages table order)
        (order.flatMap fun p => (table.declsOf p).map (p, ·)) := by
  let start : Checking := { Survey.ofPackages table order with facts := .ofSize nodes }
  have fresh (ids : List Nat) : start.Fresh ids :=
    ⟨fun i _ => Table.get?_ofSize nodes i, fun i _ => Table.get?_ofSize nodes i⟩
  have started : start.ScopedAll (.ofPackages table order) [] :=
    ⟨rfl, .refl _, ⟨[], (append_nil _).symm, rfl⟩, fun ids _ => fresh ids, by simp⟩
  have checked := Check.packages_scoped holds nodup (Survey.ofPackages_sourced table order) started
    (holds.decls_nodup nodup once)
  exact ⟨_, rfl, checked⟩

end Resolve

/-- Local names follow static scopes in every program that is registered and can be put into order,
whatever else is wrong with it. References in function bodies that are looked at are recorded with
the declaration that they mean statically and its type, or with what packages declare; the others
have no record. The warnings are those for the locals that take effect, are to be reported and are
meant by no reference that is recorded as a local, scope by scope. Checking a statement in whatever
state leaves all open scopes with the locals they had, apart from marks of use and from locals that
are new in the innermost one, and no scope is open between declarations. -/
theorem Sources.locals_scoped {sources : Sources} {options : Options} {order : List PackageId}
    (registered : Diagnostic.hasErrors (sources.registered options).2 = false)
    (ordered : (sources.imports options).graph.order (sources.table options).sourced = .ok order) :
    let table := sources.table options
    let r := (sources.resolved options order).1
    (∀ p ∈ order, ∀ d ∈ table.declsOf p, d.Scoped p r.globals r.facts) ∧
    (sources.resolved options order).2.filter (!·.isError) = order.flatMap (fun p =>
      (table.declsOf p).flatMap (·.unusedLocals p r.globals r.facts)) ∧
    (∀ cx s st, ∃ new,
      (Check.stmt cx s st).2.locals.unmarked = st.locals.unmarked.grow new) ∧
    ∀ p d st, st.locals = [] → (Check.decl p d st).2.locals = [] := by
  intro table r
  have once : order.Nodup := (Graph.finished_of_order ordered).1.nodup
  have holds : table.Holds (parse sources.numbered).program.files :=
    PackageTable.registered_holds registered
  obtain ⟨st, run, checked⟩ :=
    resolve_scoped holds sources.nodes_apart once (parse sources.numbered).ids.nodes
  have hr : r = ⟨st.globals, st.facts, order⟩ := congrArg Prod.fst run
  have hproblems : (sources.resolved options order).2 = st.problems := congrArg Prod.snd run
  refine ⟨fun p hp d hd => ?_, ?_, fun cx s st => Check.stmt_balanced s st,
    fun p d st hlocals => (Check.decl_balanced p d).locals_nil hlocals⟩
  · rw [hr]
    exact checked.traced (p, d)
      (mem_flatMap.mpr ⟨p, hp, mem_map_of_mem hd⟩)
  · obtain ⟨found, hfound, hwarnings⟩ := checked.problems
    rw [hr, hproblems, hfound, filter_append, hwarnings,
      Diagnostic.filter_errors (Survey.ofPackages_errors table order), nil_append,
      flatMap_assoc]
    simp only [flatMap_map]

/-- A parameter that is declared again, and a variable that is hidden by one whose initial value is
the variable itself. -/
def redeclaring : Sources :=
  ["int f(int x) \x7b\n  int x = 1;\n  int y = x;\n  \x7b int y = y; \x7d\n  return x;\n\x7d\n" ++
    "void main() \x7b \x7d"]

theorem locals_scoped_redeclaring :
    let table := redeclaring.table {}
    let r := (redeclaring.resolved {} [0]).1
    Diagnostic.hasErrors (redeclaring.registered {}).2 = false ∧
    (redeclaring.imports {}).graph.order table.sourced = .ok [0] ∧
    (redeclaring.resolved {} [0]).2.map (·.render) =
      ["line 2: error[E0405]: 'x' is already declared in this scope",
        "line 4: warning[W0001]: unused variable 'y'"] ∧
    (∀ p ∈ [0], ∀ d ∈ table.declsOf p, d.Scoped p r.globals r.facts) ∧
    (redeclaring.resolved {} [0]).2.filter (!·.isError) =
      [0].flatMap fun p => (table.declsOf p).flatMap (·.unusedLocals p r.globals r.facts) := by
  obtain ⟨registered, ordered, found⟩ : Diagnostic.hasErrors (redeclaring.registered {}).2 = false ∧
      ((redeclaring.imports {}).graph.order (redeclaring.table {}).sourced).toOption = some [0] ∧
      (redeclaring.resolved {} [0]).2.map (·.render) =
        ["line 2: error[E0405]: 'x' is already declared in this scope",
          "line 4: warning[W0001]: unused variable 'y'"] := by
    decide +kernel
  have ordered : (redeclaring.imports {}).graph.order (redeclaring.table {}).sourced = .ok [0] := by
    cases h : (redeclaring.imports {}).graph.order (redeclaring.table {}).sourced with
    | error cycle =>
      rw [h] at ordered
      cases ordered
    | ok order =>
      rw [h] at ordered
      rw [Option.some.inj ordered]
  have static := @Sources.locals_scoped redeclaring {} [0] registered ordered
  exact ⟨registered, ordered, found, static.1, static.2.1⟩

end Quill
