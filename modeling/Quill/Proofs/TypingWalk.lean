import Quill.Proofs.PackageSource
import Quill.Proofs.TypingLaw

/-!
# Checking keeps to the law

Every check of an expression, a statement or a declaration leads from sound states to sound states
and finds good types, whatever the law.
-/
namespace Quill.TypingLaw

open List Check Expr Option

variable {st : Checking} {d : Decl} {env : Env} {name : String}

variable {package : PackageId} {L : TypingLaw package}

section Walk

variable {scopes : List Env} {cx : Context}

theorem Admits.part {e : Expr} (h : L.Admits env (e.ids .node) e.refs) {v : Visit}
    (hv : v ∈ e.parts) : L.Admits env (v.expr.ids .node) v.expr.refs := by
  have hne : ∀ info path, e ≠ .ref info path := by
    rintro info path rfl
    cases hv
  refine ⟨fun i hi => h.nodes i ?_, fun r hr => h.refs r ?_⟩
  · rw [e.ids_parts]
    exact mem_append_left _ (mem_flatMap.mpr ⟨v, hv, hi⟩)
  · rw [refs_parts hne]
    exact mem_flatMap.mpr ⟨v, hv, hr⟩

theorem expr_tells (hcx : cx.package = package) (e : Expr)
    (h : L.Admits scopes.flatten (e.ids .node) e.refs) : L.Finds scopes (.expr cx e) := by
  induction e using parts_induction with
  | h e ih =>
    intro expected
    have parts : ∀ v ∈ e.parts, L.Finds scopes (.expr cx v.expr) := fun v hv =>
      ih v hv (h.part hv)
    have hn : L.Node e.id := h.nodes _ (by simp [e.ids_parts])
    have plain (href : ∀ info path, e ≠ .ref info path)
        (hsize : ∀ info type operand, e ≠ .sizeofType info type operand) :
        L.Tells scopes scopes expected.toList (.expr cx e expected) toList := by
      obtain ⟨body, run, course⟩ := @Check.expr_course e cx expected href hsize
      rw [run]
      exact typed_tells hn (course_finds hcx course parts)
    cases e with
    | ref info path =>
      rw [expr]
      exact typed_tells hn
        ((reference_tells hcx (h.refs _ (mem_singleton_self _))).mono (nil_subset _))
    | sizeofType info type operand =>
      have written : L.Tells scopes scopes expected.toList _ _ :=
        (sizeofWritten_tells hcx hn type).mono (nil_subset _)
      cases operand with
      | none =>
        rw [expr]
        exact typed_tells hn written
      | some e =>
        rw [expr]
        refine typed_tells hn ?_
        lift_lets
        intro read
        have hread (isValue : Bool) :
            L.Tells scopes scopes expected.toList (read isValue) toList := by
          refine .ite (.andThen (parts ⟨e, false⟩ (mem_singleton_self _) none)
            (nil_subset _) fun r => .pure fun g _ => ?_) written
          cases r with
          | none => exact .nil _
          | some t => exact .one (L.scalar g .uptr)
        split
        · exact .quiet (namesValue_tells cx _) hread
        · exact hread false
    | _ => exact plain (by simp) (by simp)

theorem course_tells (hcx : cx.package = package) {es : List Expr} {told : List Ty} {α : Type}
    {check : Check α} {types : α → List Ty} {fine : α → Prop}
    (course : Course cx True (Visit.all es) told check types fine)
    (h : ∀ e ∈ es, L.Admits scopes.flatten (e.ids .node) e.refs) :
    L.Tells scopes scopes told check types := by
  refine course_finds hcx course fun v hv => ?_
  obtain ⟨e, he, rfl⟩ := mem_map.mp hv
  exact expr_tells hcx e (h e he)

theorem value_tells (hcx : cx.package = package) (e : Expr)
    (h : L.Admits scopes.flatten (e.ids .node) e.refs) (expected : Ty) :
    L.Tells scopes scopes [expected] (.value cx e expected) toList := by
  have course : Yields cx True (Visit.all [e]) [expected] (value cx e expected) :=
    value_course e (.known (mem_singleton_self expected))
  exact course_tells hcx course (forall_mem_singleton.mpr h)

theorem Admits.option {e : Option Expr}
    (h : L.Admits env (optionIds .node e) (optionRefs e)) :
    ∀ x ∈ e.toList, L.Admits env (x.ids .node) x.refs := by
  cases e with
  | none => simp
  | some e => exact forall_mem_singleton.mpr h

variable {scope : Env} {told : List Ty}

theorem pushScope_tells : L.Tells scopes ([] :: scopes) told .pushScope fun _ => [] :=
  .modify (fun _ => rfl) fun _ hs _ => L.opened hs

theorem popScope_tells : L.Tells (scope :: scopes) scopes told .popScope fun _ => [] := by
  intro st hs _
  have closed := L.closed hs
  refine .get ?_
  cases hlocals : st.locals with
  | nil =>
    rw [hlocals, tail_nil, ← hlocals] at closed
    exact ⟨closed, .refl _, .nil _⟩
  | cons own outer =>
    rw [hlocals, tail_cons] at closed
    have unused : L.Tells scopes scopes [] (own.reverse.forM fun l =>
        if l.used || l.quiet then pure () else .report (.unusedVariable l.name) l.span)
        fun _ => [] := .forM fun l _ => .ite .nothing (report_tells _ _)
    have reported := unused { st with locals := outer } closed (.nil _)
    exact ⟨reported.sound, reported.onward, .nil _⟩

theorem declareLocal_tells (l : Local) (o : Origin) :
    L.Tells (scope :: scopes) (((l.name, o) :: scope) :: scopes) l.type.toList
      (.declareLocal l) fun _ => [] := by
  intro st hs ht
  refine ⟨L.declared o hs fun t h => ht t (mem_toList.mpr h), ?_, .nil _⟩
  rcases declareLocal_cases l st with ⟨-, h⟩ | ⟨own, outer, -, ⟨-, h⟩ | ⟨-, h⟩⟩
  all_goals
    rw [h]
    exact .refl _

theorem varType_tells (hcx : cx.package = package) (info : Info) (decl : VarDecl)
    (h : L.Admits scopes.flatten (optionIds .node decl.init) (optionRefs decl.init)) :
    L.Tells scopes scopes [] (.varType cx info decl) toList :=
  course_tells hcx (varType_course info decl) h.option

theorem noted_tells {post : List Env} {node : Nat} (hn : L.Node node) {type : Option Ty}
    (ht : type.toList ⊆ told) {step : Check Unit}
    (h : L.Tells scopes post told step fun _ => []) :
    L.Tells scopes post told (do
      if let some t := type then .setType node t
      step) fun _ => [] := by
  cases type with
  | none => exact h
  | some t => exact .andThen (setType_tells hn t) ht fun _ => h

theorem localVar_tells (hcx : cx.package = package) {info : Info} (hn : L.Node info.id)
    (decl : VarDecl)
    (h : L.Admits (scope :: scopes).flatten (optionIds .node decl.init)
      (optionRefs decl.init)) :
    L.Tells (scope :: scopes) (((decl.name, .node info.id) :: scope) :: scopes) []
      (.localVar cx info decl) fun _ => [] := by
  refine .andThen (varType_tells hcx info decl h) (List.Subset.refl _) fun type => ?_
  refine noted_tells hn (by simp) ?_
  exact (declareLocal_tells { name := decl.name, type, .. } _).mono (by simp)

theorem iterated_tells (hcx : cx.package = package) (e : Expr)
    (h : L.Admits scopes.flatten (e.ids .node) e.refs) :
    L.Tells scopes scopes [] (iterated cx e) toList := by
  have plain (e : Expr) (h : L.Admits scopes.flatten (e.ids .node) e.refs) :
      L.Tells scopes scopes [] (elements cx e) toList :=
    course_tells hcx (elements_course e) (forall_mem_singleton.mpr h)
  cases e with
  | range info low high inclusive =>
    obtain ⟨hn, hparts⟩ := Admits.parts h
    exact typed_tells hn (course_tells hcx
      (rangeCounter_course info low high)
      (forall_mem_cons.mpr ⟨hparts.left, forall_mem_singleton.mpr hparts.right⟩))
  | _ => exact plain _ h

theorem crashMessage_tells (hcx : cx.package = package) (e : Expr)
    (h : L.Admits scopes.flatten (e.ids .node) e.refs) :
    L.Tells scopes scopes [] (.crashMessage cx e) fun _ => [] := by
  have text (g : Globals) : L.Good g .text := L.pointer.mpr (L.scalar g .char)
  have message := ((value_tells hcx e h .text).freely text).ignore (List.Subset.refl _)
  cases e with
  | template info parts =>
    obtain ⟨hn, -⟩ := Admits.parts h
    have admitted : ∀ e ∈ parts.flatMap (·.exprs), L.Admits scopes.flatten (e.ids .node) e.refs :=
      fun e he => h.part (v := ⟨e, false⟩) (mem_map_of_mem he)
    exact .quiet (course_tells hcx (message_course parts) admitted)
      fun _ => (setType_tells hn _).freely text
  | _ => exact message

/-- Statements whose nodes and references keep to the law. -/
structure AdmitsAll (L : TypingLaw package) (ids : List Nat) (sightings : List Sighting) :
    Prop where
  nodes : ∀ i ∈ ids, L.Node i
  refs : ∀ r ∈ sightings, L.Ref r

namespace AdmitsAll

variable {ids ids' : List Nat} {sightings sightings' : List Sighting}

theorem left (h : L.AdmitsAll (ids ++ ids') (sightings ++ sightings')) :
    L.AdmitsAll ids sightings :=
  ⟨fun i hi => h.nodes i (mem_append_left _ hi),
    fun r hr => h.refs r (mem_append_left _ hr)⟩

theorem right (h : L.AdmitsAll (ids ++ ids') (sightings ++ sightings')) :
    L.AdmitsAll ids' sightings' :=
  ⟨fun i hi => h.nodes i (mem_append_right _ hi),
    fun r hr => h.refs r (mem_append_right _ hr)⟩

theorem parts {info : Info} (h : L.AdmitsAll (ids ++ info.nodeIds .node) sightings) :
    L.Node info.id ∧ L.AdmitsAll ids sightings :=
  ⟨h.nodes info.id (mem_append_right _ (mem_singleton_self _)),
    fun i hi => h.nodes i (mem_append_left _ hi), h.refs⟩

theorem here {refs : List (Nat × List String)} (h : L.AdmitsAll ids (env.sightings refs)) :
    L.Admits env ids refs :=
  ⟨h.nodes, fun r hr => h.refs _ (mem_map.mpr ⟨r, hr, rfl⟩)⟩

end AdmitsAll

theorem flatten_bound (binds scope : Env) (scopes : List Env) :
    ((binds ++ scope) :: scopes).flatten = binds ++ (scope :: scopes).flatten := by simp

mutual

theorem stmt_tells (hcx : cx.package = package) (scope : Env) (scopes : List Env) (s : Stmt)
    (h : L.AdmitsAll (s.ids .node) (s.sightings (scope :: scopes).flatten)) :
    L.Tells (scope :: scopes) ((s.binds ++ scope) :: scopes) [cx.result] (.stmt cx s)
      fun _ => [] := by
  cases s with
  | block info body =>
    rw [stmt]
    exact .quiet pushScope_tells fun _ => .andThen
      (stmts_tells hcx [] (scope :: scopes) body h.parts.2) (by simp) fun _ => popScope_tells
  | var info decl =>
    obtain ⟨hn, hparts⟩ := AdmitsAll.parts h
    exact (localVar_tells hcx hn decl (.behind hparts.here)).mono (by simp)
  | cond info e onTrue onFalse =>
    rw [stmt]
    obtain ⟨-, hparts⟩ := AdmitsAll.parts h
    have hfalse := hparts.right
    rw [← flatten_bound] at hfalse
    refine .andThen ((value_tells hcx e hparts.left.left.here .bool).freely (L.scalar · .bool)) (by simp)
      fun _ => .andThen (stmt_tells hcx scope scopes onTrue hparts.left.right) (by simp) fun _ => ?_
    rw [Stmt.binds, append_assoc]
    exact (orElse_tells hcx _ scopes onFalse hfalse).mono (by simp)
  | loop info e body =>
    rw [stmt]
    obtain ⟨-, hparts⟩ := AdmitsAll.parts h
    exact .andThen ((value_tells hcx e hparts.left.here .bool).freely (L.scalar · .bool)) (by simp)
      fun _ => (stmt_tells hcx scope scopes body hparts.right).mono (by simp)
  | foreach info binding iterable body =>
    rw [stmt]
    obtain ⟨hn, hparts⟩ := AdmitsAll.parts h
    refine .andThen (iterated_tells hcx iterable hparts.left.here) (by simp) fun type => ?_
    refine noted_tells hn (by simp) (.quiet pushScope_tells fun _ => ?_)
    refine .andThen (declareLocal_tells { name := binding, type, .. } (.node info.id)) (by simp)
      fun _ => ?_
    exact .andThen (stmt_tells hcx [(binding, .node info.id)] (scope :: scopes) body hparts.right)
      (by simp) fun _ => popScope_tells
  | ret info e =>
    exact course_tells hcx
      (returned_course info e (.known (mem_singleton_self _))) h.parts.2.here.option
  | defer info body =>
    rw [stmt]
    have checked := stmt_tells hcx scope scopes body h.parts.2
    exact .ite (.quiet (report_tells _ _) fun _ => checked) checked
  | crash info message =>
    cases message with
    | none => exact .nothing
    | some e => exact (crashMessage_tells hcx e h.parts.2.here).mono (by simp)
  | expr info e => exact (expr_tells hcx e h.parts.2.here none).ignore (by simp)
  | assign info op target source =>
    obtain ⟨-, hparts⟩ := AdmitsAll.parts h
    exact course_tells hcx (assignment_course op target source)
      (forall_mem_cons.mpr ⟨hparts.left.here, forall_mem_singleton.mpr hparts.right.here⟩)
  | switch info arms => exact report_tells _ _

theorem stmts_tells (hcx : cx.package = package) (scope : Env) (scopes : List Env)
    (ss : List Stmt)
    (h : L.AdmitsAll (Stmt.allIds .node ss)
      (Stmt.allSightings (scope :: scopes).flatten ss)) :
    L.Tells (scope :: scopes) ((Stmt.allBinds ss ++ scope) :: scopes) [cx.result]
      (.stmts cx ss) fun _ => [] := by
  cases ss with
  | nil => exact .nothing
  | cons s ss =>
    have hrest := AdmitsAll.right h
    rw [← flatten_bound] at hrest
    refine .andThen (stmt_tells hcx scope scopes s (.left h)) (by simp) fun _ => ?_
    rw [Stmt.allBinds, append_assoc]
    exact stmts_tells hcx _ scopes ss hrest

theorem orElse_tells (hcx : cx.package = package) (scope : Env) (scopes : List Env)
    (s : Option Stmt)
    (h : L.AdmitsAll (Stmt.optionIds .node s)
      (Stmt.elseSightings (scope :: scopes).flatten s)) :
    L.Tells (scope :: scopes) ((Stmt.elseBinds s ++ scope) :: scopes) [cx.result]
      (.orElse cx s) fun _ => [] := by
  cases s with
  | none => exact .nothing
  | some s => exact stmt_tells hcx scope scopes s h

end

theorem params_tells (scope : Env) (index : Nat) (ps : List Param) (ts : List Ty) :
    L.Tells (scope :: scopes) (Param.declareAll scope index (ps.take ts.length) :: scopes) ts
      (.params ps ts) fun _ => [] := by
  induction ps generalizing scope index ts with
  | nil =>
    rw [take_nil]
    exact .nothing
  | cons p ps ih =>
    cases ts with
    | nil => exact .nothing
    | cons t ts =>
      exact .andThen (declareLocal_tells { name := p.name, type := some t, .. } (.param index))
        (by simp) fun _ => (ih _ (index + 1) ts).mono (by simp)

theorem functionBody_tells (cx : Context) (hcx : cx.package = package) (ps : List Param)
    (types : List Ty) (body : List Stmt)
    (h : L.AdmitsAll (Stmt.allIds .node body)
      (Stmt.allSightings (paramEnv (ps.take types.length)) body)) :
    L.Tells [] [] [.function types cx.result] (do
      .pushScope
      .params ps types
      .stmts cx body
      .popScope) fun _ => [] := by
  have signature {g} (h : L.GoodAll g [.function types cx.result]) :
      L.GoodAll g types ∧ L.Good g cx.result :=
    L.function.mp (h (.function types cx.result) (by simp))
  have hbody : L.AdmitsAll (Stmt.allIds .node body)
      (Stmt.allSightings [paramEnv (ps.take types.length)].flatten body) := by simpa using h
  refine .quiet pushScope_tells fun _ => ?_
  refine .andThen ((params_tells [] 0 ps types).imply fun _ h => (signature h).1)
    (List.Subset.refl _) fun _ => ?_
  exact .andThen ((stmts_tells hcx _ [] body hbody).imply fun _ h => .one (signature h).2)
    (List.Subset.refl _) fun _ => popScope_tells

/-- A declaration whose nodes and references keep to the law, given what its own symbol is. -/
def AdmitsDecl (L : TypingLaw package) (g : Globals) : Decl → Prop
  | .function info sig body => ∀ s types result, (g.scope package).symbol? sig.name = some s →
      s.kind = .function types result → s.node = info.id →
      L.Own (.function info sig body) ∧ L.AdmitsAll (Stmt.allIds .node body.body)
        (Stmt.allSightings (paramEnv (sig.params.take types.length)) body.body)
  | .var info decl => L.Own (.var info decl) ∧
      L.Admits [] (optionIds .node decl.init) (optionRefs decl.init)
  | d => L.Own d

theorem Holds.ownSymbol? {α : Type} {f : Option Symbol → Check α} {found : α → List Ty}
    (h : L.Holds scopes st (f ((st.globals.scope package).symbol? name)) found) :
    L.Holds scopes st (.ownSymbol? package name >>= f) found := ⟨h.sound, h.onward, h.good⟩

theorem good_ownSymbol (hs : L.Sound scopes st) {s : Symbol}
    (h : (st.globals.scope package).symbol? name = some s) :
    ∀ t ∈ s.kind.types, L.Good st.globals t := by
  have found : st.globals.lookup package [name] = .ok (.symbol s) := by
    rw [Globals.lookup, Globals.lookupName, h]
  exact L.symbol hs found

theorem own_holds (hs : L.Sound [] st) (hown : L.Own d) {s : Symbol} (hname : d.name? = some name)
    (hsymbol : (st.globals.scope package).symbol? name = some s) (stands : s.StandsFor d) :
    L.Holds [] st (.setType d.id s.kind.own) fun _ => [] :=
  ⟨L.own hs hown hname hsymbol stands (good_ownSymbol hs hsymbol), .refl _, .nil _⟩

theorem decl_holds (hs : L.Sound [] st) (h : L.AdmitsDecl st.globals d) :
    L.Holds [] st (.decl package d) fun _ => [] := by
  have skipped : L.Holds [] st (pure ()) fun _ => [] := ⟨hs, .refl _, .nil _⟩
  cases d with
  | function info sig body =>
    refine .ownSymbol? ?_
    split
    · rename_i node _ types result _ hsymbol
      split
      · exact skipped
      · rename_i hnode
        have hnode : node = info.id := by simpa using hnode
        have good := good_ownSymbol hs hsymbol (.function types result) (by simp [SymbolKind.types])
        obtain ⟨hown, hbody⟩ := h _ types result hsymbol rfl hnode
        exact (own_holds hs hown rfl hsymbol ⟨hnode, types, result, rfl⟩).andThen (.one good)
          fun _ => functionBody_tells ⟨package, result⟩ rfl sig.params types body.body hbody
    · exact skipped
  | header info sig =>
    refine .ownSymbol? ?_
    split
    · rename_i types result _ hsymbol
      exact own_holds hs h rfl hsymbol ⟨types, result, rfl⟩
    · exact skipped
  | var info decl =>
    refine .ownSymbol? ?_
    split
    · rename_i node _ type mutable _ hsymbol
      split
      · exact skipped
      · rename_i hnode
        have hnode : node = info.id := by simpa using hnode
        have good := good_ownSymbol hs hsymbol type (by simp [SymbolKind.types])
        have hinit := h.2
        refine (own_holds hs h.1 rfl hsymbol ⟨hnode, type, mutable, rfl⟩).andThen (.one good)
          fun _ => ?_
        generalize decl.init = init at hinit ⊢
        cases init with
        | none => exact .nothing
        | some e =>
          have own : ({ package } : Context).package = package := rfl
          have admitted : L.Admits ([] : List Env).flatten (e.ids .node) e.refs := hinit
          exact (value_tells own e admitted type).ignore (by simp)
    · exact skipped
  | struct info decl =>
    refine .ownSymbol? ?_
    split
    · rename_i node _ id _ hsymbol
      split
      · rename_i hnode
        exact own_holds hs h rfl hsymbol ⟨by simpa using hnode, id, rfl⟩
      · exact skipped
    · exact skipped
  | typedef info name type =>
    refine .ownSymbol? ?_
    split
    · rename_i node _ t _ hsymbol
      split
      · rename_i hnode
        exact own_holds hs h rfl hsymbol ⟨by simpa using hnode, t, rfl⟩
      · exact skipped
    · exact skipped
  | separator | package | imports => exact skipped

theorem admitsDecl_of_all (L : TypingLaw package) (hnode : ∀ i, L.Node i) (href : ∀ r, L.Ref r)
    (hown : ∀ d, L.Own d) {g : Globals} (d : Decl) : L.AdmitsDecl g d := by
  cases d with
  | function info sig body =>
    exact fun _ _ _ _ _ _ => ⟨hown _, fun i _ => hnode i, fun r _ => href r⟩
  | var info decl => exact ⟨hown _, fun i _ => hnode i, fun r _ => href _⟩
  | _ => exact hown _

theorem AdmitsDecl.settled {g g' : Globals} (hg : g.Settled g') (h : L.AdmitsDecl g d) :
    L.AdmitsDecl g' d := by
  cases d with
  | function info sig body =>
    intro s types result hsymbol
    rw [hg.symbol?] at hsymbol
    exact h s types result hsymbol
  | _ => exact h

theorem decls_holds {ds : List Decl} (hs : L.Sound [] st) (h : ∀ d ∈ ds, L.AdmitsDecl st.globals d) :
    L.Holds [] st (ds.forM (.decl package)) fun _ => [] := by
  induction ds generalizing st with
  | nil => exact ⟨hs, .refl _, .nil _⟩
  | cons d ds ih =>
    have first := decl_holds hs (h d mem_cons_self)
    have rest := ih first.sound fun d' hd' =>
      (h d' (mem_cons_of_mem d hd')).settled first.onward.toSettled
    exact ⟨rest.sound, first.onward.trans rest.onward, .nil _⟩

theorem package_holds {table : PackageTable} (hs : L.Sound [] st)
    (h : ∀ file, table.sourceOf? package = some file →
      ∀ d ∈ file.decls, L.AdmitsDecl st.globals d) :
    L.Holds [] st (.package table package) fun _ => [] := by
  unfold Check.package
  split
  · rename_i path file isEntry header hget
    have checked := decls_holds hs (h file (by rw [PackageTable.sourceOf?, hget]; rfl))
    have ended : L.Tells [] [] []
        (if isEntry then .entryMain package file else pure ()) fun _ => [] := by
      refine .ite (.get fun now => ?_) .nothing
      split
      · exact .nothing
      · exact report_tells _ _
      · exact report_tells _ _
    have last := ended _ checked.sound (.nil _)
    exact ⟨last.sound, checked.onward.trans last.onward, .nil _⟩
  · exact ⟨hs, .refl _, .nil _⟩

end Walk

/-- With a law for each package that agree on the states between packages, checking the packages
in turn keeps such states. -/
theorem packages_sound (laws : (p : PackageId) → TypingLaw p) {Kept : Checking → Prop}
    (hkept : ∀ p st, (laws p).Sound [] st ↔ Kept st) {table : PackageTable} {order : List PackageId}
    (hs : Kept st) (h : ∀ p ∈ order, ∀ file, table.sourceOf? p = some file →
      ∀ d ∈ file.decls, (laws p).AdmitsDecl st.globals d) :
    Kept ((order.forM (Check.package table)) st).2 ∧
      st.globals.Onward ((order.forM (Check.package table)) st).2.globals := by
  induction order generalizing st with
  | nil => exact ⟨hs, .refl _⟩
  | cons p order ih =>
    have first := package_holds ((hkept p st).mpr hs) (h p mem_cons_self)
    have rest := ih ((hkept p _).mp first.sound) fun q hq file source d hd =>
      (h q (mem_cons_of_mem p hq) file source d hd).settled first.onward.toSettled
    exact ⟨rest.1, first.onward.trans rest.2⟩

end Quill.TypingLaw
