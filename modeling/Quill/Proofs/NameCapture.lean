import Quill.Proofs.Layout

/-!
# Names that are not captured

A local keeps its name in C, so one that C sees where the source does not can capture a reference.
In a body that is apart this does not happen: every reference finds the declaration of the local
that it means.
-/
namespace Quill

open List Stmt Mark Laid Expr Param Lay Env CScopes

variable {outer : CScopes (Option Origin)} {env : Env} {inner : List (String × Option Origin)}
  {o : Origin} {s : Stmt} {x : String}

/-- Whether a name begins as those do that lowering makes up. -/
def isMadeUp (name : String) : Bool := "__ql_".toList.isPrefixOf name.toList

section Free

variable (cx : Checked)

def Checked.localNames (refs : List (Nat × List String)) : List String :=
  (refs.filter fun r => cx.resolution.binding? r.1 = some .local).map fun r =>
    r.2.getLast?.getD ""

mutual

/-- The names of locals that a statement refers to and does not declare itself. -/
def Stmt.free : Stmt → List String
  | .block _ body => allFree body
  | .var _ decl => cx.localNames (optionRefs decl.init)
  | .cond _ test onTrue onFalse =>
    cx.localNames test.refs ++ onTrue.free ++ elseFree onFalse
  | .loop _ test body => cx.localNames test.refs ++ body.free
  | .foreach _ binding iterable body =>
    cx.localNames iterable.refs ++ body.free.filter fun n => !([binding].contains n)
  | .ret _ e | .crash _ e => cx.localNames (optionRefs e)
  | .defer _ body => body.free
  | .expr _ e => cx.localNames e.refs
  | .assign _ _ target value => cx.localNames target.refs ++ cx.localNames value.refs
  | .switch _ _ => []

def Stmt.allFree : List Stmt → List String
  | [] => []
  | s :: ss => s.free ++ (allFree ss).filter fun n => !(s.binds.map (·.1)).contains n

def Stmt.elseFree : Option Stmt → List String
  | none => []
  | some s => s.free

end

/-- All that a deferred statement refers to means the same where these locals are in sight. -/
def Postponed.unchanged (env : Env) (p : Postponed) : Bool :=
  (p.body.free cx).all fun n => env.lookup n = p.env.lookup n

end Free

/-- A new local is not mistaken for another one in sight, or for a name that is made up. -/
def Env.admits (env : Env) (name : String) : Bool :=
  !isMadeUp (cIdent name) && env.all fun b => cIdent b.1 != cIdent name || b.1 == name

/-- The locals that a statement declares where its braces are taken off. -/
def Stmt.unbracedBinds : Stmt → Env
  | .block _ body => allBinds body
  | s => s.binds

def Env.distinct (env : Env) : Bool := decide (env.map (cIdent ·.1)).Nodup

section Apart

variable (cx : Checked)

/-- Deferred statements that run at the end of a block mean there what they meant. -/
def Stmt.endApart (env : Env) (body : List Stmt) : Bool :=
  body.getLast?.any (·.leaves) ||
    (postponedBy env [] body).all (·.unchanged cx (allBinds body ++ env))

mutual

def Stmt.apart (pending : List Postponed) (env : Env) : Stmt → Bool
  | .block _ body =>
    (allBinds body).distinct && allApart pending [] env body &&
      endApart cx env body
  | .var _ decl =>
    env.admits decl.name && !(cx.localNames (optionRefs decl.init)).contains decl.name
  | .cond _ _ onTrue onFalse =>
    onTrue.binds.isEmpty && onTrue.apart pending env && elseApart pending env onFalse
  | .loop _ _ body => body.binds.isEmpty && body.apart pending env
  | .foreach info binding (.range _ low _ _) body =>
    env.admits binding && !(cx.localNames low.refs).contains binding &&
      body.binds.isEmpty && body.apart pending ((binding, .node info.id) :: env)
  | .foreach info binding iterable body =>
    env.admits binding && !(cx.localNames iterable.refs).contains binding &&
      body.unbracedBinds.all (cIdent ·.1 != cIdent binding) &&
      body.binds.isEmpty && body.apart pending ((binding, .node info.id) :: env)
  | .ret _ _ => pending.all (·.unchanged cx env)
  | .defer _ body => body.binds.isEmpty && body.apart [] env
  | .crash _ _ | .expr _ _ | .assign _ _ _ _ | .switch _ _ => true

def Stmt.allApart (pending own : List Postponed) (env : Env) : List Stmt → Bool
  | [] => true
  | s :: ss =>
    s.apart (own ++ pending) env &&
      allApart pending (s.postponed env ++ own) (s.binds ++ env) ss

def Stmt.elseApart (pending : List Postponed) (env : Env) : Option Stmt → Bool
  | none => true
  | some s => s.binds.isEmpty && s.apart pending env

end

def functionApart (params : List Param) (body : List Stmt) : Bool :=
  (allBinds body ++ paramEnv params).distinct &&
    params.all (fun p => !isMadeUp (cIdent p.name)) &&
    allApart cx [] [] (paramEnv params) body && endApart cx (paramEnv params) body

end Apart

/-- The names in `S` mean in C what they mean in the source. -/
def Agree (S : String → Prop) (env : Env) (scopes : CScopes (Option Origin)) : Prop :=
  ∀ n o, S n → env.lookup n = some o → scopes.find? (cIdent n) = some (some o)

theorem mem_of_lookup {n : String} (h : env.lookup n = some o) : (n, o) ∈ env := by
  induction env with
  | nil => simp at h
  | cons b env ih =>
    rw [lookup_cons] at h
    split at h
    · rename_i heq
      rw [beq_iff_eq] at heq
      obtain rfl : b.2 = o := by simpa using h
      subst heq
      exact mem_cons_self
    · exact mem_cons_of_mem b (ih h)

/-- No local in sight has a name that is made up. -/
def Env.Plain (env : Env) : Prop := ∀ b ∈ env, isMadeUp (cIdent b.1) = false

namespace Agree

variable {S : String → Prop} {env : Env} {scopes : CScopes (Option Origin)}

section

variable (h : Agree S env scopes)

include h

theorem mono {T : String → Prop} (hT : ∀ n, T n → S n) :
    Agree T env scopes := fun n o hn => h n o (hT n hn)

theorem opened : Agree S env ([] :: scopes) := h

theorem madeUp (plain : env.Plain) {name : String} (hname : isMadeUp name = true) :
    Agree S env (scopes.declare name none) := by
  intro n o hn ho
  have hne : name ≠ cIdent n := by
    rintro rfl
    simp [plain _ (mem_of_lookup ho)] at hname
  rw [find?_declare_of_ne hne]
  exact h n o hn ho

theorem others (admitted : env.admits x = true) (label : Option Origin) :
    Agree (fun n => S n ∧ n ≠ x) env (scopes.declare (cIdent x) label) := by
  intro n o hn ho
  have hother : cIdent x ≠ cIdent n := by
    intro heq
    simp only [admits, Bool.and_eq_true, all_eq_true] at admitted
    have := admitted.2 _ (mem_of_lookup ho)
    simp only [heq, bne_self_eq_false, Bool.false_or, beq_iff_eq] at this
    exact hn.2 this
  rw [find?_declare_of_ne hother]
  exact h n o hn.1 ho

end

theorem declare (h : Agree S env (inner :: outer)) (admitted : env.admits x = true)
    (hnew : ∀ d ∈ inner, d.1 ≠ cIdent x) (o : Origin) :
    Agree (fun n => n ∈ [x] ∨ S n) ((x, o) :: env)
      (.declare (cIdent x) (some o) (inner :: outer)) := by
  intro n o' hn ho
  rw [lookup_cons] at ho
  split at ho
  · rename_i heq
    rw [beq_iff_eq] at heq
    subst heq
    obtain rfl : o = o' := by simpa using ho
    exact find?_declare_self hnew _ _
  · rename_i hne
    rw [beq_eq_false_iff_ne] at hne
    have hn := hn.resolve_left fun h => hne (mem_singleton.mp h)
    exact h.others admitted (some o) n o' ⟨hn, hne⟩ ho

end Agree

/-- References to locals from one place are references to locals in sight, with names in `S`. -/
def Checked.Known (cx : Checked) (S : String → Prop) (env : Env) (refs : List (Nat × List String)) :
    Prop :=
  ∀ r ∈ refs, cx.resolution.binding? r.1 = some .local →
    ∃ n, r.2 = [n] ∧ S n ∧ (env.lookup n).isSome = true

section Known

variable {cx : Checked} {S : String → Prop} {env : Env} {scopes : CScopes (Option Origin)}

theorem Checked.Known.left {rs ss : List (Nat × List String)} (h : cx.Known S env (rs ++ ss)) :
    cx.Known S env rs := fun r hr => h r (mem_append_left _ hr)

theorem Checked.Known.right {rs ss : List (Nat × List String)} (h : cx.Known S env (rs ++ ss)) :
    cx.Known S env ss := fun r hr => h r (mem_append_right _ hr)

theorem Checked.Known.without {refs : List (Nat × List String)} (h : cx.Known S env refs)
    (hx : (cx.localNames refs).contains x = false) : cx.Known (fun n => S n ∧ n ≠ x) env refs := by
  intro r hr hlocal
  obtain ⟨n, hpath, hn, hseen⟩ := h r hr hlocal
  refine ⟨n, hpath, ⟨hn, ?_⟩, hseen⟩
  rintro rfl
  have hmem : n ∈ cx.localNames refs := by
    refine mem_map.mpr ⟨r, mem_filter.mpr ⟨hr, by simpa using hlocal⟩, ?_⟩
    rw [hpath]
    rfl
  rw [← contains_iff_mem, hx] at hmem
  cases hmem

theorem Checked.referenceMarks_finds (agree : Agree S env scopes) {info : Info}
    {path : List String} (h : cx.Known S env [(info.id, path)]) :
    ∀ m ∈ cx.referenceMarks env info path, m.Finds scopes := by
  unfold Checked.referenceMarks
  cases hb : cx.resolution.binding? info.id with
  | none => simp
  | some b =>
    cases b with
    | «local» =>
      obtain ⟨n, rfl, hn, hseen⟩ := h (info.id, path) mem_cons_self hb
      obtain ⟨o, ho⟩ := Option.isSome_iff_exists.mp hseen
      have right := agree n o hn ho
      simp only [mem_singleton, forall_eq]
      refine ⟨⟨_, _, rfl⟩, ?_⟩
      simpa [Right, origin, ho] using right
    | _ => simpa using finds_plain scopes _

section

variable (agree : Agree S env scopes)

include agree

mutual

theorem Expr.marks_finds (e : Expr) (h : cx.Known S env e.refs) :
    ∀ m ∈ e.marks cx env, m.Finds scopes := by
  cases e with
  | ref info path => exact Checked.referenceMarks_finds agree h
  | binary info op l r | index info l r =>
    exact forall_mem_append.mpr ⟨l.marks_finds h.left, r.marks_finds h.right⟩
  | unary info op e | step info op e | field info e name arrow | sizeofExpr info e
  | cast info type e => exact e.marks_finds h
  | call info callee arguments =>
    exact forall_mem_append.mpr
      ⟨callee.marks_finds h.left, allMarks_finds arguments h.right⟩
  | structInit info fields => exact fieldMarks_finds fields h
  | sizeofType info type operand =>
    cases operand with
    | none => exact forall_mem_nil _
    | some e =>
      rw [marks]
      split
      · exact forall_mem_nil _
      · exact e.marks_finds h
  | _ => exact forall_mem_nil _

theorem Expr.allMarks_finds (es : List Expr) (h : cx.Known S env (allRefs es)) :
    ∀ m ∈ allMarks cx env es, m.Finds scopes := by
  cases es with
  | nil => exact forall_mem_nil _
  | cons e es =>
    exact forall_mem_append.mpr
      ⟨e.marks_finds h.left, allMarks_finds es h.right⟩

theorem Expr.fieldMarks_finds (fs : List (FieldInit Expr)) (h : cx.Known S env (fieldRefs fs)) :
    ∀ m ∈ fieldMarks cx env fs, m.Finds scopes := by
  match fs with
  | [] => exact forall_mem_nil _
  | ⟨name, span, e⟩ :: fs =>
    exact forall_mem_append.mpr
      ⟨e.marks_finds h.left, fieldMarks_finds fs h.right⟩

end

end

section

variable (agree : Agree S env scopes)

include agree

theorem Expr.elementMarks_finds (es : List (ArrayElement Expr))
    (h : cx.Known S env (elementRefs es)) :
    ∀ m ∈ elementMarks cx env es, m.Finds scopes := by
  induction es with
  | nil => exact forall_mem_nil _
  | cons e es ih =>
    rcases e with ⟨_ | position, value⟩
    · exact forall_mem_append.mpr ⟨value.marks_finds agree h.left, ih h.right⟩
    · exact forall_mem_append.mpr ⟨forall_mem_append.mpr
        ⟨position.marks_finds agree h.left.left, value.marks_finds agree h.left.right⟩, ih h.right⟩

theorem Expr.initialMarks?_finds (init : Option Expr) (h : cx.Known S env (optionRefs init)) :
    ∀ m ∈ initialMarks? cx env init, m.Finds scopes := by
  cases init with
  | none => exact forall_mem_nil _
  | some e =>
    cases e with
    | arrayInit info length items => exact elementMarks_finds agree items (Checked.Known.right h)
    | _ => exact marks_finds agree _ h

theorem Expr.partMarks_finds (ps : List (TemplatePart Expr)) (h : cx.Known S env (partRefs ps))
    : ∀ m ∈ partMarks cx env ps, m.Finds scopes := by
  induction ps with
  | nil => exact forall_mem_nil _
  | cons p ps ih =>
    cases p with
    | text t => exact ih h
    | expr e => exact forall_mem_append.mpr ⟨e.marks_finds agree h.left, ih h.right⟩

theorem Expr.marks_fits (e : Expr) (h : cx.Known S env e.refs) :
    Fits scopes (e.marks cx env) scopes := .uses (e.marks_finds agree h)

end

end Known

theorem isMadeUp_append (text : String) : isMadeUp ("__ql_" ++ text) = true := by
  simp [isMadeUp]

theorem isMadeUp_fresh (purpose : String) (n : Nat) :
    isMadeUp ("__ql_" ++ purpose ++ "_" ++ toString n) = true := by
  rw [String.append_assoc, String.append_assoc]
  exact isMadeUp_append _

theorem Env.Plain.cons (h : env.Plain) (admitted : env.admits x = true) (o : Origin) :
    Plain ((x, o) :: env) := by
  simp only [admits, Bool.and_eq_true, Bool.not_eq_true'] at admitted
  exact forall_mem_cons.mpr ⟨admitted.1, h⟩

/-- References to locals see one of their name, and names that are free are in `S`. -/
structure Clear (cx : Checked) (S : String → Prop) (sightings : List Sighting)
    (free : List String) : Prop where
  seen : ∀ σ ∈ sightings, cx.resolution.binding? σ.node = some .local →
    ∃ n, σ.path = [n] ∧ (σ.env.lookup n).isSome = true
  free : ∀ n ∈ free, S n

namespace Clear

variable {cx : Checked} {S T : String → Prop} {as bs : List Sighting} {xs ys : List String}

theorem mono (h : Clear cx S as xs) (hT : ∀ n, S n → T n) : Clear cx T as xs :=
  ⟨h.seen, fun n hn => hT n (h.free n hn)⟩

theorem left (h : Clear cx S (as ++ bs) (xs ++ ys)) : Clear cx S as xs :=
  ⟨fun σ hσ => h.seen σ (mem_append_left _ hσ),
    fun n hn => h.free n (mem_append_left _ hn)⟩

theorem right (h : Clear cx S (as ++ bs) (xs ++ ys)) : Clear cx S bs ys :=
  ⟨fun σ hσ => h.seen σ (mem_append_right _ hσ),
    fun n hn => h.free n (mem_append_right _ hn)⟩

theorem known {refs : List (Nat × List String)}
    (h : Clear cx S (env.sightings refs) (cx.localNames refs)) : cx.Known S env refs := by
  intro r hr hlocal
  have hσ : (⟨env, r.1, r.2⟩ : Sighting) ∈ env.sightings refs := mem_map_of_mem hr
  obtain ⟨n, hpath, hseen⟩ := h.seen _ hσ hlocal
  refine ⟨n, hpath, h.free n ?_, hseen⟩
  refine mem_map.mpr ⟨r, mem_filter.mpr ⟨hr, by simpa using hlocal⟩, ?_⟩
  rw [show r.2 = [n] from hpath]
  rfl

theorem below {names : List String} (h : Clear cx S as (xs.filter fun n => !names.contains n)) :
    Clear cx (fun n => n ∈ names ∨ S n) as xs := by
  refine ⟨h.seen, fun n hn => ?_⟩
  by_cases hx : n ∈ names
  · exact .inl hx
  · exact .inr (h.free n (mem_filter.mpr ⟨hn, by simpa using hx⟩))

end Clear

/-- A deferred statement that can be written out: it declares nothing around itself and captures
nothing. -/
structure Postponed.Fit (cx : Checked) (S : String → Prop) (p : Postponed) : Prop where
  binds : p.body.binds = []
  apart : p.body.apart cx [] p.env = true
  plain : p.env.Plain
  clear : Clear cx S (p.body.sightings p.env) (p.body.free cx)

theorem Postponed.Fit.mono {cx : Checked} {S T : String → Prop} {p : Postponed} (h : p.Fit cx S)
    (hT : ∀ n, S n → T n) : p.Fit cx T := ⟨h.binds, h.apart, h.plain, h.clear.mono hT⟩

/-- Deferred statements fit wherever they mean what they meant. -/
def RunsFit (cx : Checked) (run : Postponed → Lay (List Laid)) : Prop :=
  ∀ (p : Postponed) (S : String → Prop), p.Fit cx S → ∀ scopes, Agree S p.env scopes → ∀ n,
    Fits scopes (all (run p n).1) scopes

theorem Laid.all_append (ls rs : List Laid) : all (ls ++ rs) = all ls ++ all rs :=
  flatMap_append

section Fits

variable {cx : Checked} {run : Postponed → Lay (List Laid)} {S : String → Prop} {env : Env}
  {scopes : CScopes (Option Origin)} {pending : List Postponed}

theorem inTurn_fits (hrun : RunsFit cx run) {ps : List Postponed} (hps : ∀ p ∈ ps, p.Fit cx S)
    (hun : ps.all (·.unchanged cx env) = true) (agree : Agree S env scopes) (n : Nat) :
    Fits scopes (all (inTurn run ps n).1) scopes := by
  induction ps generalizing n with
  | nil => exact .nil
  | cons p ps ih =>
    simp only [all_cons, Bool.and_eq_true] at hun
    have hp := hps p mem_cons_self
    have here : Agree (· ∈ p.body.free cx) p.env scopes := by
      intro m o hm ho
      have same := all_eq_true.mp hun.1 m hm
      rw [decide_eq_true_eq] at same
      exact agree m o (hp.clear.free m hm) (same.trans ho)
    have own : p.Fit cx (· ∈ p.body.free cx) :=
      ⟨hp.binds, hp.apart, hp.plain, hp.clear.seen, fun _ h => h⟩
    have first := hrun p _ own scopes here n
    have rest := ih (fun q hq => hps q (mem_cons_of_mem p hq)) hun.2 (run p n).2
    rw [show (inTurn run (p :: ps) n).1 = (run p n).1 ++ (inTurn run ps (run p n).2).1
      from rfl, Laid.all_append]
    exact first.append rest

theorem all_single (l : Laid) : Laid.all [l] = l.full := by simp [Laid.all]

theorem fits_block {marks : Marks} (h : Fits ([] :: scopes) marks (inner :: scopes)) :
    Fits scopes (all [.block marks]) scopes := by
  rw [all_single]
  exact h.inScope

theorem returned_fits (hrun : RunsFit cx run) (hpending : ∀ p ∈ pending, p.Fit cx S)
    (hun : pending.all (·.unchanged cx env) = true) (plain : env.Plain)
    (agree : Agree S env scopes) (value : Option Expr)
    (known : cx.Known S env (optionRefs value)) (n : Nat) :
    Fits scopes (all (returned cx run pending env value n).1) scopes := by
  cases value with
  | none =>
    rw [returned]
    show Fits scopes (all ((ite (pending.isEmpty = true) _ _ : Lay (List Laid)) n).1) scopes
    split
    · exact .nil
    · exact fits_block (inTurn_fits hrun hpending hun agree.opened n)
  | some e =>
    rw [returned]
    show Fits scopes (all ((ite (pending.isEmpty = true) _ _ : Lay (List Laid)) n).1) scopes
    split
    · rw [show (pure [{ marks := e.marks cx env, returns := true }] : Lay (List Laid)) n =
        ([{ marks := e.marks cx env, returns := true }], n) from rfl, all_single]
      exact e.marks_fits agree known
    · have kept := agree.opened.madeUp plain (isMadeUp_fresh "ret" n)
      exact fits_block (.append (.append (.declares _ _ (e.marks_fits kept known))
        (inTurn_fits hrun hpending hun kept (n + 1))) (.plain _ _))

theorem printError_fits {marks : Marks} (h : ∀ m ∈ marks, m.Finds scopes) :
    Fits scopes (all [printError marks]) scopes := by
  rw [all_single]
  refine .uses (forall_mem_cons.mpr ⟨finds_plain _ _, ?_⟩)
  exact forall_mem_cons.mpr ⟨finds_plain _ _, h⟩

section

variable (plain : env.Plain) (agree : Agree S env scopes)

include plain agree

theorem crashMessage_fits (e : Expr) (known : cx.Known S env e.refs) (n : Nat) :
    Fits scopes (all (crashMessage cx env e n).1) scopes := by
  have other := printError_fits (e.marks_finds agree known)
  cases e with
  | template info parts =>
    rw [crashMessage]
    show Fits scopes (all ((ite (_ = true) _ _ : Lay (List Laid)) n).1) scopes
    split
    · have kept := agree.opened.madeUp plain (isMadeUp_fresh "buf" n)
      refine fits_block (.declares _ _ (.uses ?_))
      have given := partMarks_finds kept parts known
      refine forall_mem_cons.mpr ⟨finds_plain _ _, forall_mem_cons.mpr
        ⟨finds_plain _ _, forall_mem_cons.mpr ⟨finds_plain _ _, ?_⟩⟩⟩
      refine forall_mem_append.mpr ⟨given, ?_⟩
      simp only [forall_mem_cons, finds_plain, true_and]
      exact forall_mem_nil _
    · exact printError_fits (partMarks_finds agree parts known)
  | literal info value =>
    cases value with
    | string | chars => exact printError_fits (forall_mem_nil _)
    | _ => exact other
  | _ => exact other

theorem crash_fits (message : Option Expr) (known : cx.Known S env (optionRefs message))
    (n : Nat) : Fits scopes (all (crash cx env message n).1) scopes := by
  have aborted : Fits scopes (all [{ marks := [.uses "abort" none] }]) scopes := by
    rw [all_single]
    exact .plain _ _
  cases message with
  | none => exact aborted
  | some e =>
    have printed := crashMessage_fits plain agree e known n
    rw [show (crash cx env (some e) n).1 = (crashMessage cx env e n).1 ++
      [{ marks := [.uses "abort" none] }] from rfl, Laid.all_append]
    exact printed.append aborted

theorem countRange_fits {low high : Expr} {layBody : Lay Marks} (admitted : env.admits x = true)
    (hlow : (cx.localNames low.refs).contains x = false) (knownLow : cx.Known S env low.refs)
    (knownHigh : cx.Known S env high.refs)
    (hbody : ∀ outer, Agree (fun n => n ∈ [x] ∨ S n) ((x, o) :: env) outer → ∀ n, ∃ inner, Fits ([] :: outer) (layBody n).1 (inner :: outer))
    (n : Nat) :
    Fits scopes (all (countRange cx env o x low high layBody n).1) scopes := by
  let bound := "__ql_" ++ "end" ++ "_" ++ toString n
  let around := declare bound none ([] :: scopes)
  let counter := declare (cIdent x) (some o) ([] :: around)
  have kept : Agree S env around := agree.opened.madeUp plain (isMadeUp_fresh "end" n)
  have counting : Agree (fun n => n ∈ [x] ∨ S n) ((x, o) :: env) counter :=
    kept.opened.declare admitted (forall_mem_nil _) o
  obtain ⟨inner, inside⟩ := hbody _ counting (n + 1)
  have found : Finds counter (.uses (cIdent x) (some o)) :=
    ⟨⟨_, _, rfl⟩, counting x o (.inl mem_cons_self) lookup_cons_self⟩
  have counted : Fits counter (low.marks cx env) counter :=
    low.marks_fits (kept.opened.others admitted (some o)) (knownLow.without hlow)
  have stepping : ∀ m ∈ [.uses (cIdent x) (some o), .uses bound none,
      .uses (cIdent x) (some o)], Finds counter m := by
    refine forall_mem_cons.mpr ⟨found, forall_mem_cons.mpr ⟨finds_plain _ _, ?_⟩⟩
    exact forall_mem_singleton.mpr found
  have loop := ((counted.declares _ _).append (.uses stepping)).append inside.inScope
  exact fits_block (((high.marks_fits kept knownHigh).declares _ _).append loop.inScope)

theorem countElements_fits {e : Expr} {layBody : Lay Marks} (admitted : env.admits x = true)
    (he : (cx.localNames e.refs).contains x = false) (known : cx.Known S env e.refs)
    (hbody : ∀ outer, Agree (fun n => n ∈ [x] ∨ S n) ((x, o) :: env) ([(cIdent x, some o)] :: outer) → ∀ n, ∃ inner, Fits ([(cIdent x, some o)] :: outer) (layBody n).1 (inner :: outer))
    (n : Nat) :
    Fits scopes (all (countElements cx env o x e layBody n).1) scopes := by
  unfold countElements
  rcases cx.resolution.typeOf? e.id with _ | t
  · exact .nil
  rcases t with _ | _ | _ | _ | ⟨element, _ | length⟩ | _ | _ | _ | _ | _ | _
  case array.some =>
    let position := "__ql_" ++ "i" ++ "_" ++ toString n
    let around := declare position none ([] :: scopes)
    have kept : Agree S env around := agree.opened.madeUp plain (isMadeUp_fresh "i" n)
    have bound := kept.opened.declare admitted (forall_mem_nil _) o
    obtain ⟨inner, inside⟩ := hbody around bound (n + 1)
    have value : Fits (.declare (cIdent x) (some o) ([] :: around)) (e.marks cx env) _ :=
      e.marks_fits (kept.opened.others admitted (some o)) (known.without he)
    have body := ((value.declares _ _).append (.plain _ position)).append inside
    have loop := (((Mark.Fits.plain around position).append (.plain around position)).declares
      position none).append body.inScope
    exact (all_single _).symm ▸ loop.inScope
  all_goals exact .nil

end

/-- A statement fits in every scope that agrees with its locals, with and without its braces. -/
structure Stmt.Fit (cx : Checked) (run : Postponed → Lay (List Laid)) (S : String → Prop)
    (pending : List Postponed) (env : Env) (s : Stmt) : Prop where
  whole : ∀ scopes, Agree S env scopes → ∀ n,
    Fits scopes (all (s.lay cx run pending env n).1) scopes
  unbraced : ∀ inner outer, (∀ d ∈ inner, ∀ b ∈ s.unbracedBinds, d.1 ≠ cIdent b.1) →
    Agree S env (inner :: outer) → ∀ n, ∃ inner',
      Fits (inner :: outer) (unbraced s (s.lay cx run pending env n).1) (inner' :: outer)

theorem Stmt.Fit.of_whole (hs : ∀ info body, s ≠ .block info body)
    (h : ∀ scopes, Agree S env scopes → ∀ n,
      Fits scopes (Laid.all (s.lay cx run pending env n).1) scopes) :
    s.Fit cx run S pending env := by
  refine ⟨h, fun inner outer _ agree n => ⟨inner, ?_⟩⟩
  have same : Laid.unbraced s (s.lay cx run pending env n).1 =
      Laid.all (s.lay cx run pending env n).1 := by
    cases s with
    | block info body => exact absurd rfl (hs info body)
    | _ => rfl
  rw [same]
  exact h _ agree n

theorem Stmt.Fit.branch (h : s.Fit cx run S pending env) (agree : Agree S env scopes) (n : Nat) :
    Fits scopes
      (inScope (Laid.unbraced s (s.lay cx run pending env n).1)) scopes := by
  obtain ⟨inner, fits⟩ := h.unbraced [] scopes (forall_mem_nil _)
    agree.opened n
  exact fits.inScope

theorem Stmt.apart_foreach {e : Expr} (info : Info) (x : String) (body : Stmt)
    (he : ∀ i low high inclusive, e ≠ .range i low high inclusive) :
    (foreach info x e body).apart cx pending env =
      (env.admits x && !(cx.localNames e.refs).contains x &&
        body.unbracedBinds.all (cIdent ·.1 != cIdent x) &&
        body.binds.isEmpty && body.apart cx pending ((x, .node info.id) :: env)) := by
  cases e with
  | range i low high inclusive => exact absurd rfl (he i low high inclusive)
  | _ => rw [apart]; exact nofun

theorem Stmt.binds_of_apart (h : s.apart cx pending env = true) :
    s.binds = [] ∨ ∃ info decl, s = .var info decl := by
  cases s with
  | var info decl => exact .inr ⟨info, decl, rfl⟩
  | cond info test onTrue onFalse =>
    simp only [apart, Bool.and_eq_true, List.isEmpty_iff] at h
    have hno : elseBinds onFalse = [] := by
      cases onFalse with
      | none => rfl
      | some s =>
        simp only [elseApart, Bool.and_eq_true, List.isEmpty_iff] at h
        exact h.2.1
    left
    rw [binds, hno, h.1.1]
    rfl
  | loop info test body | defer info body =>
    simp only [apart, Bool.and_eq_true, List.isEmpty_iff] at h
    exact .inl h.1
  | _ => exact .inl rfl

theorem Stmt.postponed_fit (h : s.apart cx pending env = true) (plain : env.Plain)
    (clear : Clear cx S (s.sightings env) (s.free cx)) : ∀ p ∈ s.postponed env, p.Fit cx S := by
  cases s with
  | defer info body =>
    simp only [apart, Bool.and_eq_true, List.isEmpty_iff] at h
    exact forall_mem_singleton.mpr ⟨h.1, h.2, plain, clear⟩
  | _ => exact forall_mem_nil _

/-- Behind a statement of a block: what it declares is new in the innermost scope. -/
structure BlockStep (S : String → Prop) (env : Env) (binds : Env) (marks : Marks)
    (inner : List (String × Option Origin)) (outer : CScopes (Option Origin))
    (inner' : List (String × Option Origin)) : Prop where
  fits : Fits (inner :: outer) marks (inner' :: outer)
  agree : Agree (fun n => n ∈ binds.map (·.1) ∨ S n) (binds ++ env) (inner' :: outer)
  names : ∀ d ∈ inner', d ∈ inner ∨ ∃ b ∈ binds, d.1 = cIdent b.1

theorem var_step {info : Info} {decl : VarDecl} (apart : (Stmt.var info decl).apart cx pending env)
    (clear : Clear cx S ((Stmt.var info decl).sightings env) ((Stmt.var info decl).free cx))
    (hinner : ∀ d ∈ inner, d.1 ≠ cIdent decl.name) (agree : Agree S env (inner :: outer)) (n : Nat) :
    ∃ inner', BlockStep S env (Stmt.var info decl).binds
      (all ((Stmt.var info decl).lay cx run pending env n).1) inner outer inner' := by
  simp only [Stmt.apart, Bool.and_eq_true, Bool.not_eq_true'] at apart
  have known : cx.Known S env (optionRefs decl.init) := Clear.known clear
  have value := initialMarks?_finds (agree.others apart.1 (some (.node info.id)))
    decl.init (known.without apart.2)
  refine ⟨(cIdent decl.name, some (.node info.id)) :: inner, ?_, ?_, ?_⟩
  · rw [Stmt.lay]
    exact (all_single _).symm ▸ (Mark.Fits.uses value).declares _ _
  · exact agree.declare apart.1 hinner _
  · intro d hd
    rcases mem_cons.mp hd with rfl | hd
    · exact .inr ⟨_, mem_singleton_self _, rfl⟩
    · exact .inl hd

theorem Stmt.Fit.step (fit : s.Fit cx run S pending env) (hs : s.binds = [])
    (agree : Agree S env (inner :: outer)) (n : Nat) :
    BlockStep S env s.binds (all (s.lay cx run pending env n).1) inner outer inner := by
  rw [hs]
  exact ⟨fit.whole _ agree n, agree.mono fun n hn => hn.resolve_left not_mem_nil,
    fun d hd => .inl hd⟩

theorem postponedBy_fit {own : List Postponed} {ss : List Stmt}
    (apart : Stmt.allApart cx pending own env ss = true) (plain : env.Plain)
    (clear : Clear cx S (Stmt.allSightings env ss) (Stmt.allFree cx ss))
    (hown : ∀ p ∈ own, p.Fit cx S) :
    ∀ p ∈ Stmt.postponedBy env own ss,
      p.Fit cx fun n => n ∈ (Stmt.allBinds ss).map (·.1) ∨ S n := by
  induction ss generalizing S env own with
  | nil => exact fun p hp => (hown p hp).mono fun _ => .inr
  | cons s ss ih =>
    simp only [Stmt.allApart, Bool.and_eq_true] at apart
    have first := Stmt.postponed_fit apart.1 plain clear.left
    have rest := clear.right.below
    have plain' : Plain (s.binds ++ env) := by
      rcases Stmt.binds_of_apart apart.1 with h | ⟨info, decl, rfl⟩
      · rwa [h]
      · simp only [Stmt.apart, Bool.and_eq_true] at apart
        exact plain.cons apart.1.1 _
    have hown' : ∀ p ∈ s.postponed env ++ own,
        p.Fit cx fun n => n ∈ s.binds.map (·.1) ∨ S n :=
      forall_mem_append.mpr ⟨fun p hp => (first p hp).mono fun _ => .inr,
        fun p hp => (hown p hp).mono fun _ => .inr⟩
    intro p hp
    refine (ih apart.2 plain' rest hown' p hp).mono fun n hn => ?_
    rw [Stmt.allBinds, map_append, mem_append, or_assoc]
    exact hn

theorem inBlock_fits (hrun : RunsFit cx run) {body : List Stmt}
    (apart : allApart cx pending [] env body = true) (plain : env.Plain)
    (clear : Clear cx S (allSightings env body) (allFree cx body))
    (ended : endApart cx env body = true) {inner' : List (String × Option Origin)} {n : Nat}
    (steps : BlockStep S env (allBinds body)
      (all (layAll cx run pending [] env body n).1) inner outer inner') :
    Fits (inner :: outer) (inBlock run (postponedBy env [] body) body
      (layAll cx run pending [] env body) n).1 (inner' :: outer) := by
  let o := layAll cx run pending [] env body n
  have laid : (inBlock run (postponedBy env [] body) body
      (layAll cx run pending [] env body) n).1 =
      if (o.1.getLast?.any (·.returns) || body.getLast?.any (·.leaves)) = true
      then Laid.all o.1
      else all (o.1 ++ (inTurn run (postponedBy env [] body) o.2).1) := by
    show ((ite (_ = true) _ _ : Lay Marks) _).1 = _
    split <;> rfl
  rw [laid]
  split
  · exact steps.fits
  · rename_i hleaves
    have hun : (postponedBy env [] body).all
        (·.unchanged cx (allBinds body ++ env)) = true := by
      rw [endApart, Bool.or_eq_true] at ended
      refine ended.resolve_left fun h => hleaves ?_
      rw [h, Bool.or_true]
    have own := postponedBy_fit apart plain clear (forall_mem_nil _)
    rw [Laid.all_append]
    exact steps.fits.append (inTurn_fits hrun own hun steps.agree o.2)

section

variable (hrun : RunsFit cx run)

include hrun

mutual

theorem stmt_fit (pending : List Postponed) (S : String → Prop) (env : Env) (s : Stmt)
    (apart : s.apart cx pending env = true) (hvar : ∀ info decl, s ≠ .var info decl)
    (plain : env.Plain) (clear : Clear cx S (s.sightings env) (s.free cx))
    (hpending : ∀ p ∈ pending, p.Fit cx S) : s.Fit cx run S pending env := by
  cases s with
  | block info body =>
    simp only [Stmt.apart, Bool.and_eq_true] at apart
    obtain ⟨⟨distinct, apart⟩, ended⟩ := apart
    have inside : ∀ inner outer, (∀ d ∈ inner, ∀ b ∈ Stmt.allBinds body, d.1 ≠ cIdent b.1) →
        Agree S env (inner :: outer) → ∀ n, ∃ inner', Fits (inner :: outer)
          (inBlock run (Stmt.postponedBy env [] body) body
            (Stmt.layAll cx run pending [] env body) n).1 (inner' :: outer) := by
      intro inner outer hinner agree n
      obtain ⟨inner', steps⟩ := stmts_fit pending [] S env body apart distinct plain clear
        hpending (forall_mem_nil _) inner outer hinner agree n
      exact ⟨inner', inBlock_fits hrun apart plain clear ended steps⟩
    constructor
    · intro scopes agree n
      obtain ⟨inner', fits⟩ := inside [] scopes (forall_mem_nil _)
        agree.opened n
      rw [Stmt.lay]
      exact fits_block fits
    · intro inner outer hinner agree n
      rw [Stmt.lay]
      exact inside inner outer hinner agree n
  | var info decl => exact absurd rfl (hvar info decl)
  | cond info test onTrue onFalse =>
    simp only [Stmt.apart, Bool.and_eq_true, List.isEmpty_iff] at apart
    obtain ⟨⟨hbinds, apartTrue⟩, apartFalse⟩ := apart
    have yes := stmt_fit pending S env onTrue apartTrue
      (by rintro info decl rfl; simp [Stmt.binds] at hbinds) plain clear.left.right hpending
    have clearElse : Clear cx S (Stmt.elseSightings env onFalse) (Stmt.elseFree cx onFalse) := by
      have h := clear.right
      rwa [hbinds] at h
    have no := else_fit pending S env onFalse apartFalse plain clearElse hpending
    refine .of_whole (by simp) fun scopes agree n => ?_
    rw [Stmt.lay]
    have tested := test.marks_fits agree clear.left.left.known
    have both := (tested.append (yes.branch agree n)).append
      (no scopes agree (onTrue.lay cx run pending env n).2)
    rw [hbinds]
    exact (all_single _).symm ▸ both
  | loop info test body =>
    simp only [Stmt.apart, Bool.and_eq_true, List.isEmpty_iff] at apart
    have round := stmt_fit pending S env body apart.2
      (by rintro info decl rfl; simp [Stmt.binds] at apart) plain clear.right hpending
    refine .of_whole (by simp) fun scopes agree n => ?_
    rw [Stmt.lay]
    have tested := test.marks_fits agree clear.left.known
    exact (all_single _).symm ▸ tested.append (round.branch agree n)
  | foreach info x e body =>
    have clearBody : Clear cx (fun n => n ∈ [x] ∨ S n)
        (body.sightings ((x, .node info.id) :: env)) (body.free cx) := clear.right.below
    have hpending' : ∀ p ∈ pending, p.Fit cx fun n => n ∈ [x] ∨ S n :=
      fun p hp => (hpending p hp).mono fun _ => .inr
    by_cases hr : ∃ i low high inclusive, e = .range i low high inclusive
    · obtain ⟨i, low, high, inclusive, rfl⟩ := hr
      simp only [Stmt.apart, Bool.and_eq_true, Bool.not_eq_true', List.isEmpty_iff] at apart
      obtain ⟨⟨⟨admitted, hlow⟩, hbinds⟩, apart⟩ := apart
      have round := stmt_fit pending _ _ body apart
        (by rintro info decl rfl; simp [Stmt.binds] at hbinds) (plain.cons admitted _) clearBody
        hpending'
      have known : cx.Known S env (low.refs ++ high.refs) := clear.left.known
      refine .of_whole (by simp) fun scopes agree n => ?_
      rw [Stmt.lay]
      refine countRange_fits plain agree admitted hlow known.left known.right ?_ n
      intro outer agree n
      exact round.unbraced [] outer (forall_mem_nil _) agree.opened n
    · have hne : ∀ i low high inclusive, e ≠ .range i low high inclusive :=
        fun i low high inclusive h => hr ⟨i, low, high, inclusive, h⟩
      rw [Stmt.apart_foreach info x body hne] at apart
      simp only [Bool.and_eq_true, Bool.not_eq_true', List.isEmpty_iff, all_eq_true,
        bne_iff_ne] at apart
      obtain ⟨⟨⟨⟨admitted, he⟩, htop⟩, hbinds⟩, apart⟩ := apart
      have round := stmt_fit pending _ _ body apart
        (by rintro info decl rfl; simp [Stmt.binds] at hbinds) (plain.cons admitted _) clearBody
        hpending'
      refine .of_whole (by simp) fun scopes agree n => ?_
      rw [Stmt.lay_foreach cx run pending env info x body hne]
      refine countElements_fits plain agree admitted he clear.left.known ?_ n
      intro outer agree n
      refine round.unbraced _ outer (fun d hd b hb => ?_) agree n
      rw [mem_singleton.mp hd]
      exact (htop b hb).symm
  | ret info value =>
    refine .of_whole (by simp) fun scopes agree n => ?_
    rw [Stmt.lay]
    exact returned_fits hrun hpending apart plain agree value clear.known n
  | crash info message =>
    refine .of_whole (by simp) fun scopes agree n => ?_
    rw [Stmt.lay]
    exact crash_fits plain agree message clear.known n
  | expr info e =>
    refine .of_whole (by simp) fun scopes agree n => ?_
    rw [Stmt.lay]
    exact (all_single _).symm ▸ e.marks_fits agree clear.known
  | assign info op target value =>
    refine .of_whole (by simp) fun scopes agree n => ?_
    rw [Stmt.lay]
    exact (all_single _).symm ▸
      (target.marks_fits agree clear.left.known).append (value.marks_fits agree clear.right.known)
  | defer info body | switch info e =>
    refine .of_whole (by simp) fun scopes agree n => ?_
    rw [Stmt.lay]
    exact .nil

theorem stmts_fit (pending own : List Postponed) (S : String → Prop) (env : Env) (ss : List Stmt)
    (apart : Stmt.allApart cx pending own env ss = true)
    (distinct : (Stmt.allBinds ss).distinct = true) (plain : env.Plain)
    (clear : Clear cx S (Stmt.allSightings env ss) (Stmt.allFree cx ss))
    (hpending : ∀ p ∈ pending, p.Fit cx S) (hown : ∀ p ∈ own, p.Fit cx S) :
    ∀ inner outer, (∀ d ∈ inner, ∀ b ∈ Stmt.allBinds ss, d.1 ≠ cIdent b.1) →
      Agree S env (inner :: outer) → ∀ n, ∃ inner', BlockStep S env (Stmt.allBinds ss)
        (all (Stmt.layAll cx run pending own env ss n).1) inner outer inner' := by
  cases ss with
  | nil =>
    intro inner outer _ agree n
    rw [Stmt.layAll]
    exact ⟨inner, .nil, agree.mono fun n hn => hn.resolve_left not_mem_nil,
      fun d hd => .inl hd⟩
  | cons s ss =>
    intro inner outer hinner agree n
    simp only [Stmt.allApart, Bool.and_eq_true] at apart
    rw [Stmt.allBinds] at hinner distinct
    rw [Env.distinct, map_append, decide_eq_true_eq, nodup_append] at distinct
    have hpendingAll : ∀ p ∈ own ++ pending, p.Fit cx S :=
      forall_mem_append.mpr ⟨hown, hpending⟩
    -- The first statement: a variable is added to the innermost scope, all else leaves it alone.
    obtain ⟨plain', inner₁, first⟩ : Plain (s.binds ++ env) ∧ ∃ inner₁,
        BlockStep S env s.binds (all (s.lay cx run (own ++ pending) env n).1) inner outer
          inner₁ := by
      by_cases hvar : ∃ info decl, s = .var info decl
      · obtain ⟨info, decl, rfl⟩ := hvar
        refine ⟨?_, var_step apart.1 clear.left (fun d hd => ?_) agree n⟩
        · simp only [Stmt.apart, Bool.and_eq_true] at apart
          exact plain.cons apart.1.1 _
        · exact hinner d hd _ (mem_append_right _ (mem_singleton_self _))
      · have hbinds := (Stmt.binds_of_apart apart.1).resolve_right hvar
        have fit := stmt_fit (own ++ pending) S env s apart.1
          (fun info decl h => hvar ⟨info, decl, h⟩) plain clear.left hpendingAll
        refine ⟨?_, inner, fit.step hbinds agree n⟩
        rwa [hbinds]
    have fitOwn : ∀ p ∈ s.postponed env ++ own, p.Fit cx fun n => n ∈ s.binds.map (·.1) ∨ S n :=
      forall_mem_append.mpr
        ⟨fun p hp => (Stmt.postponed_fit apart.1 plain clear.left p hp).mono fun _ => .inr,
          fun p hp => (hown p hp).mono fun _ => .inr⟩
    have hinner₁ : ∀ d ∈ inner₁, ∀ b ∈ Stmt.allBinds ss, d.1 ≠ cIdent b.1 := by
      intro d hd b hb heq
      rcases first.names d hd with hd | ⟨b', hb', hd⟩
      · exact hinner d hd b (mem_append_left _ hb) heq
      · exact distinct.2.2 (cIdent b.1) (mem_map_of_mem hb) (cIdent b'.1)
          (mem_map_of_mem hb') (heq.symm.trans hd)
    obtain ⟨inner₂, rest⟩ := stmts_fit pending (s.postponed env ++ own) _ (s.binds ++ env) ss
      apart.2 (by rw [Env.distinct, decide_eq_true_eq]; exact distinct.1) plain' clear.right.below
      (fun p hp => (hpending p hp).mono fun _ => .inr) fitOwn inner₁ outer hinner₁ first.agree
      (s.lay cx run (own ++ pending) env n).2
    rw [Stmt.layAll, Stmt.allBinds]
    refine ⟨inner₂, ?_, ?_, ?_⟩
    · exact all_append _ _ ▸ first.fits.append rest.fits
    · rw [append_assoc]
      refine rest.agree.mono fun n hn => ?_
      rwa [map_append, mem_append, or_assoc] at hn
    · intro d hd
      rcases rest.names d hd with hd | ⟨b, hb, hd⟩
      · rcases first.names d hd with hd | ⟨b, hb, hd⟩
        · exact .inl hd
        · exact .inr ⟨b, mem_append_right _ hb, hd⟩
      · exact .inr ⟨b, mem_append_left _ hb, hd⟩

theorem else_fit (pending : List Postponed) (S : String → Prop) (env : Env) (s : Option Stmt)
    (apart : elseApart cx pending env s = true) (plain : env.Plain)
    (clear : Clear cx S (elseSightings env s) (elseFree cx s))
    (hpending : ∀ p ∈ pending, p.Fit cx S) :
    ∀ scopes, Agree S env scopes → ∀ n,
      Fits scopes (layElse cx run pending env s n).1 scopes := by
  cases s with
  | none =>
    intro scopes agree n
    rw [layElse]
    exact .nil
  | some s =>
    simp only [elseApart, Bool.and_eq_true, List.isEmpty_iff] at apart
    have fit := stmt_fit pending S env s apart.2
      (by rintro info decl rfl; simp [binds] at apart) plain clear hpending
    intro scopes agree n
    rw [layElse]
    exact fit.branch agree n

end

end

theorem postponed_runsFit (cx : Checked) : RunsFit cx (Postponed.lay cx) := by
  intro p S fit scopes agree n
  have idle : RunsFit cx fun _ => return [] := fun _ _ _ _ _ _ => .nil
  have hvar : ∀ info decl, p.body ≠ .var info decl := by
    intro info decl h
    have hbinds := fit.binds
    rw [h] at hbinds
    cases hbinds
  exact (stmt_fit idle [] S p.env p.body fit.apart hvar fit.plain fit.clear
    (forall_mem_nil _)).whole scopes agree n

theorem Param.declareAll_eq (env : Env) (index : Nat) (ps : List Param) :
    declareAll env index ps = declareAll [] index ps ++ env := by
  induction ps generalizing env index with
  | nil => rfl
  | cons p ps ih =>
    rw [declareAll, declareAll, ih, ih [_], append_assoc]
    rfl

theorem Env.Plain.declareAll {ps : List Param}
    (h : ps.all (fun p => !isMadeUp (cIdent p.name)) = true) (plain : env.Plain) (index : Nat) :
    (declareAll env index ps).Plain := by
  induction ps generalizing env index with
  | nil => exact plain
  | cons p ps ih =>
    simp only [all_cons, Bool.and_eq_true, Bool.not_eq_true'] at h
    have first : Plain ((p.name, .param index) :: env) :=
      forall_mem_cons.mpr ⟨h.1, plain⟩
    exact ih h.2 first (index + 1)

theorem params_step {ps : List Param} {index : Nat}
    (distinct : (declareAll env index ps).distinct = true)
    (plain : ps.all (fun p => !isMadeUp (cIdent p.name)) = true)
    (hinner : ∀ d ∈ inner, ∃ b ∈ env, d.1 = cIdent b.1) (agree : Agree (fun _ => True) env [inner]) :
    ∃ inner', Fits [inner] (marks index ps) [inner'] ∧
      Agree (fun _ => True) (declareAll env index ps) [inner'] ∧
      ∀ d ∈ inner', ∃ b ∈ declareAll env index ps, d.1 = cIdent b.1 := by
  induction ps generalizing env index inner with
  | nil => exact ⟨inner, .nil, agree, hinner⟩
  | cons p ps ih =>
    simp only [all_cons, Bool.and_eq_true] at plain
    have apart : ∀ b ∈ env, cIdent b.1 ≠ cIdent p.name := by
      rw [declareAll, declareAll_eq, Env.distinct, decide_eq_true_eq, map_append,
        nodup_append, map_cons, nodup_cons] at distinct
      intro b hb heq
      exact distinct.2.1.1 (heq ▸ mem_map_of_mem hb)
    have admitted : env.admits p.name = true := by
      simp only [admits, Bool.and_eq_true, all_eq_true]
      exact ⟨plain.1, fun b hb => by simp [apart b hb]⟩
    have new : ∀ d ∈ inner, d.1 ≠ cIdent p.name := by
      intro d hd
      obtain ⟨b, hb, hd⟩ := hinner d hd
      exact hd ▸ apart b hb
    have first := agree.declare admitted new (.param index)
    obtain ⟨inner', fits, agree', hinner'⟩ := ih distinct plain.2
      (forall_mem_cons.mpr ⟨⟨_, mem_cons_self, rfl⟩, fun d hd => by
        obtain ⟨b, hb, hd⟩ := hinner d hd
        exact ⟨b, mem_cons_of_mem _ hb, hd⟩⟩) (first.mono fun _ _ => .inr trivial)
    have declared : Fits (declare (cIdent p.name) (some (.param index)) [inner])
      (marks (index + 1) ps) [inner'] := fits
    exact ⟨inner', declared.declares _ _, agree', hinner'⟩

/-- In a function that is apart, every reference to a local finds the declaration of what it
means. -/
theorem functionMarks_faithful {params : List Param} {body : List Stmt}
    (apart : functionApart cx params body = true)
    (seen : ∀ σ ∈ allSightings (paramEnv params) body,
      cx.resolution.binding? σ.node = some .local →
        ∃ n, σ.path = [n] ∧ (σ.env.lookup n).isSome = true) :
    Faithful [] (functionMarks cx params body) := by
  simp only [functionApart, Bool.and_eq_true] at apart
  obtain ⟨⟨⟨distinct, plain⟩, apart⟩, ended⟩ := apart
  rw [Env.distinct, map_append, decide_eq_true_eq, nodup_append] at distinct
  have hparams : (paramEnv params).Plain :=
    Env.Plain.declareAll plain (forall_mem_nil _) 0
  have clear : Clear cx (fun _ => True) (allSightings (paramEnv params) body)
      (allFree cx body) := ⟨seen, fun _ _ => trivial⟩
  obtain ⟨inner, fits, agree, hinner⟩ : ∃ inner, Fits [[]] (marks 0 params) [inner] ∧
      Agree (fun _ => True) (paramEnv params) [inner] ∧
      ∀ d ∈ inner, ∃ b ∈ paramEnv params, d.1 = cIdent b.1 :=
    params_step (by rw [Env.distinct, decide_eq_true_eq]; exact distinct.2.1) plain
      (forall_mem_nil _) (fun n o _ h => by simp at h)
  have new : ∀ d ∈ inner, ∀ b ∈ allBinds body, d.1 ≠ cIdent b.1 := by
    intro d hd b hb heq
    obtain ⟨b', hb', hd⟩ := hinner d hd
    exact distinct.2.2 (cIdent b.1) (mem_map_of_mem hb) (cIdent b'.1)
      (mem_map_of_mem hb') (heq.symm.trans hd)
  have none : ∀ p ∈ ([] : List Postponed), p.Fit cx fun _ => True :=
    forall_mem_nil _
  obtain ⟨inner', steps⟩ := stmts_fit (postponed_runsFit cx) [] [] _ (paramEnv params) body apart
    (by rw [Env.distinct, decide_eq_true_eq]; exact distinct.1) hparams clear none none inner []
    new agree 0
  have inside := inBlock_fits (postponed_runsFit cx) apart hparams clear ended steps
  exact (fits.append inside).inScope.faithful

end Fits

end Quill
