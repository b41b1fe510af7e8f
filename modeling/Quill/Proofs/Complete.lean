import Quill.Proofs.Checking
import Quill.Proofs.Course

/-!
# Complete facts

A check that reports no error leaves a type for every expression it went through, a meaning for
every name, and for every `sizeof` a written type or an operand with a type.
-/
namespace Quill

open Ensures List Expr Checking.Step

variable {I : Facts → Prop} {info : Info} {l : Local} {node : Nat} {α : Type}

mutual

/-- All that is needed to lower an expression as a value is known. -/
def Expr.Complete (f : Facts) : Expr → Prop
  | .literal info _ => f.HasType info.id
  | .ref info _ => f.HasType info.id ∧ f.HasBinding info.id
  | .binary info _ l r | .index info l r => f.HasType info.id ∧ l.Complete f ∧ r.Complete f
  | .unary info _ e | .step info _ e | .field info e _ _ | .sizeofExpr info e | .cast info _ e =>
    f.HasType info.id ∧ e.Complete f
  | .call info callee arguments =>
    f.HasType info.id ∧ callee.Complete f ∧ AllComplete f arguments
  | .structInit info fields => f.HasType info.id ∧ FieldsComplete f fields
  | .arrayInit info length elements =>
    f.HasType info.id ∧ OptionComplete f length ∧ ElementsComplete f elements
  | .sizeofType info _ none => f.HasType info.id ∧ f.HasWritten info.id
  | .sizeofType info _ (some operand) =>
    f.HasType info.id ∧ (f.HasWritten info.id ∨ operand.Complete f)
  | .range _ _ _ _ | .tuple _ _ | .template _ _ => False

def Expr.AllComplete (f : Facts) : List Expr → Prop
  | [] => True
  | e :: es => e.Complete f ∧ AllComplete f es

def Expr.OptionComplete (f : Facts) : Option Expr → Prop
  | none => True
  | some e => e.Complete f

def Expr.FieldsComplete (f : Facts) : List (FieldInit Expr) → Prop
  | [] => True
  | ⟨_, _, e⟩ :: fs => e.Complete f ∧ FieldsComplete f fs

def Expr.ElementsComplete (f : Facts) : List (ArrayElement Expr) → Prop
  | [] => True
  | ⟨none, e⟩ :: es => e.Complete f ∧ ElementsComplete f es
  | ⟨some i, e⟩ :: es => i.Complete f ∧ e.Complete f ∧ ElementsComplete f es

end

def Expr.PartsComplete (f : Facts) : List (TemplatePart Expr) → Prop
  | [] => True
  | .text _ :: ps => PartsComplete f ps
  | .expr e :: ps => e.Complete f ∧ PartsComplete f ps

def Facts.HasInteger (f : Facts) (node : Nat) : Prop :=
  ∃ t, f.types.get? node = some t ∧ t.isInteger = true

/-- What a loop runs over: a range of integers, or an array of known length. -/
def Expr.IterableComplete (f : Facts) : Expr → Prop
  | .range info low high _ => f.HasInteger info.id ∧ low.Complete f ∧ high.Complete f
  | e => e.Complete f ∧ ∃ element length, f.types.get? e.id = some (.array element (some length))

def Expr.MessageComplete (f : Facts) : Expr → Prop
  | .template info parts => f.HasType info.id ∧ PartsComplete f parts
  | e => e.Complete f

mutual

def Stmt.Complete (f : Facts) : Stmt → Prop
  | .block _ body => Stmt.AllComplete f body
  | .var info decl => f.HasType info.id ∧ OptionComplete f decl.init
  | .cond _ test onTrue onFalse =>
    test.Complete f ∧ onTrue.Complete f ∧ Stmt.ElseComplete f onFalse
  | .loop _ test body => test.Complete f ∧ body.Complete f
  | .foreach info _ iterable body =>
    f.HasType info.id ∧ iterable.IterableComplete f ∧ body.Complete f
  | .ret _ e => OptionComplete f e
  | .defer _ body => body.Complete f
  | .crash _ none => True
  | .crash _ (some message) => message.MessageComplete f
  | .expr _ e => e.Complete f
  | .assign _ _ target value => target.Complete f ∧ value.Complete f
  | .switch _ _ => False

def Stmt.AllComplete (f : Facts) : List Stmt → Prop
  | [] => True
  | s :: ss => s.Complete f ∧ Stmt.AllComplete f ss

def Stmt.ElseComplete (f : Facts) : Option Stmt → Prop
  | none => True
  | some s => s.Complete f

end

def Decl.Complete (f : Facts) : Decl → Prop
  | .struct info _ | .typedef info _ _ | .header info _ => f.HasType info.id
  | .function info _ body => f.HasType info.id ∧ Stmt.AllComplete f body.body
  | .var info decl => f.HasType info.id ∧ OptionComplete f decl.init
  | .separator _ | .package _ _ | .imports _ _ => True

/-- Whatever is known stays known as facts are recorded for `touched` nodes. -/
def Stays (touched : Nat → Prop) (I : Facts → Prop) : Prop :=
  ∀ f f', Facts.Extends touched f f' → I f → I f'

namespace Expr

variable {f : Facts}

theorem allComplete_iff {es : List Expr} : AllComplete f es ↔ ∀ e ∈ es, e.Complete f := by
  induction es with
  | nil => simp [AllComplete]
  | cons e es ih => rw [AllComplete, ih, forall_mem_cons]

theorem optionComplete_iff {e : Option Expr} :
    OptionComplete f e ↔ ∀ x ∈ e.toList, x.Complete f := by
  cases e <;> simp [OptionComplete]

theorem fieldsComplete_iff (seen : List String) {fs : List (FieldInit Expr)} :
    FieldsComplete f fs ↔ ∀ v ∈ Visit.fields seen fs, v.expr.Complete f := by
  induction fs generalizing seen with
  | nil => simp [FieldsComplete, Visit.fields]
  | cons x fs ih => rw [FieldsComplete, ih (x.name :: seen), Visit.fields, forall_mem_cons]

theorem elementsComplete_iff {es : List (ArrayElement Expr)} :
    ElementsComplete f es ↔ ∀ v ∈ Visit.elements es, v.expr.Complete f := by
  induction es with
  | nil => simp [ElementsComplete, Visit.elements]
  | cons e es ih =>
    have split : Visit.elements (e :: es) =
        Visit.perhaps e.index.toList ++ Visit.all [e.value] ++ Visit.elements es := rfl
    rw [split, forall_mem_append, ← ih]
    rcases e with ⟨_ | i, e⟩ <;> simp [ElementsComplete, Visit.perhaps, Visit.all, and_assoc]

theorem partsComplete_iff {ps : List (TemplatePart Expr)} :
    PartsComplete f ps ↔ ∀ e ∈ ps.flatMap (·.exprs), e.Complete f := by
  induction ps with
  | nil => simp [PartsComplete]
  | cons p ps ih => cases p <;> simp [PartsComplete, ih, TemplatePart.exprs]

/-- Whether the expression is lowered from its parts alone. -/
def plain : Expr → Bool
  | ref _ _ | sizeofType _ _ _ | range _ _ _ _ | tuple _ _ | template _ _ => false
  | _ => true

theorem complete_iff {e : Expr} (h : e.plain = true) :
    e.Complete f ↔ f.HasType e.id ∧ ∀ v ∈ e.parts, v.expr.Complete f := by
  cases e with
  | ref | sizeofType | range | tuple | template => cases h
  | structInit => exact and_congr Iff.rfl (fieldsComplete_iff [])
  | _ => simp [Complete, parts, id, info, Visit.all, Visit.perhaps, allComplete_iff,
      optionComplete_iff, elementsComplete_iff, or_imp, forall_and]

section

variable (touched : Nat → Prop)

theorem stays (e : Expr) : Stays touched (e.Complete ·) := by
  induction e using parts_induction with
  | h e ih =>
    intro f f' hf h
    have plain (hplain : e.plain = true) : e.Complete f' := by
      rw [complete_iff hplain] at h ⊢
      exact ⟨hf.type _ h.1, fun v hv => ih v hv f f' hf (h.2 v hv)⟩
    cases e with
    | ref info path => exact ⟨hf.type _ h.1, hf.binding _ h.2⟩
    | sizeofType info type operand =>
      cases operand with
      | none => exact ⟨hf.type _ h.1, hf.written _ h.2⟩
      | some e =>
        have operand := ih ⟨e, false⟩ (mem_singleton_self _) f f' hf
        exact ⟨hf.type _ h.1, h.2.imp (hf.written _) operand⟩
    | range | tuple | template => exact h
    | _ => exact plain rfl

theorem allStay (es : List Expr) : Stays touched fun f => ∀ e ∈ es, e.Complete f :=
  fun f f' hf h e he => e.stays touched f f' hf (h e he)

theorem optionStays (e : Option Expr) : Stays touched (OptionComplete · e) := by
  simpa only [optionComplete_iff] using allStay touched e.toList

theorem partsStay (ps : List (TemplatePart Expr)) : Stays touched (PartsComplete · ps) := by
  simpa only [partsComplete_iff] using allStay touched (ps.flatMap (·.exprs))

end

end Expr

theorem Stays.and {touched : Nat → Prop} {J : Facts → Prop} (hI : Stays touched I)
    (hJ : Stays touched J) : Stays touched fun f => I f ∧ J f :=
  fun f f' hf h => ⟨hI f f' hf h.1, hJ f f' hf h.2⟩

theorem Stays.const {touched : Nat → Prop} (p : Prop) : Stays touched fun _ => p :=
  fun _ _ _ h => h

def Locals.Typed (ls : Locals) : Prop := ∀ l ∈ ls.flatten, l.type.isSome

theorem Locals.mem_useIn {name : String} {ls : List Local} (h : l ∈ useIn name ls) :
    ∃ l' ∈ ls, l'.type = l.type := by
  induction ls with
  | nil => cases h
  | cons x ls ih =>
    rw [useIn] at h
    split at h
    · rcases mem_cons.mp h with rfl | h
      · exact ⟨x, mem_cons_self, rfl⟩
      · exact ⟨l, mem_cons_of_mem x h, rfl⟩
    · rcases mem_cons.mp h with rfl | h
      · exact ⟨l, mem_cons_self, rfl⟩
      · obtain ⟨l', hl', ht⟩ := ih h
        exact ⟨l', mem_cons_of_mem x hl', ht⟩

theorem Locals.mem_use {name : String} {ls : Locals} (h : l ∈ (ls.use name).flatten) :
    ∃ l' ∈ ls.flatten, l'.type = l.type := by
  induction ls with
  | nil => cases h
  | cons scope outer ih =>
    simp only [flatten_cons, mem_append]
    rw [use] at h
    split at h <;> rcases mem_append.mp (flatten_cons ▸ h) with h | h
    · obtain ⟨l', hl', ht⟩ := mem_useIn h
      exact ⟨l', .inl hl', ht⟩
    · exact ⟨l, .inr h, rfl⟩
    · exact ⟨l, .inl h, rfl⟩
    · obtain ⟨l', hl', ht⟩ := ih h
      exact ⟨l', .inr hl', ht⟩

theorem Locals.Typed.use {ls : Locals} (h : ls.Typed) (name : String) : (ls.use name).Typed := by
  intro l hl
  obtain ⟨l', hl', ht⟩ := mem_use hl
  exact ht ▸ h l' hl'

theorem Checking.mem_of_local? {st : Checking} {path : List String} (h : st.local? path = some l) :
    l ∈ st.locals.flatten := by
  unfold local? at h
  split at h
  · exact mem_of_find?_eq_some h
  · cases h

/-- Something is known, and every variable in scope has a type. -/
structure Sound (I : Facts → Prop) (st : Checking) : Prop where
  locals : st.locals.Typed
  facts : I st.facts

/-- The check goes through `touched` nodes only and leads from what is known before to what is known
behind it, unless an error is found. -/
abbrev Check.Learns {α : Type} (touched : Nat → Prop) (pre : Facts → Prop) (step : Check α)
    (post : α → Facts → Prop) : Prop :=
  Ensures (Checking.walk touched) (Sound pre) step fun a => Sound (post a)

namespace Check.Learns

variable {α β : Type} {touched : Nat → Prop} {pre : Facts → Prop} {step : Check α}
  {post : α → Facts → Prop}

theorem pure {a : α} (h : ∀ f, pre f → post a f) : Learns touched pre (Pure.pure a) post :=
  Ensures.pure fun _ hp => ⟨hp.locals, h _ hp.facts⟩

theorem weaken {pre' : Facts → Prop} {post' : α → Facts → Prop}
    (h : Learns touched pre step post) (hpre : ∀ f, pre' f → pre f)
    (hpost : ∀ a f, post a f → post' a f) : Learns touched pre' step post' :=
  Ensures.weaken h (fun _ hp => ⟨hp.locals, hpre _ hp.facts⟩)
    fun _ _ hp => ⟨hp.locals, hpost _ _ hp.facts⟩

theorem carry (h : Learns touched pre step post) (hI : Stays touched I) :
    Learns touched (fun f => pre f ∧ I f) step fun a f => post a f ∧ I f := by
  refine Ensures.weaken (Ensures.carry (I := fun st => I st.facts) h ?_) ?_ ?_
  · exact fun hs hi => hI _ _ hs.extends hi
  · exact fun _ hp => ⟨⟨hp.locals, hp.facts.1⟩, hp.facts.2⟩
  · exact fun _ _ hp => ⟨hp.1.locals, hp.1.facts, hp.2⟩

theorem mono {touched' : Nat → Prop} (h : Learns touched pre step post)
    (ht : ∀ node, touched node → touched' node) : Learns touched' pre step post :=
  Checking.ensures_mono h ht

theorem get {f : Checking → Check β} {post' : β → Facts → Prop}
    (h : ∀ st, Learns touched pre (f st) post') :
    Learns touched pre (MonadState.get >>= f) post' :=
  Ensures.get fun st => Ensures.weaken (h st) (fun _ hp => hp.2) fun _ _ hp => hp

end Check.Learns

namespace Check

variable {touched : Nat → Prop} {pre : Facts → Prop}

theorem report_learns {problem : Problem} (h : problem.isError = true) (span : Span)
    {post : Unit → Facts → Prop} : Learns touched pre (report problem span) post :=
  .modify (fun st => .report st problem span) fun st _ hc =>
    absurd hc (Diagnostic.not_clean_report st.problems h span)

theorem refuse_learns {problem : Problem} {span : Span} (h : problem.isError = true)
    {post : Option α → Facts → Prop} :
    Learns touched pre (do report problem span; return none) post :=
  .bind (report_learns h span : Learns touched pre _ fun _ _ => False) fun _ =>
    Learns.pure fun _ => False.elim

section

variable (hn : touched node) (hpre : Stays touched pre)

include hn hpre

theorem setType_records (t : Ty) :
    Learns touched pre (setType node t) fun _ f => pre f ∧ f.types.get? node = some t := by
  refine .modify (fun st => .type st hn t) fun st hp _ => ⟨hp.locals, ?_, ?_⟩
  · exact hpre _ _ (type st hn t).extends hp.facts
  · simp [Table.get?_insert]

theorem setType_learns (t : Ty) :
    Learns touched pre (setType node t) fun _ f => pre f ∧ f.HasType node :=
  (setType_records hn hpre t).weaken (fun _ h => h) fun _ _ h => ⟨h.1, Option.isSome_of_eq_some h.2⟩

theorem setBinding_learns (b : Binding) :
    Learns touched pre (setBinding node b) fun _ f => pre f ∧ f.HasBinding node := by
  refine .modify (fun st => .binding st hn b) fun st hp _ => ⟨hp.locals, ?_, ?_⟩
  · exact hpre _ _ (binding st hn b).extends hp.facts
  · simp [Facts.HasBinding, Table.get?_insert]

theorem setWritten_learns (t : Ty) :
    Learns touched pre (setWritten node t) fun _ f => pre f ∧ f.HasWritten node := by
  refine .modify (fun st => .written st hn t) fun st hp _ => ⟨hp.locals, ?_, ?_⟩
  · exact hpre _ _ (written st hn t).extends hp.facts
  · simp [Facts.HasWritten, Table.get?_insert]

end

theorem resolveType_learns (package : PackageId) (params : Option GenericParams) (t : TypeExpr) :
    Learns touched pre (survey (Survey.resolveType package params t))
      fun r f => r.isSome ∧ pre f := by
  refine ⟨fun st => ?_, fun st hp hc =>
    ⟨hp.locals, Survey.resolveType_isSome package params t st.toSurvey hc, hp.facts⟩⟩
  exact (Survey.resolveType_steps package params t st.toSurvey).lift
    (fun s => { st with toSurvey := s }) fun s s' hs =>
      Checking.Step.survey { st with toSurvey := s } hs

/-- The check of a part leaves a type and all that is needed to lower it, whatever is expected. -/
def Finds (touched : Nat → Prop) (part : Part) (I : Facts → Prop) : Prop :=
  ∀ expected, Learns touched (fun _ => True) (part expected) fun r f => r.isSome ∧ I f

theorem Finds.after {part : Part} (h : Finds touched part I) (hpre : Stays touched pre)
    (expected : Option Ty) : Learns touched pre (part expected) fun r f => r.isSome ∧ I f ∧ pre f :=
  ((h expected).carry hpre).weaken (fun _ hp => ⟨trivial, hp⟩) fun _ _ hp =>
    ⟨hp.1.1, hp.1.2, hp.2⟩

variable {I J : Facts → Prop}

theorem typed_learns {check : Check (Option Ty)} (hn : touched node) (hI : Stays touched I)
    (h : Learns touched pre check fun r f => r.isSome ∧ I f) :
    Learns touched pre (typed node check) fun r f => r.isSome ∧ f.HasType node ∧ I f := by
  refine .bind h fun r => ?_
  cases r with
  | none => exact Learns.pure fun _ hp => absurd hp.1 (by simp)
  | some t =>
    refine bind (Learns.weaken (setType_learns hn hI t) (fun _ hp => hp.2) fun _ _ hp => hp)
      fun _ => Learns.pure fun _ hp => ⟨rfl, hp.2, hp.1⟩

section

variable (hn : touched info.id) (cx : Context)

include hn

theorem packageReference_learns (path : List String) :
    Learns touched (fun _ => True) (packageReference cx info path)
      fun r f => r.isSome ∧ f.HasBinding info.id := by
  have bound (b : Binding) (t : Ty) :
      Learns touched (fun _ => True) (do setBinding info.id b; return some t)
        fun r f => r.isSome ∧ f.HasBinding info.id :=
    bind (setBinding_learns hn (Stays.const _) b) fun _ => Learns.pure fun _ h => ⟨rfl, h.2⟩
  refine .get fun now => ?_
  split
  · exact refuse_learns rfl
  · exact refuse_learns rfl
  · split
    · exact bound _ _
    · exact bound _ _
    · exact refuse_learns rfl
    · exact refuse_learns rfl

theorem reference_learns (path : List String) :
    Learns touched (fun _ => True) (reference cx info path)
      fun r f => r.isSome ∧ f.HasBinding info.id := by
  refine get fun now => ?_
  split
  · rename_i l hl
    have used : Ensures (Checking.walk touched) (fun st => st = now ∧ Sound (fun _ => True) st)
        (modify fun st => { st with locals := st.locals.use l.name })
        fun _ => Sound fun _ => l.type.isSome := by
      refine modify (fun st => .locals st _) fun st hp _ => ⟨hp.2.locals.use l.name, ?_⟩
      exact (hp.1 ▸ hp.2.locals : now.locals.Typed) l (Checking.mem_of_local? hl)
    exact bind used fun _ => bind (setBinding_learns hn (Stays.const _) _) fun _ =>
      Learns.pure fun _ h => h
  · exact weaken (packageReference_learns hn cx path) (fun _ h => h.2) fun _ _ h => h

theorem sizeofWritten_learns (type : TypeExpr) :
    Learns touched (fun _ => True) (sizeofWritten cx info type)
      fun r f => r.isSome ∧ f.HasWritten info.id := by
  refine bind (resolveType_learns cx.package none type) fun r => ?_
  cases r with
  | none => exact Learns.pure fun _ h => absurd h.1 (by simp)
  | some t =>
    exact bind (setWritten_learns hn (Stays.const _ |>.and (Stays.const _)) t) fun _ =>
      Learns.pure fun _ h => ⟨rfl, h.2⟩

end

theorem namesValue_learns (cx : Context) (name : String) :
    Learns touched pre (namesValue cx name) fun _ => pre := by
  refine .get fun st => .ite (.pure fun _ h => h) ?_
  split <;> exact .pure fun _ h => h

theorem mem_ids_of_info {e : Expr} : e.id ∈ e.ids .node := by
  cases e <;> simp [Expr.id, Expr.info, Expr.ids, Info.nodeIds]

theorem Course.completes {cx : Context} {clean : Prop} {vs : List Visit} {told : List Ty}
    {check : Check α} {types : α → List Ty} {fine : α → Prop}
    (h : Course cx clean vs told check types fine)
    (hvs : ∀ v ∈ vs, Finds touched (expr cx v.expr) (v.expr.Complete ·)) (hpre : Stays touched pre) :
    Learns touched (fun f => clean ∧ pre f) check
      fun a f => fine a ∧ (clean ∧ pre f) ∧ ∀ v ∈ vs, v.expr.Complete f := by
  induction h generalizing pre with
  | pure _ done => exact .pure fun f h => ⟨done h.1, h, by simp⟩
  | @bind _ vs vs' _ _ _ _ _ _ _ _ _ _ _ first second =>
    obtain ⟨hvs, hvs'⟩ := forall_mem_append.mp hvs
    have seen : Stays touched fun f => ∀ v ∈ vs, v.expr.Complete f :=
      fun f f' hf h v hv => v.expr.stays touched f f' hf (h v hv)
    refine Ensures.bind (first hvs hpre) fun a => (second a hvs' (hpre.and seen)).weaken ?_ ?_
    · exact fun f h => ⟨⟨h.2.1.1, h.1⟩, h.2.1.2, h.2.2⟩
    · exact fun b f h => ⟨h.1, ⟨h.2.1.1.1, h.2.1.2.1⟩, forall_mem_append.mpr ⟨h.2.1.2.2, h.2.2⟩⟩
  | get _ _ _ _ ih => exact .get fun now => ih now hvs hpre
  | report error span => exact report_learns error span
  | resolve t =>
    exact (resolveType_learns cx.package none t).weaken (fun _ h => h) fun _ _ h => ⟨h.1, h.2, by simp⟩
  | visit v =>
    refine ((forall_mem_singleton.mp hvs).after ((Stays.const _).and hpre) _).weaken
      (fun _ h => h) fun _ _ h => ⟨h.1, h.2.2, forall_mem_singleton.mpr h.2.1⟩
  | widen _ part rest ih =>
    refine (ih (fun v hv => hvs v (part.subset hv)) hpre).weaken (fun _ h => h) fun a f h => ?_
    refine ⟨h.1, h.2.1, fun v hv => ?_⟩
    rcases rest v hv with hmem | ⟨-, never⟩
    · exact h.2.2 v hmem
    · exact absurd h.1 (never h.2.1.1 a)

theorem expr_finds (cx : Context) (e : Expr) (he : ∀ i ∈ e.ids .node, touched i) :
    Finds touched (expr cx e) (e.Complete ·) := by
  induction e using parts_induction with
  | h e ih =>
    intro expected
    have hn : touched e.id := he _ (by simp [e.ids_parts])
    have parts : ∀ v ∈ e.parts, Finds touched (expr cx v.expr) (v.expr.Complete ·) := by
      intro v hv
      refine ih v hv fun i hi => he i ?_
      rw [e.ids_parts]
      exact mem_append_left _ (mem_flatMap.mpr ⟨v, hv, hi⟩)
    have plain (hplain : e.plain = true) : Learns touched (fun _ => True) (expr cx e expected)
        fun r f => r.isSome ∧ e.Complete f := by
      obtain ⟨body, run, course⟩ := @expr_course e cx expected
        (fun _ _ h => by simp [h, plain] at hplain) fun _ _ _ h => by
          simp [h, plain] at hplain
      have seen : Stays touched fun f => ∀ v ∈ e.parts, v.expr.Complete f :=
        fun f f' hf h v hv => v.expr.stays touched f f' hf (h v hv)
      have body_learns : Learns touched (fun _ => True) body
          fun r f => r.isSome ∧ ∀ v ∈ e.parts, v.expr.Complete f :=
        (course.completes parts (.const True)).weaken (fun _ h => ⟨trivial, h⟩)
          fun _ _ h => ⟨h.1, h.2.2⟩
      rw [run]
      exact (typed_learns hn seen body_learns).weaken (fun _ h => h) fun _ _ h =>
        ⟨h.1, (complete_iff hplain).mpr h.2⟩
    cases e with
    | ref info path =>
      rw [expr]
      exact typed_learns hn (fun _ _ hf h => hf.binding _ h) (reference_learns hn cx path)
    | sizeofType info type operand =>
      cases operand with
      | none =>
        rw [expr]
        exact typed_learns hn (fun _ _ hf h => hf.written _ h) (sizeofWritten_learns hn cx type)
      | some e =>
        have h : Finds touched (expr cx e) (e.Complete ·) :=
          parts ⟨e, false⟩ (mem_singleton_self _)
        rw [expr]
        refine typed_learns hn (fun f f' hf h => h.imp (hf.written _) (e.stays touched f f' hf)) ?_
        lift_lets
        intro read
        have hread (isValue : Bool) : Learns touched (fun _ => True) (read isValue)
            fun r f => r.isSome ∧ (f.HasWritten info.id ∨ e.Complete f) := by
          refine ite ?_ ?_
          · refine bind (h none) fun r => Learns.pure fun _ hp => ⟨?_, .inr hp.2⟩
            rw [Option.isSome_map]
            exact hp.1
          · exact (sizeofWritten_learns hn cx type).weaken (fun _ hp => hp) fun _ _ hp =>
              ⟨hp.1, .inl hp.2⟩
        split
        · exact .bind (namesValue_learns cx _) hread
        · exact hread false
    | range | tuple | template => exact refuse_learns rfl
    | _ => exact plain rfl

theorem Course.learns {cx : Context} {clean : Prop} {es : List Expr} {told : List Ty}
    {check : Check α} {types : α → List Ty} {fine : α → Prop}
    (h : Course cx clean (Visit.all es) told check types fine)
    (hes : ∀ e ∈ es, ∀ i ∈ e.ids .node, touched i) (hclean : clean) (hpre : Stays touched pre) :
    Learns touched pre check fun a f => fine a ∧ pre f ∧ ∀ e ∈ es, e.Complete f := by
  refine (h.completes (fun v hv => ?_) hpre).weaken (fun _ hp => ⟨hclean, hp⟩) fun _ f hp =>
    ⟨hp.1, hp.2.1.2, fun e he => hp.2.2 ⟨e, true⟩ (mem_map_of_mem he)⟩
  obtain ⟨e, he, rfl⟩ := mem_map.mp hv
  exact expr_finds cx e (hes e he)

end Check
end Quill
