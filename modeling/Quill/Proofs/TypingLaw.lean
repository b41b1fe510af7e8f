import Quill.Proofs.Course
import Quill.Proofs.Declared
import Quill.Proofs.Instances
import Quill.Proofs.Sight

/-!
# Laws of checking

A law says which types are good, which states are sound, and that each step of checking leads from
one to the other. Whatever is checked keeps to the law.
-/
namespace Quill

open Option Check List

variable {st : Checking} {cx : Context} {env : Env} {g : Globals} {info : Info}
  {refs : List (Nat × List String)} {ids ids' : List Nat} {node : Nat} {t : Ty} {α : Type}

/-- The types that values of this kind have or that it names. -/
def SymbolKind.types : SymbolKind → List Ty
  | .struct _ => []
  | .typedef t | .var t _ => [t]
  | .function ps r => [.function ps r]

/-- The type that is recorded for a declaration of this kind. -/
def SymbolKind.own : SymbolKind → Ty
  | .struct id => .struct id
  | .typedef t | .var t _ => t
  | .function ps r => .function ps r

inductive Symbol.BoundAs (s : Symbol) : Binding → Prop
  | foreign (h : s.foreign = true) : BoundAs s (.foreign s.name)
  | global (h : s.foreign = false) {t : Ty} {mutable : Bool} (kind : s.kind = .var t mutable) :
    BoundAs s (.global s.package s.name)
  | function (h : s.foreign = false) {params : List Ty} {result : Ty}
    (kind : s.kind = .function params result) : BoundAs s (.function s.package s.name)

theorem Check.declareLocal_cases (l : Local) (st : Checking) :
    (st.locals = [] ∧ (declareLocal l st).2 = st) ∨
    ∃ scope outer, st.locals = scope :: outer ∧
      ((scope.any (·.name == l.name) = true ∧
        (declareLocal l st).2 = (report (.name (.redeclaredInScope l.name)) l.span st).2) ∨
      (scope.any (·.name == l.name) = false ∧
        (declareLocal l st).2 = { st with locals := (l :: scope) :: outer })) := by
  rcases st with ⟨survey, facts, _ | ⟨scope, outer⟩⟩
  · exact .inl ⟨rfl, rfl⟩
  · refine .inr ⟨scope, outer, rfl, ?_⟩
    have run : declareLocal l ⟨survey, facts, scope :: outer⟩ =
        (if scope.any (·.name == l.name) then report (.name (.redeclaredInScope l.name)) l.span
        else modify fun st => { st with locals := (l :: scope) :: outer } : Check Unit)
        ⟨survey, facts, scope :: outer⟩ := rfl
    rw [run]
    split
    · exact .inl ⟨‹_›, rfl⟩
    · exact .inr ⟨Bool.eq_false_iff.mpr ‹_›, rfl⟩

/-- What checking in a package keeps to, in states with these scopes open, innermost first. -/
structure TypingLaw (package : PackageId) where
  Sound : List Env → Checking → Prop
  Good : Globals → Ty → Prop
  /-- The nodes inside declarations that facts are recorded for. -/
  Node : Nat → Prop
  Own : Decl → Prop
  Ref : Sighting → Prop
  mono : ∀ {g g' : Globals} {t : Ty}, g.Onward g' → Good g t → Good g' t
  scalar : ∀ (g : Globals) (s : Scalar), Good g (.scalar s)
  pointer : ∀ {g : Globals} {t : Ty}, Good g (.pointer t) ↔ Good g t
  mutPointer : ∀ {g : Globals} {t : Ty}, Good g (.mutPointer t) ↔ Good g t
  array : ∀ {g : Globals} {t : Ty} {n : Option Nat}, Good g (.array t n) ↔ Good g t
  function : ∀ {g : Globals} {ps : List Ty} {r : Ty},
    Good g (.function ps r) ↔ (∀ p ∈ ps, Good g p) ∧ Good g r
  field : ∀ {scopes : List Env} {st : Checking} {t u : Ty} {name : String}, Sound scopes st →
    Good st.globals t → st.globals.structs.fieldType? t name = some u → Good st.globals u
  symbol : ∀ {scopes : List Env} {st : Checking} {path : List String} {s : Symbol},
    Sound scopes st → st.globals.lookup package path = .ok (.symbol s) →
    ∀ t ∈ s.kind.types, Good st.globals t
  resolve : ∀ {scopes : List Env} {st : Checking} (t : TypeExpr), Sound scopes st →
    Sound scopes (survey (Survey.resolveType package none t) st).2 ∧
    ∀ u, (survey (Survey.resolveType package none t) st).1 = some u →
      Good (survey (Survey.resolveType package none t) st).2.globals u
  report : ∀ {scopes : List Env} {st : Checking} (problem : Problem) (span : Span),
    Sound scopes st → Sound scopes (report problem span st).2
  type : ∀ {scopes : List Env} {st : Checking} {node : Nat} {t : Ty}, Sound scopes st →
    Node node → Good st.globals t → Sound scopes (setType node t st).2
  written : ∀ {scopes : List Env} {st : Checking} {node : Nat} {t : Ty}, Sound scopes st →
    Node node → Good st.globals t → Sound scopes (setWritten node t st).2
  own : ∀ {st : Checking} {d : Decl} {name : String} {s : Symbol}, Sound [] st → Own d →
    d.name? = some name → (st.globals.scope package).symbol? name = some s → s.StandsFor d →
    (∀ t ∈ s.kind.types, Good st.globals t) → Sound [] (setType d.id s.kind.own st).2
  near : ∀ {scopes : List Env} {st : Checking} {node : Nat} {path : List String} {l : Local},
    Sound scopes st → Ref ⟨scopes.flatten, node, path⟩ → st.local? path = some l →
    (∀ t ∈ l.type, Good st.globals t) ∧
    Sound scopes (setBinding node .local { st with locals := st.locals.use l.name }).2
  far : ∀ {scopes : List Env} {st : Checking} {node : Nat} {path : List String} {s : Symbol}
    {b : Binding}, Sound scopes st → Ref ⟨scopes.flatten, node, path⟩ → st.local? path = none →
    st.globals.lookup package path = .ok (.symbol s) → s.BoundAs b →
    Sound scopes (setBinding node b st).2
  opened : ∀ {scopes : List Env} {st : Checking}, Sound scopes st →
    Sound ([] :: scopes) { st with locals := [] :: st.locals }
  closed : ∀ {scope : Env} {scopes : List Env} {st : Checking}, Sound (scope :: scopes) st →
    Sound scopes { st with locals := st.locals.tail }
  declared : ∀ {scope : Env} {scopes : List Env} {st : Checking} {l : Local} (o : Origin),
    Sound (scope :: scopes) st → (∀ t ∈ l.type, Good st.globals t) →
    Sound (((l.name, o) :: scope) :: scopes) (declareLocal l st).2

theorem TypingLaw.function_of_all {ps : List Ty} {r : Ty} :
    (fun (_ : Globals) (_ : Ty) => True) g (.function ps r) ↔ (∀ p ∈ ps, True) ∧ True :=
  ⟨fun _ => ⟨fun _ _ => trivial, trivial⟩, fun _ => trivial⟩

namespace TypingLaw

variable {package : PackageId} (L : TypingLaw package)

def GoodAll (g : Globals) (ts : List Ty) : Prop := ∀ t ∈ ts, L.Good g t

/-- The outcome of a check is a sound state and good types. -/
structure Holds {α : Type} (post : List Env) (st : Checking) (step : Check α)
    (found : α → List Ty) : Prop where
  sound : L.Sound post (step st).2
  onward : st.globals.Onward (step st).2.globals
  good : L.GoodAll (step st).2.globals (found (step st).1)

/-- Told good types in a sound state, the check comes up with good types and leaves a sound
state. -/
def Tells {α : Type} (pre post : List Env) (told : List Ty) (step : Check α)
    (found : α → List Ty) : Prop :=
  ∀ st, L.Sound pre st → L.GoodAll st.globals told → L.Holds post st step found

variable {L}

theorem GoodAll.mono {g' : Globals} {ts : List Ty} (h : g.Onward g') (hts : L.GoodAll g ts) :
    L.GoodAll g' ts := fun t ht => L.mono h (hts t ht)

theorem GoodAll.append {ts us : List Ty} :
    L.GoodAll g (ts ++ us) ↔ L.GoodAll g ts ∧ L.GoodAll g us := forall_mem_append

theorem GoodAll.one (h : L.Good g t) : L.GoodAll g [t] :=
  forall_mem_singleton.mpr h

theorem GoodAll.nil (g : Globals) : L.GoodAll g [] := fun _ h => absurd h not_mem_nil

theorem GoodAll.from {known : List Ty} (h : L.GoodAll g known) (ht : Ty.From known t) :
    L.Good g t := by
  induction ht with
  | known ht => exact h _ ht
  | scalar s => exact L.scalar g s
  | pointer _ ih => exact L.pointer.mpr ih
  | mutPointer _ ih => exact L.mutPointer.mpr ih
  | array n _ ih => exact L.array.mpr ih
  | target _ ih => exact L.pointer.mp ih
  | mutTarget _ ih => exact L.mutPointer.mp ih
  | element _ ih => exact L.array.mp ih
  | param _ hp ih => exact (L.function.mp ih).1 _ hp
  | result _ ih => exact (L.function.mp ih).2

theorem Holds.get {post : List Env} {f : Checking → Check α} {found : α → List Ty}
    (h : L.Holds post st (f st) found) :
    L.Holds post st (MonadState.get >>= f) found := ⟨h.sound, h.onward, h.good⟩

theorem Holds.andThen {β : Type} {mid post : List Env} {step : Check α} {f : α → Check β}
    {told : List Ty} {found : β → List Ty} (first : L.Holds mid st step fun _ => [])
    (ht : L.GoodAll st.globals told) (hf : ∀ a, L.Tells mid post told (f a) found) :
    L.Holds post st (step >>= f) found := by
  have second := hf (step st).1 (step st).2 first.sound (ht.mono first.onward)
  exact ⟨second.sound, first.onward.trans second.onward, second.good⟩

namespace Tells

variable {α β : Type} {pre mid post : List Env} {told us : List Ty} {step : Check α}
  {out : α → List Ty}

theorem andThen {f : α → Check β} {found : β → List Ty} (hx : L.Tells pre mid us step out)
    (hus : us ⊆ told) (hf : ∀ a, L.Tells mid post (out a ++ told) (f a) found) :
    L.Tells pre post told (step >>= f) found := by
  intro st hs ht
  have first := hx st hs fun t hmem => ht t (hus hmem)
  have second := hf (step st).1 (step st).2 first.sound
    (GoodAll.append.mpr ⟨first.good, ht.mono first.onward⟩)
  exact ⟨second.sound, first.onward.trans second.onward, second.good⟩

theorem quiet {f : α → Check β} {found : β → List Ty} (hx : L.Tells pre mid [] step fun _ => [])
    (hf : ∀ a, L.Tells mid post told (f a) found) : L.Tells pre post told (step >>= f) found :=
  andThen hx (nil_subset _) hf

theorem pure {a : α} (h : ∀ g, L.GoodAll g told → L.GoodAll g (out a)) :
    L.Tells pre pre told (Pure.pure a) out :=
  fun st hs ht => ⟨hs, .refl _, h st.globals ht⟩

theorem nothing {a : α} : L.Tells pre pre told (Pure.pure a) fun _ => [] :=
  pure fun _ _ => .nil _

theorem none : L.Tells pre pre told (Pure.pure none) toList := pure fun _ _ => .nil _

theorem some (h : ∀ g, L.GoodAll g told → L.Good g t) :
    L.Tells pre pre told (Pure.pure (some t)) toList :=
  pure fun g ht => .one (h g ht)

theorem ite {c : Prop} [Decidable c] {other : Check α} (h : L.Tells pre post told step out)
    (h' : L.Tells pre post told other out) :
    L.Tells pre post told (if c then step else other) out := by
  split
  · exact h
  · exact h'

theorem reading {f : Checking → Check β} {found : β → List Ty}
    (h : ∀ now, L.Sound pre now → L.GoodAll now.globals told →
      ∃ ts, L.GoodAll now.globals ts ∧ L.Tells pre post (ts ++ told) (f now) found) :
    L.Tells pre post told (MonadState.get >>= f) found := by
  intro st hs ht
  obtain ⟨ts, hts, hf⟩ := h st hs ht
  exact .get (hf st hs (GoodAll.append.mpr ⟨hts, ht⟩))

theorem get {f : Checking → Check β} {found : β → List Ty}
    (hf : ∀ now, L.Tells pre post told (f now) found) :
    L.Tells pre post told (MonadState.get >>= f) found :=
  reading fun now _ _ => ⟨[], .nil _, hf now⟩

theorem modify {f : Checking → Checking} (hg : ∀ st, (f st).globals = st.globals)
    (hs : ∀ st, L.Sound pre st → L.GoodAll st.globals told → L.Sound post (f st)) :
    L.Tells pre post told (modify f) fun _ => [] :=
  fun st hsound ht => ⟨hs st hsound ht, (hg st).symm ▸ .refl _, .nil _⟩

theorem mono (h : L.Tells pre post us step out) (hus : us ⊆ told) :
    L.Tells pre post told step out :=
  fun st hs ht => h st hs fun t hmem => ht t (hus hmem)

theorem imply (h : L.Tells pre post us step out)
    (hus : ∀ g, L.GoodAll g told → L.GoodAll g us) : L.Tells pre post told step out :=
  fun st hs ht => h st hs (hus _ ht)

theorem forM {as : List α} {f : α → Check Unit}
    (h : ∀ a ∈ as, L.Tells pre pre told (f a) fun _ => []) :
    L.Tells pre pre told (as.forM f) fun _ => [] := by
  induction as with
  | nil => exact nothing
  | cons a as ih =>
    exact andThen (h a mem_cons_self) (List.Subset.refl _) fun _ =>
      ih fun b hb => h b (mem_cons_of_mem a hb)

theorem freely (h : L.Tells pre post [t] step out) (ht : ∀ g, L.Good g t) :
    L.Tells pre post [] step out :=
  h.imply fun g _ => .one (ht g)

theorem ignore (h : L.Tells pre post us step out) (hus : us ⊆ told) :
    L.Tells pre post told (do let _ ← step) fun _ => [] :=
  andThen h hus fun _ => nothing

end Tells

section Steps

variable {scopes : List Env} {told : List Ty}

theorem report_tells (problem : Problem) (span : Span) :
    L.Tells scopes scopes told (.report problem span) fun _ => [] :=
  .modify (fun _ => rfl) fun _ hs _ => L.report problem span hs

theorem refuse_tells (problem : Problem) (span : Span) :
    L.Tells scopes scopes told (do .report problem span; return none) toList :=
  .quiet (report_tells problem span) fun _ => .none

theorem setType_tells (hn : L.Node node) (t : Ty) :
    L.Tells scopes scopes [t] (.setType node t) fun _ => [] :=
  .modify (fun _ => rfl) fun _ hs ht => L.type hs hn (ht t (mem_singleton_self t))

theorem setWritten_tells (hn : L.Node node) (t : Ty) :
    L.Tells scopes scopes [t] (.setWritten node t) fun _ => [] :=
  .modify (fun _ => rfl) fun _ hs ht => L.written hs hn (ht t (mem_singleton_self t))

theorem resolveType_tells (t : TypeExpr) :
    L.Tells scopes scopes [] (survey (Survey.resolveType package none t))
      toList := by
  intro st hs _
  obtain ⟨sound, good⟩ := L.resolve t hs
  exact ⟨sound, (Survey.resolveType_later package none t st.toSurvey).onward,
    fun u hu => good u (mem_toList.mp hu)⟩

/-- The check of a part finds a good type if a good type is expected. -/
def Finds (L : TypingLaw package) (scopes : List Env) (part : Check.Part) : Prop :=
  ∀ expected, L.Tells scopes scopes expected.toList (part expected) toList

theorem typed_tells {check : Check (Option Ty)} (hn : L.Node node)
    (h : L.Tells scopes scopes told check toList) :
    L.Tells scopes scopes told (typed node check) toList := by
  refine .andThen h (List.Subset.refl _) fun r => ?_
  cases r with
  | none => exact .none
  | some t =>
    exact .andThen (setType_tells hn t) (by simp) fun _ => .some fun _ h => h t (by simp)

theorem packageReference_holds (hcx : cx.package = package) {path : List String}
    (href : L.Ref ⟨scopes.flatten, info.id, path⟩) (hs : L.Sound scopes st)
    (hl : st.local? path = none) :
    L.Holds scopes st (packageReference cx info path) toList := by
  subst hcx
  have refused (problem : Problem) (span : Span) : L.Holds scopes st
      (do Check.report problem span; return none) toList :=
    (refuse_tells problem span : L.Tells scopes scopes [] _ _) st hs (.nil _)
  refine .get ?_
  split
  · exact refused _ _
  · exact refused _ _
  · rename_i s hlookup
    have good := L.symbol hs hlookup
    have bound {b : Binding} (h : s.BoundAs b) := L.far hs href hl hlookup h
    split
    · rename_i type mutable hkind
      refine ⟨bound ?_, .refl _, .one (good type (by simp [hkind, SymbolKind.types]))⟩
      split
      · exact .foreign ‹_›
      · rename_i own
        exact .global (Bool.eq_false_iff.mpr own) hkind
    · rename_i params result hkind
      refine ⟨bound ?_, .refl _, .one (good _ (by simp [hkind, SymbolKind.types]))⟩
      split
      · exact .foreign ‹_›
      · rename_i own
        exact .function (Bool.eq_false_iff.mpr own) hkind
    · exact refused _ _
    · exact refused _ _

theorem reference_tells (hcx : cx.package = package) {path : List String}
    (href : L.Ref ⟨scopes.flatten, info.id, path⟩) :
    L.Tells scopes scopes [] (reference cx info path) toList := by
  intro st hs _
  refine .get ?_
  split
  · rename_i l hl
    obtain ⟨good, sound⟩ := L.near hs href hl
    exact ⟨sound, .refl _, fun t ht => good t (mem_toList.mp ht)⟩
  · exact packageReference_holds hcx href hs ‹_›

theorem sizeofWritten_tells (hcx : cx.package = package) (hn : L.Node info.id) (type : TypeExpr) :
    L.Tells scopes scopes [] (sizeofWritten cx info type) toList := by
  subst hcx
  refine .andThen (resolveType_tells _) (nil_subset _) fun r => ?_
  cases r with
  | none => exact .none
  | some t =>
    exact .andThen (setWritten_tells hn t) (by simp) fun _ => .some fun g _ => L.scalar g .uptr

theorem namesValue_tells (cx : Context) (name : String) :
    L.Tells scopes scopes told (namesValue cx name) fun _ => [] := by
  refine .get fun now => .ite .nothing ?_
  split
  · exact .nothing
  · exact .nothing

theorem course_finds (hcx : cx.package = package) {clean : Prop} {vs : List Visit} {check : Check α}
    {types : α → List Ty} {fine : α → Prop} (h : Check.Course cx clean vs told check types fine)
    (hvs : ∀ v ∈ vs, L.Finds scopes (.expr cx v.expr)) :
    L.Tells scopes scopes told check types := by
  subst hcx
  induction h with
  | pure made => exact .pure fun _ hg t ht => hg.from (made t ht)
  | bind _ _ first second =>
    obtain ⟨hvs, hvs'⟩ := forall_mem_append.mp hvs
    exact .andThen (first hvs) (List.Subset.refl _) fun a => second a hvs'
  | get struct name known _ ih =>
    refine .reading fun now hs hg => ⟨_, fun u hu => ?_, ih now hvs⟩
    exact L.field hs (hg.from known) (mem_toList.mp hu)
  | report error span => exact report_tells _ span
  | resolve t => exact (resolveType_tells t).mono (nil_subset _)
  | visit v known =>
    refine (forall_mem_singleton.mp hvs _).imply fun g hg t ht => ?_
    exact hg.from (known t (mem_toList.mp ht))
  | widen _ part _ ih => exact ih fun v hv => hvs v (part.subset hv)

/-- Parts of the program whose nodes and references, made where `env` is seen, keep to the law. -/
structure Admits (L : TypingLaw package) (env : Env) (ids : List Nat)
    (refs : List (Nat × List String)) : Prop where
  nodes : ∀ i ∈ ids, L.Node i
  refs : ∀ r ∈ refs, L.Ref ⟨env, r.1, r.2⟩

theorem Admits.left {refs' : List (Nat × List String)}
    (h : L.Admits env (ids ++ ids') (refs ++ refs')) : L.Admits env ids refs :=
  ⟨fun i hi => h.nodes i (mem_append_left _ hi),
    fun r hr => h.refs r (mem_append_left _ hr)⟩

theorem Admits.right {refs' : List (Nat × List String)}
    (h : L.Admits env (ids ++ ids') (refs ++ refs')) : L.Admits env ids' refs' :=
  ⟨fun i hi => h.nodes i (mem_append_right _ hi),
    fun r hr => h.refs r (mem_append_right _ hr)⟩

theorem Admits.parts (h : L.Admits env (ids ++ info.nodeIds .node) refs) :
    L.Node info.id ∧ L.Admits env ids refs :=
  ⟨h.nodes info.id (mem_append_right _ (mem_singleton_self _)),
    fun i hi => h.nodes i (mem_append_left _ hi), h.refs⟩

theorem Admits.behind (h : L.Admits env (ids ++ ids') refs) : L.Admits env ids' refs :=
  ⟨fun i hi => h.nodes i (mem_append_right _ hi), h.refs⟩

end Steps

end TypingLaw
end Quill
