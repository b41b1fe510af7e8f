import Quill.Proofs.CanonicalType
import Quill.Proofs.Walk
import Quill.Scope.Type

/-!
# Types that can be written

What a written type may turn out to be, as seen from a package. Resolving it does no more than
report errors and give out versions, and where it finds no type there is an error.
-/
namespace Quill

open Diagnostic List Scope

open Relation (ReflTransGen)

variable {g g' : Globals} {package : PackageId} {s s' : Survey}

def Diagnostic.Clean (ds : List Diagnostic) : Prop := hasErrors ds = false

theorem Diagnostic.Clean.of_prefix {ds ds' : List Diagnostic} (h : Clean ds')
    (hp : ds <+: ds') : Clean ds := by
  obtain ⟨more, rfl⟩ := hp
  simp only [Clean, hasErrors, any_append, Bool.or_eq_false_iff] at h ⊢
  exact h.1

theorem Diagnostic.not_clean_report (ds : List Diagnostic) {problem : Problem}
    (h : problem.isError = true) (span : Span) : ¬ Clean (ds ++ [⟨problem, span⟩]) := by
  simp [Clean, hasErrors, isError, h]

structure Scope.Alike (s s' : Scope) : Prop where
  symbols : s'.symbols = s.symbols
  packages : s'.packages = s.packages
  names : s'.names = s.names
  wildcards : s'.wildcards = s.wildcards

theorem Scope.Alike.refl (s : Scope) : Alike s s := ⟨rfl, rfl, rfl, rfl⟩

theorem Scope.Alike.trans {s₁ s₂ s₃ : Scope} (h : Alike s₁ s₂) (h' : Alike s₂ s₃) : Alike s₁ s₃ :=
  ⟨h'.symbols.trans h.symbols, h'.packages.trans h.packages, h'.names.trans h.names,
    h'.wildcards.trans h.wildcards⟩

theorem Scope.alike_note (s : Scope) (i : StructId × Nat) :
    s.Alike (if s.instances.contains i then s else { s with instances := s.instances ++ [i] }) := by
  split
  · exact .refl s
  · exact ⟨rfl, rfl, rfl, rfl⟩

namespace Globals

theorem scope_ofSize (size : Nat) (p : PackageId) : (ofSize size).scope p = {} := by
  simp only [scope, ofSize, Array.getElem?_replicate]
  split <;> rfl

theorem scope_modifyScope (g : Globals) (id p : PackageId) (f : Scope → Scope) :
    (g.modifyScope id f).scope p = g.scope p ∨
      p = id ∧ (g.modifyScope id f).scope p = f (g.scope p) := by
  simp only [modifyScope, scope, Array.getElem?_modify]
  by_cases h : id = p
  · cases g.scopes[p]? <;> simp [h]
  · simp [h]

theorem scope_modifyScope_self {id : PackageId} (h : id < g.scopes.size) (f : Scope → Scope) :
    (g.modifyScope id f).scope id = f (g.scope id) := by
  simp [modifyScope, scope, h, Array.getElem_modify]

/-- The two differ in nothing but the versions of generic structs given out and who uses them. -/
structure Settled (g g' : Globals) : Prop where
  structs : g'.structs = g.structs
  scopes : ∀ p, (g.scope p).Alike (g'.scope p)

theorem Settled.refl (g : Globals) : Settled g g := ⟨rfl, fun _ => .refl _⟩

theorem Settled.trans {g₁ g₂ g₃ : Globals} (h : Settled g₁ g₂) (h' : Settled g₂ g₃) :
    Settled g₁ g₃ :=
  ⟨h'.structs.trans h.structs, fun p => (h.scopes p).trans (h'.scopes p)⟩

theorem Settled.symbol? (h : Settled g g') (p : PackageId) (name : String) :
    (g'.scope p).symbol? name = (g.scope p).symbol? name := by
  rw [Scope.symbol?, (h.scopes p).symbols, Scope.symbol?]

end Globals

theorem Scope.instances_subset_note (s : Scope) (i : StructId × Nat) :
    s.instances ⊆
      (if s.instances.contains i then s
        else { s with instances := s.instances ++ [i] }).instances := by
  split
  · exact List.Subset.refl _
  · exact subset_append_left _ _

theorem Scope.mem_note (s : Scope) (i : StructId × Nat) :
    i ∈ (if s.instances.contains i then s
      else { s with instances := s.instances ++ [i] }).instances := by
  split
  · exact contains_iff_mem.mp ‹_›
  · exact mem_append_right _ (mem_singleton_self i)

/-- Nothing changes but that versions of generic structs are given out and their uses noted. -/
structure Globals.Onward (g g' : Globals) : Prop extends Globals.Settled g g' where
  size : g'.scopes.size = g.scopes.size
  leads : g.instances.Leads g'.instances
  used : ∀ p, (g.scope p).instances ⊆ (g'.scope p).instances

namespace Globals.Onward

theorem refl (g : Globals) : Onward g g :=
  ⟨.refl g, rfl, .refl, fun _ => List.Subset.refl _⟩

theorem trans {g₁ g₂ g₃ : Globals} (h : Onward g₁ g₂) (h' : Onward g₂ g₃) : Onward g₁ g₃ :=
  ⟨h.toSettled.trans h'.toSettled, h'.size.trans h.size, h.leads.trans h'.leads,
    fun p => List.Subset.trans (h.used p) (h'.used p)⟩

theorem useInstance (package : PackageId) (id : StructId) (arguments : List Ty) (s : Survey) :
    Onward s.globals (Survey.useInstance package id arguments s).2.globals := by
  refine ⟨⟨rfl, fun p => ?_⟩, Array.size_modify, .single _ _ _, fun p => ?_⟩
  · rcases Globals.scope_modifyScope { s.globals with instances := _ } package p _ with h | ⟨-, h⟩
    · exact h ▸ .refl _
    · exact h ▸ alike_note _ _
  · rcases Globals.scope_modifyScope { s.globals with instances := _ } package p _ with h | ⟨-, h⟩
    · exact (congrArg Scope.instances h).symm ▸ List.Subset.refl _
    · exact (congrArg Scope.instances h).symm ▸ Scope.instances_subset_note _ _

end Globals.Onward

/-- An instance has its version, and the package is noted as a user of it unless there are
parameters in its arguments. -/
structure Globals.Notes (g : Globals) (package : PackageId) (id : StructId) (arguments : List Ty)
    (v : Nat) : Prop where
  version : Ty.Notes g.instances id arguments v
  used : Ty.anyGenerics arguments = false → package < g.scopes.size →
    (id, v) ∈ (g.scope package).instances

/-- The types that can be written in a package with these generic parameters. -/
inductive Globals.Writes (g : Globals) (package : PackageId) (params : Option GenericParams) :
    Ty → Prop
  | void : Writes g package params .void
  | scalar (s : Scalar) : Writes g package params (.scalar s)
  | param {path : List String} {t : Ty} (h : Survey.genericParam? params path = some t) :
    Writes g package params t
  | pointer {t : Ty} (h : Writes g package params t) : Writes g package params (.pointer t)
  | mutPointer {t : Ty} (h : Writes g package params t) : Writes g package params (.mutPointer t)
  | array {t : Ty} (h : Writes g package params t) (length : Option Nat) :
    Writes g package params (.array t length)
  | alias {path : List String} {s : Symbol} {t : Ty}
    (found : g.lookup package path = .ok (.symbol s)) (kind : s.kind = .typedef t) :
    Writes g package params t
  | struct {path : List String} {s : Symbol} {id : StructId}
    (found : g.lookup package path = .ok (.symbol s)) (kind : s.kind = .struct id)
    (plain : (g.structs.get id).generics = []) : Writes g package params (.struct id)
  | instance {path : List String} {s : Symbol} {id : StructId} {arguments : List Ty} {v : Nat}
    (found : g.lookup package path = .ok (.symbol s)) (kind : s.kind = .struct id)
    (written : ∀ t ∈ arguments, Writes g package params t) (given : arguments ≠ [])
    (arity : arguments.length = (g.structs.get id).generics.length)
    (noted : g.Notes package id arguments v) : Writes g package params (.instance id arguments v)

theorem Globals.Settled.lookup (h : g.Settled g') (package : PackageId) (path : List String) :
    g'.lookup package path = g.lookup package path := by
  have own := h.scopes package
  have name (name : String) : g'.lookupName package name = g.lookupName package name := by
    unfold lookupName
    dsimp only
    simp only [h.symbol?, origin?, package?, own.names, own.packages, own.wildcards]
  unfold Globals.lookup
  split
  · exact name _
  · simp only [h.symbol?, package?, own.packages]
  · rfl

theorem Globals.Notes.mono (h : g.Onward g') {id : StructId} {arguments : List Ty} {v : Nat}
    (hn : g.Notes package id arguments v) : g'.Notes package id arguments v := by
  refine ⟨hn.version.mono h.leads, fun closed hp => h.used package (hn.used closed ?_)⟩
  rwa [← h.size]

theorem Globals.Writes.mono (h : g.Onward g') {params : Option GenericParams} {t : Ty}
    (ht : g.Writes package params t) : g'.Writes package params t := by
  induction ht with
  | void => exact .void
  | scalar s => exact .scalar s
  | param h => exact .param h
  | pointer _ ih => exact .pointer ih
  | mutPointer _ ih => exact .mutPointer ih
  | array _ length ih => exact .array ih length
  | «alias» found kind => exact .alias (by rwa [h.toSettled.lookup]) kind
  | struct found kind plain =>
    exact .struct (by rwa [h.toSettled.lookup]) kind (by rwa [h.structs])
  | «instance» found kind _ given arity noted ih =>
    exact .instance (by rwa [h.toSettled.lookup]) kind ih given (by rwa [h.structs]) (noted.mono h)

namespace Survey

/-- What resolving a type in a package may do. Versions are given out for written arguments without
parameters, as many as the struct has parameters. -/
inductive Step (package : PackageId) : Survey → Survey → Prop where
  | report (s : Survey) {problem : Problem} (error : problem.isError = true) (span : Span) :
      Step package s { s with problems := s.problems ++ [⟨problem, span⟩] }
  | use (s : Survey) {params : Option GenericParams} {path : List String} {symbol : Symbol}
      {id : StructId} {arguments : List Ty}
      (found : s.globals.lookup package path = .ok (.symbol symbol))
      (kind : symbol.kind = .struct id) (given : arguments ≠ [])
      (arity : arguments.length = (s.globals.structs.get id).generics.length)
      (written : ∀ t ∈ arguments, s.globals.Writes package params t)
      (closed : Ty.anyGenerics arguments = false) :
      Step package s (useInstance package id arguments s).2

/-- Only versions are given out, and the problems found are still there. -/
structure Later (s s' : Survey) : Prop where
  onward : s.globals.Onward s'.globals
  problems : s.problems <+: s'.problems

theorem Later.refl (s : Survey) : Later s s := ⟨.refl _, prefix_rfl⟩

theorem Later.trans {s₁ s₂ s₃ : Survey} (h : Later s₁ s₂) (h' : Later s₂ s₃) : Later s₁ s₃ :=
  ⟨h.onward.trans h'.onward, h.problems.trans h'.problems⟩

theorem Step.later (h : Step package s s') : Later s s' := by
  cases h with
  | report error span => exact ⟨.refl _, prefix_append _ _⟩
  | use => exact ⟨.useInstance .., prefix_rfl⟩

variable {package : PackageId} {params : Option GenericParams} {pre : Survey → Prop}

theorem Step.writes (h : Step package s s') {ts : List Ty}
    (hts : ∀ t ∈ ts, s.globals.Writes package params t) :
    ∀ t ∈ ts, s'.globals.Writes package params t :=
  fun t ht => (hts t ht).mono h.later.onward

theorem Step.lookup (h : Step package s s') (structs : StructTable) {path : List String}
    {found : Except LookupProblem Found}
    (hs : s.globals.structs = structs ∧ s.globals.lookup package path = found) :
    s'.globals.structs = structs ∧ s'.globals.lookup package path = found :=
  ⟨h.later.onward.structs.trans hs.1, (h.later.onward.toSettled.lookup _ _).trans hs.2⟩

def Answers {α : Type} (P : α → Survey → Prop) : Option α → Survey → Prop
  | none, s => ¬ Clean s.problems
  | some a, s => P a s

theorem refuse {α : Type} {P : α → Survey → Prop} {problem : Problem} {span : Span}
    (error : problem.isError = true) :
    Proceeds (Step package) pre (do report problem span; return none) (Answers P) :=
  fun s _ => ⟨.single (.report s error span), not_clean_report s.problems error span⟩

theorem arrayLength_proceeds (span : Span) (text : Option String) :
    Proceeds (Step package) (fun _ => True) (arrayLength span text) (Answers fun _ _ => True) := by
  cases text with
  | none => exact .pure fun _ _ => trivial
  | some text =>
    rw [arrayLength]
    split
    · exact .pure fun _ _ => trivial
    · exact refuse rfl

theorem namedSymbol?_proceeds (span : Span) (path : List String) :
    Proceeds (Step package) (fun _ => True) (namedSymbol? package span path)
      (Answers fun symbol s => s.globals.lookup package path = .ok (.symbol symbol)) := by
  refine .get fun now => ?_
  split
  · rename_i symbol found
    exact .pure fun s hs => hs.1 ▸ found
  · exact refuse rfl
  · exact refuse rfl

theorem useInstance_notes (package : PackageId) (id : StructId) {arguments : List Ty}
    (closed : Ty.anyGenerics arguments = false) (s : Survey) :
    ∃ v, (useInstance package id arguments s).1 = .instance id arguments v ∧
      (useInstance package id arguments s).2.globals.Notes package id arguments v := by
  refine ⟨_, rfl, ?_, fun _ hp => ?_⟩
  · rw [Ty.Notes, if_neg (by simp [closed])]
    exact Instances.version?_instantiate_self _ _ _
  have hsize : package < s.globals.scopes.size := by
    have same : (useInstance package id arguments s).2.globals.scopes.size =
        s.globals.scopes.size := Array.size_modify
    rwa [same] at hp
  have scope : (useInstance package id arguments s).2.globals.scope package = _ :=
    Globals.scope_modifyScope_self hsize _
  exact (congrArg instances scope).symm ▸ mem_note _ _

theorem symbolType_proceeds {info : Info} {path : List String} {arguments : List TypeExpr}
    {resolved : StateM Survey (Option (List Ty))} (symbol : Symbol)
    (h : Proceeds (Step package) (fun _ => True) resolved (Answers fun ts s =>
      ts.length = arguments.length ∧ ∀ t ∈ ts, s.globals.Writes package params t)) :
    Proceeds (Step package) (fun s => s.globals.lookup package path = .ok (.symbol symbol))
      (symbolType package info path arguments resolved symbol)
      (Answers fun t s => s.globals.Writes package params t) := by
  unfold symbolType
  split
  · rename_i type kind
    exact .ite (.pure fun s found => .alias found kind) (refuse rfl)
  · rename_i id kind
    refine .get fun now => ?_
    dsimp only
    split
    · exact refuse rfl
    rename_i hlength
    have arity : arguments.length = (now.globals.structs.get id).generics.length := by
      simpa using hlength
    split
    · rename_i hempty
      refine .pure fun s hs => .struct hs.2 kind ?_
      rw [isEmpty_iff.mp hempty] at arity
      rw [hs.1, ← length_eq_zero_iff, ← arity, length_nil]
    rename_i hsome
    refine .bind ((h.carry fun hstep => hstep.lookup now.globals.structs).weaken
      (fun _ hs => ⟨trivial, congrArg (·.globals.structs) hs.1, hs.2⟩) fun _ _ hs => hs) fun r => ?_
    cases r with
    | none => exact .pure fun _ hs => hs.1
    | some ts =>
      have filled {s : Survey} (length : ts.length = arguments.length)
          (hs : s.globals.structs = now.globals.structs) :
          ts ≠ [] ∧ ts.length = (s.globals.structs.get id).generics.length := by
        refine ⟨?_, by rw [length, arity, hs]⟩
        rintro rfl
        exact hsome (isEmpty_iff_length_eq_zero.mpr length.symm)
      dsimp only
      split
      · rename_i hopen
        refine .pure fun s ⟨⟨length, written⟩, structs, found⟩ => ?_
        obtain ⟨given, same⟩ := filled length structs
        refine .instance found kind written given same
          ⟨?_, fun closed => absurd hopen (by simp [closed])⟩
        rw [Ty.Notes, if_pos hopen]
      · rename_i hclosed
        have closed : Ty.anyGenerics ts = false := by simpa using hclosed
        rintro s ⟨⟨length, written⟩, structs, found⟩
        obtain ⟨given, same⟩ := filled length structs
        have step : Step package s (useInstance package id ts s).2 :=
          .use s found kind given same written closed
        refine ⟨.single step, ?_⟩
        obtain ⟨v, heq, noted⟩ := useInstance_notes package id closed s
        have later := step.lookup _ ⟨structs, found⟩
        show Globals.Writes _ _ _ (useInstance package id ts s).1
        rw [heq]
        exact .instance later.2 kind (step.writes written) given (filled length later.1).2 noted
  · exact refuse rfl
  · exact refuse rfl

section

variable (package : PackageId) (params : Option GenericParams)

mutual

theorem resolveType_proceeds (t : TypeExpr) :
    Proceeds (Step package) (fun _ => True) (resolveType package params t)
      (Answers fun u s => s.globals.Writes package params u) := by
  cases t with
  | void info => exact .pure fun _ _ => .void
  | scalar info s => exact .pure fun _ _ => .scalar s
  | pointer info t =>
    refine .bind (resolveType_proceeds t) fun r => .pure fun _ h => ?_
    cases r with
    | none => exact h
    | some u => exact .pointer h
  | mutPointer info t =>
    refine .bind (resolveType_proceeds t) fun r => .pure fun _ h => ?_
    cases r with
    | none => exact h
    | some u => exact .mutPointer h
  | array info t length =>
    rw [resolveType]
    refine .bind (resolveType_proceeds t) fun r => ?_
    cases r with
    | none => exact .pure fun _ h => h
    | some element =>
      refine .bind (((arrayLength_proceeds _ _).carry (I := fun s =>
        s.globals.Writes package params element) fun hs h => h.mono hs.later.onward).weaken
        (fun _ h => ⟨trivial, h⟩) fun _ _ h => h) fun length => .pure fun _ h => ?_
      cases length with
      | none => exact h.1
      | some n => exact .array h.2 n
  | named info path arguments =>
    rw [resolveType]
    split
    · rename_i u hu
      exact .pure fun _ _ => .param hu
    refine .bind (namedSymbol?_proceeds _ _) fun r => ?_
    cases r with
    | none => exact .pure fun _ h => h
    | some symbol => exact symbolType_proceeds symbol (resolveTypes_proceeds arguments)
  | slice | optional | result | tuple => exact refuse rfl

theorem resolveTypes_proceeds (ts : List TypeExpr) :
    Proceeds (Step package) (fun _ => True) (resolveTypes package params ts) (Answers fun us s =>
      us.length = ts.length ∧ ∀ u ∈ us, s.globals.Writes package params u) := by
  cases ts with
  | nil => exact .pure fun _ _ => ⟨rfl, fun _ hu => absurd hu not_mem_nil⟩
  | cons t ts =>
    rw [resolveTypes]
    refine .bind (resolveType_proceeds t) fun r => ?_
    cases r with
    | none => exact .pure fun _ h => h
    | some u =>
      refine .bind (((resolveTypes_proceeds ts).carry (I := fun s =>
        s.globals.Writes package params u) fun hs h => h.mono hs.later.onward).weaken
        (fun _ h => ⟨trivial, h⟩) fun _ _ h => h) fun r => .pure fun _ h => ?_
      cases r with
      | none => exact h.1
      | some us => exact ⟨congrArg (· + 1) h.1.1, forall_mem_cons.mpr ⟨h.2, h.1.2⟩⟩

end

end

section Resolved

variable (package : PackageId) (params : Option GenericParams) (t : TypeExpr) (s : Survey)

theorem resolveType_steps : ReflTransGen (Step package) s (resolveType package params t s).2 :=
  (resolveType_proceeds package params t s trivial).1

theorem resolveType_writes : ∀ u ∈ (resolveType package params t s).1,
    (resolveType package params t s).2.globals.Writes package params u := by
  intro u hu
  have answers := (resolveType_proceeds package params t s trivial).2
  rwa [Option.mem_def.mp hu] at answers

theorem resolveType_isSome (hc : Clean (resolveType package params t s).2.problems) :
    (resolveType package params t s).1.isSome = true := by
  have answers := (resolveType_proceeds package params t s trivial).2
  cases h : (resolveType package params t s).1 with
  | none =>
    rw [h] at answers
    exact absurd hc answers
  | some u => rfl

theorem resolveType_keeps {I : Survey → Prop} (hI : ∀ {s s'}, Step package s s' → I s → I s')
    (hs : I s) : I (resolveType package params t s).2 := by
  have steps := resolveType_steps package params t s
  generalize (resolveType package params t s).2 = s' at steps
  induction steps with
  | refl => exact hs
  | tail _ hstep ih => exact hI hstep ih

theorem resolveType_later : Later s (resolveType package params t s).2 :=
  resolveType_keeps package params t s (I := Later s) (fun hs h => h.trans hs.later) (.refl s)

end Resolved

end Survey
end Quill
