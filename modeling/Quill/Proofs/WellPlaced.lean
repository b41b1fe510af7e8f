import Quill.Placement
import Quill.Proofs.MessageFormat
import Quill.Proofs.ReadParts

/-!
# Well placed declarations and directives

Which trees have no placement problem, said by the place of a declaration in its file and by the
table of the nodes and types that each directive is meant for.
-/
namespace Quill

open List Directive PlacementProblem
open Relation (ReflTransGen)

inductive DirectiveKind.OnNode : DirectiveKind → Node → Prop
  | packageHeader {i path} : OnNode .cHeader (.decl (.package i path))
  | typeFile {i name type} : OnNode .cFile (.decl (.typedef i name type))
  | unusedGlobal {i d} : OnNode .unused (.decl (.var i d))
  | unusedLocal {i d} : OnNode .unused (.stmt (.var i d))
  | unusedFunction {i sig body} : OnNode .unused (.decl (.function i sig body))
  | unusedHeader {i sig} : OnNode .unused (.decl (.header i sig))
  | externalHeader {i sig} : OnNode .external (.decl (.header i sig))
  | externalGlobal {i d} : OnNode .external (.decl (.var i d))
  | externalLocal {i d} : OnNode .external (.stmt (.var i d))
  | stringText {i text} : OnNode .cStr (.expr (.literal i (.string text)))
  | charsText {i text} : OnNode .cStr (.expr (.literal i (.chars text)))
  | templateBuffer {i ps} : OnNode .stackBuf (.expr (.template i ps))
  | rangeSize {i low high inclusive} : OnNode .rangeUsize (.expr (.range i low high inclusive))

inductive DirectiveKind.OnType : DirectiveKind → TypeExpr → Prop
  | pointer {i t} : OnType .restrict (.pointer i t)
  | mutPointer {i t} : OnType .restrict (.mutPointer i t)

theorem Node.allows_iff (n : Node) (k : DirectiveKind) : n.allows k = true ↔ k.OnNode n := by
  constructor
  · intro h
    cases k <;> dsimp only [allows] at h <;> first | cases h | (split at h <;> first | constructor | cases h)
  · intro h
    cases h <;> rfl

theorem TypeExpr.allows_iff (t : TypeExpr) (k : DirectiveKind) : t.allows k = true ↔ k.OnType t := by
  constructor
  · intro h
    cases k <;> dsimp only [allows] at h <;> first | cases h | (split at h <;> first | constructor | cases h)
  · intro h
    cases h <;> rfl

namespace Directive

/-- Directives that may stand together on a target that is meant for some kinds. -/
structure WellPlaced (meant : DirectiveKind → Prop) (ds : List Directive) : Prop where
  nodup : (ds.map (·.kind)).Nodup
  meant : ∀ d ∈ ds, meant d.kind

variable {allowed : DirectiveKind → Bool} {target : String}

theorem problems_eq_nil_iff (seen : List DirectiveKind) (ds : List Directive) :
    problems allowed target seen ds = [] ↔
      (ds.map (·.kind)).Nodup ∧ ∀ d ∈ ds, d.kind ∉ seen ∧ allowed d.kind = true := by
  induction ds generalizing seen with
  | nil => simp [problems]
  | cons d ds ih =>
    by_cases hseen : d.kind ∈ seen
    · simp [problems, hseen]
    · by_cases hallowed : allowed d.kind = true
      · rw [problems, if_neg (by simpa using hseen), if_pos hallowed, ih]
        simp only [map_cons, nodup_cons, mem_map, mem_cons, not_or]
        grind
      · simp [problems, hseen, hallowed]

theorem wellPlaced_iff {meant : DirectiveKind → Prop} (h : ∀ k, allowed k = true ↔ meant k)
    (ds : List Directive) : problems allowed target [] ds = [] ↔ WellPlaced meant ds := by
  rw [problems_eq_nil_iff]
  constructor
  · rintro ⟨nodup, all⟩
    exact ⟨nodup, fun d hd => (h d.kind).mp (all d hd).2⟩
  · rintro ⟨nodup, all⟩
    exact ⟨nodup, fun d hd => ⟨not_mem_nil, (h d.kind).mpr (all d hd)⟩⟩

theorem code_of_mem_problems {seen : List DirectiveKind} {ds : List Directive} {x : Diagnostic}
    (hx : x ∈ problems allowed target seen ds) : x.problem.code ≠ "E0202" := by
  induction ds generalizing seen with
  | nil => cases hx
  | cons d ds ih =>
    rw [problems] at hx
    split at hx
    · rcases mem_cons.mp hx with rfl | hx
      · simp [Problem.code, code]
      · exact ih hx
    · split at hx
      · exact ih hx
      · rcases mem_cons.mp hx with rfl | hx
        · simp [Problem.code, code]
        · exact ih hx

end Directive

def Node.Within : Node → Node → Prop := ReflTransGen fun m n => m ∈ n.children

theorem Outline.mem_levelsOf {x : Nat × Node} {depth : Nat} {os : List Outline} :
    x ∈ levelsOf depth os ↔ ∃ o ∈ os, x ∈ o.levels depth := by
  induction os with
  | nil => simp [levelsOf]
  | cons o os ih => simp [levelsOf, ih]

theorem Node.mem_levels_iff {m n : Node} {depth : Nat} :
    (∃ d, (d, m) ∈ n.outline.levels depth) ↔ m.Within n := by
  induction n using of_parts generalizing depth with
  | h n ih =>
    have ih {u : Node} (hu : u ∈ n.children) {depth : Nat} := @ih u (mem_append_left _ hu) depth
    rw [outline_eq, Outline.levels, Within, ReflTransGen.cases_tail_iff]
    simp only [mem_cons, Prod.mk.injEq, Outline.mem_levelsOf, mem_map]
    constructor
    · rintro ⟨d, ⟨-, rfl⟩ | ⟨_, ⟨u, hu, rfl⟩, hd⟩⟩
      · exact .inl rfl
      · exact .inr ⟨u, (ih hu).mp ⟨d, hd⟩, hu⟩
    · rintro (rfl | ⟨u, hwithin, hu⟩)
      · exact ⟨depth, .inl ⟨rfl, rfl⟩⟩
      · obtain ⟨d, hd⟩ := (ih hu).mpr hwithin
        exact ⟨d, .inr ⟨_, ⟨u, hu, rfl⟩, hd⟩⟩

theorem Node.mem_nodes_iff {m n : Node} : m ∈ n.outline.nodes ↔ m.Within n := by
  have levels : (∃ d, (d, m) ∈ n.outline.levels 0) ↔ m.Within n := mem_levels_iff
  rw [← levels, Outline.nodes]
  simp

/-- The directives of a node and of all types written on it are well placed. -/
structure Node.WellDirected (n : Node) : Prop where
  own : WellPlaced (·.OnNode n) n.directives
  types : ∀ t ∈ n.types, ∀ u : TypeExpr, u.Within t → WellPlaced (·.OnType u) u.info.directives

theorem Node.directiveProblems_eq_nil_iff (n : Node) : n.directiveProblems = [] ↔ n.WellDirected := by
  have onType (u : TypeExpr) : problems u.allows "type" [] u.info.directives = [] ↔ _ :=
    wellPlaced_iff u.allows_iff _
  rw [directiveProblems, append_eq_nil_iff, wellPlaced_iff n.allows_iff, flatMap_eq_nil_iff]
  simp only [TypeExpr.directiveProblems, flatMap_eq_nil_iff, onType, TypeExpr.mem_parts_iff]
  constructor
  · rintro ⟨own, types⟩
    exact ⟨own, types⟩
  · rintro ⟨own, types⟩
    exact ⟨own, types⟩

theorem Decl.placementProblems_eq_nil_iff (d : Decl) :
    d.placementProblems = [] ↔ ∀ n : Node, n.Within (.decl d) → n.WellDirected := by
  rw [placementProblems, Outline.directiveProblems, flatMap_eq_nil_iff]
  simp only [Node.directiveProblems_eq_nil_iff, ← Node.mem_nodes_iff]
  rfl

def Decl.isPackage (d : Decl) : Bool := d.packagePath?.isSome

/-- A file in which declarations and directives stand where they may. -/
structure File.WellPlaced (f : File) : Prop where
  separator : ∀ k d, f.decls[k]? = some d → d.isSeparator → k = 0
  /-- A package declaration comes first, or right behind a separator that does. -/
  package : ∀ k d, f.decls[k]? = some d → d.isPackage →
    k = 0 ∨ k = 1 ∧ ∃ s, f.decls[0]? = some s ∧ s.isSeparator
  once : ∀ (j k : Nat) (d e : Decl), f.decls[j]? = some d → f.decls[k]? = some e →
    d.isPackage → e.isPackage → j = k
  directed : ∀ d ∈ f.decls, ∀ n : Node, n.Within (.decl d) → n.WellDirected

namespace File

variable {p : Progress} {ds : List Decl} {x : Diagnostic}

theorem Progress.foldl_add (p : Progress) (ds : List Decl) : ds.foldl add p =
    ⟨p.index + ds.length, p.package || ds.any (·.isPackage), p.separator || ds.any (·.isSeparator)⟩ := by
  induction ds generalizing p with
  | nil => simp
  | cons d ds ih => simp [ih, add, Decl.isPackage, Bool.or_assoc, Nat.add_assoc, Nat.add_comm 1]

theorem mem_declProblems : x ∈ declProblems p ds ↔ ∃ k d, ds[k]? = some d ∧
    ((∃ reason, placeProblem? ((ds.take k).foldl .add p) d = some reason ∧ x = ⟨.placement reason, d.span⟩) ∨
      x ∈ d.placementProblems) := by
  induction ds generalizing p with
  | nil => simp [declProblems]
  | cons d ds ih =>
    rw [declProblems, mem_append, mem_append, ih]
    constructor
    · rintro ((hx | hx) | ⟨k, e, he, hx⟩)
      · obtain ⟨reason, hreason, rfl⟩ := Option.map_eq_some_iff.mp (Option.mem_toList.mp hx)
        exact ⟨0, d, rfl, .inl ⟨reason, hreason, rfl⟩⟩
      · exact ⟨0, d, rfl, .inr hx⟩
      · exact ⟨k + 1, e, he, hx⟩
    · rintro ⟨_ | k, e, he, hx⟩
      · cases he
        refine .inl (hx.imp_left ?_)
        rintro ⟨reason, hreason, rfl⟩
        exact Option.mem_toList.mpr (Option.map_eq_some_iff.mpr ⟨reason, hreason, rfl⟩)
      · exact .inr ⟨k, e, he, hx⟩

theorem placeProblem?_eq_none_iff (d : Decl) : placeProblem? p d = none ↔
    (d.isSeparator → p.separator = false ∧ p.index = 0) ∧
      (d.isPackage → p.package = false ∧ (p.index = 0 ∨ p.index = 1 ∧ p.separator = true)) := by
  cases d with
  | separator info =>
    by_cases hsep : p.separator = true <;> by_cases hindex : p.index = 0 <;>
      simp [placeProblem?, Decl.isSeparator, Decl.isPackage, Decl.packagePath?, hsep, hindex]
  | package info path =>
    by_cases hpackage : p.package = true <;> by_cases hplace : p.index = 0 ∨ p.index = 1 ∧ p.separator = true <;>
      simp [placeProblem?, Decl.isSeparator, Decl.isPackage, Decl.packagePath?, hpackage, hplace]
  | _ => simp [placeProblem?, Decl.isSeparator, Decl.isPackage, Decl.packagePath?]

theorem placementProblems_eq_nil_iff (f : File) : f.placementProblems = [] ↔
    ∀ k d, f.decls[k]? = some d → placeProblem? ((f.decls.take k).foldl .add {}) d = none ∧
      d.placementProblems = [] := by
  simp only [placementProblems, eq_nil_iff_forall_not_mem, mem_declProblems]
  constructor
  · intro h k d hd
    refine ⟨Option.eq_none_iff_forall_ne_some.mpr fun reason hreason => ?_, fun x hx => ?_⟩
    · exact h _ ⟨k, d, hd, .inl ⟨reason, hreason, rfl⟩⟩
    · exact h x ⟨k, d, hd, .inr hx⟩
  · rintro h x ⟨k, d, hd, ⟨reason, hreason, -⟩ | hx⟩
    · exact absurd hreason ((h k d hd).1 ▸ nofun)
    · exact (h k d hd).2 x hx

theorem before_decl {f : File} {k : Nat} {d : Decl} (h : f.decls[k]? = some d) :
    (f.decls.take k).foldl Progress.add {} = ⟨k, (f.decls.take k).any (·.isPackage),
      (f.decls.take k).any (·.isSeparator)⟩ := by
  obtain ⟨hk, -⟩ := List.getElem?_eq_some_iff.mp h
  rw [Progress.foldl_add, length_take, Nat.min_eq_left (Nat.le_of_lt hk)]
  simp

theorem any_take {ds : List Decl} {q : Decl → Bool} {k : Nat} :
    (ds.take k).any q = true ↔ ∃ j d, j < k ∧ ds[j]? = some d ∧ q d = true := by
  rw [any_eq_true]
  constructor
  · rintro ⟨d, hd, hq⟩
    obtain ⟨j, hj⟩ := mem_iff_getElem?.mp hd
    rw [getElem?_take] at hj
    split at hj
    · exact ⟨j, d, ‹_›, hj, hq⟩
    · cases hj
  · rintro ⟨j, d, hj, hd, hq⟩
    exact ⟨d, mem_iff_getElem?.mpr ⟨j, by rw [getElem?_take_of_lt hj, hd]⟩, hq⟩

theorem wellPlaced_iff (f : File) : f.placementProblems = [] ↔ f.WellPlaced := by
  rw [placementProblems_eq_nil_iff]
  constructor
  · intro h
    have place (k d) (hd : f.decls[k]? = some d) :=
      (placeProblem?_eq_none_iff d).mp (before_decl hd ▸ (h k d hd).1)
    have package (k d) (hd : f.decls[k]? = some d) (hp : d.isPackage) :
        k = 0 ∨ k = 1 ∧ ∃ s, f.decls[0]? = some s ∧ s.isSeparator := by
      refine ((place k d hd).2 hp).2.imp_right fun ⟨hk, hsep⟩ => ⟨hk, ?_⟩
      obtain ⟨j, s, hj, hs, hsep⟩ := any_take.mp hsep
      obtain rfl : j = 0 := by simp only at hk; omega
      exact ⟨s, hs, hsep⟩
    refine ⟨fun k d hd hsep => ((place k d hd).1 hsep).2, package, fun j k d e hd he hdp hep => ?_, fun d hd => ?_⟩
    · -- the later of two package declarations would have seen the earlier one
      rcases Nat.lt_trichotomy j k with hlt | heq | hlt
      · exact absurd (any_take.mpr ⟨j, d, hlt, hd, hdp⟩) (Bool.eq_false_iff.mp ((place k e he).2 hep).1)
      · exact heq
      · exact absurd (any_take.mpr ⟨k, e, hlt, he, hep⟩) (Bool.eq_false_iff.mp ((place j d hd).2 hdp).1)
    · obtain ⟨k, hk⟩ := mem_iff_getElem?.mp hd
      exact d.placementProblems_eq_nil_iff.mp (h k d hk).2
  · intro h k d hd
    refine ⟨?_, d.placementProblems_eq_nil_iff.mpr (h.directed d (mem_of_getElem? hd))⟩
    rw [before_decl hd, placeProblem?_eq_none_iff]
    refine ⟨fun hsep => ?_, fun hp => ⟨?_, ?_⟩⟩
    · obtain rfl := h.separator k d hd hsep
      exact ⟨rfl, rfl⟩
    · refine Bool.eq_false_iff.mpr fun hany => ?_
      obtain ⟨j, e, hj, he, hep⟩ := any_take.mp hany
      exact absurd (h.once j k e d he hd hep hp) (Nat.ne_of_lt hj)
    · refine (h.package k d hd hp).imp_right fun ⟨hk, s, hs, hsep⟩ => ⟨hk, ?_⟩
      exact any_take.mpr ⟨0, s, by simp [hk], hs, hsep⟩

end File

/-! ### Files that are read -/

/-- Declarations of which no separator stands behind the first one. -/
def Cut (ds : List Decl) : Prop := ∀ d ∈ ds.tail, d.isSeparator = false

theorem Cut.push {ds : List Decl} {d : Decl} (h : Cut ds) (hd : (d.isSeparator && !ds.isEmpty) = false) :
    Cut (ds ++ [d]) := by
  cases ds with
  | nil => exact forall_mem_nil _
  | cons e ds =>
    have hd : d.isSeparator = false := by simpa using hd
    exact forall_mem_append.mpr ⟨h, by simpa using hd⟩

namespace Parser

theorem fileStep_cut {s u : State} {a : FilesSoFar} {r : Option FilesSoFar}
    (h : (∀ f ∈ a.1, Cut f.decls) ∧ Cut a.2) (hr : fileStep a s = (some r, u)) :
    (∀ f ∈ (r.getD a).1, Cut f.decls) ∧ Cut (r.getD a).2 := by
  rw [fileStep, bind_apply] at hr
  rcases hitem : declItem s with ⟨_ | _ | _ | d, v⟩ <;> rw [hitem] at hr
  · cases hr
  · cases hr
    exact h
  · cases hr
    exact h
  · obtain ⟨closed, decls⟩ := a
    dsimp only at hr
    split at hr
    · cases hr
      exact ⟨forall_mem_append.mpr ⟨h.1, by simpa using h.2⟩, forall_mem_nil _⟩
    · rename_i hd
      cases hr
      exact ⟨h.1, h.2.push (by simpa using hd)⟩

theorem files_cut {s u : State} {fs : List File} (h : files s = (some fs, u)) : ∀ f ∈ fs, Cut f.decls := by
  rw [files, bind_apply] at h
  rcases hall : extend fileStep ([], []) s with ⟨_ | ⟨closed, decls⟩, v⟩ <;> rw [hall] at h
  · cases h
  have none : (∀ f ∈ ([] : List File), Cut f.decls) ∧ Cut [] := ⟨forall_mem_nil _, forall_mem_nil _⟩
  have cut := extendWithin_keeps (I := fun _ a => (∀ f ∈ a.1, Cut f.decls) ∧ Cut a.2) (a := ([], []))
    fileStep_cut none hall
  dsimp only at h
  split at h
  · cases h
    exact forall_mem_append.mpr ⟨cut.1, by simpa using cut.2⟩
  · cases h
    exact cut.1

end Parser

theorem parse_cut (texts : List (FileId × String)) : ∀ f ∈ (parse texts).program.files, Cut f.decls := by
  intro f hf
  obtain ⟨r, -, ids, hf⟩ := mem_parseTexts hf
  unfold parseText at hf
  generalize Lexer.scan r.1 r.2 = tokens at hf
  obtain ⟨fs, u, hrun, -⟩ := Parser.Steps.files (.start r.1 (Token.kept tokens) ids.nodes ids.types)
  have hread : (parseTokens r.1 (Token.kept tokens) ids).1 = fs := by rw [parseTokens, hrun]; rfl
  exact Parser.files_cut hrun f (hread ▸ hf)

theorem File.code_of_cut {f : File} (h : Cut f.decls) {x : Diagnostic} (hx : x ∈ f.placementProblems) :
    x.problem.code ≠ "E0202" := by
  obtain ⟨k, d, hd, ⟨reason, hreason, rfl⟩ | hx⟩ := mem_declProblems.mp hx
  · have first : d.isSeparator → k = 0 := by
      intro hsep
      cases k with
      | zero => rfl
      | succ k => exact absurd hsep (by simp [h d (mem_of_getElem? (getElem?_tail ▸ hd))])
    rw [before_decl hd] at hreason
    intro hcode
    cases d with
    | separator info =>
      obtain rfl := first rfl
      cases hreason
    | package info path =>
      dsimp only [placeProblem?] at hreason
      split at hreason
      · obtain rfl := Option.some.inj hreason
        simp [Problem.code, code] at hcode
      · split at hreason
        · cases hreason
        · obtain rfl := Option.some.inj hreason
          simp [Problem.code, code] at hcode
    | _ => cases hreason
  · obtain ⟨n, -, hx⟩ := mem_flatMap.mp hx
    rcases mem_append.mp hx with hx | hx
    · exact code_of_mem_problems hx
    · obtain ⟨t, -, hx⟩ := mem_flatMap.mp hx
      obtain ⟨u, -, hx⟩ := mem_flatMap.mp hx
      exact code_of_mem_problems hx

/-- A program has no placement problem iff in each of its files separators, package declarations and
directives stand where they may. No separator is out of place in a program that was read. -/
theorem placement_judged : (∀ p : Program, p.placementProblems = [] ↔ ∀ f ∈ p.files, f.WellPlaced) ∧
    ∀ texts, "E0202" ∉ (parse texts).program.placementProblems.map (·.problem.code) := by
  constructor
  · intro p
    rw [Program.placementProblems, flatMap_eq_nil_iff]
    simp only [File.wellPlaced_iff]
  · intro texts hmem
    obtain ⟨x, hx, hcode⟩ := mem_map.mp hmem
    obtain ⟨f, hf, hx⟩ := mem_flatMap.mp hx
    exact File.code_of_cut (parse_cut texts f hf) hx hcode

end Quill
