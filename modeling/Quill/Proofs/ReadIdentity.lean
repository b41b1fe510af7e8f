import Quill.Proofs.Identity
import Quill.Proofs.ReadingFiles

/-!
# Identities of what is read

Every production takes the identities of its result in ascending order, those of the parts first.
-/
namespace Quill

open TypeExpr List

variable (c : Counter) (ds : List Directive)

theorem TypeExpr.ids_withDirectives (t : TypeExpr) : (t.withDirectives ds).ids c = t.ids c := by
  cases t <;> cases c <;> rfl

theorem Expr.ids_withDirectives (e : Expr) : (e.withDirectives ds).ids c = e.ids c := by
  cases e <;> cases c <;> rfl

theorem Stmt.ids_withDirectives (s : Stmt) : (s.withDirectives ds).ids c = s.ids c := by
  cases s <;> cases c <;> rfl

theorem Decl.ids_withDirectives (d : Decl) : (d.withDirectives ds).ids c = d.ids c := by
  cases d <;> cases c <;> rfl

theorem TypeExpr.allIds_eq (ts : List TypeExpr) : allIds c ts = ts.flatMap (·.ids c) := by
  induction ts with
  | nil => rfl
  | cons t ts ih => rw [allIds, ih, flatMap_cons]

theorem Expr.allIds_eq (es : List Expr) : Expr.allIds c es = es.flatMap (·.ids c) := by
  induction es with
  | nil => rfl
  | cons e es ih => rw [Expr.allIds, ih, flatMap_cons]

theorem Stmt.allIds_eq (ss : List Stmt) : Stmt.allIds c ss = ss.flatMap (·.ids c) := by
  induction ss with
  | nil => rfl
  | cons s ss ih => rw [Stmt.allIds, ih, flatMap_cons]

theorem Expr.fieldIds_eq (fs : List (FieldInit Expr)) :
    Expr.fieldIds c fs = fs.flatMap (·.value.ids c) := by
  induction fs with
  | nil => rfl
  | cons f fs ih => rw [Expr.fieldIds, ih, flatMap_cons]

theorem Expr.elementIds_eq (es : List (ArrayElement Expr)) :
    Expr.elementIds c es = es.flatMap fun e => Expr.optionIds c e.index ++ e.value.ids c := by
  induction es with
  | nil => rfl
  | cons e es ih =>
    rcases e with ⟨_ | i, e⟩ <;> rw [Expr.elementIds, ih, flatMap_cons] <;> rfl

theorem TypeExpr.optionIds_eq (t : Option TypeExpr) :
    optionIds c t = t.toList.flatMap (·.ids c) := by
  cases t <;> simp [optionIds]

theorem Expr.optionIds_eq (e : Option Expr) : Expr.optionIds c e = e.toList.flatMap (·.ids c) := by
  cases e <;> simp [Expr.optionIds]

theorem Stmt.optionIds_eq (s : Option Stmt) : Stmt.optionIds c s = s.toList.flatMap (·.ids c) := by
  cases s <;> simp [Stmt.optionIds]

def TemplatePart.exprs {α : Type} : TemplatePart α → List α
  | text _ => []
  | expr e => [e]

theorem Expr.partIds_eq (ps : List (TemplatePart Expr)) :
    Expr.partIds c ps = (ps.flatMap (·.exprs)).flatMap (·.ids c) := by
  induction ps with
  | nil => rfl
  | cons p ps ih => cases p <;> simp [Expr.partIds, ih, TemplatePart.exprs]

mutual

theorem TypeExpr.ids_node : (t : TypeExpr) → t.ids .node = []
  | .void _ | .scalar _ _ => rfl
  | .named _ _ arguments => by rw [ids, allIds_node arguments]; rfl
  | .pointer _ t | .mutPointer _ t | .array _ t _ | .slice _ t | .optional _ t => by
    rw [ids, ids_node t]; rfl
  | .result _ t failure => by
    rw [ids, ids_node t, ids_node failure]; rfl
  | .tuple _ items => by rw [ids, allIds_node items]; rfl

theorem TypeExpr.allIds_node : (ts : List TypeExpr) → allIds .node ts = []
  | [] => rfl
  | t :: ts => by rw [allIds, ids_node t, allIds_node ts]; rfl

end

theorem TypeExpr.optionIds_node (t : Option TypeExpr) : optionIds .node t = [] := by
  cases t with
  | none => rfl
  | some t => exact t.ids_node

theorem sublist_flatMap {α β : Type} {f : α → List β} {a : α} {as : List α} (h : a ∈ as) :
    (f a).Sublist (as.flatMap f) := by
  rw [flatMap_def]
  exact sublist_flatten_of_mem (mem_map_of_mem h)

def File.declIds (c : Counter) (f : File) : List Nat := f.decls.flatMap (·.ids c)

namespace Part

def ids (c : Counter) : Part → List Nat
  | node (.expr e) => e.ids c
  | node (.stmt s) => s.ids c
  | node (.decl d) => d.ids c
  | node _ => []
  | type t => t.ids c

theorem ids_withDirectives (x : Part) : (x.withDirectives ds).ids c = x.ids c := by
  cases x with
  | node n =>
    cases n with
    | expr e => exact e.ids_withDirectives c ds
    | stmt s => exact s.ids_withDirectives c ds
    | decl d => exact d.ids_withDirectives c ds
    | _ => rfl
  | type t => exact t.ids_withDirectives c ds

end Part

def File.ids (c : Counter) (f : File) : List Nat := f.declIds c ++ f.info.nodeIds c

/-- Identities in what is in hand, with those of the files or without. -/
def Item.ids (own : Bool) (c : Counter) : Item → List Nat
  | .loose x | .part x => x.ids c
  | .operand e => e.ids c
  | .node _ _ info => info.nodeIds c
  | .type _ _ info => info.typeIds c
  | .file f => if own then f.ids c else f.declIds c
  | _ => []

theorem Item.ids_ofTemplate (own : Bool) (c : Counter) (p : TemplatePart Expr) :
    (Item.ofTemplate p).flatMap (Item.ids own c) = p.exprs.flatMap (·.ids c) := by
  cases p <;> simp [Item.ofTemplate, Item.ids, Part.ids, TemplatePart.exprs]

/-- A part has the identities of the items that it is made of. Where a type is applied to arguments
the one that it had before is dropped. -/
theorem Made.ids_sublist {items : List Item} {x : Part} (h : Made items x) (own : Bool)
    (c : Counter) : (x.ids c).Sublist (items.flatMap (Item.ids own c)) := by
  cases h <;> simp [Part.ids, Item.ids, ids, Expr.ids, VarDecl.ids, Stmt.ids, Block.ids, Block.toStmt,
    Signature.ids, Decl.ids, allIds_eq, optionIds_eq, Expr.allIds_eq, Expr.optionIds_eq,
    Expr.fieldIds_eq, Expr.elementIds_eq, Expr.partIds_eq, Stmt.allIds_eq, Stmt.optionIds_eq, flatMap_map,
    flatMap_assoc, Item.ids_ofTemplate]

namespace Parser

theorem State.Told.count {s u : State} (h : s.Told u) (c : Counter) : u.count c = s.count c := by
  obtain ⟨problem, span, -, rfl⟩ := h
  exact s.count_report c problem span

theorem State.count_rewind (s u : State) (c : Counter) : (s.rewind u).count c = u.count c := by
  cases c <;> rfl

/-- The identities of the items in hand were taken on the way, and lie as said. -/
def Taken (G : Nat → Nat → List Nat → Prop) (own : Bool) (c : Counter) (s : State) (st : List Item) (u : State) :
    Prop :=
  s.count c ≤ u.count c ∧ G (s.count c) (u.count c) (st.flatMap (Item.ids own c))

/-- What is said of identities may be told from parts and does not depend on identities not used. -/
structure Local (G : Nat → Nat → List Nat → Prop) : Prop where
  none (n : Nat) : G n n []
  single (n : Nat) : G n (n + 1) [n]
  append {lo mid hi : Nat} {as bs : List Nat} : G lo mid as → G mid hi bs → lo ≤ mid → mid ≤ hi → G lo hi (as ++ bs)
  fewer {lo hi hi' : Nat} {as bs : List Nat} : G lo hi bs → hi ≤ hi' → as.Sublist bs → G lo hi' as

section Taken

variable {G : Nat → Nat → List Nat → Prop} {own : Bool} {c : Counter} {m : Mode} {s u v : State} {st st' : List Item}

theorem Taken.same (h : Taken G own c s st u) (hv : v.count c = u.count c)
    (hst : st'.flatMap (Item.ids own c) = st.flatMap (Item.ids own c)) : Taken G own c s st' v := by
  rwa [Taken, hv, hst]

variable (law : Local G)
include law

theorem Taken.fewer (h : Taken G own c s st u) (hv : u.count c ≤ v.count c)
    (hst : (st'.flatMap (Item.ids own c)).Sublist (st.flatMap (Item.ids own c))) : Taken G own c s st' v :=
  ⟨Nat.le_trans h.1 hv, law.fewer h.2 hv hst⟩

theorem Taken.append (h : Taken G own c s st u) (h' : Taken G own c u st' v) : Taken G own c s (st ++ st') v :=
  ⟨Nat.le_trans h.1 h'.1, by rw [flatMap_append]; exact law.append h.2 h'.2 h.1 h'.1⟩

theorem Taken.one (own : Bool) (c : Counter) (whole : Bool) (a i : Span) (u : State) :
    Taken G own c u [.node whole a ⟨u.nodes, i, []⟩] { u with nodes := u.nodes + 1 } ∧
      Taken G own c u [.type whole a ⟨u.types, i, []⟩] { u with types := u.types + 1 } := by
  cases c <;> simp [Taken, Item.ids, Info.nodeIds, Info.typeIds, State.count, law.none, law.single]

theorem Steps.taken (close : ∀ {s u : State} {st : List Item} {decls : List Decl} {f : File} (next : List Decl),
      Taken G own c s (st ++ decls.map .decl ++ next.map .decl) u → (Parser.fileOf decls u).1 = some f →
      Taken G own c s (st ++ [Item.file f] ++ next.map .decl) { u with nodes := u.nodes + 1 })
    (h : Steps m s st u) (hm : m ≠ .apart) : Taken G own c s st u := by
  induction h with
  | refl => exact ⟨Nat.le_refl _, law.none _⟩
  | @pass _ _ u _ _ _ ih => exact (ih hm).same (u.count_advance c) rfl
  | @word _ _ u _ _ _ _ ih | @name _ _ u _ _ _ ih | @length _ _ u _ _ _ ih | @sign _ _ u _ _ _ ih =>
    exact (ih hm).same (u.count_advance c) (by simp [Item.ids])
  | @body _ _ u _ _ _ n _ _ ih => exact (ih hm).same (u.count_advanceBy c n) rfl
  | start _ ih | text _ _ _ ih | directive _ _ ih | inner _ _ ih | settle _ ih =>
    exact (ih hm).same rfl (by simp [Item.ids])
  | dress _ ih => exact (ih hm).same rfl (by simp [Item.ids, Part.ids_withDirectives, flatMap_map])
  | make _ made ih =>
    refine (ih hm).fewer law (Nat.le_refl _) ?_
    rw [flatMap_append, flatMap_append]
    exact (List.Sublist.refl _).append (by simpa [Item.ids] using made.ids_sublist own c)
  | @node _ _ u _ whole a _ ih => exact (ih hm).append law (Taken.one law own c whole a _ u).1
  | @type _ _ u _ whole a _ ih => exact (ih hm).append law (Taken.one law own c whole a _ u).2
  | file next _ hf ih => exact close next (ih hm) hf
  | @tried _ _ u v w e _ _ _ _ _ _ _ _ hw ih _ _ again =>
    have later := (again nofun).1
    rw [State.count_rewind] at later
    refine (ih hm).fewer law ?_ (.refl _)
    rw [State.count_rewind]
    rcases hw with rfl | told
    · exact later
    · exact told.count c ▸ later
  | operand _ _ _ _ ih _ _ again =>
    have later := again nofun
    refine (ih hm).append law ⟨?_, ?_⟩
    · simpa only [State.count_rewind] using later.1
    · simpa [State.count_rewind, Item.ids, Part.ids] using later.2
  | @mend _ u v w _ _ n _ _ told ih ih' =>
    refine (ih hm).fewer law ?_ (.refl _)
    have hv : (w.advanceBy n).recovered.unmuted.count c = v.count c := by
      rw [← told.count c, ← w.count_advanceBy c n]
      cases c <;> rfl
    exact hv ▸ (ih' hm).1
  | unmute _ ih => exact (ih hm).same (by cases c <;> rfl) rfl
  | given => exact absurd rfl hm

end Taken

theorem Steps.ascending {m : Mode} {s u : State} {st : List Item} (h : Steps m s st u) (hm : m ≠ .apart)
    (c : Counter) : Taken Numbered false c s st u := by
  have law : Local Numbered :=
    ⟨fun _ => .nil, .single, .append, fun h hle hs => (h.sublist hs).mono (Nat.le_refl _) hle⟩
  refine h.taken law (fun next h hf => ?_) hm
  cases hf
  refine h.fewer law (by cases c <;> simp [State.count]) ?_
  simp [Item.ids, File.declIds, Part.ids, flatMap_map]

theorem Steps.closed {m : Mode} {s u : State} {st : List Item} (h : Steps m s st u) (hm : m ≠ .apart) {f : File}
    (hf : .file f ∈ st) : ∃ st' next v, Steps m s (st' ++ f.decls.map .decl ++ map .decl next) v ∧
      (Parser.fileOf f.decls v).1 = some f := by
  induction h with
  | refl => cases hf
  | pass _ _ ih | body _ _ _ ih | tried _ _ _ _ _ ih | mend _ _ _ _ ih | unmute _ ih => exact ih hm hf
  | word _ _ _ ih | name _ _ ih | length _ _ ih | sign _ _ ih | start _ ih | text _ _ _ ih | node _ _ _ ih
  | type _ _ _ ih | operand _ _ _ _ ih => exact ih hm (by simpa using hf)
  | directive _ _ ih | make _ _ ih | inner _ _ ih | settle _ ih | dress _ ih =>
    exact ih hm (by simp only [mem_append, mem_singleton, reduceCtorEq, or_false] at hf; simp [hf])
  | @file _ _ u st decls g next h hg ih =>
    have hdecls : g.decls = decls := by
      cases hg
      rfl
    simp only [mem_append, mem_singleton, Item.file.injEq, mem_map, reduceCtorEq, and_false,
      exists_false, or_false] at hf
    rcases hf with hf | rfl
    · exact ih hm (by simp [hf])
    · exact ⟨st, next, u, hdecls ▸ h, hdecls ▸ hg⟩
  | given => exact absurd rfl hm

end Parser

def Identities.count (ids : Identities) : Counter → Nat
  | .node => ids.nodes
  | .type => ids.types

/-- Files whose declarations took their identities between two values of the counters. -/
structure FilesNumbered (c : Counter) (before after : Identities) (files : List File) : Prop where
  grows : before.count c ≤ after.count c
  numbered : Numbered (before.count c) (after.count c) (files.flatMap (·.declIds c))

theorem parseTokens_numbered (file : FileId) (tokens : List Token) (ids : Identities) :
    FilesNumbered c ids (parseTokens file tokens ids).2.2 (parseTokens file tokens ids).1 := by
  let start : Parser.State := .start file tokens ids.nodes ids.types
  have hend : (parseTokens file tokens ids).2.2.count c = (Parser.files start).2.count c := by
    cases c <;> rfl
  obtain ⟨fs, u, hrun, -, steps, -⟩ := Parser.Steps.files start
  have h := steps.ascending nofun c
  have hs : start.unmuted.count c = ids.count c := by cases c <;> rfl
  have hu : u.unmuted.count c = (parseTokens file tokens ids).2.2.count c := by
    rw [hend, hrun]
    cases c <;> rfl
  have hfiles : (parseTokens file tokens ids).1 = fs := congrArg (·.1.getD []) hrun
  rw [Parser.Taken, hs, hu, flatMap_map] at h
  exact hfiles ▸ ⟨h.1, h.2⟩

theorem parseText_numbered (file : FileId) (text : String) (ids : Identities) :
    FilesNumbered c ids (parseText file text ids).2.2 (parseText file text ids).1 := by
  unfold parseText
  generalize Lexer.scan file text = tokens
  exact parseTokens_numbered c file (Token.kept tokens) ids

theorem parseTexts_numbered (texts : List (FileId × String)) (ids : Identities) :
    FilesNumbered c ids (parseTexts texts ids).2.2 (parseTexts texts ids).1 := by
  induction texts generalizing ids with
  | nil => exact ⟨Nat.le_refl _, .nil⟩
  | cons text more ih =>
    have first := parseText_numbered c text.1 text.2 ids
    have rest := ih (parseText text.1 text.2 ids).2.2
    rw [parseTexts]
    generalize parseText text.1 text.2 ids = r at first rest ⊢
    refine ⟨Nat.le_trans first.grows rest.grows, ?_⟩
    rw [flatMap_append]
    exact first.numbered.append rest.numbered first.grows rest.grows

/-- The identities in the declarations of a program are in ascending order, so none is given
twice. -/
theorem parse_numbered (texts : List (FileId × String)) :
    Numbered 0 ((parse texts).ids.count c) ((parse texts).program.files.flatMap (·.declIds c)) := by
  have h := (parseTexts_numbered c texts {}).numbered
  cases c with
  | node => exact h.mono (Nat.zero_le _) (Nat.le_succ _)
  | type => exact h.mono (Nat.zero_le _) (Nat.le_refl _)

end Quill
