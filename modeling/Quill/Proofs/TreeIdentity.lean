import Mathlib.Data.List.Perm.Basic
import Mathlib.Logic.Relation
import Quill.Proofs.ReadIdentity
import Quill.Tree.Outline

/-!
# Identities in a tree

No two nodes have the same identity and no two types have, and a node has a larger one than every
node inside it.
-/
namespace Quill

open List Expr TypeExpr Info
open Relation (ReflTransGen TransGen)

namespace Node

/-- The nodes directly inside a node, in source order. -/
def children : Node → List Node
  | program p => p.files.map file
  | file f => f.decls.map decl
  | decl (.function _ _ body) => [stmt body.toStmt]
  | decl (.var _ d) | stmt (.var _ d) => d.init.toList.map expr
  | decl _ => []
  | stmt (.block _ body) => body.map stmt
  | stmt (.cond _ test onTrue onFalse) => expr test :: stmt onTrue :: onFalse.toList.map stmt
  | stmt (.loop _ e body) | stmt (.foreach _ _ e body) => [expr e, stmt body]
  | stmt (.ret _ e) | stmt (.crash _ e) => e.toList.map expr
  | stmt (.defer _ body) => [stmt body]
  | stmt (.expr _ e) | stmt (.switch _ e) => [expr e]
  | stmt (.assign _ _ target value) => [expr target, expr value]
  | expr (.literal _ _) | expr (.ref _ _) | expr (.sizeofType _ _ _) => []
  | expr (.binary _ _ l r) | expr (.index _ l r) | expr (.range _ l r _) => [expr l, expr r]
  | expr (.unary _ _ e) | expr (.step _ _ e) | expr (.field _ e _ _) | expr (.sizeofExpr _ e)
  | expr (.cast _ _ e) => [expr e]
  | expr (.call _ callee arguments) => expr callee :: arguments.map expr
  | expr (.tuple _ items) => items.map expr
  | expr (.structInit _ fields) => fields.map fun f => expr f.value
  | expr (.arrayInit _ length elements) =>
    length.toList.map expr ++ elements.flatMap fun e => e.index.toList.map expr ++ [expr e.value]
  | expr (.template _ parts) => (parts.flatMap (·.exprs)).map expr

/-- The operand that a `sizeof` of a type keeps. -/
def operand? : Node → Option Expr
  | expr (.sizeofType _ _ operand) => operand
  | _ => none

/-- The nodes directly inside a node, with a kept operand. -/
def parts (n : Node) : List Node := n.children ++ n.operand?.toList.map expr

def outline : Node → Outline
  | program p => p.outline
  | file f => f.outline
  | decl d => d.outline
  | stmt s => s.outline
  | expr e => e.outline

def ids (c : Counter) : Node → List Nat
  | program p => p.files.flatMap (fun f => f.declIds c ++ f.info.nodeIds c) ++ p.info.nodeIds c
  | file f => f.declIds c ++ f.info.nodeIds c
  | decl d => d.ids c
  | stmt s => s.ids c
  | expr e => e.ids c

end Node

theorem Expr.outlines_eq (es : List Expr) : outlines es = es.map (·.outline) := by
  induction es with
  | nil => rfl
  | cons e es ih => rw [outlines, ih, map_cons]

theorem Expr.fieldOutlines_eq (fs : List (FieldInit Expr)) :
    fieldOutlines fs = fs.map (·.value.outline) := by
  induction fs with
  | nil => rfl
  | cons f fs ih => rw [fieldOutlines, ih, map_cons]

theorem Expr.elementOutlines_eq (es : List (ArrayElement Expr)) :
    elementOutlines es =
      es.flatMap fun e => e.index.toList.map (·.outline) ++ [e.value.outline] := by
  induction es with
  | nil => rfl
  | cons e es ih =>
    rcases e with ⟨_ | i, e⟩
    · rw [elementOutlines, ih, flatMap_cons]
      rfl
    · rw [elementOutlines, ih, flatMap_cons]
      rfl

theorem Expr.partOutlines_eq (ps : List (TemplatePart Expr)) :
    partOutlines ps = (ps.flatMap (·.exprs)).map (·.outline) := by
  induction ps with
  | nil => rfl
  | cons p ps ih =>
    cases p <;> rw [partOutlines, ih, flatMap_cons, map_append] <;> rfl

theorem Stmt.outlines_eq (ss : List Stmt) : Stmt.outlines ss = ss.map (·.outline) := by
  induction ss with
  | nil => rfl
  | cons s ss ih => rw [Stmt.outlines, ih, map_cons]

theorem perm_behind {as bs : List Nat} (i : Nat) (h : as.Perm bs) : (as ++ [i]).Perm (i :: bs) :=
  (h.append_right [i]).trans (perm_append_singleton i bs)

mutual

theorem TypeExpr.ids_perm : (t : TypeExpr) → (depth : Nat) →
    (t.ids .type).Perm ((t.levels depth).map (·.2.info.id))
  | .void _, _ | .scalar _ _, _ => .refl _
  | .named info _ arguments, depth =>
    perm_behind info.id (allIds_perm arguments (depth + 1))
  | .pointer info t, depth | .mutPointer info t, depth | .array info t _, depth
  | .slice info t, depth | .optional info t, depth =>
    perm_behind info.id (t.ids_perm (depth + 1))
  | .result info t failure, depth => by
    rw [levels, map_cons, map_append]
    exact perm_behind info.id ((t.ids_perm (depth + 1)).append (failure.ids_perm (depth + 1)))
  | .tuple info items, depth => perm_behind info.id (allIds_perm items (depth + 1))

theorem TypeExpr.allIds_perm : (ts : List TypeExpr) → (depth : Nat) →
    (allIds .type ts).Perm ((levelsOf depth ts).map (·.2.info.id))
  | [], _ => .refl _
  | t :: ts, depth => by
    rw [allIds, levelsOf, map_append]
    exact (ids_perm t depth).append (allIds_perm ts depth)

end

namespace Node

theorem outline_eq (n : Node) : n.outline = .mk n (n.children.map outline) := by
  cases n with
  | program p => simp [outline, children, Program.outline]
  | file f => simp [outline, children, File.outline]
  | decl d => cases d <;> simp [outline, children, Decl.outline, Expr.outline?, Option.toList_map]
  | stmt s =>
    cases s with
    | block _ body => simp [outline, children, Stmt.outline, Stmt.outlines_eq]
    | cond _ test onTrue onFalse =>
      cases onFalse <;> simp [outline, children, Stmt.outline]
    | _ => simp [outline, children, Stmt.outline, Expr.outline?, Option.toList_map]
  | expr e =>
    cases e with
    | call _ callee arguments => simp [outline, children, Expr.outline, Expr.outlines_eq]
    | tuple _ items => simp [outline, children, Expr.outline, Expr.outlines_eq]
    | structInit _ fields => simp [outline, children, Expr.outline, Expr.fieldOutlines_eq]
    | arrayInit _ length elements =>
      cases length <;>
        simp [outline, children, Expr.outline, Expr.elementOutlines_eq, map_flatMap] <;> rfl
    | template _ parts =>
      simp [outline, children, Expr.outline, Expr.partOutlines_eq]
    | _ => simp [outline, children, Expr.outline]

theorem ids_node (n : Node) : n.ids .node = n.parts.flatMap (ids .node) ++ [n.id] := by
  cases n with
  | program p => simp [ids, parts, children, operand?, flatMap_map, nodeIds]; rfl
  | file f =>
    simp [ids, parts, children, operand?, flatMap_map, nodeIds, File.declIds]; rfl
  | decl d =>
    cases d <;> simp [ids, parts, children, operand?, Decl.ids, Signature.ids, VarDecl.ids, Block.ids,
      Block.toStmt, Stmt.ids, nodeIds, flatMap_map, TypeExpr.ids_node, TypeExpr.allIds_node,
      TypeExpr.optionIds_node, Expr.optionIds_eq] <;> rfl
  | stmt s =>
    cases s <;> simp [ids, parts, children, operand?, Stmt.ids, VarDecl.ids, nodeIds,
      flatMap_map, TypeExpr.optionIds_node, Expr.optionIds_eq, Stmt.optionIds_eq,
      Stmt.allIds_eq] <;> rfl
  | expr e =>
    cases e <;> simp [ids, parts, children, operand?, Expr.ids, nodeIds, flatMap_map,
      TypeExpr.ids_node, Expr.optionIds_eq, Expr.allIds_eq, Expr.fieldIds_eq, Expr.elementIds_eq,
      Expr.partIds_eq, flatMap_assoc] <;> rfl

theorem ids_type (n : Node) :
    (n.ids .type).Perm (n.parts.flatMap (ids .type) ++ n.types.flatMap (·.ids .type)) := by
  rw [perm_iff_count]
  intro i
  cases n with
  | program p => simp [ids, parts, children, operand?, types, flatMap_map, nodeIds]
  | file f =>
    simp [ids, parts, children, operand?, types, flatMap_map, nodeIds, File.declIds]
  | decl d =>
    cases d <;> simp [ids, parts, children, operand?, types, Decl.ids, Signature.ids, VarDecl.ids,
      Block.ids, Block.toStmt, Stmt.ids, nodeIds, flatMap_map, TypeExpr.allIds_eq,
      TypeExpr.optionIds_eq, Expr.optionIds_eq] <;> omega
  | stmt s =>
    cases s <;> simp [ids, parts, children, operand?, types, Stmt.ids, VarDecl.ids, nodeIds,
      flatMap_map, TypeExpr.optionIds_eq, Expr.optionIds_eq, Stmt.optionIds_eq,
      Stmt.allIds_eq]
    omega
  | expr e =>
    cases e <;> simp [ids, parts, children, operand?, types, Expr.ids, nodeIds,
      flatMap_map, Expr.optionIds_eq, Expr.allIds_eq, Expr.fieldIds_eq, Expr.elementIds_eq,
      Expr.partIds_eq, flatMap_assoc] <;> omega

theorem length_ids_lt {n m : Node} (h : m ∈ n.parts) :
    (m.ids .node).length < (n.ids .node).length := by
  rw [n.ids_node, length_append, length_singleton]
  exact Nat.lt_succ_of_le (sublist_flatMap h).length_le

def all (n : Node) : List Node :=
  n.parts.attach.flatMap (fun m => m.1.all) ++ [n]
termination_by (n.ids .node).length
decreasing_by exact length_ids_lt m.2

theorem all_eq (n : Node) : n.all = n.parts.flatMap all ++ [n] := by
  rw [all]
  simp [flatMap_subtype]

theorem of_parts {P : Node → Prop} (h : ∀ n : Node, (∀ m ∈ n.parts, P m) → P n) (n : Node) : P n := by
  induction hlength : (n.ids .node).length using Nat.strongRecOn generalizing n with
  | ind length ih =>
    subst hlength
    exact h n fun m hm => ih _ (length_ids_lt hm) m rfl

theorem ids_node_eq (n : Node) : n.ids .node = n.all.map (·.id) := by
  induction n using of_parts with
  | h n ih =>
    rw [n.ids_node, n.all_eq, map_append, map_flatMap, flatMap_congr ih]
    rfl

/-- The identities of the types written on a node and of those nested in them. -/
def typeIds (n : Node) : List Nat := n.types.flatMap fun t => t.parts.map (·.info.id)

theorem ids_type_perm (n : Node) : (n.ids .type).Perm (n.all.flatMap typeIds) := by
  induction n using of_parts with
  | h n ih =>
    rw [n.all_eq, flatMap_append, flatMap_singleton, flatMap_assoc]
    refine n.ids_type.trans (.append (.flatMap_left _ ih) (.flatMap_left _ fun t _ => ?_))
    rw [TypeExpr.parts, map_map]
    exact t.ids_perm 0

def IsPart (m n : Node) : Prop := m ∈ n.parts

def Inside : Node → Node → Prop := TransGen IsPart

theorem mem_all_iff {m n : Node} : m ∈ n.all ↔ ReflTransGen IsPart m n := by
  constructor
  · intro h
    induction n using of_parts with
    | h n ih =>
      rw [n.all_eq, mem_append, mem_singleton, mem_flatMap] at h
      rcases h with ⟨u, hu, hm⟩ | rfl
      · exact (ih u hu hm).tail hu
      · exact .refl
  · intro h
    induction h with
    | refl =>
      rw [m.all_eq]
      exact mem_append_right _ mem_cons_self
    | @tail u n _ hu ih =>
      rw [n.all_eq]
      exact mem_append_left _ (mem_flatMap.mpr ⟨u, hu, ih⟩)

theorem id_mem_of_inside {m n : Node} (h : m.Inside n) :
    m.id ∈ n.parts.flatMap (ids .node) := by
  obtain ⟨u, hmu, hun⟩ := TransGen.tail'_iff.mp h
  refine mem_flatMap.mpr ⟨u, hun, ?_⟩
  rw [u.ids_node_eq]
  exact mem_map_of_mem (mem_all_iff.mpr hmu)

def Ascends (n : Node) : Prop := (n.ids .node).Pairwise (· < ·)

theorem Ascends.part {m n : Node} (h : n.Ascends) (hm : m.IsPart n) : m.Ascends := by
  unfold Ascends at h
  rw [n.ids_node, pairwise_append] at h
  exact h.1.sublist (sublist_flatMap hm)

theorem Ascends.of_mem_all {m n : Node} (h : n.Ascends) (hm : m ∈ n.all) : m.Ascends := by
  rw [mem_all_iff] at hm
  induction hm with
  | refl => exact h
  | tail _ hm ih => exact ih (h.part hm)

theorem Ascends.id_lt {m n : Node} (h : n.Ascends) (hm : m.Inside n) : m.id < n.id := by
  unfold Ascends at h
  rw [n.ids_node, pairwise_append] at h
  exact h.2.2 _ (id_mem_of_inside hm) _ mem_cons_self

end Node

/-- Identities that differ from each other and lie between two values of a counter. -/
structure Apart (lo hi : Nat) (ids : List Nat) : Prop where
  nodup : ids.Nodup
  bounded : ∀ i ∈ ids, lo ≤ i ∧ i < hi

theorem Numbered.apart {lo hi : Nat} {ids : List Nat} (h : Numbered lo hi ids) : Apart lo hi ids :=
  ⟨h.nodup, h.bounded⟩

namespace Apart

variable {lo mid hi : Nat} {as bs : List Nat}

theorem mono (h : Apart lo hi as) {lo' hi' : Nat} (hlo : lo' ≤ lo) (hhi : hi ≤ hi') :
    Apart lo' hi' as :=
  ⟨h.nodup, fun i hi =>
    ⟨Nat.le_trans hlo (h.bounded i hi).1, Nat.lt_of_lt_of_le (h.bounded i hi).2 hhi⟩⟩

theorem append (ha : Apart lo mid as) (hb : Apart mid hi bs) (hlo : lo ≤ mid) (hhi : mid ≤ hi) :
    Apart lo hi (as ++ bs) := by
  refine ⟨nodup_append.mpr ⟨ha.nodup, hb.nodup, ?_⟩, ?_⟩
  · intro a ha' b hb'
    have := (ha.bounded a ha').2
    have := (hb.bounded b hb').1
    omega
  · intro i hi
    rcases mem_append.mp hi with h | h
    · exact (ha.mono (Nat.le_refl _) hhi).bounded i h
    · exact (hb.mono hlo (Nat.le_refl _)).bounded i h

theorem perm (h : Apart lo hi as) (hp : as.Perm bs) : Apart lo hi bs :=
  ⟨hp.nodup_iff.mp h.nodup, fun i hi => h.bounded i (hp.mem_iff.mpr hi)⟩

end Apart

theorem Parser.Steps.apart {m : Mode} {s u : State} {st : List Item} (h : Steps m s st u) (hm : m ≠ .apart) :
    Taken Apart true .node s st u := by
  refine h.taken ⟨fun _ => Numbered.nil.apart, fun n => (Numbered.single n).apart, .append,
    fun h hle hs => ⟨h.nodup.sublist hs, fun i hi => ⟨(h.bounded i (hs.subset hi)).1,
      Nat.lt_of_lt_of_le (h.bounded i (hs.subset hi)).2 hle⟩⟩⟩ (fun {s u st decls f} next h hf => ?_) hm
  cases hf
  refine ⟨Nat.le_succ_of_le h.1, ?_⟩
  have hall := h.2.append (Numbered.single u.nodes).apart h.1 (Nat.le_succ _)
  refine hall.perm (perm_iff_count.mpr fun i => ?_)
  simp [Item.ids, Part.ids, File.ids, File.declIds, nodeIds, flatMap_map, count_cons]

/-- Files that took their identities between two values of the counter of nodes. -/
structure FilesOwn (before after : Identities) (files : List File) : Prop where
  le : before.nodes ≤ after.nodes
  apart : Apart before.nodes after.nodes (files.flatMap (File.ids .node))
  above : ∀ f ∈ files, ∀ i ∈ f.declIds .node, i < f.info.id

theorem parseTokens_own (file : FileId) (tokens : List Token) (ids : Identities) :
    FilesOwn ids (parseTokens file tokens ids).2.2 (parseTokens file tokens ids).1 := by
  let start : Parser.State := .start file tokens ids.nodes ids.types
  obtain ⟨fs, u, hrun, -, steps, -⟩ := Parser.Steps.files start
  have hparse : parseTokens file tokens ids = (fs, u.problems, ⟨u.nodes, u.types⟩) := by
    rw [parseTokens, hrun]
    rfl
  have taken := steps.apart nofun
  rw [hparse]
  have htaken := taken.2
  rw [flatMap_map] at htaken
  refine ⟨taken.1, htaken, fun f hf i hi => ?_⟩
  obtain ⟨st, next, v, earlier, hclosed⟩ := steps.closed nofun (mem_map_of_mem hf)
  have hid : f.info.id = v.nodes := by
    rw [← Option.some.inj hclosed]
  rw [hid]
  refine ((earlier.ascending nofun .node).2.bounded i ?_).2
  simp only [flatMap_append, flatMap_map, mem_append]
  exact .inl (.inr hi)

theorem parseText_own (file : FileId) (text : String) (ids : Identities) :
    FilesOwn ids (parseText file text ids).2.2 (parseText file text ids).1 := by
  unfold parseText
  generalize Lexer.scan file text = tokens
  exact parseTokens_own file (Token.kept tokens) ids

theorem parseTexts_own (texts : List (FileId × String)) (ids : Identities) :
    FilesOwn ids (parseTexts texts ids).2.2 (parseTexts texts ids).1 := by
  induction texts generalizing ids with
  | nil => exact ⟨Nat.le_refl _, ⟨.nil, nofun⟩, nofun⟩
  | cons text more ih =>
    have first := parseText_own text.1 text.2 ids
    have rest := ih (parseText text.1 text.2 ids).2.2
    rw [parseTexts]
    generalize parseText text.1 text.2 ids = r at first rest ⊢
    refine ⟨Nat.le_trans first.le rest.le, ?_, ?_⟩
    · rw [flatMap_append]
      exact first.apart.append rest.apart first.le rest.le
    · intro f hf
      rcases mem_append.mp hf with hf | hf
      · exact first.above f hf
      · exact rest.above f hf

/-- All nodes of a program, those of kept operands among them, each behind those inside it. -/
def Program.allNodes (p : Program) : List Node := (Node.program p).all

theorem Program.parts_eq (p : Program) : (Node.program p).parts = p.files.map .file :=
  append_nil _

theorem File.parts_eq (f : File) : (Node.file f).parts = f.decls.map .decl := append_nil _

theorem Program.mem_allNodes {p : Program} {n : Node} (h : n ∈ p.allNodes) :
    n = .program p ∨ ∃ f ∈ p.files, n = .file f ∨ ∃ d ∈ f.decls, n ∈ (Node.decl d).all := by
  rw [allNodes, Node.all_eq, parts_eq, mem_append, mem_singleton, flatMap_map,
    mem_flatMap] at h
  rcases h with ⟨f, hf, hn⟩ | h
  · rw [Node.all_eq, File.parts_eq, mem_append, mem_singleton, flatMap_map,
      mem_flatMap] at hn
    exact .inr ⟨f, hf, hn.symm⟩
  · exact .inl h

theorem parse_decl_ascends {texts : List (FileId × String)} {f : File} {d : Decl}
    (hf : f ∈ (parse texts).program.files) (hd : d ∈ f.decls) : (Node.decl d).Ascends := by
  have hall := (parse_numbered .node texts).ascending
  have hdecl : (d.ids .node).Sublist (f.declIds .node) := sublist_flatMap hd
  exact hall.sublist (hdecl.trans (sublist_flatMap hf))

theorem parse_id_lt {texts : List (FileId × String)} {n m : Node}
    (hn : n ∈ (parse texts).program.allNodes) (hm : m.Inside n) : m.id < n.id := by
  have hown := parseTexts_own texts {}
  rcases Program.mem_allNodes hn with rfl | ⟨f, hf, rfl | ⟨d, hd, hn⟩⟩
  · have hmem := Node.id_mem_of_inside hm
    rw [Program.parts_eq, flatMap_map] at hmem
    exact (hown.apart.bounded _ hmem).2
  · have hmem := Node.id_mem_of_inside hm
    rw [File.parts_eq, flatMap_map] at hmem
    exact hown.above f hf _ hmem
  · exact ((parse_decl_ascends hf hd).of_mem_all hn).id_lt hm

/-- Identities in what is read, whatever the texts are. Nodes differ in theirs, and so do types;
they are below the counters; a node has a larger one than all inside it; and behind each other the
nodes of a declaration ascend. -/
theorem parse_identities (texts : List (FileId × String)) :
    ((parse texts).program.allNodes.map (·.id)).Nodup ∧
    (∀ n ∈ (parse texts).program.allNodes, n.id < (parse texts).ids.nodes) ∧
    ((parse texts).program.allNodes.flatMap (·.typeIds)).Nodup ∧
    (∀ i ∈ (parse texts).program.allNodes.flatMap (·.typeIds), i < (parse texts).ids.types) ∧
    (∀ n ∈ (parse texts).program.allNodes, ∀ m : Node, m.Inside n → m.id < n.id) ∧
    (∀ f ∈ (parse texts).program.files, ∀ d ∈ f.decls,
      ((Node.decl d).all.map (·.id)).Pairwise (· < ·)) := by
  have hown := parseTexts_own texts {}
  have hnodes : Apart 0 (parse texts).ids.nodes ((Node.program (parse texts).program).ids .node) :=
    hown.apart.append (Numbered.single _).apart hown.le (Nat.le_succ _)
  have htypes : Apart 0 (parse texts).ids.types ((Node.program (parse texts).program).ids .type) := by
    simpa [Node.ids, Info.nodeIds, Identities.count] using (parse_numbered .type texts).apart
  rw [Node.ids_node_eq] at hnodes
  have htypes := htypes.perm (Node.ids_type_perm _)
  refine ⟨hnodes.nodup, ?_, htypes.nodup, ?_, ?_, ?_⟩
  · intro n hn
    exact (hnodes.bounded _ (mem_map_of_mem hn)).2
  · intro i hi
    exact (htypes.bounded i hi).2
  · intro n hn m hm
    exact parse_id_lt hn hm
  · intro f hf d hd
    rw [← Node.ids_node_eq]
    exact parse_decl_ascends hf hd

end Quill
