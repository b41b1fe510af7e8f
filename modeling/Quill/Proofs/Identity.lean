import Mathlib.Data.List.Pairwise
import Quill.Parser.Decl

/-!
# Identities

A parser takes identities one after the other, so those of a tree, read off with every part behind
its own parts, are in ascending order.
-/
namespace Quill

open Expr TypeExpr

inductive Counter where
  | node
  | type
  deriving DecidableEq, Repr

def Info.nodeIds (info : Info) : Counter → List Nat
  | .node => [info.id]
  | .type => []

def Info.typeIds (info : Info) : Counter → List Nat
  | .node => []
  | .type => [info.id]

mutual

/-- Identities in a type, every type behind those nested in it. -/
def TypeExpr.ids (c : Counter) : TypeExpr → List Nat
  | .void info | .scalar info _ => info.typeIds c
  | .named info _ arguments => allIds c arguments ++ info.typeIds c
  | .pointer info t | .mutPointer info t | .array info t _ | .slice info t | .optional info t =>
    t.ids c ++ info.typeIds c
  | .result info t failure => t.ids c ++ failure.ids c ++ info.typeIds c
  | .tuple info items => allIds c items ++ info.typeIds c

def TypeExpr.allIds (c : Counter) : List TypeExpr → List Nat
  | [] => []
  | t :: ts => t.ids c ++ allIds c ts

end

mutual

/-- Identities in an expression, the kept operands of `sizeof` among them, every node behind its
parts. -/
def Expr.ids (c : Counter) : Expr → List Nat
  | .literal info _ | .ref info _ => info.nodeIds c
  | .binary info _ l r | .index info l r | .range info l r _ => l.ids c ++ r.ids c ++ info.nodeIds c
  | .unary info _ e | .step info _ e | .field info e _ _ | .sizeofExpr info e =>
    e.ids c ++ info.nodeIds c
  | .call info callee arguments => callee.ids c ++ allIds c arguments ++ info.nodeIds c
  | .tuple info items => allIds c items ++ info.nodeIds c
  | .structInit info fields => fieldIds c fields ++ info.nodeIds c
  | .arrayInit info length elements =>
    optionIds c length ++ elementIds c elements ++ info.nodeIds c
  | .template info parts => partIds c parts ++ info.nodeIds c
  | .sizeofType info type operand => type.ids c ++ optionIds c operand ++ info.nodeIds c
  | .cast info type e => type.ids c ++ e.ids c ++ info.nodeIds c

def Expr.allIds (c : Counter) : List Expr → List Nat
  | [] => []
  | e :: es => e.ids c ++ allIds c es

def Expr.optionIds (c : Counter) : Option Expr → List Nat
  | none => []
  | some e => e.ids c

def Expr.fieldIds (c : Counter) : List (FieldInit Expr) → List Nat
  | [] => []
  | ⟨_, _, e⟩ :: fs => e.ids c ++ fieldIds c fs

def Expr.elementIds (c : Counter) : List (ArrayElement Expr) → List Nat
  | [] => []
  | ⟨none, e⟩ :: es => e.ids c ++ elementIds c es
  | ⟨some i, e⟩ :: es => i.ids c ++ e.ids c ++ elementIds c es

def Expr.partIds (c : Counter) : List (TemplatePart Expr) → List Nat
  | [] => []
  | .text _ :: ps => partIds c ps
  | .expr e :: ps => e.ids c ++ partIds c ps

end

def TypeExpr.optionIds (c : Counter) (t : Option TypeExpr) : List Nat := (t.map (·.ids c)).getD []

def VarDecl.ids (c : Counter) (decl : VarDecl) : List Nat :=
  optionIds c decl.type ++ optionIds c decl.init

mutual

def Stmt.ids (c : Counter) : Stmt → List Nat
  | .block info body => Stmt.allIds c body ++ info.nodeIds c
  | .var info decl => decl.ids c ++ info.nodeIds c
  | .cond info test onTrue onFalse =>
    test.ids c ++ onTrue.ids c ++ Stmt.optionIds c onFalse ++ info.nodeIds c
  | .loop info test body => test.ids c ++ body.ids c ++ info.nodeIds c
  | .foreach info _ iterable body => iterable.ids c ++ body.ids c ++ info.nodeIds c
  | .ret info e | .crash info e => Expr.optionIds c e ++ info.nodeIds c
  | .defer info body => body.ids c ++ info.nodeIds c
  | .expr info e | .switch info e => e.ids c ++ info.nodeIds c
  | .assign info _ target value => target.ids c ++ value.ids c ++ info.nodeIds c

def Stmt.allIds (c : Counter) : List Stmt → List Nat
  | [] => []
  | s :: ss => s.ids c ++ Stmt.allIds c ss

def Stmt.optionIds (c : Counter) : Option Stmt → List Nat
  | none => []
  | some s => s.ids c

end

def Block.ids (c : Counter) (b : Block) : List Nat := Stmt.allIds c b.body ++ b.info.nodeIds c

def Signature.ids (c : Counter) (sig : Signature) : List Nat :=
  sig.result.ids c ++ TypeExpr.allIds c (sig.params.map (·.type))

def Decl.ids (c : Counter) : Decl → List Nat
  | .separator info | .package info _ | .imports info _ => info.nodeIds c
  | .typedef info _ type => optionIds c type ++ info.nodeIds c
  | .struct info decl => TypeExpr.allIds c (decl.fields.map (·.type)) ++ info.nodeIds c
  | .header info sig => sig.ids c ++ info.nodeIds c
  | .function info sig body => sig.ids c ++ body.ids c ++ info.nodeIds c
  | .var info decl => decl.ids c ++ info.nodeIds c

/-- The list ascends and lies between two values of a counter. -/
structure Numbered (lo hi : Nat) (ids : List Nat) : Prop where
  ascending : ids.Pairwise (· < ·)
  bounded : ∀ i ∈ ids, lo ≤ i ∧ i < hi

namespace Numbered

variable {lo mid hi : Nat} {as bs : List Nat}

theorem nil : Numbered lo hi [] := ⟨.nil, nofun⟩

theorem single (n : Nat) : Numbered n (n + 1) [n] := by
  refine ⟨List.pairwise_singleton _ n, ?_⟩
  intro i hi
  rw [List.mem_singleton] at hi
  omega

theorem mono (h : Numbered lo hi as) {lo' hi' : Nat} (hlo : lo' ≤ lo) (hhi : hi ≤ hi') :
    Numbered lo' hi' as :=
  ⟨h.ascending, fun i hi =>
    ⟨Nat.le_trans hlo (h.bounded i hi).1, Nat.lt_of_lt_of_le (h.bounded i hi).2 hhi⟩⟩

theorem append (ha : Numbered lo mid as) (hb : Numbered mid hi bs) (hlo : lo ≤ mid)
    (hhi : mid ≤ hi) : Numbered lo hi (as ++ bs) := by
  refine ⟨List.pairwise_append.mpr ⟨ha.ascending, hb.ascending, ?_⟩, ?_⟩
  · intro a ha' b hb'
    exact Nat.lt_of_lt_of_le (ha.bounded a ha').2 (hb.bounded b hb').1
  · intro i hi
    rcases List.mem_append.mp hi with h | h
    · exact (ha.mono (Nat.le_refl _) hhi).bounded i h
    · exact (hb.mono hlo (Nat.le_refl _)).bounded i h

theorem sublist (h : Numbered lo hi bs) (hs : as.Sublist bs) : Numbered lo hi as :=
  ⟨h.ascending.sublist hs, fun i hi => h.bounded i (hs.subset hi)⟩

theorem nodup (h : Numbered lo hi as) : as.Nodup := h.ascending.imp Nat.ne_of_lt

end Numbered

namespace Parser

def State.count (s : State) : Counter → Nat
  | .node => s.nodes
  | .type => s.types

theorem State.count_advance (s : State) (c : Counter) : s.advance.count c = s.count c := by
  unfold State.advance
  split
  · split <;> cases c <;> rfl
  · rfl

theorem State.count_advanceBy (s : State) (c : Counter) (n : Nat) :
    (s.advanceBy n).count c = s.count c := by
  induction n generalizing s with
  | zero => rfl
  | succ n ih => rw [State.advanceBy, ih, s.count_advance]

theorem State.count_report (s : State) (c : Counter) (problem : ParseProblem) (span : Span) :
    (s.report problem span).count c = s.count c := by
  unfold State.report
  split
  · rfl
  · cases c <;> rfl

end Parser
end Quill
