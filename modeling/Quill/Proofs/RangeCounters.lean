import Quill.Proofs.CompleteLowering

/-!
# Counters of ranges

The type recorded for a range that a loop runs over is an integer type, in whichever statement the
loop stands.
-/
namespace Quill

open Stmt

structure RangeLoop where
  info : Info
  binding : String
  range : Info
  low : Expr
  high : Expr
  inclusive : Bool
  body : Stmt

def RangeLoop.toStmt (l : RangeLoop) : Stmt :=
  .foreach l.info l.binding (.range l.range l.low l.high l.inclusive) l.body

mutual

/-- The loops over ranges in a statement, outer ones first. -/
def Stmt.rangeLoops : Stmt → List RangeLoop
  | .block _ body => allRangeLoops body
  | .cond _ _ onTrue onFalse => onTrue.rangeLoops ++ elseRangeLoops onFalse
  | .loop _ _ body | .defer _ body => body.rangeLoops
  | .foreach info binding (.range range low high inclusive) body =>
    ⟨info, binding, range, low, high, inclusive, body⟩ :: body.rangeLoops
  | .foreach _ _ _ body => body.rangeLoops
  | .ret _ _ | .var _ _ | .crash _ _ | .expr _ _ | .assign _ _ _ _ | .switch _ _ => []

def Stmt.allRangeLoops : List Stmt → List RangeLoop
  | [] => []
  | s :: ss => s.rangeLoops ++ allRangeLoops ss

def Stmt.elseRangeLoops : Option Stmt → List RangeLoop
  | none => []
  | some s => s.rangeLoops

end

def Decl.rangeLoops : Decl → List RangeLoop
  | .function _ _ body => allRangeLoops body.body
  | _ => []

variable {f : Facts} {l : RangeLoop}

theorem Stmt.rangeLoops_foreach (info : Info) (binding : String) (iterable : Expr) (body : Stmt) :
    (foreach info binding iterable body).rangeLoops = body.rangeLoops ∨
      ∃ range low high inclusive, iterable = .range range low high inclusive ∧
        (foreach info binding iterable body).rangeLoops =
          ⟨info, binding, range, low, high, inclusive, body⟩ :: body.rangeLoops := by
  cases iterable with
  | range range low high inclusive => exact .inr ⟨range, low, high, inclusive, rfl, rfl⟩
  | _ => exact .inl rfl

mutual

theorem Stmt.Complete.range_hasInteger {s : Stmt} (hc : s.Complete f) (h : l ∈ s.rangeLoops) :
    f.HasInteger l.range.id := by
  cases s with
  | block info body => exact Stmt.AllComplete.range_hasInteger hc h
  | cond info test onTrue onFalse =>
    rcases List.mem_append.mp h with h | h
    · exact hc.2.1.range_hasInteger h
    · exact Stmt.ElseComplete.range_hasInteger hc.2.2 h
  | loop info test body => exact hc.2.range_hasInteger h
  | defer info body => exact Stmt.Complete.range_hasInteger (s := body) hc h
  | foreach info binding iterable body =>
    rcases rangeLoops_foreach info binding iterable body with heq | ⟨_, _, _, _, rfl, heq⟩
    · exact hc.2.2.range_hasInteger (heq ▸ h)
    · rcases List.mem_cons.mp (heq ▸ h) with rfl | h
      · exact hc.2.1.1
      · exact hc.2.2.range_hasInteger h
  | ret | var | crash | expr | assign | switch => exact absurd h List.not_mem_nil

theorem Stmt.AllComplete.range_hasInteger {ss : List Stmt} (hc : AllComplete f ss)
    (h : l ∈ allRangeLoops ss) : f.HasInteger l.range.id := by
  cases ss with
  | nil => exact absurd h List.not_mem_nil
  | cons s ss =>
    rcases List.mem_append.mp h with h | h
    · exact hc.1.range_hasInteger h
    · exact Stmt.AllComplete.range_hasInteger hc.2 h

theorem Stmt.ElseComplete.range_hasInteger {s : Option Stmt} (hc : ElseComplete f s)
    (h : l ∈ elseRangeLoops s) : f.HasInteger l.range.id := by
  cases s with
  | none => exact absurd h List.not_mem_nil
  | some s => exact Stmt.Complete.range_hasInteger (s := s) hc h

end

theorem Decl.Complete.range_hasInteger {d : Decl} (hc : d.Complete f) (h : l ∈ d.rangeLoops) :
    f.HasInteger l.range.id := by
  cases d with
  | function info sig body => exact Stmt.AllComplete.range_hasInteger hc.2 h
  | _ => exact absurd h List.not_mem_nil

theorem Accepted.range_integer {sources : Sources} {options : Options} {order : List PackageId}
    (h : Accepted sources options order) {id : PackageId} (hid : id ∈ order) {file : File}
    (source : (sources.table options).sourceOf? id = some file) {d : Decl} (hd : d ∈ file.decls)
    (hl : l ∈ d.rangeLoops) :
    ∃ k : Scalar, (sources.resolved options order).1.typeOf? l.range.id = some (.scalar k) ∧
      k.isInteger = true := by
  obtain ⟨t, ht, integer⟩ := (h.package_complete hid source d hd).range_hasInteger hl
  cases t with
  | scalar k => exact ⟨k, ht, integer⟩
  | _ => cases integer

end Quill
