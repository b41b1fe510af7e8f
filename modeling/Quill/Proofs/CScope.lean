import Mathlib.Data.List.Basic
import Quill.C.Basic

/-!
# Names in C

What a name means in C follows from where scopes open and close and where names are declared and
used. Declarations carry labels, so it can be told which one a use finds.
-/
namespace Quill

open CExpr CStmt

inductive Mark (α : Type) where
  | opens
  | closes
  | declares (name : String) (label : α)
  | uses (name : String) (label : α)
  deriving DecidableEq, Repr

/-- A mark as the C text has it, without a label. -/
def Mark.bare {α : Type} : Mark α → Mark Unit
  | opens => opens
  | closes => closes
  | declares name _ => declares name ()
  | uses name _ => uses name ()

def Mark.inScope {α : Type} (ms : List (Mark α)) : List (Mark α) := opens :: ms ++ [closes]

mutual

def CExpr.marks : CExpr → List (Mark Unit)
  | var name => [.uses name ()]
  | literal _ | sizeofType _ => []
  | binary _ l r | index l r => l.marks ++ r.marks
  | unary _ e | step _ e | field e _ _ | sizeofExpr e | cast _ e => e.marks
  | call callee arguments => callee.marks ++ allMarks arguments
  | compound _ fields => fieldMarks fields
  | elements items => itemMarks items

def CExpr.allMarks : List CExpr → List (Mark Unit)
  | [] => []
  | e :: es => e.marks ++ allMarks es

def CExpr.fieldMarks : List (String × CExpr) → List (Mark Unit)
  | [] => []
  | (_, e) :: fs => e.marks ++ fieldMarks fs

def CExpr.itemMarks : List (Option CExpr × CExpr) → List (Mark Unit)
  | [] => []
  | (none, e) :: es => e.marks ++ itemMarks es
  | (some i, e) :: es => i.marks ++ e.marks ++ itemMarks es

end

def CExpr.marks? : Option CExpr → List (Mark Unit)
  | none => []
  | some e => e.marks

def CVar.marks (v : CVar) : List (Mark Unit) := .declares v.name () :: marks? v.init

mutual

/-- Branches and loops have their statements in a scope, and a counting loop has its counter in one
around it. -/
def CStmt.marks : CStmt → List (Mark Unit)
  | block body => Mark.inScope (allMarks body)
  | var decl => decl.marks
  | expr e => e.marks
  | assign _ target value => target.marks ++ value.marks
  | cond test onTrue onFalse =>
    test.marks ++ Mark.inScope (allMarks onTrue) ++ elseMarks onFalse
  | loop test body => test.marks ++ Mark.inScope (allMarks body)
  | count init test advance body =>
    Mark.inScope (init.marks ++ test.marks ++ advance.marks ++ Mark.inScope (allMarks body))
  | ret value => marks? value

def CStmt.allMarks : List CStmt → List (Mark Unit)
  | [] => []
  | s :: ss => s.marks ++ allMarks ss

def CStmt.elseMarks : Option (List CStmt) → List (Mark Unit)
  | none => []
  | some body => Mark.inScope (allMarks body)

end

def CItem.marks : CItem → List (Mark Unit)
  | function head body =>
    Mark.inScope (head.params.map (.declares ·.name ()) ++ allMarks body)
  | _ => []

/-- The scopes that are open, innermost first, and what they declare. -/
abbrev CScopes (α : Type) := List (List (String × α))

namespace CScopes

variable {α : Type}

/-- What a name means; nothing if its scope declares it twice. -/
def find? : CScopes α → String → Option α
  | [], _ => none
  | scope :: outer, name =>
    match scope.filter (·.1 == name) with
    | [] => find? outer name
    | [d] => some d.2
    | _ => none

def declare (name : String) (label : α) : CScopes α → CScopes α
  | [] => []
  | scope :: outer => ((name, label) :: scope) :: outer

theorem find?_declare_self {scope : List (String × α)} {name : String}
    (h : ∀ d ∈ scope, d.1 ≠ name) (label : α) (outer : CScopes α) :
    find? (declare name label (scope :: outer)) name = some label := by
  have hnone : scope.filter (·.1 == name) = [] := by
    rw [List.filter_eq_nil_iff]
    exact fun d hd heq => h d hd (beq_iff_eq.mp heq)
  simp [declare, find?, hnone]

theorem find?_declare_of_ne {name other : String} (h : name ≠ other) (label : α)
    (scopes : CScopes α) : find? (declare name label scopes) other = find? scopes other := by
  cases scopes with
  | nil => rfl
  | cons scope outer =>
    have hfilter : ((name, label) :: scope).filter (·.1 == other) =
        scope.filter (·.1 == other) := by
      rw [List.filter_cons_of_neg]
      simpa using h
    rw [declare, find?, find?, hfilter]

end CScopes

namespace Mark

section

variable {α : Type}

def step (scopes : CScopes α) : Mark α → CScopes α
  | opens => [] :: scopes
  | closes => scopes.tail
  | declares name label => scopes.declare name label
  | uses _ _ => scopes

def behind (scopes : CScopes α) (ms : List (Mark α)) : CScopes α := ms.foldl step scopes

theorem behind_append (scopes : CScopes α) (ms ns : List (Mark α)) :
    behind scopes (ms ++ ns) = behind (behind scopes ms) ns := List.foldl_append

theorem behind_inScope (scopes : CScopes α) (ms : List (Mark α)) :
    behind scopes (inScope ms) = (behind ([] :: scopes) ms).tail := by
  rw [inScope, behind_append]
  rfl

end

variable {ο : Type}

/-- A use with a label finds a declaration with this label. -/
def Right (scopes : CScopes (Option ο)) : Mark (Option ο) → Prop
  | uses name (some label) => scopes.find? name = some (some label)
  | _ => True

/-- All uses with a label find declarations with their labels. -/
def Faithful (scopes : CScopes (Option ο)) : List (Mark (Option ο)) → Prop
  | [] => True
  | m :: ms => m.Right scopes ∧ Faithful (m.step scopes) ms

instance [DecidableEq ο] (scopes : CScopes (Option ο)) (m : Mark (Option ο)) :
    Decidable (m.Right scopes) :=
  match m with
  | uses name (some label) => inferInstanceAs (Decidable (scopes.find? name = some (some label)))
  | uses _ none | opens | closes | declares _ _ => .isTrue trivial

instance decidableFaithful [DecidableEq ο] : (scopes : CScopes (Option ο)) →
    (ms : List (Mark (Option ο))) → Decidable (Faithful scopes ms)
  | _, [] => .isTrue trivial
  | scopes, m :: ms =>
    have := decidableFaithful (m.step scopes) ms
    inferInstanceAs (Decidable (m.Right scopes ∧ Faithful (m.step scopes) ms))

theorem faithful_append {scopes : CScopes (Option ο)} {ms ns : List (Mark (Option ο))} :
    Faithful scopes (ms ++ ns) ↔ Faithful scopes ms ∧ Faithful (behind scopes ms) ns := by
  induction ms generalizing scopes with
  | nil => exact ⟨fun h => ⟨trivial, h⟩, fun h => h.2⟩
  | cons m ms ih =>
    rw [List.cons_append, Faithful, Faithful, ih, and_assoc]
    rfl

theorem faithful_inScope {scopes : CScopes (Option ο)} {ms : List (Mark (Option ο))} :
    Faithful scopes (inScope ms) ↔ Faithful ([] :: scopes) ms := by
  rw [inScope, faithful_append]
  exact ⟨fun h => h.1.2, fun h => ⟨⟨trivial, h⟩, trivial, trivial⟩⟩

/-- The mark uses a name, and one with a label finds it. -/
def Finds (scopes : CScopes (Option ο)) (m : Mark (Option ο)) : Prop :=
  (∃ name label, m = uses name label) ∧ m.Right scopes

theorem finds_plain (scopes : CScopes (Option ο)) (name : String) :
    Finds scopes (uses name none) := ⟨⟨name, none, rfl⟩, trivial⟩

/-- The marks are faithful in these scopes and lead to those. -/
structure Fits (scopes : CScopes (Option ο)) (ms : List (Mark (Option ο)))
    (after : CScopes (Option ο)) : Prop where
  faithful : Faithful scopes ms
  leads : behind scopes ms = after

namespace Fits

variable {scopes mid after : CScopes (Option ο)} {ms ns : List (Mark (Option ο))}

theorem nil : Fits scopes [] scopes := ⟨trivial, rfl⟩

theorem append (h : Fits scopes ms mid) (h' : Fits mid ns after) : Fits scopes (ms ++ ns) after :=
  ⟨faithful_append.mpr ⟨h.faithful, h.leads ▸ h'.faithful⟩,
    by rw [behind_append, h.leads, h'.leads]⟩

theorem declares (name : String) (label : Option ο)
    (h : Fits (scopes.declare name label) ms after) :
    Fits scopes (.declares name label :: ms) after :=
  ⟨⟨trivial, h.faithful⟩, h.leads⟩

theorem inScope {inner : List (String × Option ο)} (h : Fits ([] :: scopes) ms (inner :: scopes)) :
    Fits scopes (inScope ms) scopes :=
  ⟨faithful_inScope.mpr h.faithful, by rw [behind_inScope, h.leads]; rfl⟩

theorem uses (h : ∀ m ∈ ms, m.Finds scopes) : Fits scopes ms scopes := by
  induction ms with
  | nil => exact nil
  | cons m ms ih =>
    obtain ⟨⟨name, label, rfl⟩, right⟩ := h m List.mem_cons_self
    have rest := ih fun m' hm' => h m' (List.mem_cons_of_mem _ hm')
    exact ⟨⟨right, rest.faithful⟩, rest.leads⟩

theorem plain (scopes : CScopes (Option ο)) (name : String) :
    Fits scopes [.uses name none] scopes :=
  .uses (List.forall_mem_singleton.mpr (finds_plain scopes name))

end Fits

end Mark
end Quill
