/-!
# Places in a source text

Offsets count bytes of the UTF-8 text and lines count from one. A span names the file it belongs
to by the position of that file among the sources of a compilation.
-/
namespace Quill

abbrev FileId := Nat

structure Span where
  file : FileId := 0
  start : Nat := 0
  stop : Nat := 0
  line : Nat := 0
  deriving DecidableEq, Repr, Inhabited

namespace Span

/-- The smallest span covering both; its line is that of the one that starts first. -/
def join (a b : Span) : Span where
  file := a.file
  start := min a.start b.start
  stop := max a.stop b.stop
  line := if a.start ≤ b.start then a.line else b.line

def length (s : Span) : Nat := s.stop - s.start

def isEmpty (s : Span) : Bool := s.start == s.stop

def render (s : Span) : String :=
  toString s.start ++ ".." ++ toString s.stop ++ " (line " ++ toString s.line ++ ")"

/-- The span lies within `outer`. -/
def Within (s outer : Span) : Prop := outer.start ≤ s.start ∧ s.stop ≤ outer.stop

instance (s outer : Span) : Decidable (s.Within outer) :=
  inferInstanceAs (Decidable (_ ∧ _))

theorem within_join_left (a b : Span) : a.Within (a.join b) :=
  ⟨Nat.min_le_left _ _, Nat.le_max_left _ _⟩

theorem within_join_right (a b : Span) : b.Within (a.join b) :=
  ⟨Nat.min_le_right _ _, Nat.le_max_right _ _⟩

end Span
end Quill
