/-!
# Tables by identity

A table keeps at most one value for every identity.
-/
namespace Quill

structure Table (α : Type) where
  slots : Array (Option α) := #[]
  deriving Repr

namespace Table

variable {α : Type}

def ofSize (n : Nat) : Table α := ⟨Array.replicate n none⟩

def get? (t : Table α) (id : Nat) : Option α := t.slots[id]?.getD none

/-- Keeps a value in place of any earlier one of the same identity. -/
def insert (t : Table α) (id : Nat) (value : α) : Table α :=
  if id < t.slots.size then ⟨t.slots.set! id (some value)⟩
  else ⟨(t.slots ++ Array.replicate (id - t.slots.size) none).push (some value)⟩

def count (t : Table α) : Nat := t.slots.countP (·.isSome)

def isEmpty (t : Table α) : Bool := t.count == 0

end Table
end Quill
