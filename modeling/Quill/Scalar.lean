/-!
# Built-in scalar types

Every scalar has a name in the language, a name in C, a nominal width and a family; the numeric
widening order is stated on the last two.
-/
namespace Quill

inductive Family where
  | bool | char | signed | unsigned | float | pointer
  deriving DecidableEq, Repr

/-- Sized and best-width numbers: `int`, `uint` and `float` take the width that suits the target,
and `iptr` and `uptr` hold an address. -/
inductive Scalar where
  | bool | char
  | i8 | i16 | i32 | i64
  | u8 | u16 | u32 | u64
  | f32 | f64
  | int | uint | float
  | iptr | uptr
  deriving DecidableEq, Repr

namespace Scalar

def all : List Scalar :=
  [bool, char, i8, i16, i32, i64, u8, u16, u32, u64, f32, f64, int, uint, float, iptr, uptr]

def name : Scalar → String
  | bool => "bool" | char => "char"
  | i8 => "i8" | i16 => "i16" | i32 => "i32" | i64 => "i64"
  | u8 => "u8" | u16 => "u16" | u32 => "u32" | u64 => "u64"
  | f32 => "f32" | f64 => "f64"
  | int => "int" | uint => "uint" | float => "float"
  | iptr => "iptr" | uptr => "uptr"

def ofName? (text : String) : Option Scalar := all.find? (·.name == text)

def cName : Scalar → String
  | bool => "bool" | char => "char"
  | i8 => "int8_t" | i16 => "int16_t" | i32 => "int32_t" | i64 => "int64_t"
  | u8 => "uint8_t" | u16 => "uint16_t" | u32 => "uint32_t" | u64 => "uint64_t"
  | f32 => "float" | f64 => "double"
  | int => "int" | uint => "unsigned int" | float => "double"
  | iptr => "intptr_t" | uptr => "uintptr_t"

def width : Scalar → Nat
  | bool => 1
  | char | i8 | u8 => 8
  | i16 | u16 => 16
  | i32 | u32 | f32 | int | uint => 32
  | i64 | u64 | f64 | float | iptr | uptr => 64

def family : Scalar → Family
  | bool => .bool
  | char => .char
  | i8 | i16 | i32 | i64 | int => .signed
  | u8 | u16 | u32 | u64 | uint => .unsigned
  | f32 | f64 | float => .float
  | iptr | uptr => .pointer

def bestWidth : Scalar → Bool
  | int | uint | float | iptr | uptr => true
  | _ => false

/-- How a value is read by `printf`. -/
inductive Conversion where
  | decimal | character | unsignedDecimal | longDecimal | unsignedLongDecimal | floating
  deriving DecidableEq, Repr

namespace Conversion

def directive : Conversion → String
  | decimal => "%d"
  | character => "%c"
  | unsignedDecimal => "%u"
  | longDecimal => "%lld"
  | unsignedLongDecimal => "%llu"
  | floating => "%f"

/-- The C type the conversion expects its argument to have. -/
def argument : Conversion → String
  | decimal | character => "int"
  | unsignedDecimal => "unsigned int"
  | longDecimal => "long long"
  | unsignedLongDecimal => "unsigned long long"
  | floating => "double"

end Conversion

def conversion : Scalar → Conversion
  | bool | i8 | i16 | i32 | int => .decimal
  | char => .character
  | i64 | iptr => .longDecimal
  | u8 | u16 | u32 | uint => .unsignedDecimal
  | u64 | uptr => .unsignedLongDecimal
  | f32 | f64 | float => .floating

def isFloat (s : Scalar) : Bool := s.family == .float

def isInteger (s : Scalar) : Bool :=
  match s.family with
  | .signed | .unsigned | .char | .pointer => true
  | .bool | .float => false

/-- The best-width type of the same family, where the family has one. -/
def best? (s : Scalar) : Option Scalar :=
  match s.family with
  | .signed => some int
  | .unsigned => some uint
  | .float => some float
  | .pointer => some s
  | .bool | .char => none

/-- Whether a value of the first type may stand where the second is expected. Best-width types
reach only `bool` and, for integers, the address types; the others widen. -/
def widensTo (src dst : Scalar) : Bool :=
  if src == dst then true
  else if src.bestWidth then dst == bool || (dst.family == .pointer && src.isInteger)
  else match src.family with
    | .float => dst.isFloat && src.width ≤ dst.width
    | .bool | .char | .signed | .unsigned => dst.family != .pointer && src.width ≤ dst.width
    | .pointer => false

theorem mem_all (s : Scalar) : s ∈ all := by cases s <;> decide

theorem widensTo_refl (s : Scalar) : s.widensTo s = true := by simp [widensTo]

end Scalar
end Quill
