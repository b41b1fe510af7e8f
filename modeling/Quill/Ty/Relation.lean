import Quill.Ty.Struct

/-!
# Relations between types

Three relations, each wider than the one before: equality, which looks past the mutability of
pointers and takes a struct with arguments for its declaration; implicit conversion; and what an
explicit cast accepts.
-/
namespace Quill.StructTable

mutual

/-- Equality of types, given when two struct numbers stand for the same struct. -/
def sameBy (same : StructId → StructId → Bool) : Ty → Ty → Bool
  | .void, .void => true
  | .scalar s, .scalar t => s == t
  | .pointer a, .pointer b | .pointer a, .mutPointer b
  | .mutPointer a, .pointer b | .mutPointer a, .mutPointer b => sameBy same a b
  | .array a m, .array b n => m == n && sameBy same a b
  | .function ps r, .function qs t => sameAllBy same ps qs && sameBy same r t
  | .instance i as _, .instance j bs _ => same i j && sameAllBy same as bs
  | .struct i, .struct j | .struct i, .instance j _ _ | .instance i _ _, .struct j => same i j
  | .generic x i o, .generic y j p => o == p && i == j && x == y
  | .abstract x p _, .abstract y q _ => x == y && p == q
  | .package i, .package j => i == j
  | _, _ => false

def sameAllBy (same : StructId → StructId → Bool) : List Ty → List Ty → Bool
  | [], [] => true
  | a :: as, b :: bs => sameBy same a b && sameAllBy same as bs
  | _, _ => false

end

def sameFields : List (String × Ty) → List (String × Ty) → Bool
  | [], [] => true
  | (x, a) :: as, (y, b) :: bs => x == y && sameBy (· == ·) a b && sameFields as bs
  | _, _ => false

/-- Two declarations are the same struct if they are one, or if name, parameters and fields agree.
Fields are compared with structs inside them told apart by number. -/
def sameStruct (t : StructTable) (a b : StructId) : Bool :=
  a == b ||
    ((t.get a).name == (t.get b).name && (t.get a).generics == (t.get b).generics &&
      sameFields (t.get a).fields (t.get b).fields)

def same (t : StructTable) (a b : Ty) : Bool := sameBy t.sameStruct a b

/-- Every argument agrees or still holds a generic parameter. -/
def argumentsConvert (t : StructTable) : List Ty → List Ty → Bool
  | [], [] => true
  | a :: as, b :: bs =>
    (a.hasGenerics || b.hasGenerics || t.same a b) && t.argumentsConvert as bs
  | _, _ => false

/-- Whether a value of the first type may stand where the second is expected. -/
def converts (t : StructTable) (src dst : Ty) : Bool :=
  t.same src dst ||
    match src, dst with
    | .generic _ _ _, _ | _, .generic _ _ _ => true
    | .scalar s, .scalar d => s.widensTo d
    | .pointer s, .pointer d | .mutPointer s, .mutPointer d | .mutPointer s, .pointer d =>
      t.converts s d
    | .array s _, .pointer d | .array s _, .mutPointer d => t.same s d
    | .array s m, .array d n => (n.isNone || m == n) && t.same s d
    | .instance i as _, .instance j bs _ => t.sameStruct i j && t.argumentsConvert as bs
    | .instance i _ _, .struct j => t.sameStruct i j
    | .struct i, .instance j bs _ => t.sameStruct i j && bs.length == (t.get j).generics.length
    | _, _ => false

def casts (t : StructTable) (src dst : Ty) : Bool :=
  t.converts src dst ||
    match src, dst with
    | .pointer _, .pointer _ | .pointer _, .mutPointer _
    | .mutPointer _, .pointer _ | .mutPointer _, .mutPointer _ => true
    | .scalar _, .scalar _ => true
    | .pointer _, .scalar s | .mutPointer _, .scalar s
    | .scalar s, .pointer _ | .scalar s, .mutPointer _ => s.isInteger
    | .array _ _, .pointer _ | .array _ _, .mutPointer _ => true
    | .struct _, .struct _ | .struct _, .instance _ _ _
    | .instance _ _ _, .struct _ | .instance _ _ _, .instance _ _ _ => true
    | _, _ => false

end Quill.StructTable
