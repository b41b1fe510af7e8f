import Quill.Scalar
import Quill.Package.Table

/-!
# Resolved types

A resolved type names structs by number and keeps the arguments of generic ones. Generic parameters
belong to the node that declares their struct.
-/
namespace Quill

abbrev StructId := Nat

inductive Ty where
  | void
  | scalar (s : Scalar)
  | pointer (target : Ty)
  | mutPointer (target : Ty)
  | array (element : Ty) (length : Option Nat)
  | function (params : List Ty) (result : Ty)
  /-- A struct as declared; the pattern of its instances if it has parameters. -/
  | struct (decl : StructId)
  /-- A generic struct with arguments, and the version it was given where it was written. -/
  | instance (decl : StructId) (arguments : List Ty) (version : Nat)
  | generic (name : String) (index : Nat) (owner : Nat)
  /-- A name for a type that is not known; `native` ones keep their name in C. -/
  | abstract (name : String) (package : PackageId) (native : Bool)
  | package (id : PackageId)
  deriving Repr

namespace Ty

mutual

def beq : Ty → Ty → Bool
  | void, void => true
  | scalar s, scalar t => s == t
  | pointer a, pointer b => a.beq b
  | mutPointer a, mutPointer b => a.beq b
  | array a m, array b n => m == n && a.beq b
  | function ps r, function qs t => beqAll ps qs && r.beq t
  | struct i, struct j => i == j
  | .instance i as v, .instance j bs w => i == j && v == w && beqAll as bs
  | generic x i o, generic y j p => o == p && i == j && x == y
  | abstract x p m, abstract y q n => p == q && m == n && x == y
  | package i, package j => i == j
  | _, _ => false

def beqAll : List Ty → List Ty → Bool
  | [], [] => true
  | a :: as, b :: bs => a.beq b && beqAll as bs
  | _, _ => false

end

mutual

theorem eq_of_beq {a b : Ty} (h : a.beq b = true) : a = b := by
  match a, b with
  | void, b => cases b <;> simp_all [beq]
  | scalar _, b => cases b <;> simp_all [beq]
  | pointer a, pointer b => rw [eq_of_beq (a := a) (b := b) (by simpa [beq] using h)]
  | mutPointer a, mutPointer b => rw [eq_of_beq (a := a) (b := b) (by simpa [beq] using h)]
  | array a m, array b n =>
    simp only [beq, Bool.and_eq_true, beq_iff_eq] at h
    rw [h.1, eq_of_beq h.2]
  | function ps r, function qs t =>
    simp only [beq, Bool.and_eq_true] at h
    rw [eq_of_beqAll h.1, eq_of_beq h.2]
  | struct _, b => cases b <;> simp_all [beq]
  | .instance i as v, .instance j bs w =>
    simp only [beq, Bool.and_eq_true, beq_iff_eq] at h
    rw [h.1.1, h.1.2, eq_of_beqAll h.2]
  | generic _ _ _, b => cases b <;> simp_all [beq]
  | abstract _ _ _, b => cases b <;> simp_all [beq]
  | package _, b => cases b <;> simp_all [beq]

theorem eq_of_beqAll {as bs : List Ty} (h : beqAll as bs = true) : as = bs := by
  match as, bs with
  | [], [] => rfl
  | a :: as, b :: bs =>
    simp only [beqAll, Bool.and_eq_true] at h
    rw [eq_of_beq h.1, eq_of_beqAll h.2]
  | [], _ :: _ => simp [beqAll] at h
  | _ :: _, [] => simp [beqAll] at h

end

mutual

theorem beq_self (a : Ty) : a.beq a = true := by
  match a with
  | void | scalar _ | struct _ | generic _ _ _ | abstract _ _ _ | package _ => simp [beq]
  | pointer a | mutPointer a | array a _ => simp [beq, beq_self a]
  | function ps r => simp [beq, beqAll_self ps, beq_self r]
  | .instance _ as _ => simp [beq, beqAll_self as]

theorem beqAll_self (as : List Ty) : beqAll as as = true := by
  match as with
  | [] => rfl
  | a :: as => simp [beqAll, beq_self a, beqAll_self as]

end

instance : DecidableEq Ty := fun a b =>
  decidable_of_iff (a.beq b = true) ⟨eq_of_beq, fun h => h ▸ beq_self a⟩

def isVoid : Ty → Bool
  | void => true
  | _ => false

def isBool : Ty → Bool
  | scalar .bool => true
  | _ => false

def isNumeric : Ty → Bool
  | scalar s => s != .bool
  | _ => false

def isInteger : Ty → Bool
  | scalar s => s.isInteger
  | _ => false

def isPointer : Ty → Bool
  | pointer _ | mutPointer _ => true
  | _ => false

def isStruct : Ty → Bool
  | struct _ | .instance _ _ _ => true
  | _ => false

/-- What a pointer points to, or an element of an array. -/
def element? : Ty → Option Ty
  | pointer t | mutPointer t | array t _ => some t
  | _ => none

def structId? : Ty → Option StructId
  | struct id | .instance id _ _ => some id
  | _ => none

mutual

/-- The number of types that a type is made of. -/
def weight : Ty → Nat
  | pointer t | mutPointer t | array t _ => t.weight + 1
  | function ps r => weightAll ps + r.weight + 1
  | .instance _ as _ => weightAll as + 1
  | _ => 1

def weightAll : List Ty → Nat
  | [] => 0
  | t :: ts => t.weight + weightAll ts

end

mutual

/-- Whether a generic parameter occurs. -/
def hasGenerics : Ty → Bool
  | generic _ _ _ => true
  | pointer t | mutPointer t | array t _ => t.hasGenerics
  | function ps r => anyGenerics ps || r.hasGenerics
  | .instance _ as _ => anyGenerics as
  | _ => false

def anyGenerics : List Ty → Bool
  | [] => false
  | t :: ts => t.hasGenerics || anyGenerics ts

end

mutual

/-- Puts arguments for the generic parameters of `owner`. -/
def substitute (owner : Nat) (arguments : List Ty) : Ty → Ty
  | t@(generic _ index o) => if o = owner then arguments[index]?.getD t else t
  | pointer t => pointer (t.substitute owner arguments)
  | mutPointer t => mutPointer (t.substitute owner arguments)
  | array t n => array (t.substitute owner arguments) n
  | function ps r => function (substituteAll owner arguments ps) (r.substitute owner arguments)
  | .instance decl as v => .instance decl (substituteAll owner arguments as) v
  | t => t

def substituteAll (owner : Nat) (arguments : List Ty) : List Ty → List Ty
  | [] => []
  | t :: ts => t.substitute owner arguments :: substituteAll owner arguments ts

end

def bool : Ty := scalar .bool

def text : Ty := pointer (scalar .char)

def size : Ty := scalar .uptr

end Ty
end Quill
