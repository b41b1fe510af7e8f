import Quill.Tree.Operator

/-!
# C trees

The part of C that programs are written in. Operators are those of the language itself.
-/
namespace Quill

/-- A C type as a declaration has it: a named type, behind pointers, in arrays. The outermost
length comes first. -/
structure CType where
  name : String
  stars : Nat := 0
  dims : List (Option Nat) := []
  deriving DecidableEq, Repr

namespace CType

def isArray (t : CType) : Bool := !t.dims.isEmpty

/-- What stands before a declared name. -/
def base (t : CType) : String := t.name ++ "".pushn '*' t.stars

def dimension : Option Nat → String
  | some n => "[" ++ toString n ++ "]"
  | none => "[]"

/-- What stands behind a declared name. -/
def suffix (t : CType) : String := String.join (t.dims.map dimension)

def declare (t : CType) (name : String) : String := t.base ++ " " ++ name ++ t.suffix

/-- The type where nothing is declared. -/
def spelling (t : CType) : String := t.base ++ t.suffix

end CType

inductive CExpr where
  | var (name : String)
  | literal (text : String)
  | binary (op : BinaryOp) (left right : CExpr)
  | unary (op : UnaryOp) (operand : CExpr)
  | step (op : StepOp) (operand : CExpr)
  | call (callee : CExpr) (arguments : List CExpr)
  | field (target : CExpr) (name : String) (arrow : Bool)
  | index (target index : CExpr)
  | sizeofType (type : CType)
  | sizeofExpr (operand : CExpr)
  | cast (type : CType) (operand : CExpr)
  /-- A struct value, with its fields by name. -/
  | compound (type : CType) (fields : List (String × CExpr))
  /-- Elements of an array with their indices; only for initial values. -/
  | elements (items : List (Option CExpr × CExpr))
  deriving Repr

def CExpr.callTo (name : String) (arguments : List CExpr) : CExpr := .call (.var name) arguments

structure CVar where
  type : CType
  name : String
  init : Option CExpr
  isStatic : Bool := false
  deriving Repr

inductive CStmt where
  | block (body : List CStmt)
  | var (decl : CVar)
  | expr (value : CExpr)
  | assign (op : AssignOp) (target value : CExpr)
  | cond (test : CExpr) (onTrue : List CStmt) (onFalse : Option (List CStmt))
  | loop (test : CExpr) (body : List CStmt)
  | count (init : CVar) (test advance : CExpr) (body : List CStmt)
  | ret (value : Option CExpr)
  deriving Repr

def CStmt.isReturn : CStmt → Bool
  | ret _ => true
  | _ => false

structure CParam where
  type : CType
  name : String
  restrict : Bool
  deriving Repr

structure CPrototype where
  result : CType
  name : String
  params : List CParam
  deriving Repr

inductive CItem where
  | inclusion (path : String) (system : Bool)
  | define (name : String)
  | ifNotDefined (name : String)
  | endIf
  | forward (name : String)
  | struct (name : String) (fields : List (CType × String))
  | varDecl (decl : CVar)
  | varDef (decl : CVar)
  | prototype (head : CPrototype)
  | function (head : CPrototype) (body : List CStmt)
  deriving Repr

end Quill
