import Quill.Tree.Operator
import Quill.Tree.Type

/-!
# Trees

A program is a list of files, a file a list of declarations. Function bodies are statements, and
statements hold expressions. Every part has an identity by which later facts about it are kept.
-/
namespace Quill

/-- Literals keep their text; the quoted ones drop their quotes and keep escapes as written. -/
inductive Literal where
  | bool (value : Bool)
  | int (text : String)
  | float (text : String)
  | string (text : String)
  | char (text : String)
  | chars (text : String)
  deriving DecidableEq, Repr

structure FieldInit (α : Type) where
  name : String
  span : Span
  value : α
  deriving Repr

/-- An element of an array initializer, at an index of its own in a sparse one. -/
structure ArrayElement (α : Type) where
  index : Option α
  value : α
  deriving Repr

inductive TemplatePart (α : Type) where
  | text (t : String)
  | expr (e : α)
  deriving Repr

inductive Expr where
  | literal (info : Info) (value : Literal)
  | ref (info : Info) (path : List String)
  | binary (info : Info) (op : BinaryOp) (left right : Expr)
  | unary (info : Info) (op : UnaryOp) (operand : Expr)
  | step (info : Info) (op : StepOp) (operand : Expr)
  | call (info : Info) (callee : Expr) (arguments : List Expr)
  | field (info : Info) (target : Expr) (name : String) (arrow : Bool)
  | index (info : Info) (target index : Expr)
  | range (info : Info) (low high : Expr) (inclusive : Bool)
  | tuple (info : Info) (items : List Expr)
  | structInit (info : Info) (fields : List (FieldInit Expr))
  | arrayInit (info : Info) (length : Option Expr) (elements : List (ArrayElement Expr))
  | template (info : Info) (parts : List (TemplatePart Expr))
  /-- A type in `sizeof`; `operand` is the same text read as an expression, kept when the type
  could also be the name of a value. -/
  | sizeofType (info : Info) (type : TypeExpr) (operand : Option Expr)
  | sizeofExpr (info : Info) (operand : Expr)
  | cast (info : Info) (type : TypeExpr) (operand : Expr)
  deriving Repr

namespace Expr

def info : Expr → Info
  | literal i _ | ref i _ | binary i _ _ _ | unary i _ _ | step i _ _ | call i _ _ | field i _ _ _
  | index i _ _ | range i _ _ _ | tuple i _ | structInit i _ | arrayInit i _ _ | template i _
  | sizeofType i _ _ | sizeofExpr i _ | cast i _ _ => i

def id (e : Expr) : Nat := e.info.id

def span (e : Expr) : Span := e.info.span

def withDirectives (ds : List Directive) : Expr → Expr
  | literal i v => literal { i with directives := ds } v
  | ref i path => ref { i with directives := ds } path
  | binary i op l r => binary { i with directives := ds } op l r
  | unary i op e => unary { i with directives := ds } op e
  | step i op e => step { i with directives := ds } op e
  | call i f args => call { i with directives := ds } f args
  | field i e name arrow => field { i with directives := ds } e name arrow
  | index i e position => index { i with directives := ds } e position
  | range i l h inc => range { i with directives := ds } l h inc
  | tuple i es => tuple { i with directives := ds } es
  | structInit i fs => structInit { i with directives := ds } fs
  | arrayInit i n es => arrayInit { i with directives := ds } n es
  | template i ps => template { i with directives := ds } ps
  | sizeofType i t e => sizeofType { i with directives := ds } t e
  | sizeofExpr i e => sizeofExpr { i with directives := ds } e
  | cast i t e => cast { i with directives := ds } t e

def isIntLiteral : Expr → Bool
  | literal _ (.int _) => true
  | _ => false

def isFloatLiteral : Expr → Bool
  | literal _ (.float _) => true
  | _ => false

def kindName : Expr → String
  | literal _ (.string _) => "string literal"
  | literal _ (.chars _) => "chars literal"
  | literal _ _ => "literal"
  | ref _ _ => "variable reference"
  | binary _ _ _ _ => "binary operation"
  | unary _ _ _ => "unary operation"
  | step _ _ _ => "postfix operation"
  | call _ _ _ => "call"
  | field _ _ _ _ => "field access"
  | index _ _ _ => "index"
  | range _ _ _ _ => "range"
  | tuple _ _ => "tuple"
  | structInit _ _ => "struct initializer"
  | arrayInit _ _ _ => "array initializer"
  | template _ _ => "template string"
  | sizeofType _ _ _ | sizeofExpr _ _ => "sizeof"
  | cast _ _ _ => "cast"

end Expr

/-- A variable declaration; without a type it was written with `let`. -/
structure VarDecl where
  isStatic : Bool
  mutable : Bool
  type : Option TypeExpr
  name : String
  init : Option Expr
  deriving Repr

inductive Stmt where
  | block (info : Info) (body : List Stmt)
  | var (info : Info) (decl : VarDecl)
  | cond (info : Info) (test : Expr) (onTrue : Stmt) (onFalse : Option Stmt)
  | loop (info : Info) (test : Expr) (body : Stmt)
  | foreach (info : Info) (binding : String) (iterable : Expr) (body : Stmt)
  | ret (info : Info) (value : Option Expr)
  | defer (info : Info) (body : Stmt)
  | crash (info : Info) (message : Option Expr)
  | expr (info : Info) (value : Expr)
  | assign (info : Info) (op : AssignOp) (target value : Expr)
  /-- Only the value switched on is kept. -/
  | switch (info : Info) (scrutinee : Expr)
  deriving Repr

namespace Stmt

def info : Stmt → Info
  | block i _ | var i _ | cond i _ _ _ | loop i _ _ | foreach i _ _ _ | ret i _ | defer i _
  | crash i _ | expr i _ | assign i _ _ _ | switch i _ => i

def id (s : Stmt) : Nat := s.info.id

def span (s : Stmt) : Span := s.info.span

def withDirectives (ds : List Directive) : Stmt → Stmt
  | block i b => block { i with directives := ds } b
  | var i v => var { i with directives := ds } v
  | cond i e t f => cond { i with directives := ds } e t f
  | loop i e b => loop { i with directives := ds } e b
  | foreach i x e b => foreach { i with directives := ds } x e b
  | ret i v => ret { i with directives := ds } v
  | defer i b => defer { i with directives := ds } b
  | crash i m => crash { i with directives := ds } m
  | expr i e => expr { i with directives := ds } e
  | assign i op t v => assign { i with directives := ds } op t v
  | switch i e => switch { i with directives := ds } e

def kindName : Stmt → String
  | block _ _ => "block"
  | var _ _ => "variable declaration"
  | cond _ _ _ _ => "if"
  | loop _ _ _ => "while"
  | foreach _ _ _ _ => "foreach"
  | ret _ _ => "return"
  | defer _ _ => "defer"
  | crash _ _ => "crash"
  | expr _ _ => "expression statement"
  | assign _ _ _ _ => "assignment"
  | switch _ _ => "switch"

end Stmt

/-- A brace-delimited list of statements. -/
structure Block where
  info : Info
  body : List Stmt
  deriving Repr

def Block.toStmt (b : Block) : Stmt := .block b.info b.body

inductive ImportKind where
  /-- From any root, `import std/io;`. -/
  | plain
  /-- From the directory of the importing package, `import ./util;`. -/
  | sibling
  /-- From the project root, `import ~/app/util;`. -/
  | root
  deriving DecidableEq, Repr

/-- An import of a package, or, with `symbols` or `wildcard`, of names in it. -/
structure Import where
  kind : ImportKind
  segments : List String
  symbols : List String
  wildcard : Bool
  deriving DecidableEq, Repr

structure Param where
  name : String
  type : TypeExpr
  mutable : Bool
  span : Span
  deriving Repr

structure Signature where
  name : String
  params : List Param
  result : TypeExpr
  deriving Repr

def Signature.isMain (sig : Signature) : Bool := sig.name == "main"

structure Field where
  name : String
  type : TypeExpr
  span : Span
  deriving Repr

structure StructDecl where
  name : String
  generics : List String
  fields : List Field
  deriving Repr

inductive Decl where
  /-- The mark `---` between files that share one source. -/
  | separator (info : Info)
  | package (info : Info) (path : List String)
  | imports (info : Info) (decl : Import)
  /-- Without a type the name stands for an unknown one. -/
  | typedef (info : Info) (name : String) (type : Option TypeExpr)
  | struct (info : Info) (decl : StructDecl)
  | header (info : Info) (sig : Signature)
  | function (info : Info) (sig : Signature) (body : Block)
  | var (info : Info) (decl : VarDecl)
  deriving Repr

namespace Decl

def info : Decl → Info
  | separator i | package i _ | imports i _ | typedef i _ _ | struct i _ | header i _
  | function i _ _ | var i _ => i

def id (d : Decl) : Nat := d.info.id

def span (d : Decl) : Span := d.info.span

def directives (d : Decl) : List Directive := d.info.directives

def withDirectives (ds : List Directive) : Decl → Decl
  | separator i => separator { i with directives := ds }
  | package i path => package { i with directives := ds } path
  | imports i d => imports { i with directives := ds } d
  | typedef i name t => typedef { i with directives := ds } name t
  | struct i d => struct { i with directives := ds } d
  | header i sig => header { i with directives := ds } sig
  | function i sig body => function { i with directives := ds } sig body
  | var i d => var { i with directives := ds } d

def kindName : Decl → String
  | separator _ => "file separator"
  | package _ _ => "package declaration"
  | imports _ _ => "import"
  | typedef _ _ _ => "typedef"
  | struct _ _ => "struct declaration"
  | header _ _ => "function header"
  | function _ _ _ => "function declaration"
  | var _ _ => "variable declaration"

def isSeparator : Decl → Bool
  | separator _ => true
  | _ => false

def packagePath? : Decl → Option (List String)
  | package _ path => some path
  | _ => none

end Decl

/-- A file: the declarations of one source, or of one part of it between separators. -/
structure File where
  info : Info
  file : FileId
  decls : List Decl
  deriving Repr

namespace File

/-- The declared package path, if there is one. -/
def packagePath? (f : File) : Option (List String) := f.decls.findSome? (·.packagePath?)

def packageDirectives (f : File) : List Directive :=
  match f.decls.find? (·.packagePath?.isSome) with
  | some d => d.directives
  | none => []

end File

structure Program where
  info : Info
  files : List File
  deriving Repr

end Quill
