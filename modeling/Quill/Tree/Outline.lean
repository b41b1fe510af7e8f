import Quill.Tree.Basic

/-!
# Outlines

The outline of a tree forgets which part is a declaration, a statement or an expression and keeps
the nesting: a node with the outlines of the nodes directly inside it, in source order. What is
said of all nodes of a program is said on its outline.
-/
namespace Quill

/-- Any part of a program with an identity of its own. -/
inductive Node where
  | program (p : Program)
  | file (f : File)
  | decl (d : Decl)
  | stmt (s : Stmt)
  | expr (e : Expr)
  deriving Repr

namespace Node

def info : Node → Info
  | program p => p.info
  | file f => f.info
  | decl d => d.info
  | stmt s => s.info
  | expr e => e.info

def id (n : Node) : Nat := n.info.id

def span (n : Node) : Span := n.info.span

def directives (n : Node) : List Directive := n.info.directives

def kindName : Node → String
  | program _ => "root"
  | file _ => "file"
  | decl d => d.kindName
  | stmt s => s.kindName
  | expr e => e.kindName

/-- The types written on the node itself. -/
def types : Node → List TypeExpr
  | decl (.typedef _ _ type) => type.toList
  | decl (.struct _ d) => d.fields.map (·.type)
  | decl (.header _ sig) | decl (.function _ sig _) => sig.params.map (·.type) ++ [sig.result]
  | decl (.var _ d) | stmt (.var _ d) => d.type.toList
  | expr (.sizeofType _ type _) | expr (.cast _ type _) => [type]
  | _ => []

end Node

inductive Outline where
  | mk (node : Node) (children : List Outline)
  deriving Repr

mutual

/-- The outline of an expression. The kept operand of `sizeof` is no part of it. -/
def Expr.outline : Expr → Outline
  | e@(.literal _ _) | e@(.ref _ _) | e@(.sizeofType _ _ _) => .mk (.expr e) []
  | e@(.binary _ _ l r) | e@(.index _ l r) | e@(.range _ l r _) =>
    .mk (.expr e) [l.outline, r.outline]
  | e@(.unary _ _ x) | e@(.step _ _ x) | e@(.field _ x _ _) | e@(.sizeofExpr _ x)
  | e@(.cast _ _ x) => .mk (.expr e) [x.outline]
  | e@(.call _ f args) => .mk (.expr e) (f.outline :: Expr.outlines args)
  | e@(.tuple _ items) => .mk (.expr e) (Expr.outlines items)
  | e@(.structInit _ fields) => .mk (.expr e) (Expr.fieldOutlines fields)
  | e@(.arrayInit _ none elements) => .mk (.expr e) (Expr.elementOutlines elements)
  | e@(.arrayInit _ (some n) elements) =>
    .mk (.expr e) (n.outline :: Expr.elementOutlines elements)
  | e@(.template _ parts) => .mk (.expr e) (Expr.partOutlines parts)

def Expr.outlines : List Expr → List Outline
  | [] => []
  | e :: es => e.outline :: Expr.outlines es

def Expr.fieldOutlines : List (FieldInit Expr) → List Outline
  | [] => []
  | ⟨_, _, e⟩ :: fs => e.outline :: Expr.fieldOutlines fs

def Expr.elementOutlines : List (ArrayElement Expr) → List Outline
  | [] => []
  | ⟨none, e⟩ :: es => e.outline :: Expr.elementOutlines es
  | ⟨some i, e⟩ :: es => i.outline :: e.outline :: Expr.elementOutlines es

def Expr.partOutlines : List (TemplatePart Expr) → List Outline
  | [] => []
  | .text _ :: ps => Expr.partOutlines ps
  | .expr e :: ps => e.outline :: Expr.partOutlines ps

end

def Expr.outline? (e : Option Expr) : List Outline := (e.map Expr.outline).toList

mutual

def Stmt.outline : Stmt → Outline
  | s@(.block _ body) => .mk (.stmt s) (Stmt.outlines body)
  | s@(.var _ d) => .mk (.stmt s) (Expr.outline? d.init)
  | s@(.cond _ e t none) => .mk (.stmt s) [e.outline, t.outline]
  | s@(.cond _ e t (some f)) => .mk (.stmt s) [e.outline, t.outline, f.outline]
  | s@(.loop _ e b) | s@(.foreach _ _ e b) => .mk (.stmt s) [e.outline, b.outline]
  | s@(.ret _ e) | s@(.crash _ e) => .mk (.stmt s) (Expr.outline? e)
  | s@(.defer _ b) => .mk (.stmt s) [b.outline]
  | s@(.expr _ e) | s@(.switch _ e) => .mk (.stmt s) [e.outline]
  | s@(.assign _ _ t v) => .mk (.stmt s) [t.outline, v.outline]

def Stmt.outlines : List Stmt → List Outline
  | [] => []
  | s :: ss => s.outline :: Stmt.outlines ss

end

def Decl.outline : Decl → Outline
  | d@(.function _ _ body) => .mk (.decl d) [body.toStmt.outline]
  | d@(.var _ v) => .mk (.decl d) (Expr.outline? v.init)
  | d => .mk (.decl d) []

def File.outline (f : File) : Outline := .mk (.file f) (f.decls.map Decl.outline)

def Program.outline (p : Program) : Outline := .mk (.program p) (p.files.map File.outline)

namespace Outline

def node : Outline → Node
  | mk n _ => n

mutual

/-- All nodes with their depths, parents first. -/
def levels (depth : Nat) : Outline → List (Nat × Node)
  | mk n children => (depth, n) :: levelsOf (depth + 1) children

def levelsOf (depth : Nat) : List Outline → List (Nat × Node)
  | [] => []
  | o :: os => o.levels depth ++ levelsOf depth os

end

/-- All nodes, parents first. -/
def nodes (o : Outline) : List Node := (o.levels 0).map (·.2)

end Outline
end Quill
