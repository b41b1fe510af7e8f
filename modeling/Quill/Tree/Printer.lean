import Quill.Text.Quoted
import Quill.Tree.Outline

/-!
# Tree listings

A listing has one line for each node, indented by its depth. The text parts of a template string
stand on lines of their own among the interpolated expressions.
-/
namespace Quill

def Directive.render (d : Directive) : String :=
  match d.argument with
  | none => d.kind.name
  | some argument => d.kind.name ++ "(\"" ++ argument ++ "\")"

def Import.render (i : Import) : String :=
  (match i.kind with
    | .plain => ""
    | .sibling => "./"
    | .root => "~/") ++
  "/".intercalate i.segments ++ String.join (i.symbols.map ("::" ++ ·)) ++
  (if i.wildcard then "::*" else "")

def StructDecl.render (d : StructDecl) : String :=
  d.name ++ (if d.generics.isEmpty then "" else "<" ++ ", ".intercalate d.generics ++ ">") ++
  " \x7b " ++ ", ".intercalate (d.fields.map fun f => f.type.render ++ " " ++ f.name) ++ " \x7d"

def Param.render (p : Param) : String :=
  p.type.render ++ (if p.mutable then " mut " else " ") ++ p.name

def Signature.render (s : Signature) : String :=
  s.result.render ++ " " ++ s.name ++ "(" ++ ", ".intercalate (s.params.map Param.render) ++ ")"

def VarDecl.heading (d : VarDecl) : String :=
  "Var" ++ (if d.isStatic then " static" else "") ++
  (match d.type with
    | some type => " " ++ type.render
    | none => " let") ++
  (if d.mutable then " mut " else " ") ++ d.name

def Literal.heading : Literal → String
  | bool value => "Bool " ++ (if value then "true" else "false")
  | int text => "Int " ++ text
  | float text => "Float " ++ text
  | string text => "String \"" ++ text ++ "\""
  | char text => "Char '" ++ text ++ "'"
  | chars text => "Chars '" ++ text ++ "'"

def Decl.heading : Decl → String
  | separator _ => "---"
  | package _ path => "Package " ++ "/".intercalate path
  | imports _ i => "Import " ++ i.render
  | typedef _ name (some type) => "Typedef " ++ name ++ " = " ++ type.render
  | typedef _ name none => "Typedef " ++ name ++ " (opaque)"
  | struct _ d => "Struct " ++ d.render
  | header _ sig => "FunctionHeader " ++ sig.render
  | function _ sig _ => "Function " ++ sig.render
  | var _ d => d.heading

def Stmt.heading : Stmt → String
  | block _ _ => "Block"
  | var _ d => d.heading
  | cond _ _ _ _ => "If"
  | loop _ _ _ => "While"
  | foreach _ binding _ _ => "Foreach " ++ binding
  | ret _ _ => "Return"
  | defer _ _ => "Defer"
  | crash _ _ => "Crash"
  | expr _ _ => "ExpressionStatement"
  | assign _ op _ _ => "Assign " ++ op.symbol
  | switch _ _ => "Switch"

def Expr.heading : Expr → String
  | literal _ value => value.heading
  | ref _ path => "Ref " ++ "::".intercalate path
  | binary _ op _ _ => "Binary " ++ op.symbol
  | unary _ op _ => "Unary " ++ op.symbol
  | step _ op _ => "Postfix " ++ op.symbol
  | call _ _ _ => "Call"
  | field _ _ name arrow => "Field " ++ (if arrow then "->" else ".") ++ name
  | index _ _ _ => "Index"
  | range _ _ _ inclusive => "Range " ++ (if inclusive then "..=" else "..")
  | tuple _ _ => "Tuple"
  | structInit _ fields => "StructInit " ++ " ".intercalate (fields.map ("." ++ ·.name))
  | arrayInit _ _ _ => "ArrayInitializer"
  | template _ _ => "TemplateString"
  | sizeofType _ type _ => "Sizeof " ++ type.render
  | sizeofExpr _ _ => "Sizeof"
  | cast _ type _ => "Cast " ++ type.render

namespace Node

def heading : Node → String
  | program _ => "Root"
  | file f => "File #" ++ toString f.file
  | decl d => d.heading
  | stmt s => s.heading
  | expr e => e.heading

/-- The line of a node: what it is, then its directives. -/
def line (n : Node) : String :=
  n.heading ++ String.join (n.directives.map (" " ++ ·.render))

end Node

def indented (depth : Nat) (text : String) : String :=
  String.join (List.replicate depth "  ") ++ text

/-- Puts the listings of interpolated expressions in the places of the parts they come from. -/
def TemplatePart.weave (depth : Nat) :
    List (TemplatePart Expr) → List (List String) → List (List String)
  | .text t :: parts, listings =>
    [indented depth ("text " ++ Text.quoted t)] :: weave depth parts listings
  | .expr _ :: parts, listing :: listings => listing :: weave depth parts listings
  | .expr _ :: parts, [] => weave depth parts []
  | [], _ => []

namespace Outline

mutual

def lines (depth : Nat) : Outline → List String
  | mk n children =>
    let listings := listingsOf (depth + 1) children
    indented depth n.line ::
      (match n with
        | .expr (.template _ parts) => (TemplatePart.weave (depth + 1) parts listings).flatten
        | _ => listings.flatten)

def listingsOf (depth : Nat) : List Outline → List (List String)
  | [] => []
  | o :: os => o.lines depth :: listingsOf depth os

end

def render (o : Outline) : String := String.join ((o.lines 0).map (· ++ "\n"))

end Outline
end Quill
