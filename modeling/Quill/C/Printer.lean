import Quill.C.Basic

/-!
# Writing C

Operators inside an expression are put in parentheses, unless what surrounds them already bounds
them. Statements are written one to a line.
-/
namespace Quill

namespace CExpr

def wrap (bounded : Bool) (text : String) : String :=
  if bounded then text else "(" ++ text ++ ")"

mutual

/-- The text of an expression; `bounded` if the surroundings bound it. -/
def render (bounded : Bool) : CExpr → String
  | var name => name
  | literal text => text
  | binary op l r => wrap bounded (l.render false ++ " " ++ op.symbol ++ " " ++ r.render false)
  | unary op e => wrap bounded (op.symbol ++ e.render false)
  | step op e => wrap bounded (e.render false ++ op.symbol)
  | call f args => f.render false ++ "(" ++ ", ".intercalate (renderEach args) ++ ")"
  | field e name arrow => e.render false ++ (if arrow then "->" else ".") ++ name
  | index e i => e.render false ++ "[" ++ i.render true ++ "]"
  | sizeofType t => "sizeof(" ++ t.spelling ++ ")"
  | sizeofExpr e => "sizeof(" ++ e.render true ++ ")"
  | cast t e => wrap bounded ("(" ++ t.spelling ++ ")" ++ e.render false)
  | compound t [] => "(" ++ t.spelling ++ ")\x7b0\x7d"
  | compound t (f :: fs) =>
    "(" ++ t.spelling ++ ")\x7b " ++ ", ".intercalate (renderFields (f :: fs)) ++ " \x7d"
  | elements [] => "\x7b0\x7d"
  | elements (x :: xs) => "\x7b " ++ ", ".intercalate (renderElements (x :: xs)) ++ " \x7d"

def renderEach : List CExpr → List String
  | [] => []
  | e :: es => e.render true :: renderEach es

def renderFields : List (String × CExpr) → List String
  | [] => []
  | (name, e) :: fs => ("." ++ name ++ " = " ++ e.render true) :: renderFields fs

def renderElements : List (Option CExpr × CExpr) → List String
  | [] => []
  | (none, e) :: xs => e.render true :: renderElements xs
  | (some i, e) :: xs =>
    ("[" ++ i.render true ++ "] = " ++ e.render true) :: renderElements xs

end

def text (e : CExpr) : String := e.render true

end CExpr

def CVar.render (v : CVar) : String :=
  (if v.isStatic then "static " else "") ++ v.type.declare v.name ++
    match v.init with
    | some e => " = " ++ e.text
    | none => ""

namespace CStmt

/-- A line without its end, indented by `depth` levels. -/
def line (depth : Nat) (text : String) : String := "".pushn ' ' (4 * depth) ++ text

mutual

def lines (depth : Nat) : CStmt → List String
  | block body => [line depth "\x7b"] ++ linesOf (depth + 1) body ++ [line depth "\x7d"]
  | var decl => [line depth (decl.render ++ ";")]
  | expr e => [line depth (e.text ++ ";")]
  | assign op target value =>
    [line depth (target.text ++ " " ++ op.symbol ++ " " ++ value.text ++ ";")]
  | cond test onTrue onFalse =>
    [line depth ("if (" ++ test.text ++ ") \x7b")] ++ linesOf (depth + 1) onTrue ++
      elseLines depth onFalse ++ [line depth "\x7d"]
  | loop test body =>
    [line depth ("while (" ++ test.text ++ ") \x7b")] ++ linesOf (depth + 1) body ++
      [line depth "\x7d"]
  | count init test advance body =>
    [line depth ("for (" ++ init.render ++ "; " ++ test.text ++ "; " ++ advance.text ++ ") \x7b")] ++
      linesOf (depth + 1) body ++ [line depth "\x7d"]
  | ret none => [line depth "return;"]
  | ret (some e) => [line depth ("return " ++ e.text ++ ";")]

def linesOf (depth : Nat) : List CStmt → List String
  | [] => []
  | s :: ss => s.lines depth ++ linesOf depth ss

def elseLines (depth : Nat) : Option (List CStmt) → List String
  | none => []
  | some body => line depth "\x7d else \x7b" :: linesOf (depth + 1) body

end

end CStmt

def CParam.render (p : CParam) : String :=
  if p.restrict then p.type.base ++ " restrict " ++ p.name ++ p.type.suffix
  else p.type.declare p.name

def CPrototype.render (h : CPrototype) : String :=
  let params := if h.params.isEmpty then "void" else ", ".intercalate (h.params.map (·.render))
  h.result.base ++ " " ++ h.name ++ "(" ++ params ++ ")"

namespace CItem

def lines : CItem → List String
  | inclusion path true => ["#include <" ++ path ++ ">"]
  | inclusion path false => ["#include \"" ++ path ++ "\""]
  | define name => ["#define " ++ name]
  | ifNotDefined name => ["#ifndef " ++ name]
  | endIf => ["#endif"]
  | forward name => ["typedef struct " ++ name ++ " " ++ name ++ ";"]
  | struct name fields =>
    ["struct " ++ name ++ " \x7b"] ++
      fields.map (fun (t, field) => CStmt.line 1 (t.declare field ++ ";")) ++ ["\x7d;"]
  | varDecl decl => ["extern " ++ decl.render ++ ";"]
  | varDef decl => [decl.render ++ ";"]
  | prototype head => [head.render ++ ";"]
  | function head body =>
    [head.render ++ " \x7b"] ++ CStmt.linesOf 1 body ++ ["\x7d", ""]

def render (items : List CItem) : String :=
  String.join ((items.flatMap lines).map (· ++ "\n"))

end CItem
end Quill
