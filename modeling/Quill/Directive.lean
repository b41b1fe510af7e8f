import Quill.Span

/-!
# Directives

A directive such as `@unused` stands in front of a declaration, statement, expression or type.
-/
namespace Quill

inductive DirectiveKind where
  | cHeader
  | restrict
  | cFile
  | unused
  | external
  | cStr
  | stackBuf
  | rangeUsize
  deriving DecidableEq, Repr

namespace DirectiveKind

def all : List DirectiveKind :=
  [cHeader, restrict, cFile, unused, external, cStr, stackBuf, rangeUsize]

def name : DirectiveKind → String
  | cHeader => "@c_header"
  | restrict => "@restrict"
  | cFile => "@c_file"
  | unused => "@unused"
  | external => "@extern"
  | cStr => "@cstr"
  | stackBuf => "@stack_buf"
  | rangeUsize => "@range_usize"

/-- Whether a string in parentheses has to follow. -/
def takesArgument : DirectiveKind → Bool
  | cHeader => true
  | _ => false

def ofName? (text : String) : Option DirectiveKind := all.find? (·.name == text)

end DirectiveKind

structure Directive where
  kind : DirectiveKind
  argument : Option String
  span : Span
  deriving DecidableEq, Repr

namespace Directive

def find? (directives : List Directive) (kind : DirectiveKind) : Option Directive :=
  directives.find? (·.kind == kind)

def present (directives : List Directive) (kind : DirectiveKind) : Bool :=
  (find? directives kind).isSome

end Directive
end Quill
