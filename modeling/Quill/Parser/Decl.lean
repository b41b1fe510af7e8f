import Quill.Parser.Stmt
import Quill.Token.Lexer

/-!
# Reading files

A source holds one file or several with separators between them. When a declaration cannot be read
the parser takes up again at the next one that it can tell.
-/
namespace Quill.Parser

/-- A package path such as `a/b/c`. -/
def packagePath : Parser (List String) := do
  let first ← identifier "a package path segment"
  let more ← many do
    if ← eat (.punct .slash) then return some (← identifier "a package path segment")
    else return none
  return first :: more

def packageDecl : Parser Decl := do
  let start := (← advance).span
  let name ← packagePath
  let _ ← mark .semicolon "';' after package declaration"
  return .package (← nodeFrom start) name

def importKind : Parser ImportKind := do
  match ← kind, ← kindAt 1 with
  | .punct .dot, .punct .slash =>
    update (State.advanceBy 2)
    return .sibling
  | .punct .tilde, .punct .slash =>
    update (State.advanceBy 2)
    return .root
  | _, _ => return .plain

/-- The names after the package path of an import, each with `::` in front of it. A `*` is the
last. -/
def importSymbols : Parser (List String × Bool) :=
  extend
    (fun (symbols, wildcard) => do
      if wildcard then return none
      if ← eat (.punct .colonColon) then
        if ← eat (.punct .star) then return some (symbols, true)
        let name ← identifier "a symbol name or '*'"
        return some (symbols ++ [name], false)
      return none)
    ([], false)

def importDecl : Parser Decl := do
  let start := (← advance).span
  let kind ← importKind
  let segments ← packagePath
  let (symbols, wildcard) ← importSymbols
  let _ ← mark .semicolon "';' after import"
  return .imports (← nodeFrom start) { kind, segments, symbols, wildcard }

def typedefDecl : Parser Decl := do
  let start := (← advance).span
  let name ← identifier "a typedef name"
  let target ←
    if ← eat (.punct .equal) then (do return some (← type)) else pure none
  let _ ← mark .semicolon "';' after typedef"
  return .typedef (← nodeFrom start) name target

def structField : Parser Field := do
  let start := (← peek).span
  let type ← type
  let name ← identifier "a field name"
  return { name, type, span := ← spanFrom start }

def structDecl : Parser Decl := do
  let start := (← advance).span
  let name ← identifier "a struct name"
  let generics ←
    if ← eat (.punct .less) then do
      let names ← commaSeparated (identifier "a generic parameter name")
      let _ ← mark .greater "'>' to close the generic parameter list"
      pure names
    else pure []
  let _ ← mark .leftBrace "'\x7b' to open the struct body"
  let fields ← commaList
    (do return (← at? (.punct .rightBrace)) || (← atEnd)) structField
  let _ ← mark .rightBrace "'\x7d' to close the struct body"
  let _ ← eat (.punct .semicolon)
  return .struct (← nodeFrom start) { name, generics, fields }

def param : Parser Param := do
  let start := (← peek).span
  let type ← type
  let mutable ← eat (.keyword .kMut)
  let name ← identifier "a parameter name"
  return { name, type, mutable, span := ← spanFrom start }

def params : Parser (List Param) := do
  let _ ← mark .leftParen "'('"
  let ps ← if ← at? (.punct .rightParen) then pure [] else commaSeparated param
  let _ ← mark .rightParen "')' to close the parameter list"
  return ps

/-- A declaration that starts with a type: a function if a name and an opening parenthesis follow,
else a variable. -/
def typedDecl : Parser Decl := do
  let start := (← peek).span
  let result ← type
  if (← at? .identifier) && (← kindAt 1) == .punct .leftParen then
    let name ← identifier "a function name"
    let params ← params
    let sig := { name, params, result : Signature }
    match ← kind with
    | .punct .semicolon =>
      let _ ← advance
      return .header (← nodeFrom start) sig
    | .punct .leftBrace =>
      let body ← block stmt
      return .function (← nodeFrom start) sig body
    | _ => expected "';' or a function body"
  else
    let (info, decl) ← varDeclEnd start false (some result)
    return .var info decl

def topLevel : Parser Decl := do
  let ds ← directives
  let start := (← peek).span
  let d ←
    match ← kind with
    | .punct .tripleMinus => do
      let _ ← advance
      pure (.separator (← nodeAt start))
    | .keyword .kPackage => packageDecl
    | .keyword .kImport => importDecl
    | .keyword .kTypedef => typedefDecl
    | .keyword .kStruct => structDecl
    | .keyword .kStatic | .keyword .kLet => do
      let (info, decl) ← varDecl
      pure (.var info decl)
    | _ => typedDecl
  return d.withDirectives ds

/-- Whether a token can only start a declaration. -/
def startsDecl : TokenKind → Bool
  | .keyword .kStruct | .keyword .kTypedef | .keyword .kImport | .keyword .kPackage
  | .keyword .kStatic | .punct .tripleMinus | .directive => true
  | _ => false

/-- How many tokens to pass over before the next declaration, `depth` braces deep in one that could
not be read. -/
def declResync : (depth : Nat) → List Token → Nat
  | _, [] => 0
  | depth, t :: ts =>
    match t.kind, depth with
    | .eof, _ => 0
    | .punct .semicolon, 0 => 1
    | .punct .leftBrace, depth => declResync (depth + 1) ts + 1
    | .punct .rightBrace, depth + 2 => declResync (depth + 1) ts + 1
    | .punct .rightBrace, _ => 1
    | k, depth => if depth = 0 && startsDecl k then 0 else declResync depth ts + 1

/-- Takes up again after a declaration that started with the tokens `before` left and could not be
read, at least one token further on. -/
def resyncDecl (before : List Token) : Parser Unit := update fun s =>
  let s := if s.rest.length == before.length then s.advance else s
  (s.advanceBy (declResync 0 s.rest)).recovered

/-- The next declaration of a source; none at its end. One that cannot be read counts as an item
without a declaration. -/
def declItem : Parser (Option (Option Decl)) := do
  if ← atEnd then return none
  update fun s => { s with muted := false }
  let before ← inspect (·.rest)
  match ← result? topLevel with
  | some d => return some (some d)
  | none =>
    resyncDecl before
    return some none

def fileOf (decls : List Decl) : Parser File := fun s =>
  let span :=
    match decls.head?, decls.getLast? with
    | some first, some last => first.span.join last.span
    | _, _ => ⟨s.file, 0, 0, 1⟩
  (some { info := { id := s.nodes, span }, file := s.file, decls },
    { s with nodes := s.nodes + 1 })

/-- Files already closed and the declarations of the one that is open. -/
abbrev FilesSoFar := List File × List Decl

/-- Takes in the next declaration. A separator closes the open file if that has a declaration. -/
def fileStep (soFar : FilesSoFar) : Parser (Option FilesSoFar) := do
  match ← declItem with
  | none => return none
  | some none => return some soFar
  | some (some d) =>
    let (closed, decls) := soFar
    if d.isSeparator && !decls.isEmpty then
      return some (closed ++ [← fileOf decls], [d])
    return some (closed, decls ++ [d])

/-- All files of a source; there is at least one. -/
def files : Parser (List File) := do
  let (closed, decls) ← extend fileStep ([], [])
  if !decls.isEmpty || closed.isEmpty then return closed ++ [← fileOf decls]
  return closed

end Quill.Parser

namespace Quill

/-- Counters of the identities given to nodes and to types so far. -/
structure Identities where
  nodes : Nat := 0
  types : Nat := 0
  deriving DecidableEq, Repr

/-- Reads the tokens of one source into files. -/
def parseTokens (file : FileId) (tokens : List Token) (ids : Identities) :
    List File × List Diagnostic × Identities :=
  let (files, s) := Parser.files (.start file tokens ids.nodes ids.types)
  (files.getD [], s.problems, ⟨s.nodes, s.types⟩)

def lexProblems (tokens : List Token) : List Diagnostic :=
  tokens.filterMap fun t => t.lexError?.map fun reason => ⟨.lexical reason, t.span⟩

structure ParseResult where
  program : Program
  diagnostics : List Diagnostic
  ids : Identities
  deriving Repr

def parseText (file : FileId) (text : String) (ids : Identities) :
    List File × List Diagnostic × Identities :=
  let tokens := Lexer.scan file text
  let (files, problems, ids) := parseTokens file (Token.kept tokens) ids
  (files, lexProblems tokens ++ problems, ids)

def parseTexts : List (FileId × String) → Identities → List File × List Diagnostic × Identities
  | [], ids => ([], [], ids)
  | (file, text) :: more, ids =>
    let (files, problems, ids) := parseText file text ids
    let (files', problems', ids) := parseTexts more ids
    (files ++ files', problems ++ problems', ids)

/-- Reads numbered source texts into a program, whose own identity comes last. -/
def parse (texts : List (FileId × String)) : ParseResult :=
  let (files, diagnostics, ids) := parseTexts texts {}
  { program := { info := { id := ids.nodes, span := {} }, files }, diagnostics,
    ids := { ids with nodes := ids.nodes + 1 } }

end Quill
