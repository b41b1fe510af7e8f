import Quill.Problem
import Quill.Tree.Basic

/-!
# Reading tokens

A parser reads tokens from the front of a list that ends with the end token, which is never passed.
It may fail, and what it did up to then stands: identities that it took are not given back, and a
problem that it reported stays. After a problem further ones are held back until the parser is told
to take up again, so that one mistake is reported once.

`attempt` undoes everything but what is counted.
-/
namespace Quill

namespace Parser

structure State where
  file : FileId
  rest : List Token
  /-- Place of the token read last. -/
  last : Span
  nodes : Nat
  types : Nat
  problems : List Diagnostic
  /-- Whether problems are held back. -/
  muted : Bool
  /-- How often reading was taken up again behind a mistake. -/
  recoveries : Nat
  deriving DecidableEq, Repr

namespace State

/-- Before the first token, with these identities given out. -/
def start (file : FileId) (tokens : List Token) (nodes types : Nat) : State :=
  { file, rest := tokens, last := (tokens.head?.map (·.span)).getD default, nodes, types,
    problems := [], muted := false, recoveries := 0 }

def peek (s : State) : Token := s.rest.headD ⟨.eof, "", s.last⟩

def kind (s : State) : TokenKind := s.peek.kind

/-- The class of the token `n` places ahead. -/
def kindAt (s : State) (n : Nat) : TokenKind :=
  match s.rest.drop n with
  | t :: _ => t.kind
  | [] => .eof

/-- Moves over one token, but not over the end token. -/
def advance (s : State) : State :=
  match s.rest with
  | t :: ts => if t.isEof then s else { s with rest := ts, last := t.span }
  | [] => s

def advanceBy : Nat → State → State
  | 0, s => s
  | n + 1, s => advanceBy n s.advance

def report (s : State) (problem : ParseProblem) (span : Span) : State :=
  if s.muted then s
  else { s with muted := true, problems := s.problems ++ [⟨.grammar problem, span⟩] }

/-- Counts that reading is taken up again here. -/
def recovered (s : State) : State := { s with recoveries := s.recoveries + 1 }

/-- Back to `s` from `later`. Problems are cut off behind as many as there were, and what was counted
on the way stays counted. -/
def rewind (s later : State) : State :=
  { later with
    rest := s.rest
    last := s.last
    problems := later.problems.take s.problems.length
    muted := s.muted }

end State
end Parser

def Parser (α : Type) : Type := Parser.State → Option α × Parser.State

namespace Parser

instance : Monad Parser where
  pure a := fun s => (some a, s)
  bind p f := fun s =>
    match p s with
    | (some a, s') => f a s'
    | (none, s') => (none, s')

def fail {α : Type} : Parser α := fun s => (none, s)

def inspect {α : Type} (f : State → α) : Parser α := fun s => (some (f s), s)

def update (f : State → State) : Parser Unit := fun s => (some (), f s)

/-- The result of `p` if it succeeds; a failure is only told. -/
def result? {α : Type} (p : Parser α) : Parser (Option α) := fun s =>
  let (r, s') := p s
  (some r, s')

/-- Runs `p`; if it fails, everything but what was counted is as if it had not run. -/
def attempt {α : Type} (p : Parser α) : Parser (Option α) := fun s =>
  match p s with
  | (some a, s') => (some (some a), s')
  | (none, s') => (some none, s.rewind s')

/-- Runs `p` from an earlier state and comes back, whether it succeeds or not. -/
def reread {α : Type} (earlier : State) (p : Parser α) : Parser (Option α) := fun s =>
  match p (earlier.rewind s) with
  | (r, s') => (some r, s.rewind s')

def peek : Parser Token := inspect State.peek

def kind : Parser TokenKind := inspect State.kind

def kindAt (n : Nat) : Parser TokenKind := inspect (·.kindAt n)

def at? (k : TokenKind) : Parser Bool := inspect (·.kind == k)

def atEnd : Parser Bool := at? .eof

def advance : Parser Token := fun s => (some s.peek, s.advance)

def eat (k : TokenKind) : Parser Bool := fun s =>
  if s.kind == k then (some true, s.advance) else (some false, s)

def report (problem : ParseProblem) (span : Span) : Parser Unit := update (·.report problem span)

def expected {α : Type} (what : String) : Parser α := fun s =>
  let t := s.peek
  (none, s.report (.expected what (if t.isEof then none else some t.text)) t.span)

def expect (k : TokenKind) (what : String) : Parser Token := fun s =>
  if s.kind == k then (some s.peek, s.advance) else expected what s

def mark (p : Punct) (what : String) : Parser Token := expect (.punct p) what

def identifier (what : String) : Parser String := return (← expect .identifier what).text

/-- The span from `start` up to the token read last. -/
def spanFrom (start : Span) : Parser Span :=
  inspect fun s => if s.last.stop < start.start then start else start.join s.last

def nodeAt (span : Span) : Parser Info := fun s =>
  (some { id := s.nodes, span }, { s with nodes := s.nodes + 1 })

def typeNodeAt (span : Span) : Parser Info := fun s =>
  (some { id := s.types, span }, { s with types := s.types + 1 })

def nodeFrom (start : Span) : Parser Info := do nodeAt (← spanFrom start)

def typeNodeFrom (start : Span) : Parser Info := do typeNodeAt (← spanFrom start)

/-- Fuel of a repetition or a nesting, of which every round burns one token. -/
abbrev Fuel := List Token

/-- Runs `p` with the tokens left for fuel, and one more. -/
def fuelled {α : Type} (p : Fuel → Parser α) : Parser α := fun s => p (s.peek :: s.rest) s

def manyWithin {α : Type} (item : Parser (Option α)) : (fuel : Fuel) → Parser (List α)
  | [] => fail
  | _ :: fuel => do
    match ← item with
    | none => return []
    | some a => return a :: (← manyWithin item fuel)

/-- Items one after another until `item` gives none. Every item takes a token. -/
def many {α : Type} (item : Parser (Option α)) : Parser (List α) := fuelled (manyWithin item)

def extendWithin {α : Type} (step : α → Parser (Option α)) : (fuel : Fuel) → α → Parser α
  | [], _ => fail
  | _ :: fuel, a => do
    match ← step a with
    | none => return a
    | some b => extendWithin step fuel b

/-- Replaces a value by `step` until that gives none. Every step takes a token. -/
def extend {α : Type} (step : α → Parser (Option α)) (a : α) : Parser α :=
  fuelled fun fuel => extendWithin step fuel a

def commaSeparated {α : Type} (item : Parser α) : Parser (List α) := do
  let first ← item
  let more ← many do
    if ← eat (.punct .comma) then return some (← item) else return none
  return first :: more

def commaListWithin {α : Type} (stop : Parser Bool) (item : Parser α) :
    (fuel : Fuel) → Parser (List α)
  | [] => fail
  | _ :: fuel => do
    if ← stop then return []
    let first ← item
    if ← eat (.punct .comma) then return first :: (← commaListWithin stop item fuel)
    return [first]

/-- Items separated by commas up to a place where `stop` holds; the last item may have a comma
after it. -/
def commaList {α : Type} (stop : Parser Bool) (item : Parser α) : Parser (List α) :=
  fuelled (commaListWithin stop item)

def directive : Parser Directive := do
  let token ← advance
  match DirectiveKind.ofName? token.text with
  | none =>
    report (.unknownDirective token.text) token.span
    fail
  | some kind =>
    let argument ←
      if kind.takesArgument then do
        let _ ← mark .leftParen ("'(' after " ++ token.text)
        let text ← expect .stringLiteral "a string literal argument"
        let _ ← mark .rightParen "')'"
        pure (some text.inner)
      else pure none
    return { kind, argument, span := ← spanFrom token.span }

def directives : Parser (List Directive) :=
  many do
    if ← at? .directive then return some (← directive) else return none

/-- A path such as `a::b::c`. -/
def path : Parser (List String) := do
  let first ← identifier "a name"
  let more ← many do
    if (← at? (.punct .colonColon)) && (← kindAt 1) == .identifier then
      let _ ← advance
      return some (← advance).text
    else return none
  return first :: more

end Parser
end Quill
