import Quill.Token.Basic

/-!
# Scanning

A scan walks a text from token to token. White space, line comments and block comments, which nest,
separate tokens. A template string may hold interpolations: each open one has a frame that counts
the ordinary braces opened inside it, and a closing brace resumes the template only when that count
is zero.

Every scanning function says how many characters belong to a token, so that the text of a token and
what follows it always make up the text that was there.
-/
namespace Quill.Lexer

def isBlank (c : Char) : Bool := c == ' ' || c == '\t' || c == '\r' || c == '\n'

def isDigit (c : Char) : Bool := '0' ≤ c && c ≤ '9'

def isWordStart (c : Char) : Bool :=
  ('a' ≤ c && c ≤ 'z') || ('A' ≤ c && c ≤ 'Z') || c == '_'

def isWordPart (c : Char) : Bool := isWordStart c || isDigit c

/-- How many characters at the front satisfy `p`. -/
def runLength (p : Char → Bool) : List Char → Nat
  | [] => 0
  | c :: cs => if p c then runLength p cs + 1 else 0

/-- How many characters it takes to close `depth` nested block comments. -/
def commentLength? : Nat → List Char → Option Nat
  | 0, _ => some 0
  | _ + 1, [] => none
  | depth + 1, '/' :: '*' :: cs => (commentLength? (depth + 2) cs).map (· + 2)
  | depth + 1, '*' :: '/' :: cs => (commentLength? depth cs).map (· + 2)
  | depth + 1, _ :: cs => (commentLength? (depth + 1) cs).map (· + 1)

/-- The length of the blank or comment at the front, if there is one. -/
def separatorLength? : List Char → Option Nat
  | '/' :: '/' :: cs => some (runLength (· != '\n') cs + 2)
  | '/' :: '*' :: cs => (commentLength? 1 cs).map (· + 2)
  | c :: _ => if isBlank c then some 1 else none
  | [] => none

/-- How many characters at the front only separate tokens; the first `known` of them are known
to do so. -/
def triviaLength : (known : Nat) → List Char → Nat
  | _, [] => 0
  | known + 1, _ :: cs => triviaLength known cs + 1
  | 0, c :: cs =>
    match separatorLength? (c :: cs) with
    | none => 0
    | some n => triviaLength (n - 1) cs + 1

/-- What follows an opening double quote: how many characters belong to the token and whether the
closing quote is one of them. The string may not go past the end of its line. -/
def stringLength : List Char → Nat × Bool
  | [] => (0, false)
  | '\x22' :: _ => (1, true)
  | '\n' :: _ => (0, false)
  | '\x5c' :: '\n' :: _ => (1, false)
  | '\x5c' :: _ :: cs => let (n, closed) := stringLength cs; (n + 2, closed)
  | _ :: cs => let (n, closed) := stringLength cs; (n + 1, closed)

/-- What follows an opening single quote: how many characters belong to the token, how many
characters it spells, and whether the closing quote was reached. -/
def charsLength : List Char → Nat × Nat × Bool
  | [] => (0, 0, false)
  | '\x27' :: _ => (1, 0, true)
  | '\n' :: _ => (0, 0, false)
  | '\x5c' :: '\n' :: _ => (1, 1, false)
  | '\x5c' :: _ :: cs =>
    let (n, count, closed) := charsLength cs; (n + 2, count + 1, closed)
  | _ :: cs => let (n, count, closed) := charsLength cs; (n + 1, count + 1, closed)

inductive TemplateEnd where
  | closed
  | interpolation
  | unterminated
  deriving DecidableEq, Repr

/-- The stretch of template text at the front, with its end mark. -/
def templateLength : List Char → Nat × TemplateEnd
  | [] => (0, .unterminated)
  | '\x60' :: _ => (1, .closed)
  | '\x7b' :: _ => (1, .interpolation)
  | '\x5c' :: _ :: cs => let (n, ending) := templateLength cs; (n + 2, ending)
  | _ :: cs => let (n, ending) := templateLength cs; (n + 1, ending)

/-- Counts of ordinary braces open in each open interpolation, innermost first. -/
abbrev Frames := List Nat

/-- A token cut from the front of a text: its class, how many characters follow its first one, and
the frames after it. -/
structure Lexeme where
  kind : TokenKind
  more : Nat
  frames : Frames
  deriving DecidableEq, Repr

/-- A digit followed by `cs`. Digits that run into letters are a word. -/
def number (frames : Frames) (c : Char) (cs : List Char) : Lexeme :=
  let digits := runLength isDigit cs
  match cs.drop digits with
  | d :: ds =>
    if isWordStart d then
      let n := runLength isWordPart cs
      ⟨.ofWord (String.ofList (c :: cs.take n)), n, frames⟩
    else match d, ds with
      | '.', e :: es =>
        if isDigit e then ⟨.floatLiteral, digits + 2 + runLength isDigit es, frames⟩
        else ⟨.intLiteral, digits, frames⟩
      | _, _ => ⟨.intLiteral, digits, frames⟩
  | [] => ⟨.intLiteral, digits, frames⟩

def templateOpen (frames : Frames) (cs : List Char) : Lexeme :=
  match templateLength cs with
  | (n, .closed) => ⟨.templateFull, n, frames⟩
  | (n, .interpolation) => ⟨.templateStart, n, 0 :: frames⟩
  | (n, .unterminated) => ⟨.error .unterminatedTemplate, n, frames⟩

/-- Template text after the brace that closes an interpolation; `outer` are the frames around it. -/
def templateResume (outer : Frames) (cs : List Char) : Lexeme :=
  match templateLength cs with
  | (n, .closed) => ⟨.templateEnd, n, outer⟩
  | (n, .interpolation) => ⟨.templateMiddle, n, 0 :: outer⟩
  | (n, .unterminated) => ⟨.error .unterminatedTemplate, n, outer⟩

/-- A mark or a character that starts no token. An opening comment mark that gets here has no
closing one. -/
def mark (frames : Frames) (c : Char) (cs : List Char) : Lexeme :=
  if c == '/' && cs.head? == some '*' then ⟨.error .unterminatedComment, cs.length, frames⟩
  else match Punct.longest? (c :: cs) with
    | some .leftBrace =>
      match frames with
      | opened :: outer => ⟨.punct .leftBrace, 0, (opened + 1) :: outer⟩
      | [] => ⟨.punct .leftBrace, 0, []⟩
    | some .rightBrace =>
      match frames with
      | 0 :: outer => templateResume outer cs
      | (opened + 1) :: outer => ⟨.punct .rightBrace, 0, opened :: outer⟩
      | [] => ⟨.punct .rightBrace, 0, []⟩
    | some p => ⟨.punct p, p.spelling.length - 1, frames⟩
    | none => ⟨.error .unexpectedCharacter, 0, frames⟩

/-- The token that starts with `c` and goes on with characters of `cs`. -/
def lexeme (frames : Frames) (c : Char) (cs : List Char) : Lexeme :=
  if isDigit c then number frames c cs
  else if isWordStart c then
    let n := runLength isWordPart cs
    ⟨.ofWord (String.ofList (c :: cs.take n)), n, frames⟩
  else match c with
    | '\x22' =>
      let (n, closed) := stringLength cs
      ⟨if closed then .stringLiteral else .error .unterminatedString, n, frames⟩
    | '\x27' =>
      let (n, count, closed) := charsLength cs
      ⟨if !closed then .error .unterminatedChar
        else if count = 1 then .charLiteral else .charsLiteral, n, frames⟩
    | '\x60' => templateOpen frames cs
    | '@' =>
      let n := runLength isWordPart cs
      ⟨if n = 0 then .error .unexpectedCharacter else .directive, n, frames⟩
    | _ => mark frames c cs

/-- Where a scan stands: what is still to be read, the offset and line it starts at, and the open
interpolations. -/
structure State where
  file : FileId
  rest : List Char
  offset : Nat
  line : Nat
  frames : Frames
  deriving DecidableEq, Repr

namespace State

def start (file : FileId) (text : String) : State := ⟨file, text.toList, 0, 1, []⟩

/-- Number of bytes in UTF-8. -/
def bytes : List Char → Nat
  | [] => 0
  | c :: cs => c.utf8Size + bytes cs

/-- Moves over the next `n` characters. -/
def skip (st : State) (n : Nat) : State :=
  { st with
    rest := st.rest.drop n
    offset := st.offset + bytes (st.rest.take n)
    line := st.line + (st.rest.take n).count '\n' }

/-- The next token and the state after it. At the end of the text this is the end token, and the
state stays as it is. -/
def next (st : State) : Token × State :=
  let st := st.skip (triviaLength 0 st.rest)
  match st.rest with
  | [] => (⟨.eof, "", ⟨st.file, st.offset, st.offset, st.line⟩⟩, st)
  | c :: cs =>
    let lex := lexeme st.frames c cs
    let after := { st.skip (lex.more + 1) with frames := lex.frames }
    (⟨lex.kind, String.ofList (c :: cs.take lex.more), ⟨st.file, st.offset, after.offset, st.line⟩⟩,
      after)

/-- Calls `next` until the end token has been read, at most `fuel` times. -/
def run : (fuel : Nat) → State → List (Token × State)
  | 0, _ => []
  | fuel + 1, st =>
    let step := st.next
    if step.1.isEof then [step] else step :: run fuel step.2

end State

/-- All tokens of a text, the end token last, each with the state after it. Every token but the
last takes a character, which bounds their number. -/
def steps (file : FileId) (text : String) : List (Token × State) :=
  let st := State.start file text
  st.run (st.rest.length + 1)

/-- All tokens of a text, error tokens included. -/
def scan (file : FileId) (text : String) : List Token := (steps file text).map (·.1)

end Quill.Lexer

namespace Quill.Token

/-- Whether the token stands for characters that are no token. -/
def lexError? (t : Token) : Option LexError :=
  match t.kind with
  | .error reason => some reason
  | _ => none

/-- The tokens of a text that the parser reads. -/
def kept (tokens : List Token) : List Token := tokens.filter (·.lexError?.isNone)

end Quill.Token
