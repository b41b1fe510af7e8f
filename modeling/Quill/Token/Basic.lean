import Quill.Span
import Quill.Scalar

/-!
# Tokens

A token keeps its text and its place. Keywords, the names of built-in types and punctuation are
closed sets with one spelling each; everything else is told apart by its class alone.
-/
namespace Quill

/-- Reasons why the characters at some place are no token. -/
inductive LexError where
  | unexpectedCharacter
  | unterminatedString
  | unterminatedChar
  | unterminatedTemplate
  | unterminatedComment
  deriving DecidableEq, Repr

namespace LexError

def code : LexError → String
  | unexpectedCharacter => "E0001"
  | unterminatedString => "E0002"
  | unterminatedChar => "E0003"
  | unterminatedTemplate => "E0004"
  | unterminatedComment => "E0005"

def message : LexError → String
  | unexpectedCharacter => "unexpected character"
  | unterminatedString => "unterminated string literal"
  | unterminatedChar => "unterminated character literal"
  | unterminatedTemplate => "unterminated template string"
  | unterminatedComment => "unterminated block comment"

end LexError

/-- Reserved words other than the names of built-in types. -/
inductive Keyword where
  | kTrue | kFalse | kLet | kMut | kStatic | kStruct | kTypedef | kPackage | kImport
  | kIf | kElse | kWhile | kForeach | kIn | kReturn | kDefer | kCrash | kSizeof | kCast | kSwitch
  deriving DecidableEq, Repr

namespace Keyword

def all : List Keyword :=
  [kTrue, kFalse, kLet, kMut, kStatic, kStruct, kTypedef, kPackage, kImport, kIf, kElse, kWhile,
    kForeach, kIn, kReturn, kDefer, kCrash, kSizeof, kCast, kSwitch]

def spelling : Keyword → String
  | kTrue => "true" | kFalse => "false" | kLet => "let" | kMut => "mut" | kStatic => "static"
  | kStruct => "struct" | kTypedef => "typedef" | kPackage => "package" | kImport => "import"
  | kIf => "if" | kElse => "else" | kWhile => "while" | kForeach => "foreach" | kIn => "in"
  | kReturn => "return" | kDefer => "defer" | kCrash => "crash" | kSizeof => "sizeof"
  | kCast => "cast" | kSwitch => "switch"

def label : Keyword → String
  | kTrue => "TRUE" | kFalse => "FALSE" | kLet => "LET" | kMut => "MUT" | kStatic => "STATIC"
  | kStruct => "STRUCT" | kTypedef => "TYPEDEF" | kPackage => "PACKAGE" | kImport => "IMPORT"
  | kIf => "IF" | kElse => "ELSE" | kWhile => "WHILE" | kForeach => "FOREACH" | kIn => "IN"
  | kReturn => "RETURN" | kDefer => "DEFER" | kCrash => "CRASH" | kSizeof => "SIZEOF"
  | kCast => "CAST" | kSwitch => "SWITCH"

def ofSpelling? (text : String) : Option Keyword := all.find? (·.spelling == text)

end Keyword

inductive Punct where
  | leftParen | rightParen | leftBrace | rightBrace | leftBracket | rightBracket
  | comma | semicolon | colon | colonColon | question | tilde | dot | dotDot | dotDotEqual
  | plus | plusPlus | plusEqual | minus | minusMinus | minusEqual | arrow | tripleMinus
  | star | starEqual | slash | slashEqual | percent | percentEqual
  | equal | equalEqual | bang | bangEqual
  | less | lessEqual | lessLess | lessLessEqual | greater | greaterEqual
  | amp | ampAmp | ampEqual | pipe | pipePipe | pipeEqual | caret | caretEqual
  deriving DecidableEq, Repr

namespace Punct

/-- All marks, longer ones first, so that the first match is the longest. Two adjacent `>` stay
two marks: nested generic lists close one level at a time. -/
def all : List Punct :=
  [dotDotEqual, tripleMinus, lessLessEqual,
    colonColon, dotDot, plusPlus, plusEqual, minusMinus, minusEqual, arrow, starEqual, slashEqual,
    percentEqual, equalEqual, bangEqual, lessEqual, lessLess, greaterEqual, ampAmp, ampEqual,
    pipePipe, pipeEqual, caretEqual,
    leftParen, rightParen, leftBrace, rightBrace, leftBracket, rightBracket, comma, semicolon,
    colon, question, tilde, dot, plus, minus, star, slash, percent, equal, bang, less, greater,
    amp, pipe, caret]

def spelling : Punct → List Char
  | leftParen => ['('] | rightParen => [')']
  | leftBrace => ['\x7b'] | rightBrace => ['\x7d']
  | leftBracket => ['['] | rightBracket => [']']
  | comma => [','] | semicolon => [';'] | colon => [':'] | colonColon => [':', ':']
  | question => ['?'] | tilde => ['~']
  | dot => ['.'] | dotDot => ['.', '.'] | dotDotEqual => ['.', '.', '=']
  | plus => ['+'] | plusPlus => ['+', '+'] | plusEqual => ['+', '=']
  | minus => ['-'] | minusMinus => ['-', '-'] | minusEqual => ['-', '=']
  | arrow => ['-', '>'] | tripleMinus => ['-', '-', '-']
  | star => ['*'] | starEqual => ['*', '='] | slash => ['/'] | slashEqual => ['/', '=']
  | percent => ['%'] | percentEqual => ['%', '=']
  | equal => ['='] | equalEqual => ['=', '='] | bang => ['!'] | bangEqual => ['!', '=']
  | less => ['<'] | lessEqual => ['<', '='] | lessLess => ['<', '<']
  | lessLessEqual => ['<', '<', '='] | greater => ['>'] | greaterEqual => ['>', '=']
  | amp => ['&'] | ampAmp => ['&', '&'] | ampEqual => ['&', '=']
  | pipe => ['|'] | pipePipe => ['|', '|'] | pipeEqual => ['|', '=']
  | caret => ['^'] | caretEqual => ['^', '=']

def label : Punct → String
  | leftParen => "LEFT_PAREN" | rightParen => "RIGHT_PAREN"
  | leftBrace => "LEFT_BRACE" | rightBrace => "RIGHT_BRACE"
  | leftBracket => "LEFT_BRACKET" | rightBracket => "RIGHT_BRACKET"
  | comma => "COMMA" | semicolon => "SEMICOLON" | colon => "COLON" | colonColon => "COLON_COLON"
  | question => "QUESTION" | tilde => "TILDE"
  | dot => "DOT" | dotDot => "DOT_DOT" | dotDotEqual => "DOT_DOT_EQUAL"
  | plus => "PLUS" | plusPlus => "PLUS_PLUS" | plusEqual => "PLUS_EQUAL"
  | minus => "MINUS" | minusMinus => "MINUS_MINUS" | minusEqual => "MINUS_EQUAL"
  | arrow => "ARROW" | tripleMinus => "TRIPLE_MINUS"
  | star => "STAR" | starEqual => "STAR_EQUAL" | slash => "SLASH" | slashEqual => "SLASH_EQUAL"
  | percent => "PERCENT" | percentEqual => "PERCENT_EQUAL"
  | equal => "EQUAL" | equalEqual => "EQUAL_EQUAL" | bang => "BANG" | bangEqual => "BANG_EQUAL"
  | less => "LESS" | lessEqual => "LESS_EQUAL" | lessLess => "LESS_LESS"
  | lessLessEqual => "LESS_LESS_EQUAL" | greater => "GREATER" | greaterEqual => "GREATER_EQUAL"
  | amp => "AMP" | ampAmp => "AMP_AMP" | ampEqual => "AMP_EQUAL"
  | pipe => "PIPE" | pipePipe => "PIPE_PIPE" | pipeEqual => "PIPE_EQUAL"
  | caret => "CARET" | caretEqual => "CARET_EQUAL"

/-- The longest mark that stands at the front of a text. -/
def longest? (text : List Char) : Option Punct := all.find? (·.spelling.isPrefixOf text)

end Punct

/-- Classes of tokens. A template string without interpolation is one `templateFull`; otherwise it
runs from `templateStart` over any number of `templateMiddle` to `templateEnd`. -/
inductive TokenKind where
  | eof
  | error (reason : LexError)
  | identifier
  | intLiteral
  | floatLiteral
  | stringLiteral
  | charLiteral
  | charsLiteral
  | templateFull
  | templateStart
  | templateMiddle
  | templateEnd
  | directive
  | punct (mark : Punct)
  | void
  | scalar (s : Scalar)
  | keyword (word : Keyword)
  deriving DecidableEq, Repr

namespace TokenKind

def label : TokenKind → String
  | eof => "EOF"
  | error _ => "ERROR"
  | identifier => "IDENTIFIER"
  | intLiteral => "INT"
  | floatLiteral => "FLOAT"
  | stringLiteral => "STRING"
  | charLiteral => "CHAR_LITERAL"
  | charsLiteral => "CHARS"
  | templateFull => "TEMPLATE_FULL"
  | templateStart => "TEMPLATE_START"
  | templateMiddle => "TEMPLATE_MIDDLE"
  | templateEnd => "TEMPLATE_END"
  | directive => "DIRECTIVE"
  | punct mark => mark.label
  | void => "VOID"
  | scalar .int => "INT_TYPE"
  | scalar .uint => "UINT_TYPE"
  | scalar .float => "FLOAT_TYPE"
  | scalar s => s.name.toUpper
  | keyword word => word.label

def isBuiltinType : TokenKind → Bool
  | void | scalar _ => true
  | _ => false

/-- The class of a run of identifier characters: a reserved word or an identifier. -/
def ofWord (text : String) : TokenKind :=
  if text = "void" then void
  else match Scalar.ofName? text with
    | some s => scalar s
    | none => match Keyword.ofSpelling? text with
      | some word => keyword word
      | none => identifier

end TokenKind

structure Token where
  kind : TokenKind
  text : String
  span : Span
  deriving DecidableEq, Repr

namespace Token

def isEof (t : Token) : Bool := t.kind == .eof

/-- The text without its first and last character. -/
def inner (t : Token) : String := String.ofList t.text.toList.tail.dropLast

end Token
end Quill
