import Quill.Token.Basic
import Quill.Directive

/-!
# Problems

What can be wrong with a program, stage by stage. A problem is a cause; its code and wording are
given once, here.
-/
namespace Quill

inductive ParseProblem where
  /-- No `found` text stands for the end of the input. -/
  | expected (what : String) (found : Option String)
  | unknownDirective (text : String)
  | severalLoopVariables
  deriving DecidableEq, Repr

namespace ParseProblem

def code : ParseProblem → String
  | expected _ _ => "E0100"
  | unknownDirective _ => "E0101"
  | severalLoopVariables => "E0102"

def message : ParseProblem → String
  | expected what none => "expected " ++ what ++ ", found end of input"
  | expected what (some found) => "expected " ++ what ++ ", found '" ++ found ++ "'"
  | unknownDirective text => "unknown directive '" ++ text ++ "'"
  | severalLoopVariables => "foreach over several variables is not supported"

end ParseProblem

inductive PlacementProblem where
  | latePackage
  | repeatedPackage
  | repeatedSeparator
  | lateSeparator
  | misplacedDirective (kind : DirectiveKind) (target : String)
  | repeatedDirective (kind : DirectiveKind)
  deriving DecidableEq, Repr

namespace PlacementProblem

def code : PlacementProblem → String
  | latePackage => "E0200"
  | repeatedPackage => "E0201"
  | repeatedSeparator | lateSeparator => "E0202"
  | misplacedDirective _ _ => "E0203"
  | repeatedDirective _ => "E0204"

def message : PlacementProblem → String
  | latePackage => "the package declaration must be the first declaration of a file"
  | repeatedPackage => "a file may declare only one package"
  | repeatedSeparator => "a file may contain only one file separator"
  | lateSeparator => "a file separator must start a file"
  | misplacedDirective kind target =>
    "directive " ++ kind.name ++ " is not allowed on a " ++ target
  | repeatedDirective kind => "duplicate directive " ++ kind.name

end PlacementProblem

inductive PackageProblem where
  | repeated (path : String)
  | unknown (path : String)
  | unnamed
  deriving DecidableEq, Repr

namespace PackageProblem

def code : PackageProblem → String
  | repeated _ => "E0300"
  | unknown _ => "E0301"
  | unnamed => "E0303"

def message : PackageProblem → String
  | repeated path => "package '" ++ path ++ "' is declared by more than one file"
  | unknown path => "cannot find package '" ++ path ++ "'"
  | unnamed => "only the entry file may omit its package declaration"

end PackageProblem

/-- Reasons why a path names nothing. -/
inductive LookupProblem where
  | importedUndeclared (name : String)
  | notInScope (name : String)
  | notImported (name : String)
  | noMember (package name : String)
  | unresolvable (path : List String)
  deriving DecidableEq, Repr

def LookupProblem.message : LookupProblem → String
  | importedUndeclared name => "imported name '" ++ name ++ "' is not declared"
  | notInScope name => "cannot find '" ++ name ++ "' in this scope"
  | notImported name => "'" ++ name ++ "' is not an imported package"
  | noMember package name => "package '" ++ package ++ "' has no member '" ++ name ++ "'"
  | unresolvable path => "cannot resolve path '" ++ "::".intercalate path ++ "'"

/-- Reasons why an expression is no storage that may be written. -/
inductive PlaceProblem where
  | immutableVariable (name : String)
  | immutableGlobal (name : String)
  | notAssignable (name : String)
  | immutablePointer
  | notAPlace (what : String)
  deriving DecidableEq, Repr

def PlaceProblem.message : PlaceProblem → String
  | immutableVariable name => "cannot assign to immutable variable '" ++ name ++ "'"
  | immutableGlobal name => "cannot assign to immutable global '" ++ name ++ "'"
  | notAssignable name => "cannot assign to '" ++ name ++ "'"
  | immutablePointer => "cannot assign through an immutable pointer"
  | notAPlace what => "cannot assign to a " ++ what

inductive NameProblem where
  | lookup (reason : LookupProblem)
  | packageAsType (path : List String)
  | packageAsValue (path : List String)
  | notAType (path : List String)
  | typeAsValue (path : List String)
  | noMain
  | redeclaredInPackage (name : String)
  | redeclaredInScope (name : String)
  | repeatedField (name : String)
  | fieldInitializedTwice (name : String)
  deriving DecidableEq, Repr

namespace NameProblem

def code : NameProblem → String
  | redeclaredInPackage _ | redeclaredInScope _ | repeatedField _ | fieldInitializedTwice _ =>
    "E0405"
  | _ => "E0400"

def message : NameProblem → String
  | lookup reason => reason.message
  | packageAsType path => "'" ++ "::".intercalate path ++ "' is a package, not a type"
  | packageAsValue path => "'" ++ "::".intercalate path ++ "' is a package, not a value"
  | notAType path => "'" ++ "::".intercalate path ++ "' is not a type"
  | typeAsValue path => "'" ++ "::".intercalate path ++ "' is a type, not a value"
  | noMain => "the entry package has no 'main' function"
  | redeclaredInPackage name => "'" ++ name ++ "' is already declared in this package"
  | redeclaredInScope name => "'" ++ name ++ "' is already declared in this scope"
  | repeatedField name => "duplicate field '" ++ name ++ "'"
  | fieldInitializedTwice name => "field '" ++ name ++ "' is initialized twice"

end NameProblem

/-- Problems with types. Types are given by their names. -/
inductive TypeProblem where
  | structArity (name : String) (expected given : Nat)
  | voidVariable (name : String)
  | rangeBounds (low high : String)
  | missingReturnValue (type : String)
  | valueFromVoid
  | notFormattable (type : String)
  | pointerOffset (type : String)
  | operand (operator type : String)
  | operands (operator left right : String)
  | mismatch (expected found : String)
  | temporaryAddress
  | notDereferenceable (type : String)
  | notSteppable (type : String)
  | notAnIndex (type : String)
  | notIndexable (type : String)
  | mainShape
  | notAFunction (type : String)
  | argumentCount (expected found : Nat)
  | arrowWithoutPointer (type : String)
  | dotThroughPointer
  | noField (type field : String)
  | immutable (reason : PlaceProblem)
  | cast (source target : String)
  | uninferredVariable (name : String)
  | untypedGlobal (name : String)
  | uninferredStruct
  | uninferredArray
  deriving DecidableEq, Repr

namespace TypeProblem

def code : TypeProblem → String
  | mainShape | notAFunction _ | argumentCount _ _ => "E0402"
  | arrowWithoutPointer _ | dotThroughPointer | noField _ _ => "E0403"
  | immutable _ => "E0404"
  | cast _ _ => "E0406"
  | uninferredVariable _ | untypedGlobal _ | uninferredStruct | uninferredArray => "E0408"
  | _ => "E0401"

def message : TypeProblem → String
  | structArity name expected given =>
    "struct '" ++ name ++ "' takes " ++ toString expected ++ " type argument(s) but " ++
      toString given ++ " were given"
  | voidVariable name => "'" ++ name ++ "' cannot hold a void value"
  | rangeBounds low high =>
    "range bounds must be integers of one type, found " ++ low ++ " and " ++ high
  | missingReturnValue type => "missing return value of type " ++ type
  | valueFromVoid => "a void function cannot return a value"
  | notFormattable type => "cannot format a value of type " ++ type
  | pointerOffset type => "cannot offset a pointer by " ++ type
  | operand operator type => "cannot apply '" ++ operator ++ "' to " ++ type
  | operands operator left right =>
    "cannot apply '" ++ operator ++ "' to " ++ left ++ " and " ++ right
  | mismatch expected found => "expected " ++ expected ++ ", found " ++ found
  | temporaryAddress => "cannot take the address of a temporary value"
  | notDereferenceable type => "cannot dereference " ++ type
  | notSteppable type => "cannot increment or decrement " ++ type
  | notAnIndex type => "an index must be an integer, found " ++ type
  | notIndexable type => "cannot index into " ++ type
  | mainShape => "'main' must be a function without parameters"
  | notAFunction type => type ++ " is not a function"
  | argumentCount expected found =>
    "expected " ++ toString expected ++ " argument(s), found " ++ toString found
  | arrowWithoutPointer type => "'->' needs a pointer to a struct, found " ++ type
  | dotThroughPointer => "use '->' to reach a field through a pointer"
  | noField type field => type ++ " has no field '" ++ field ++ "'"
  | immutable reason => reason.message
  | cast source target => "cannot cast " ++ source ++ " to " ++ target
  | uninferredVariable name =>
    "cannot infer the type of '" ++ name ++ "' without an initializer"
  | untypedGlobal name => "global '" ++ name ++ "' needs an explicit type"
  | uninferredStruct => "cannot infer the struct type of this initializer"
  | uninferredArray => "cannot infer the element type of this array initializer"

end TypeProblem

/-- Parts of the language that a program uses where they have no meaning. -/
inductive UsageProblem where
  | unsupportedType (what : String)
  | arrayLength (text : String)
  | structInItself (name : String)
  | structThroughField (name field : String)
  | nestedImport
  | deferEscapes
  | switchStatement
  | notIterable (type : String)
  | rangeValue
  | templateValue
  | tupleValue
  deriving DecidableEq, Repr

namespace UsageProblem

def code (_ : UsageProblem) : String := "E0407"

def message : UsageProblem → String
  | unsupportedType what => what ++ " types are not supported yet"
  | arrayLength text => "array length '" ++ text ++ "' must be an integer literal"
  | structInItself name => "struct '" ++ name ++ "' cannot contain itself by value"
  | structThroughField name field =>
    "struct '" ++ name ++ "' contains itself by value through field '" ++ field ++ "'"
  | nestedImport => "nested symbol imports are not supported yet"
  | deferEscapes => "a deferred statement cannot return or defer"
  | switchStatement => "switch statements are not supported yet"
  | notIterable type =>
    "cannot iterate over " ++ type ++ "; expected a range or an array of known length"
  | rangeValue => "ranges are only supported as foreach iterables"
  | templateValue => "template strings are only supported as crash messages"
  | tupleValue => "tuples are not supported yet"

end UsageProblem

inductive LoweringProblem where
  | noSpelling (type : String)
  | arrayReturned (name : String)
  | endlessInstances
  | storedInItself (name : String)
  | untyped
  | unknownLength
  | arrayElsewhere
  | untypedSizeof
  | unresolved (path : List String)
  | noCounterpart (what : String)
  deriving DecidableEq, Repr

namespace LoweringProblem

def code (_ : LoweringProblem) : String := "E0500"

def message : LoweringProblem → String
  | noSpelling type => "type " ++ type ++ " cannot be expressed in C"
  | arrayReturned name => "'" ++ name ++ "' cannot return an array in C"
  | endlessInstances => "generic struct instances nest without end"
  | storedInItself name => "struct " ++ name ++ " contains itself by value"
  | untyped => "expression has no resolved type"
  | unknownLength => "foreach needs an array of known length"
  | arrayElsewhere => "array initializers are only supported in declarations"
  | untypedSizeof => "sizeof operand has no resolved type"
  | unresolved path => "'" ++ "::".intercalate path ++ "' was not resolved"
  | noCounterpart what => "cannot generate C for a " ++ what

end LoweringProblem

inductive Problem where
  | lexical (reason : LexError)
  | grammar (reason : ParseProblem)
  | placement (reason : PlacementProblem)
  | package (reason : PackageProblem)
  | name (reason : NameProblem)
  | type (reason : TypeProblem)
  | usage (reason : UsageProblem)
  | lowering (reason : LoweringProblem)
  | unusedVariable (name : String)
  deriving DecidableEq, Repr

namespace Problem

def code : Problem → String
  | lexical reason => reason.code
  | grammar reason => reason.code
  | placement reason => reason.code
  | package reason => reason.code
  | name reason => reason.code
  | type reason => reason.code
  | usage reason => reason.code
  | lowering reason => reason.code
  | unusedVariable _ => "W0001"

def message : Problem → String
  | lexical reason => reason.message
  | grammar reason => reason.message
  | placement reason => reason.message
  | package reason => reason.message
  | name reason => reason.message
  | type reason => reason.message
  | usage reason => reason.message
  | lowering reason => reason.message
  | unusedVariable var => "unused variable '" ++ var ++ "'"

/-- Whether the problem stops a compilation; the others are warnings. -/
def isError : Problem → Bool
  | unusedVariable _ => false
  | _ => true

/-- Severity and code as they are printed. -/
def heading (p : Problem) : String :=
  (if p.isError then "error[" else "warning[") ++ p.code ++ "]"

end Problem

structure Diagnostic where
  problem : Problem
  span : Span
  deriving DecidableEq, Repr

namespace Diagnostic

def isError (d : Diagnostic) : Bool := d.problem.isError

def render (d : Diagnostic) : String :=
  "line " ++ toString d.span.line ++ ": " ++ d.problem.heading ++ ": " ++ d.problem.message

def hasErrors (ds : List Diagnostic) : Bool := ds.any (·.isError)

end Diagnostic
end Quill
