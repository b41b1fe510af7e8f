import Quill.Scope.Basic
import Quill.Text.Decimal

/-!
# Meaning of written types

A written type is resolved as seen from a package. Problems are reported where they are found, and
a type with a problem in it has no meaning. Versions of generic structs are given out on the way,
but not to types that still hold generic parameters.
-/
namespace Quill

/-- What is known of the packages so far, and the problems found. -/
structure Survey where
  globals : Globals
  problems : List Diagnostic := []
  deriving Repr

/-- The generic parameters in scope, and the node that declares them. -/
structure GenericParams where
  owner : Nat
  names : List String
  deriving Repr

namespace Survey

def report (problem : Problem) (span : Span) : StateM Survey Unit :=
  modify fun s => { s with problems := s.problems ++ [⟨problem, span⟩] }

/-- Gives out the version of a struct with these arguments, and notes that `package` uses it. -/
def useInstance (package : PackageId) (decl : StructId) (arguments : List Ty) :
    StateM Survey Ty := do
  let g := (← get).globals
  let (version, instances) := g.instances.instantiate decl arguments
  modify fun s =>
    { s with
      globals := { g with instances }.modifyScope package fun scope =>
        if scope.instances.contains (decl, version) then scope
        else { scope with instances := scope.instances ++ [(decl, version)] } }
  return .instance decl arguments version

/-- Reads the length of an array type, where it has one. -/
def arrayLength (span : Span) : Option String → StateM Survey (Option (Option Nat))
  | none => return some none
  | some text =>
    match Decimal.read? text with
    | some n => return some (some n)
    | none => do
      report (.usage (.arrayLength text)) span
      return none

def namedSymbol? (package : PackageId) (span : Span) (path : List String) :
    StateM Survey (Option Symbol) := do
  match (← get).globals.lookup package path with
  | .ok (.symbol s) => return some s
  | .ok (.package _) =>
    report (.name (.packageAsType path)) span
    return none
  | .error reason =>
    report (.name (.lookup reason)) span
    return none

/-- The generic parameter that a path names, if it names one. -/
def genericParam? (params : Option GenericParams) (path : List String) : Option Ty :=
  match params, path with
  | some ps, [name] =>
    (ps.names.findIdx? (· == name)).map fun index => .generic name index ps.owner
  | _, _ => none

/-- The type that a symbol stands for with the arguments written after it, which `resolved`
resolves. -/
def symbolType (package : PackageId) (info : Info) (path : List String)
    (arguments : List TypeExpr) (resolved : StateM Survey (Option (List Ty))) (symbol : Symbol) :
    StateM Survey (Option Ty) := do
  match symbol.kind with
  | .typedef t =>
    if arguments.isEmpty then return some t
    report (.name (.notAType path)) info.span
    return none
  | .struct id =>
    let decl := (← get).globals.structs.get id
    if arguments.length != decl.generics.length then
      report (.type (.structArity decl.name decl.generics.length arguments.length)) info.span
      return none
    if arguments.isEmpty then return some (.struct id)
    let some resolved ← resolved | return none
    if Ty.anyGenerics resolved then return some (.instance id resolved 0)
    return some (← useInstance package id resolved)
  | .function _ _ | .var _ _ =>
    report (.name (.notAType path)) info.span
    return none

mutual

def resolveType (package : PackageId) (params : Option GenericParams) :
    TypeExpr → StateM Survey (Option Ty)
  | .void _ => return some .void
  | .scalar _ s => return some (.scalar s)
  | .pointer _ t => return (← resolveType package params t).map .pointer
  | .mutPointer _ t => return (← resolveType package params t).map .mutPointer
  | .array info t length => do
    let some element ← resolveType package params t | return none
    return (← arrayLength info.span length).map (.array element)
  | .named info path arguments => do
    if let some t := genericParam? params path then return some t
    let some symbol ← namedSymbol? package info.span path | return none
    symbolType package info path arguments (resolveTypes package params arguments) symbol
  | .slice info _ => do
    report (.usage (.unsupportedType "slice")) info.span
    return none
  | .optional info _ => do
    report (.usage (.unsupportedType "optional")) info.span
    return none
  | .result info _ _ => do
    report (.usage (.unsupportedType "result")) info.span
    return none
  | .tuple info _ => do
    report (.usage (.unsupportedType "tuple")) info.span
    return none

/-- Resolves types in order up to the first one without a meaning. -/
def resolveTypes (package : PackageId) (params : Option GenericParams) :
    List TypeExpr → StateM Survey (Option (List Ty))
  | [] => return some []
  | t :: ts => do
    let some resolved ← resolveType package params t | return none
    return (← resolveTypes package params ts).map (resolved :: ·)

end

end Survey
end Quill
