/-!
# Arguments

Options may stand anywhere among the inputs. A long option has its value behind an equals sign or
in the next argument, a short one also right behind its letter; letters may be joined. What an
option or a run of inputs was given is looked at when the next one begins, so an unknown argument
comes before a bad value in front of it.
-/
namespace Quill.Command

inductive Format where
  | c | tokens | tree
  deriving DecidableEq, Repr

def Format.ofName? : String → Option Format
  | "c" => some .c
  | "tokens" => some .tokens
  | "ast" => some .tree
  | _ => none

inductive UsageError where
  | missingInput
  | unknownArgument
  | invalidValue
  | repeatedOption
  | unexpectedValue
  | help
  | version
  deriving DecidableEq, Repr

structure Invocation where
  inputs : List String := []
  entry : Option String := none
  outDir : Option String := none
  format : Option Format := none
  /-- How often more output was asked for. -/
  verbosity : Nat := 0
  deriving DecidableEq, Repr

def Invocation.target (i : Invocation) : String := i.outDir.getD "build"

inductive ValueOption where
  | entry | outDir | format
  deriving DecidableEq, Repr

inductive Flag where
  | verbose | help | version
  deriving DecidableEq, Repr

def longOption? : String → Option (ValueOption ⊕ Flag)
  | "main" => some (.inl .entry)
  | "out-dir" => some (.inl .outDir)
  | "emit" => some (.inl .format)
  | "verbose" => some (.inr .verbose)
  | "help" => some (.inr .help)
  | "version" => some (.inr .version)
  | _ => none

def shortOption? : Char → Option (ValueOption ⊕ Flag)
  | 'o' => some (.inl .outDir)
  | 'v' => some (.inr .verbose)
  | 'h' => some (.inr .help)
  | 'V' => some (.inr .version)
  | _ => none

/-- What was read and not yet looked at. -/
inductive Pending where
  | nothing
  | option (o : ValueOption) (value : Option String)
  | inputs (paths : List String)
  deriving DecidableEq, Repr

structure Reading where
  invocation : Invocation := {}
  pending : Pending := .nothing
  /-- Everything behind `--` is an input. -/
  onlyInputs : Bool := false
  deriving DecidableEq, Repr

namespace Reading

def setOption (i : Invocation) (value : String) : ValueOption → Except UsageError Invocation
  | .entry =>
    if i.entry.isSome then .error .repeatedOption
    else if value.isEmpty then .error .invalidValue
    else .ok { i with entry := some value }
  | .outDir =>
    if i.outDir.isSome then .error .repeatedOption
    else if value.isEmpty then .error .invalidValue
    else .ok { i with outDir := some value }
  | .format =>
    if i.format.isSome then .error .repeatedOption
    else
      match Format.ofName? value with
      | some f => .ok { i with format := some f }
      | none => .error .invalidValue

/-- Looks at what is pending. -/
def settle (r : Reading) : Except UsageError Reading :=
  match r.pending with
  | .nothing => .ok r
  | .option _ none => .error .invalidValue
  | .option o (some value) => do
    return { r with invocation := ← setOption r.invocation value o, pending := .nothing }
  | .inputs paths =>
    if paths.any (·.isEmpty) then .error .invalidValue
    else
      .ok { r with
        invocation := { r.invocation with inputs := r.invocation.inputs ++ paths }
        pending := .nothing }

def flag (r : Reading) (f : Flag) : Except UsageError Reading := do
  let r ← r.settle
  match f with
  | .verbose =>
    return { r with
      invocation := { r.invocation with verbosity := r.invocation.verbosity + 1 } }
  | .help => .error .help
  | .version => .error .version

/-- An option with the value attached to it, if there is one. -/
def option (r : Reading) (o : ValueOption) (attached : Option String) :
    Except UsageError Reading := do
  let r ← r.settle
  match attached with
  | some value => return { r with invocation := ← setOption r.invocation value o }
  | none => return { r with pending := .option o none }

def input (r : Reading) (path : String) : Except UsageError Reading := do
  match r.pending with
  | .inputs paths => return { r with pending := .inputs (paths ++ [path]) }
  | _ =>
    let r ← r.settle
    return { r with pending := .inputs [path] }

/-- An argument behind two dashes. -/
def long (r : Reading) (text : List Char) : Except UsageError Reading :=
  let name := String.ofList (text.takeWhile (· != '='))
  let attached :=
    match text.dropWhile (· != '=') with
    | _ :: value => some (String.ofList value)
    | [] => none
  match longOption? name with
  | none => .error .unknownArgument
  | some (.inl o) => r.option o attached
  | some (.inr f) => if attached.isSome then .error .unexpectedValue else r.flag f

/-- Letters behind one dash. -/
def short (r : Reading) : List Char → Except UsageError Reading
  | [] => .ok r
  | c :: cs =>
    match shortOption? c with
    | none => .error .unknownArgument
    | some (.inl o) =>
      match cs with
      | [] => r.option o none
      | '=' :: value => r.option o (some (String.ofList value))
      | value => r.option o (some (String.ofList value))
    | some (.inr f) => do (← r.flag f).short cs

def argument (r : Reading) (text : String) : Except UsageError Reading :=
  if r.onlyInputs then r.input text
  else
    match text.toList with
    | ['-', '-'] => .ok { r with onlyInputs := true }
    | '-' :: '-' :: rest => r.long rest
    | '-' :: c :: rest => r.short (c :: rest)
    | _ =>
      match r.pending with
      | .option o none => .ok { r with pending := .option o (some text) }
      | _ => r.input text

end Reading

def readArguments (arguments : List String) : Except UsageError Invocation := do
  let r ← arguments.foldlM Reading.argument {}
  let r ← r.settle
  if r.invocation.inputs.isEmpty then throw .missingInput
  return r.invocation

end Quill.Command
