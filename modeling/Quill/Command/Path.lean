/-!
# Paths

Paths are cut at slashes. Normalizing looks at the text alone: empty segments and single dots are
dropped, and a segment of several dots climbs one level less than it has dots. A relative result
always starts with `./` or `../`.
-/
namespace Quill.Path

/-- The segments between slashes; one more than there are slashes. -/
def segments : List Char → List (List Char)
  | [] => [[]]
  | c :: cs =>
    match segments cs with
    | [] => [[c]]
    | s :: ss => if c = '/' then [] :: s :: ss else (c :: s) :: ss

/-- Where a path leads: up by `ups` levels and down by `names`, of which the last comes first. -/
structure Place where
  absolute : Bool
  ups : Nat := 0
  names : List (List Char) := []
  deriving DecidableEq, Repr

namespace Place

/-- One level up; the root has none above it. -/
def climb (p : Place) : Place :=
  match p.names with
  | _ :: names => { p with names }
  | [] => if p.absolute then p else { p with ups := p.ups + 1 }

def climbBy : Nat → Place → Place
  | 0, p => p
  | n + 1, p => climbBy n p.climb

def enter (p : Place) (segment : List Char) : Place :=
  if segment = [] ∨ segment = ['.'] then p
  else if segment.all (· == '.') then p.climbBy (segment.length - 1)
  else { p with names := segment :: p.names }

def start (p : Place) : List Char :=
  if p.absolute then ['/']
  else if p.ups = 0 then ['.', '/']
  else (List.replicate p.ups ['.', '.', '/']).flatten

def render (p : Place) : List Char := p.start ++ ['/'].intercalate p.names.reverse

end Place

def isAbsolute (path : List Char) : Bool := path.head? == some '/'

def place (path : List Char) : Place :=
  (segments path).foldl Place.enter { absolute := isAbsolute path }

def normalize (path : String) : String := String.ofList (place path.toList).render

end Quill.Path
