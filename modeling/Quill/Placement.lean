import Quill.Problem
import Quill.Tree.Outline

/-!
# Placement

What the grammar leaves open: a separator may only start a file, a package declaration comes first
or right after that separator and at most once, and a directive may stand at most once and only on
the kinds of nodes and types it is meant for.
-/
namespace Quill

/-- Whether a directive is meant for this kind of node. -/
def Node.allows (n : Node) : DirectiveKind → Bool
  | .cHeader => match n with
    | .decl (.package _ _) => true
    | _ => false
  | .cFile => match n with
    | .decl (.typedef _ _ _) => true
    | _ => false
  | .unused => match n with
    | .decl (.var _ _) | .stmt (.var _ _) | .decl (.function _ _ _) | .decl (.header _ _) => true
    | _ => false
  | .external => match n with
    | .decl (.header _ _) | .decl (.var _ _) | .stmt (.var _ _) => true
    | _ => false
  | .cStr => match n with
    | .expr (.literal _ (.string _)) | .expr (.literal _ (.chars _)) => true
    | _ => false
  | .stackBuf => match n with
    | .expr (.template _ _) => true
    | _ => false
  | .rangeUsize => match n with
    | .expr (.range _ _ _ _) => true
    | _ => false
  | .restrict => false

/-- Whether a directive is meant for this kind of type. -/
def TypeExpr.allows (t : TypeExpr) : DirectiveKind → Bool
  | .restrict => match t with
    | .pointer _ _ | .mutPointer _ _ => true
    | _ => false
  | _ => false

/-- The problems with the directives on one target, given the kinds seen before them. -/
def Directive.problems (allowed : DirectiveKind → Bool) (target : String) :
    (seen : List DirectiveKind) → List Directive → List Diagnostic
  | _, [] => []
  | seen, d :: ds =>
    if seen.contains d.kind then
      ⟨.placement (.repeatedDirective d.kind), d.span⟩ :: problems allowed target seen ds
    else if allowed d.kind then problems allowed target (d.kind :: seen) ds
    else
      ⟨.placement (.misplacedDirective d.kind target), d.span⟩ ::
        problems allowed target (d.kind :: seen) ds

def TypeExpr.directiveProblems (t : TypeExpr) : List Diagnostic :=
  t.parts.flatMap fun u => Directive.problems u.allows "type" [] u.info.directives

def Node.directiveProblems (n : Node) : List Diagnostic :=
  Directive.problems n.allows n.kindName [] n.directives ++
    n.types.flatMap TypeExpr.directiveProblems

def Outline.directiveProblems (o : Outline) : List Diagnostic :=
  o.nodes.flatMap Node.directiveProblems

def Decl.placementProblems (d : Decl) : List Diagnostic := d.outline.directiveProblems

namespace File

structure Progress where
  index : Nat := 0
  package : Bool := false
  separator : Bool := false
  deriving DecidableEq, Repr

def Progress.add (p : Progress) (d : Decl) : Progress where
  index := p.index + 1
  package := p.package || d.packagePath?.isSome
  separator := p.separator || d.isSeparator

def placeProblem? (p : Progress) : Decl → Option PlacementProblem
  | .separator _ =>
    if p.separator then some .repeatedSeparator
    else if p.index ≠ 0 then some .lateSeparator
    else none
  | .package _ _ =>
    if p.package then some .repeatedPackage
    else if p.index = 0 || (p.index = 1 && p.separator) then none
    else some .latePackage
  | _ => none

def declProblems : Progress → List Decl → List Diagnostic
  | _, [] => []
  | p, d :: ds =>
    ((placeProblem? p d).map fun reason => (⟨.placement reason, d.span⟩ : Diagnostic)).toList ++
      d.placementProblems ++ declProblems (p.add d) ds

def placementProblems (f : File) : List Diagnostic := declProblems {} f.decls

end File

def Program.placementProblems (p : Program) : List Diagnostic :=
  p.files.flatMap File.placementProblems

end Quill
