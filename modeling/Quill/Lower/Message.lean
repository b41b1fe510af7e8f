import Quill.Lower.Expr

/-!
# Crash messages in C

A message becomes a format string and its arguments. Text stands for itself, and every inserted
value has one conversion.
-/
namespace Quill.Lower

/-- How a value of this type is printed, and the C type it is converted to for it. -/
def conversion : Option Ty → String × Option CType
  | some (.scalar s) =>
    let c := s.conversion
    (c.directive, if c.argument = s.cName then none else some { name := c.argument })
  | some (.pointer (.scalar .char)) | some (.mutPointer (.scalar .char)) => ("%s", none)
  | _ => ("%p", some { name := "void", stars := 1 })

/-- The inside of the format string of a template, and its arguments. -/
def template (cx : Checked) : List (TemplatePart Expr) → Lower (String × List CExpr)
  | [] => return ("", [])
  | .text text :: parts => do
    let (format, arguments) ← template cx parts
    return (formatText text ++ format, arguments)
  | .expr e :: parts => do
    let value ← expr cx e
    let (directive, target) := conversion (cx.resolution.typeOf? e.id)
    let argument :=
      match target with
      | some type => .cast type value
      | none => value
    let (format, arguments) ← template cx parts
    return (directive ++ format, argument :: arguments)

/-- A format string for a line with this inside. -/
def formatLine (inside : String) : CExpr := .literal ("\"" ++ inside ++ "\\n\"")

def printError (inside : String) (arguments : List CExpr) : CStmt :=
  .expr (.callTo "fprintf" (.var "stderr" :: formatLine inside :: arguments))

end Quill.Lower
