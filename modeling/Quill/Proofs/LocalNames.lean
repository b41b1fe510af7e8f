import Quill.Proofs.DeclTypes
import Quill.Proofs.FileSections
import Quill.Proofs.InstanceNames
import Quill.Proofs.LayoutLowering
import Quill.Proofs.LocalBinding
import Quill.Proofs.NameCapture
import Quill.Proofs.Regular

/-!
# Names of locals in accepted programs

Where no name is captured, every reference to a local is lowered to a C name that means the
declaration of that local, wherever it is put.
-/
namespace Quill

variable (cx : Checked) (package : PackageId) (isEntry : Bool)

def Decl.function? : Decl → Option (Signature × Block)
  | .function _ sig body => some (sig, body)
  | _ => none

theorem Decl.eq_of_function? {d : Decl} {f : Signature × Block} (h : d.function? = some f) :
    ∃ info, d = .function info f.1 f.2 := by
  cases d with
  | function info sig body =>
    obtain rfl := Option.some.inj h
    exact ⟨info, rfl⟩
  | _ => cases h

def File.functions (file : File) : List (Signature × Block) := file.decls.filterMap Decl.function?

section Accepted

variable {sources : Sources} {options : Options} {order : List PackageId}

theorem Accepted.sourced (h : Accepted sources options order) :
    (sources.resolved options order).1.globals.Sourced (sources.table options) :=
  (Survey.ofPackages_sourced (sources.table options) order).settled
    (resolve_settled h.holds sources.nodes_apart order (parse sources.numbered).ids.nodes)

theorem Accepted.function_typed (h : Accepted sources options order) {id : PackageId} {file : File}
    (hid : id ∈ order) (source : (sources.table options).sourceOf? id = some file) {info : Info}
    {sig : Signature} {body : Block} (hd : .function info sig body ∈ file.decls) :
    ∃ types result, (sources.resolved options order).1.typeOf? info.id =
      some (.function types result) ∧ types.length = sig.params.length := by
  obtain ⟨t, ht⟩ := Option.isSome_iff_exists.mp (h.package_complete hid source _ hd).1
  obtain ⟨s, hs, ⟨hnode, types, result, hkind⟩, rfl⟩ :=
    resolve_owned h.holds sources.nodes_apart order _ source hd rfl ht
  refine ⟨types, result, ?_, ?_⟩
  · rw [hkind] at ht
    exact ht
  · exact h.sourced.arity h.holds sources.nodes_apart source hd hs hnode hkind

end Accepted

namespace Lower

theorem globalVar_bodies (info : Info) (decl : VarDecl) (st : Lowering) :
    (globalVar cx package isEntry info decl st).1.bodies = [] := by
  unfold globalVar
  rcases cx.resolution.typeOf? info.id with _ | t
  · rfl
  · show ((ite _ _ _ : Lower Sections) _).1.bodies = []
    split
    · show (ite _ _ _ : Sections).bodies = []
      split <;> rfl
    · rfl

theorem header_bodies (known : List String) (info : Info) (sig : Signature) (st : Lowering) :
    (decl cx package isEntry known (.header info sig) st).1.2.bodies = [] := by
  show ((ite _ _ _ : Lower (List String × Sections)) st).1.2.bodies = []
  split <;> rfl

theorem decls_marks {ds : List Decl}
    (typed : ∀ info sig body, .function info sig body ∈ ds → ∃ types result,
      cx.resolution.typeOf? info.id = some (.function types result) ∧
        types.length = sig.params.length) (regular : ∀ info sig body, .function info sig body ∈ ds →
      Stmt.allRegular cx body.body = true) (known : List String) (st : Lowering) :
    ((decls cx package isEntry known ds st).1.bodies).map CItem.marks =
      (ds.filterMap Decl.function?).map fun f =>
        (functionMarks cx f.1.params f.2.body).map Mark.bare := by
  induction ds generalizing known st with
  | nil => rfl
  | cons d ds ih =>
    have rest := ih (fun i s b hb => typed i s b (List.mem_cons_of_mem d hb))
      (fun i s b hb => regular i s b (List.mem_cons_of_mem d hb))
      (decl cx package isEntry known d st).1.1 (decl cx package isEntry known d st).2
    have first : ((decl cx package isEntry known d st).1.2.bodies).map CItem.marks =
        d.function?.toList.map fun f => (functionMarks cx f.1.params f.2.body).map Mark.bare := by
      cases d with
      | function info sig body =>
        obtain ⟨types, result, htype, harity⟩ := typed info sig body List.mem_cons_self
        exact function_marks cx package isEntry known htype harity
          (regular info sig body List.mem_cons_self) st
      | header info sig => rw [header_bodies]; rfl
      | var info decl =>
        show (globalVar cx package isEntry info decl st).1.bodies.map CItem.marks = _
        rw [globalVar_bodies]
        rfl
      | _ => rfl
    have bodies : (decls cx package isEntry known (d :: ds) st).1.bodies =
        (decl cx package isEntry known d st).1.2.bodies ++
          (decls cx package isEntry (decl cx package isEntry known d st).1.1 ds
            (decl cx package isEntry known d st).2).1.bodies := rfl
    rw [bodies, List.map_append, first, rest, ← List.map_append]
    cases hf : d.function? <;> simp [hf]

end Lower

section Accepted

variable {sources : Sources} {options : Options} {order : List PackageId}

def Sources.emitted (sources : Sources) (options : Options) (order : List PackageId) :
    List Lower.Emitted :=
  let cx := sources.checked options order
  (Lower.emitted cx order { instances := cx.resolution.globals.instances }).1

theorem Sources.source_of_emitted {l : Lower.Emitted}
    (hl : l ∈ sources.emitted options order) :
    (sources.table options).sourceOf? l.id = some l.file := by
  obtain ⟨-, hget, -⟩ := Lower.mem_emitted hl
  rw [PackageTable.sourceOf?]
  exact congrArg (Option.bind · Package.source) hget

theorem Accepted.emitted_marks (h : Accepted sources options order) {l : Lower.Emitted}
    (hl : l ∈ sources.emitted options order) :
    l.sections.bodies.map CItem.marks = l.file.functions.map fun f =>
      (functionMarks (sources.checked options order) f.1.params f.2.body).map Mark.bare := by
  have source := Sources.source_of_emitted hl
  obtain ⟨hid, -, st, hsections⟩ := Lower.mem_emitted hl
  rw [hsections]
  exact Lower.decls_marks _ l.id l.isEntry (fun info sig body hd => h.function_typed hid source hd)
    (fun info sig body hd => h.regular hid source hd) [] _

/-- Where no function captures a name, every reference to a local in the generated files, copies in
deferred statements included, is found by C's rules to be declared by what its local became. -/
theorem locals_found (h : Accepted sources options order)
    (apart : ∀ file ∈ (parse sources.numbered).program.files, ∀ f ∈ file.functions,
      functionApart (sources.checked options order) f.1.params f.2.body = true) :
    let cx := sources.checked options order
    (generate cx.table cx.resolution).1 = (sources.emitted options order).flatMap (·.files) ∧
    ∀ l ∈ sources.emitted options order,
      l.sections.bodies.map CItem.marks =
        l.file.functions.map (fun f => (functionMarks cx f.1.params f.2.body).map Mark.bare) ∧
      ∀ f ∈ l.file.functions, Mark.Faithful [] (functionMarks cx f.1.params f.2.body) := by
  intro cx
  refine ⟨congrArg (·.1) (Lower.files_eq cx order _), fun l hl => ⟨h.emitted_marks hl, ?_⟩⟩
  intro f hf
  have source := Sources.source_of_emitted hl
  obtain ⟨d, hd, hfunction⟩ := List.mem_filterMap.mp hf
  obtain ⟨info, rfl⟩ := Decl.eq_of_function? hfunction
  refine functionMarks_faithful (apart l.file (h.holds.among l.id l.file source) f hf) ?_
  exact resolve_sighted h.holds sources.nodes_apart h.checked source hd

end Accepted

/-- Functions with locals of one name in several scopes, and a deferred block that is written out
where another local has the name of its own. -/
def reusing : Sources :=
  ["int sum(int n) \x7b int mut t = 0; defer \x7b int x = t; t = x; \x7d foreach i in 0..n \x7b " ++
    "int x = i; if (x == 7) \x7b return t; \x7d t += x; \x7d return t; \x7d\n" ++
    "void main() \x7b int x = sum(9); \x7b int y = x; int x = y; sum(x); \x7d \x7d"]

theorem reusing_found :
    let cx := reusing.checked {} [0]
    Accepted reusing {} [0] ∧
    (∀ file ∈ (parse reusing.numbered).program.files, ∀ f ∈ file.functions,
      functionApart cx f.1.params f.2.body = true) ∧
    (generate cx.table cx.resolution).1 = (reusing.emitted {} [0]).flatMap (·.files) ∧
    ∀ l ∈ reusing.emitted {} [0],
      l.sections.bodies.map CItem.marks =
        l.file.functions.map (fun f => (functionMarks cx f.1.params f.2.body).map Mark.bare) ∧
      ∀ f ∈ l.file.functions, Mark.Faithful [] (functionMarks cx f.1.params f.2.body) := by
  have facts : Accepted reusing {} [0] ∧
      ∀ file ∈ (parse reusing.numbered).program.files, ∀ f ∈ file.functions,
        functionApart (reusing.checked {} [0]) f.1.params f.2.body = true := by
    decide +kernel
  exact ⟨facts.1, facts.2, locals_found facts.1 facts.2⟩

/-- A function whose inner local starts with the value of the outer one of the same name. -/
def shadowing : Sources :=
  ["int f(int x) \x7b \x7b int x = x; return x; \x7d \x7d\nvoid main() \x7b f(1); \x7d"]

/-- In C the inner local is declared before its own initial value, which so is not the outer one. -/
theorem shadowing_captured :
    Accepted shadowing {} [0] ∧
    ∃ l ∈ shadowing.emitted {} [0], ∃ f ∈ l.file.functions,
      (functionMarks (shadowing.checked {} [0]) f.1.params f.2.body).map Mark.bare ∈
        l.sections.bodies.map CItem.marks ∧
      ¬ Mark.Faithful [] (functionMarks (shadowing.checked {} [0]) f.1.params f.2.body) := by
  decide +kernel

end Quill
