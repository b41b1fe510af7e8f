import Quill.Compile
import Quill.Proofs.PackageBuckets

/-!
# Compiling with any number of buckets

The number of buckets of the package table has no effect on what is compiled.
-/
namespace Quill

open Survey

def Checked.withBuckets (cx : Checked) (buckets : Array (List PackageId)) : Checked :=
  { cx with table := { cx.table with buckets } }

namespace Lower

variable (cx : Checked) (buckets : Array (List PackageId))

@[simp] theorem resolution_withBuckets : (cx.withBuckets buckets).resolution = cx.resolution := rfl

@[simp] theorem cType?_withBuckets (t : Ty) : cType? (cx.withBuckets buckets) t = cType? cx t := by
  cases t with
  | pointer t | mutPointer t | array t _ => rw [cType?, cType?, cType?_withBuckets t]
  | _ => rfl

@[simp] theorem cType_withBuckets : cType (cx.withBuckets buckets) = cType cx := by
  unfold cType
  simp

@[simp] theorem typeOf_withBuckets : typeOf (cx.withBuckets buckets) = typeOf cx := by
  unfold typeOf
  simp

@[simp] theorem reference_withBuckets :
    reference (cx.withBuckets buckets) = reference cx := rfl

mutual

@[simp] theorem expr_withBuckets (e : Expr) : expr (cx.withBuckets buckets) e = expr cx e := by
  cases e with
  | sizeofType info type operand =>
    cases operand with
    | none => simp [expr]
    | some e => simp [expr, expr_withBuckets e]
  | literal | ref | arrayInit | range | tuple | template => simp [expr]
  | binary _ _ l r | index _ l r => simp [expr, expr_withBuckets l, expr_withBuckets r]
  | unary _ _ e | step _ _ e | field _ e _ _ | sizeofExpr _ e | cast _ _ e =>
    simp [expr, expr_withBuckets e]
  | call _ f es => simp [expr, expr_withBuckets f, exprs_withBuckets es]
  | structInit _ fs => simp [expr, fieldInits_withBuckets fs]

@[simp] theorem exprs_withBuckets (es : List Expr) :
    exprs (cx.withBuckets buckets) es = exprs cx es := by
  match es with
  | [] => rfl
  | e :: es => simp [exprs, expr_withBuckets e, exprs_withBuckets es]

@[simp] theorem fieldInits_withBuckets (fs : List (FieldInit Expr)) :
    fieldInits (cx.withBuckets buckets) fs = fieldInits cx fs := by
  match fs with
  | [] => rfl
  | ⟨_, _, e⟩ :: fs => simp [fieldInits, expr_withBuckets e, fieldInits_withBuckets fs]

end

@[simp] theorem elements_withBuckets : elements (cx.withBuckets buckets) = elements cx := by
  funext es
  induction es with
  | nil => rfl
  | cons e es ih => rcases e with ⟨_ | _, _⟩ <;> simp [elements, ih]

@[simp] theorem initial?_withBuckets : initial? (cx.withBuckets buckets) = initial? cx := by
  funext e
  rcases e with _ | e <;> [rfl; cases e <;> simp [initial?, initial]]

@[simp] theorem template_withBuckets : template (cx.withBuckets buckets) = template cx := by
  funext parts
  induction parts with
  | nil => rfl
  | cons p ps ih => cases p <;> simp [template, ih]

theorem nextInstance_withBuckets (defs : List Definition) :
    nextInstance (cx.withBuckets buckets) defs = nextInstance cx defs := by
  funext pending
  induction pending with
  | nil => rfl
  | cons waiting rest ih =>
    rw [nextInstance, nextInstance, ih]
    rfl

theorem withInstances_withBuckets (span : Span) :
    withInstances (cx.withBuckets buckets) span = withInstances cx span := by
  funext budget defs pending
  induction budget generalizing defs pending with
  | zero => cases pending <;> rfl
  | succ budget ih => cases pending <;> simp [withInstances, ih, nextInstance_withBuckets]

theorem definitionFields_withBuckets (defs : List Definition) (span : Span) :
    definitionFields (cx.withBuckets buckets) defs span = definitionFields cx defs span := by
  funext fields
  induction fields with
  | nil => rfl
  | cons f fs ih => simp [definitionFields, ih, storedName]

theorem types_withBuckets : types (cx.withBuckets buckets) = types cx := by
  unfold types
  simp only [withInstances_withBuckets, definitionFields_withBuckets]
  rfl

@[simp] theorem crash_withBuckets : crash (cx.withBuckets buckets) = crash cx := by
  have message : crashMessage (cx.withBuckets buckets) = crashMessage cx := by
    funext e
    unfold crashMessage
    split <;> simp
  unfold crash
  rw [message]

@[simp] theorem countRange_withBuckets :
    countRange (cx.withBuckets buckets) = countRange cx := by
  unfold countRange
  simp

@[simp] theorem countElements_withBuckets :
    countElements (cx.withBuckets buckets) = countElements cx := by
  unfold countElements
  simp

section Body

variable (result : Ty) (run : Stmt → Body (List CStmt))

@[simp] theorem returned_withBuckets :
    returned ⟨cx.withBuckets buckets, result⟩ run = returned ⟨cx, result⟩ run := by
  unfold returned
  simp

mutual

@[simp] theorem stmt_withBuckets (s : Stmt) :
    stmt ⟨cx.withBuckets buckets, result⟩ run s = stmt ⟨cx, result⟩ run s := by
  cases s with
  | block _ body => simp [stmt, stmts_withBuckets body]
  | cond _ _ onTrue onFalse =>
    simp [stmt, stmt_withBuckets onTrue, orElse_withBuckets onFalse]
  | loop _ _ body => simp [stmt, stmt_withBuckets body]
  | foreach _ _ iterable body => cases iterable <;> simp [stmt, stmt_withBuckets body]
  | _ => simp [stmt, localVar]

@[simp] theorem stmts_withBuckets (ss : List Stmt) :
    stmts ⟨cx.withBuckets buckets, result⟩ run ss = stmts ⟨cx, result⟩ run ss := by
  match ss with
  | [] => rfl
  | s :: ss => simp [stmts, stmt_withBuckets s, stmts_withBuckets ss]

@[simp] theorem orElse_withBuckets (s : Option Stmt) :
    orElse ⟨cx.withBuckets buckets, result⟩ run s = orElse ⟨cx, result⟩ run s := by
  match s with
  | none => rfl
  | some s => simp [orElse, stmt_withBuckets s]

end

end Body

@[simp] theorem functionBody_withBuckets (result : Ty) :
    functionBody ⟨cx.withBuckets buckets, result⟩ = functionBody ⟨cx, result⟩ := by
  have later (level : Nat) : deferred ⟨cx.withBuckets buckets, result⟩ level =
      deferred ⟨cx, result⟩ level := by
    induction level with
    | zero => rfl
    | succ level ih =>
      funext s
      simp [deferred, ih]
  funext body st
  simp [functionBody, later]

theorem params_withBuckets : params (cx.withBuckets buckets) = params cx := by
  funext ps
  induction ps with
  | nil => rfl
  | cons p ps ih =>
    funext ts
    cases ts with
    | nil => rfl
    | cons t ts => simp [params, ih]

theorem decl_withBuckets : decl (cx.withBuckets buckets) = decl cx := by
  have head : prototype? (cx.withBuckets buckets) = prototype? cx := by
    unfold prototype?
    simp only [resolution_withBuckets, cType_withBuckets, params_withBuckets]
    rfl
  have global : globalVar (cx.withBuckets buckets) = globalVar cx := by
    unfold globalVar
    simp
    rfl
  funext package isEntry known d
  cases d <;> simp [decl, head, global]

theorem decls_withBuckets (package : PackageId) (isEntry : Bool) :
    decls (cx.withBuckets buckets) package isEntry = decls cx package isEntry := by
  funext known ds
  induction ds generalizing known with
  | nil => rfl
  | cons d ds ih => simp [decls, ih, decl_withBuckets]

theorem package_withBuckets (h : (cx.withBuckets buckets).table.lookup = cx.table.lookup) :
    package (cx.withBuckets buckets) = package cx := by
  have inclusion : importInclusion? (cx.withBuckets buckets) = importInclusion? cx := by
    funext path d
    cases d with
    | imports info decl =>
      rw [importInclusion?, importInclusion?, h]
      rfl
    | _ => rfl
  unfold package
  simp [includes, inclusion, types_withBuckets, decls_withBuckets]

theorem files_withBuckets (h : (cx.withBuckets buckets).table.lookup = cx.table.lookup)
    (ids : List PackageId) : files (cx.withBuckets buckets) ids = files cx ids := by
  induction ids with
  | nil => rfl
  | cons id ids ih =>
    rw [files, files]
    simp only [package_withBuckets cx buckets h, ih]
    rfl

end Lower

namespace PackageTable.Alike

variable {t t' : PackageTable} (h : t.Alike t')

include h

theorem ofPackages (order : List PackageId) :
    ofPackages t' order = ofPackages t order := by
  have imports : declareImport t' = declareImport t := by
    funext site d
    cases d with
    | imports info decl => rw [declareImport, declareImport, h.lookup]
    | _ => rfl
  have package : declarePackage t' = declarePackage t := by
    funext id
    rw [declarePackage, declarePackage, h.get?, imports]
  rw [Survey.ofPackages, Survey.ofPackages, package, h.size]

theorem checked (order : List PackageId) (nodes : Nat) :
    Quill.resolve t' order nodes = Quill.resolve t order nodes := by
  have package : Check.package t' = Check.package t := by
    funext id
    rw [Check.package, Check.package, h.get?]
  rw [Quill.resolve, Quill.resolve, h.ofPackages, package]

theorem generate (resolution : Resolution) :
    Quill.generate t' resolution = Quill.generate t resolution := by
  have other : (⟨t', resolution⟩ : Checked) =
      (⟨t, resolution⟩ : Checked).withBuckets t'.buckets := by
    obtain ⟨packages, buckets⟩ := t'
    obtain rfl : packages = t.packages := h.packages
    rfl
  have lookup : ((⟨t, resolution⟩ : Checked).withBuckets t'.buckets).table.lookup = t.lookup := by
    rw [← other]
    exact h.lookup
  rw [Quill.generate, Quill.generate, other, Lower.files_withBuckets _ _ lookup]

end PackageTable.Alike

theorem compile_buckets (sources : Sources) (entry : FileId) (count count' : Nat) :
    compile sources { entry, buckets := count' } = compile sources { entry, buckets := count } := by
  obtain ⟨unregistered, registered⟩ := (PackageTable.ofBuckets_alike count count').attachAll entry
    false (parse sources.numbered).program.files
  obtain ⟨alike, graph, problems⟩ := registered.imports
  unfold compile PackageTable.registerFiles
  dsimp only
  rw [unregistered, graph, problems, alike.hasEntry, alike.sourced, alike.pathOf]
  simp only [alike.checked, alike.generate]

/-- Whatever the number of its buckets, a package table is a plain map from paths to numbers. After
any paths were resolved on a fresh table, these have the numbers 0, 1, 2, … in the order of their
first turn; each number lies in the bucket of its path and in no other, and the first bucket is that
of the empty path alone; a path is found under a number just if it is the path of that package; and
resolving further paths changes no package. With other numbers of buckets the same paths get the same
numbers and are found the same, and all sources compile to the same result. -/
theorem PackageTable.buckets_immaterial (count count' : Nat) (calls : List PackagePath) :
    let t := ((ofBuckets count).resolveAll calls).2
    let t' := ((ofBuckets count').resolveAll calls).2
    (((ofBuckets count).resolveAll calls).1 = calls.map calls.eraseDups.idxOf ∧
      t.paths = calls.eraseDups ∧ t.paths.Nodup) ∧
    (∀ id < t.size, ∀ b, (t.bucket b).count id = if b = t.bucketOf (t.pathOf id) then 1 else 0) ∧
    (∀ p, t.bucketOf p < t.bucketCount ∧ (t.bucketOf p = 0 ↔ p.segments = [])) ∧
    (∀ p id, t.lookup p = some id ↔ ∃ package, t.packages[id]? = some package ∧ package.path = p) ∧
    (∀ more, ∀ id < t.size, (t.resolveAll more).2.packages[id]? = t.packages[id]?) ∧
    (((ofBuckets count').resolveAll calls).1 = ((ofBuckets count).resolveAll calls).1 ∧
      ∀ p, t'.lookup p = t.lookup p) ∧
    ∀ sources entry, compile sources { entry, buckets := count' } =
      compile sources { entry, buckets := count } := by
  have fresh (n : Nat) := ofBuckets_wellFormed n
  have formed := (fresh count).resolveAll calls
  have numbers (n : Nat) : ((ofBuckets n).resolveAll calls).1 = calls.map calls.eraseDups.idxOf :=
    (fresh n).resolveAll_fst calls
  have paths (n : Nat) : ((ofBuckets n).resolveAll calls).2.paths = calls.eraseDups :=
    (fresh n).paths_resolveAll calls
  refine ⟨⟨numbers count, paths count, formed.distinct⟩, fun id hid b => ?_,
    fun p => ⟨bucketOf_lt formed.enough p, bucketOf_eq_zero_iff _ p⟩, fun p id => ?_,
    fun more id hid => get?_resolveAll_of_lt more hid,
    ⟨(numbers count').trans (numbers count).symm, fun p => ?_⟩,
    fun sources entry => compile_buckets sources entry count count'⟩
  · rw [(formed.nodup_bucket b).count]
    simp only [formed.mem_bucket, hid, true_and]
  · rw [formed.lookup_eq_some_iff, getElem?_paths, Option.map_eq_some_iff, get?]
  · refine Option.ext fun id => ?_
    rw [((fresh count').resolveAll calls).lookup_eq_some_iff, formed.lookup_eq_some_iff,
      paths count', paths count]

end Quill
