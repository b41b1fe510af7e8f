import Quill.Proofs.BodyLowering
import Quill.Proofs.CountingLoop

/-!
# Loops through an array

In C the iterable of a loop over an array stands in the initial value of the binding, so it is evaluated
anew for each element. What it calls and increments happens once only where there is one element, or
nothing to happen.
-/
namespace Quill

open List Expr

mutual

/-- The calls and increments that are performed whenever the expression is evaluated. Operands of
`sizeof` never are, and right operands of logical operators not always. -/
def CExpr.acts : CExpr → List CExpr
  | .var _ | .literal _ | .sizeofType _ | .sizeofExpr _ => []
  | .binary op l r => l.acts ++ if op.isLogical then [] else r.acts
  | .unary op e => e.acts ++ if op = .preInc ∨ op = .preDec then [.unary op e] else []
  | .step op e => e.acts ++ [.step op e]
  | .call f es => f.acts ++ CExpr.allActs es ++ [.call f es]
  | .field e _ _ | .cast _ e => e.acts
  | .index e i => e.acts ++ i.acts
  | .compound _ fs => CExpr.fieldActs fs
  | .elements es => CExpr.elementActs es

def CExpr.allActs : List CExpr → List CExpr
  | [] => []
  | e :: es => e.acts ++ CExpr.allActs es

def CExpr.fieldActs : List (String × CExpr) → List CExpr
  | [] => []
  | (_, e) :: fs => e.acts ++ CExpr.fieldActs fs

def CExpr.elementActs : List (Option CExpr × CExpr) → List CExpr
  | [] => []
  | (none, e) :: es => e.acts ++ CExpr.elementActs es
  | (some i, e) :: es => i.acts ++ e.acts ++ CExpr.elementActs es

end

mutual

/-- The number of calls and increments in an expression that C performs with it. -/
def Expr.acts : Expr → Nat
  | .literal _ _ | .ref _ _ | .sizeofType _ _ _ | .sizeofExpr _ _ | .arrayInit _ _ _ | .range _ _ _ _
  | .tuple _ _ | .template _ _ => 0
  | .binary _ op l r => l.acts + if op.isLogical then 0 else r.acts
  | .unary _ op e => e.acts + if op = .preInc ∨ op = .preDec then 1 else 0
  | .step _ _ e => e.acts + 1
  | .call _ f es => f.acts + allActs es + 1
  | .field _ e _ _ | .cast _ _ e => e.acts
  | .index _ e i => e.acts + i.acts
  | .structInit _ fs => fieldActs fs

def Expr.allActs : List Expr → Nat
  | [] => 0
  | e :: es => e.acts + allActs es

def Expr.fieldActs : List (FieldInit Expr) → Nat
  | [] => 0
  | ⟨_, _, e⟩ :: fs => e.acts + fieldActs fs

end

section Lowering

open Lower

variable (cx : Checked)

theorem acts_reference (info : Info) (path : List String) (st : Lowering) :
    (reference cx info path st).1.acts = [] := by
  unfold reference
  rcases cx.resolution.binding? info.id with _ | b
  · rfl
  · cases b <;> rfl

mutual

theorem length_acts (e : Expr) (st : Lowering) : (expr cx e st).1.acts.length = e.acts := by
  match e with
  | .literal _ _ => rfl
  | .ref info path =>
    rw [expr, acts_reference]
    rfl
  | .binary _ op l r =>
    rw [acts, ← length_acts l st, ← length_acts r (expr cx l st).2]
    refine length_append.trans (congrArg _ ?_)
    split <;> rfl
  | .unary _ op e =>
    rw [acts, ← length_acts e st]
    refine length_append.trans (congrArg _ ?_)
    split <;> rfl
  | .step _ op e =>
    rw [acts, ← length_acts e st]
    exact length_append
  | .call _ f es =>
    rw [acts, ← length_acts f st, ← length_allActs es (expr cx f st).2, ← length_append]
    exact length_append
  | .field _ e _ _ => exact length_acts e st
  | .index _ e i =>
    rw [acts, ← length_acts e st, ← length_acts i (expr cx e st).2]
    exact length_append
  | .structInit info fs => exact length_fieldActs fs _
  | .sizeofType info _ none =>
    rw [expr]
    cases cx.resolution.written? info.id <;> rfl
  | .sizeofType info _ (some operand) =>
    rw [expr]
    cases cx.resolution.written? info.id <;> rfl
  | .cast info _ e => exact length_acts e _
  | .sizeofExpr _ _ | .arrayInit _ _ _ | .range _ _ _ _ | .tuple _ _ | .template _ _ => rfl

theorem length_allActs (es : List Expr) (st : Lowering) :
    (CExpr.allActs (exprs cx es st).1).length = allActs es := by
  match es with
  | [] => rfl
  | e :: es =>
    rw [allActs, ← length_acts e st, ← length_allActs es (expr cx e st).2]
    exact length_append

theorem length_fieldActs (fs : List (FieldInit Expr)) (st : Lowering) :
    (CExpr.fieldActs (fieldInits cx fs st).1).length = fieldActs fs := by
  match fs with
  | [] => rfl
  | ⟨_, _, e⟩ :: fs =>
    rw [fieldActs, ← length_acts e st, ← length_fieldActs fs (expr cx e st).2]
    exact length_append

end

end Lowering

/-- One round of a loop: the value of the counter, the store in which the binding gets its value, the
initial value that is evaluated there, and what comes of it. -/
structure Round (World Value : Type) where
  position : Int
  before : CStore World
  initial : CExpr
  value : Value

/-- How the parts of a program that are not modelled run, with any effect on the store: an expression
for an array, which gives its elements, and the body of a loop, given the value of its binding. -/
structure ArrayMachine (World Value : Type) where
  target : CTarget
  array : CExpr → CStore World → (Int → Value) × CStore World
  body : List CStmt → Value → CStore World → CStore World

/-- The number that a decimal literal stands for. -/
def literalValue (text : String) : Int := Nat.ofDigitChars 10 text.toList 0

theorem literalValue_toString (n : Nat) : literalValue (toString n) = n := by
  simp [literalValue, Nat.ofDigitChars_ten_toDigits]

namespace ArrayMachine

variable {World Value : Type} (m : ArrayMachine World Value)

/-- The outcome of comparing a variable with a literal. -/
def test? (s : CStore World) : CExpr → Option Bool
  | .binary .lt (.var x) (.literal text) => do
    let c ← s.cell? x
    return c.value < literalValue text
  | _ => none

/-- The element of an array at the place that a variable tells, and the store behind. -/
def element? (s : CStore World) : CExpr → Option (Value × CStore World)
  | .index array (.var x) => do
    let c ← s.cell? x
    let (elements, s') := m.array array s
    return (elements c.value, s')
  | _ => none

/-- A counting loop whose body declares a variable first ends after these rounds. -/
inductive Rounds (counter : String) (test advance initial : CExpr) (body : List CStmt) :
    CStore World → List (Round World Value) → Prop where
  | stop {s : CStore World} (h : test? s test = some false) : Rounds counter test advance initial body s []
  | round {s s' s'' : CStore World} {c : CCell} {v : Value} {rs : List (Round World Value)}
      (h : test? s test = some true) (position : s.cell? counter = some c)
      (value : m.element? s initial = some (v, s'))
      (next : (m.body body v s').advance? advance = some s'')
      (rest : Rounds counter test advance initial body s'' rs) :
      Rounds counter test advance initial body s (⟨c.value, s, initial, v⟩ :: rs)

/-- The statement, a counting loop that starts at a literal, ends after these rounds. -/
inductive Runs : CStore World → CStmt → List (Round World Value) → Prop where
  | counted {s : CStore World} {type : CType} {t : CInt} {counter text : String} {element : CVar}
      {test advance initial : CExpr} {body : List CStmt} {rs : List (Round World Value)}
      (typed : m.target.integer? type = some t) (init : element.init = some initial)
      (rounds : m.Rounds counter test advance initial body
        (s.declare counter ⟨t, t.wrap (literalValue text)⟩) rs) :
      Runs s (.count { type, name := counter, init := some (.literal text) } test advance
        (.var element :: body)) rs

end ArrayMachine

/-- A loop through an array as it stands in C. -/
structure ElementLoop where
  counter : String
  length : Nat
  binding : CVar
  iterable : CExpr
  body : List CStmt

namespace ElementLoop

variable {World Value : Type} (loop : ElementLoop) (m : ArrayMachine World Value)

def test : CExpr := .binary .lt (.var loop.counter) (.literal (toString loop.length))

def advance : CExpr := .step .inc (.var loop.counter)

def element : CExpr := .index loop.iterable (.var loop.counter)

def toStmt : CStmt :=
  .count { type := { name := Scalar.uptr.cName }, name := loop.counter, init := some (.literal "0") }
    loop.test loop.advance (.var { loop.binding with init := some loop.element } :: loop.body)

/-- Nothing but the loop changes its counter. -/
structure Undisturbed : Prop where
  iterable : ∀ s : CStore World, (m.array loop.iterable s).2.cell? loop.counter = s.cell? loop.counter
  body : ∀ (v : Value) (s : CStore World), (m.body loop.body v s).cell? loop.counter = s.cell? loop.counter

/-- The given number of rounds from a position on. -/
def rounds : Nat → Int → CStore World → List (Round World Value)
  | 0, _, _ => []
  | left + 1, position, s =>
    let (elements, s') := m.array loop.iterable s
    ⟨position, s, loop.element, elements position⟩ ::
      rounds left (position + 1) ((m.body loop.body (elements position) s').assign loop.counter (position + 1))

variable {loop m} {s : CStore World} {t : CInt}

theorem test?_eq {v : Int} (h : s.cell? loop.counter = some ⟨t, v⟩) :
    ArrayMachine.test? s loop.test = some (decide (v < loop.length)) := by
  rw [test, ArrayMachine.test?, h, literalValue_toString]
  rfl

/-- One round: neither the iterable nor the body touches the counter, which goes on by one. -/
theorem Undisturbed.round (calm : loop.Undisturbed m) {v : Int} (h : s.cell? loop.counter = some ⟨t, v⟩)
    (hv : t.Holds v) (hlt : v < t.greatest) (x : Value) :
    let s' := m.body loop.body x (m.array loop.iterable s).2
    s'.advance? loop.advance = some (s'.assign loop.counter (v + 1)) ∧
      (s'.assign loop.counter (v + 1)).cell? loop.counter = some ⟨t, v + 1⟩ := by
  intro s'
  have counter : s'.cell? loop.counter = some ⟨t, v⟩ :=
    (calm.body _ _).trans ((calm.iterable _).trans h)
  constructor
  · simp [CStore.advance?, advance, counter, t.next?_of_lt hv hlt]
  · rw [CStore.cell?_assign, if_pos rfl, counter]
    rfl

theorem rounds_iff (calm : loop.Undisturbed m) (room : (loop.length : Int) ≤ t.greatest) {left : Nat}
    {v : Int} (h : s.cell? loop.counter = some ⟨t, v⟩) (hv : t.Holds v) (hleft : v + left = loop.length)
    (rs : List (Round World Value)) :
    m.Rounds loop.counter loop.test loop.advance loop.element loop.body s rs ↔
      rs = loop.rounds m left v s := by
  -- By induction on the number of rounds to go.
  induction left generalizing v s rs with
  | zero =>
    have done := test?_eq h
    rw [decide_eq_false (by omega)] at done
    constructor
    · intro hr
      cases hr with
      | stop => rfl
      | round more => cases done.symm.trans more
    · rintro rfl
      exact .stop done
  | succ left ih =>
    have more := test?_eq h
    rw [decide_eq_true (by omega)] at more
    have value : m.element? s loop.element =
        some ((m.array loop.iterable s).1 v, (m.array loop.iterable s).2) := by
      simp [ArrayMachine.element?, element, h]
    obtain ⟨next, counter⟩ := calm.round h hv (by omega) ((m.array loop.iterable s).1 v)
    have hv' : t.Holds (v + 1) := ⟨by unfold CInt.Holds at hv; omega, by omega⟩
    have tail := ih counter hv' (by omega)
    constructor
    · intro hr
      cases hr with
      | stop done => cases more.symm.trans done
      | round _ position value' next' rest =>
        cases h.symm.trans position
        cases value.symm.trans value'
        cases next.symm.trans next'
        rw [(tail _).mp rest]
        rfl
    · rintro rfl
      exact .round more h value next ((tail _).mpr rfl)

theorem positions_rounds (left : Nat) (v : Int) (s : CStore World) :
    (loop.rounds m left v s).map (·.position) = (range left).map fun k : Nat => v + k := by
  induction left generalizing v s with
  | zero => rfl
  | succ left ih =>
    rw [rounds, map_cons, ih, range_succ_eq_map, map_cons, map_map]
    simp [Function.comp_def, Int.add_assoc, Int.add_comm 1]

/-- What holds of each round. -/
theorem of_mem_rounds {left : Nat} {v : Int} {r : Round World Value} (hr : r ∈ loop.rounds m left v s) :
    r.initial = loop.element ∧ r.value = (m.array loop.iterable r.before).1 r.position := by
  induction left generalizing v s with
  | zero => cases hr
  | succ left ih =>
    rcases mem_cons.mp hr with rfl | hr
    · exact ⟨rfl, rfl⟩
    · exact ih hr

theorem acts_element : loop.element.acts = loop.iterable.acts := by
  simp [element, CExpr.acts]

theorem acts_rounds (left : Nat) (v : Int) (s : CStore World) :
    (loop.rounds m left v s).flatMap (·.initial.acts) = (replicate left loop.iterable.acts).flatten := by
  induction left generalizing v s with
  | zero => rfl
  | succ left ih =>
    rw [rounds, flatMap_cons, ih, replicate_succ, flatten_cons, acts_element]

theorem runs_iff (calm : loop.Undisturbed m) (room : loop.length < 2 ^ m.target.addressWidth)
    (s : CStore World) (rs : List (Round World Value)) : m.Runs s loop.toStmt rs ↔
      rs = loop.rounds m loop.length 0 (s.declare loop.counter
        ⟨⟨false, m.target.addressWidth, m.target.addressWidth_pos⟩, 0⟩) := by
  let t : CInt := ⟨false, m.target.addressWidth, m.target.addressWidth_pos⟩
  have typed : m.target.integer? { name := Scalar.uptr.cName } = some t := rfl
  have zero : t.wrap (literalValue "0") = 0 := rfl
  have greatest : (loop.length : Int) ≤ t.greatest := by
    have : (loop.length : Int) < 2 ^ m.target.addressWidth := by exact_mod_cast room
    exact Int.le_sub_one_of_lt this
  have holds : t.Holds 0 := ⟨Int.le_refl 0, by omega⟩
  have counted := rounds_iff (s := s.declare loop.counter ⟨t, 0⟩) calm greatest
    (CStore.cell?_declare_self _ _ _) holds (Int.zero_add _)
  constructor
  · intro h
    cases h with
    | counted typed' init rounds =>
      cases typed.symm.trans typed'
      cases init
      rw [zero] at rounds
      exact (counted rs).mp rounds
  · intro h
    refine .counted typed rfl ?_
    rw [zero]
    exact (counted rs).mpr h

/-- The loop is what a loop over an array is lowered to. -/
structure Lowers (cx : Lower.FunctionContext) (run : Stmt → Lower.Body (List CStmt)) (x : String)
    (e : Expr) (body : Stmt) (loop : ElementLoop) : Prop where
  counter : ∃ k : Nat, loop.counter = "__ql_i_" ++ toString k
  binding : loop.binding.name = cIdent x
  iterable : ∃ st, loop.iterable = (Lower.expr cx.toChecked e st).1
  body : ∃ st, loop.body = Lower.unbraced body (Lower.stmt cx run body st).1

theorem lowered {cx : Lower.FunctionContext} {e : Expr} {element : Ty} {n : Nat}
    (run : Stmt → Lower.Body (List CStmt)) (info : Info) (x : String) (body : Stmt) (st : Lower.BodyState)
    (hr : ∀ i low high inclusive, e ≠ .range i low high inclusive)
    (hn : cx.resolution.typeOf? e.id = some (.array element (some n))) :
    ∃ loop : ElementLoop, (Lower.stmt cx run (.foreach info x e body) st).1 = [loop.toStmt] ∧
      loop.Lowers cx run x e body ∧ loop.length = n ∧ loop.iterable.acts.length = e.acts := by
  let t := Lower.plain (Lower.typeOf cx.toChecked info) st
  let p := Lower.fresh "i" t.2
  let c := Lower.plain (Lower.expr cx.toChecked e) p.2
  let inner := Lower.stmt cx run body c.2
  refine ⟨⟨p.1, n, { type := t.1, name := cIdent x, init := none }, c.1, Lower.unbraced body inner.1⟩,
    ?_, ⟨⟨_, rfl⟩, rfl, ⟨_, rfl⟩, ⟨_, rfl⟩⟩, rfl, length_acts _ _ _⟩
  rw [Lower.stmt_foreach_eq cx info x body hr, Lower.countElements_eq hn]
  rfl

end ElementLoop

/-- Wherever a loop over an array of known length is lowered, it runs once for each element, in order.
Each round evaluates the iterable and takes its element from that, so the calls and increments in it
are performed once just if there is one element or there are none of them. -/
theorem foreach_evaluates_each_round {cx : Lower.FunctionContext} {e : Expr} {element : Ty} {n : Nat}
    (run : Stmt → Lower.Body (List CStmt)) (info : Info) (x : String) (body : Stmt) (st : Lower.BodyState)
    (hr : ∀ i low high inclusive, e ≠ .range i low high inclusive)
    (hn : cx.resolution.typeOf? e.id = some (.array element (some n))) :
    ∃ loop : ElementLoop, (Lower.stmt cx run (.foreach info x e body) st).1 = [loop.toStmt] ∧
      loop.Lowers cx run x e body ∧ ∀ {World Value : Type} (m : ArrayMachine World Value),
        n < 2 ^ m.target.addressWidth → loop.Undisturbed m → ∀ s : CStore World,
          ∃ rs : List (Round World Value), (∀ rs', m.Runs s loop.toStmt rs' ↔ rs' = rs) ∧
            rs.map (·.position) = (List.range n).map Nat.cast ∧
            (∀ r ∈ rs, r.value = (m.array loop.iterable r.before).1 r.position) ∧
            rs.flatMap (·.initial.acts) = (List.replicate n loop.iterable.acts).flatten ∧
            ((rs.flatMap (·.initial.acts)).length = e.acts ↔ n = 1 ∨ e.acts = 0) := by
  obtain ⟨loop, out, lowers, rfl, acts⟩ := ElementLoop.lowered run info x body st hr hn
  refine ⟨loop, out, lowers, fun m room calm s => ⟨_, loop.runs_iff calm room s, ?_, ?_, ?_, ?_⟩⟩
  · simpa using loop.positions_rounds loop.length 0 _
  · exact fun r hr => (ElementLoop.of_mem_rounds hr).2
  · exact loop.acts_rounds _ _ _
  · rw [ElementLoop.acts_rounds]
    simpa [acts] using mul_left_eq_self₀

/-- A loop over a field of what a call returns. -/
def callLoop : Sources :=
  ["struct B \x7b int[3] v \x7d B get() \x7b B b; return b; \x7d\n" ++
    "void main() \x7b foreach x in get().v \x7b \x7d \x7d"]

/-- The loop over `e` stands in the program, and `loop` is what it is lowered to. -/
def callLoop.Has (e : Expr) (loop : ElementLoop) : Prop :=
  Accepted callLoop {} [0] ∧ ∃ file, (callLoop.table {}).sourceOf? 0 = some file ∧ ∃ d ∈ file.decls,
    ∃ info x body, .stmt (.foreach info x e body) ∈ d.outline.nodes ∧
      (Lower.stmt (callLoop.functionContext {} [0] .void) (fun _ => pure []) (.foreach info x e body)
        { instances := {} }).1 = [loop.toStmt]

theorem callLoop_accepted : Accepted callLoop {} [0] := by decide +kernel

/-- Whether a node is a loop over an array of three integers that performs one call or increment. -/
def callLoop.sought : Node → Bool
  | .stmt (.foreach _ _ e _) => e.kindName != "range" && e.acts == 1 &&
    (callLoop.functionContext {} [0] .void).resolution.typeOf? e.id ==
      some (.array (.scalar .int) (some 3))
  | _ => false

theorem callLoop_found : ∃ file, (callLoop.table {}).sourceOf? 0 = some file ∧ ∃ d ∈ file.decls,
    ∃ info x e body, Node.stmt (.foreach info x e body) ∈ d.outline.nodes ∧
      (∀ i low high inclusive, e ≠ .range i low high inclusive) ∧ e.acts = 1 ∧
      (callLoop.functionContext {} [0] .void).resolution.typeOf? e.id =
        some (.array (.scalar .int) (some 3)) := by
  have found : ((callLoop.table {}).sourceOf? 0).any (fun file =>
      file.decls.any fun d => d.outline.nodes.any callLoop.sought) = true := by
    decide +kernel
  simp only [Option.any_eq_true, any_eq_true] at found
  obtain ⟨file, source, d, hd, node, hnode, hmatch⟩ := found
  unfold callLoop.sought at hmatch
  split at hmatch
  · simp only [Bool.and_eq_true, beq_iff_eq, bne_iff_ne] at hmatch
    obtain ⟨⟨hkind, hacts⟩, htype⟩ := hmatch
    refine ⟨file, source, d, hd, _, _, _, _, hnode, ?_, hacts, htype⟩
    rintro i low high inclusive rfl
    exact hkind rfl
  · cases hmatch

/-- A machine on which nothing changes. -/
def unmoved : ArrayMachine Unit Unit where
  target := (idle 0 0).target
  array _ s := (fun _ => (), s)
  body _ _ s := s

theorem undisturbed_unmoved (loop : ElementLoop) : loop.Undisturbed unmoved :=
  ⟨fun _ => rfl, fun _ _ => rfl⟩

theorem callLoop_rounds : ∃ e loop, callLoop.Has e loop ∧ loop.Undisturbed unmoved ∧
    ∃ rs : List (Round Unit Unit), (∀ rs', unmoved.Runs ⟨[], ()⟩ loop.toStmt rs' ↔ rs' = rs) ∧
      rs.map (·.position) = [0, 1, 2] := by
  obtain ⟨file, source, d, hd, info, x, e, body, hnode, hr, -, hn⟩ := callLoop_found
  obtain ⟨loop, out, -, runs⟩ := foreach_evaluates_each_round (fun _ => pure []) info x body
    { instances := {} } hr hn
  have calm := undisturbed_unmoved loop
  obtain ⟨rs, only, positions, -⟩ := runs unmoved (by decide) calm ⟨[], ()⟩
  exact ⟨e, loop, ⟨callLoop_accepted, file, source, d, hd, info, x, body, hnode, out⟩, calm, rs, only,
    positions⟩

/-- There is one call in the iterable, and it is performed three times. -/
theorem callLoop_repeats : ∃ e loop, callLoop.Has e loop ∧ e.acts = 1 ∧ loop.Undisturbed unmoved ∧
    ∀ rs, unmoved.Runs ⟨[], ()⟩ loop.toStmt rs → (rs.flatMap (·.initial.acts)).length = 3 := by
  obtain ⟨file, source, d, hd, info, x, e, body, hnode, hr, hacts, hn⟩ := callLoop_found
  obtain ⟨loop, out, -, length, acts⟩ := ElementLoop.lowered (fun _ => pure []) info x body
    { instances := {} } hr hn
  have calm := undisturbed_unmoved loop
  refine ⟨e, loop, ⟨callLoop_accepted, file, source, d, hd, info, x, body, hnode, out⟩, hacts, calm, ?_⟩
  intro rs runs
  rw [(loop.runs_iff calm (by rw [length]; decide) _ rs).mp runs, ElementLoop.acts_rounds]
  simp [length, acts, hacts]

end Quill
