import Mathlib
import Quill.Proofs.RangeCounters

/-!
# Loops that count through a range

A loop over a range becomes a block with the upper bound and a counting loop, both in the integer
type of the range. The counter goes through the range in order, once, unless the range includes the
greatest value of the type: then the loop does not end.
-/
namespace Quill

open Lower List

variable {stop v : Int} {vs : List Int} {l : RangeLoop}

structure CInt where
  signed : Bool
  width : Nat
  positive : 0 < width

namespace CInt

variable (t : CInt)

def least : Int := if t.signed then -2 ^ (t.width - 1) else 0

def greatest : Int := if t.signed then 2 ^ (t.width - 1) - 1 else 2 ^ t.width - 1

def Holds (v : Int) : Prop := t.least ≤ v ∧ v ≤ t.greatest

/-- The value of the type that a number is converted to. -/
def wrap (v : Int) : Int :=
  if t.signed then v.bmod (2 ^ t.width) else v % 2 ^ t.width

/-- The value after an increment: modulo the width where the type is unsigned, and none behind the
greatest value of a signed type. -/
def next? (v : Int) : Option Int :=
  if t.signed && v == t.greatest then none else some (t.wrap (v + 1))

theorem two_pow_width : (2 : Int) ^ t.width = 2 * 2 ^ (t.width - 1) := by
  obtain ⟨n, hn⟩ := Nat.exists_eq_add_of_lt t.positive
  rw [hn, Nat.zero_add, Nat.add_sub_cancel, Int.pow_succ, Int.mul_comm]

theorem half_pos : (0 : Int) < 2 ^ (t.width - 1) := Int.pow_pos (by decide)

theorem holds_wrap (v : Int) : t.Holds (t.wrap v) := by
  have half := t.half_pos
  have whole := t.two_pow_width
  unfold Holds wrap least greatest
  split
  · have hpos : 0 < 2 ^ t.width := Nat.two_pow_pos _
    have low := Int.le_bmod (x := v) hpos
    have high := Int.bmod_lt (x := v) hpos
    push_cast at low high
    omega
  · have low := Int.emod_nonneg v (b := 2 ^ t.width) (by omega)
    have high := Int.emod_lt_of_pos v (b := 2 ^ t.width) (by omega)
    omega

theorem wrap_of_holds (h : t.Holds v) : t.wrap v = v := by
  have half := t.half_pos
  have whole := t.two_pow_width
  obtain ⟨low, high⟩ := h
  unfold wrap
  unfold least at low
  unfold greatest at high
  split at low
  · rename_i signed
    rw [if_pos signed] at high ⊢
    apply Int.bmod_eq_of_le <;> push_cast <;> omega
  · rename_i unsigned
    rw [if_neg unsigned] at high ⊢
    exact Int.emod_eq_of_lt low (by omega)

theorem next?_of_lt (h : t.Holds v) (hlt : v < t.greatest) : t.next? v = some (v + 1) := by
  have off : (t.signed && v == t.greatest) = false := by
    rw [beq_false_of_ne (by omega), Bool.and_false]
  rw [next?, off, if_neg Bool.false_ne_true, t.wrap_of_holds ⟨by unfold Holds at h; omega, by omega⟩]

theorem holds_of_next? {w : Int} (h : t.next? v = some w) : t.Holds w := by
  unfold next? at h
  split at h
  · cases h
  · cases h
    exact t.holds_wrap _

end CInt

/-- The type has the width and the sign of a scalar, where the target has no choice. -/
structure CInt.Represents (t : CInt) (k : Scalar) : Prop where
  width : k.bestWidth = false → t.width = k.width
  sign : k.family = .signed ∨ k.family = .unsigned → t.signed = (k.family == .signed)

/-- What is open until a target is chosen. -/
structure CTarget where
  charSigned : Bool
  intWidth : Nat
  addressWidth : Nat
  intWidth_pos : 0 < intWidth
  addressWidth_pos : 0 < addressWidth

namespace CTarget

def integer? (target : CTarget) (type : CType) : Option CInt :=
  if type.stars == 0 && type.dims.isEmpty then
    match type.name with
    | "char" => some ⟨target.charSigned, 8, by decide⟩
    | "int8_t" => some ⟨true, 8, by decide⟩
    | "int16_t" => some ⟨true, 16, by decide⟩
    | "int32_t" => some ⟨true, 32, by decide⟩
    | "int64_t" => some ⟨true, 64, by decide⟩
    | "uint8_t" => some ⟨false, 8, by decide⟩
    | "uint16_t" => some ⟨false, 16, by decide⟩
    | "uint32_t" => some ⟨false, 32, by decide⟩
    | "uint64_t" => some ⟨false, 64, by decide⟩
    | "int" => some ⟨true, target.intWidth, target.intWidth_pos⟩
    | "unsigned int" => some ⟨false, target.intWidth, target.intWidth_pos⟩
    | "intptr_t" => some ⟨true, target.addressWidth, target.addressWidth_pos⟩
    | "uintptr_t" => some ⟨false, target.addressWidth, target.addressWidth_pos⟩
    | _ => none
  else none

theorem integer?_scalar (target : CTarget) {k : Scalar} (h : k.isInteger = true) :
    ∃ t, target.integer? { name := k.cName } = some t ∧ t.Represents k := by
  cases k with
  | bool | f32 | f64 | float => cases h
  | int | uint => exact ⟨_, rfl, nofun, fun _ => rfl⟩
  | iptr | uptr => exact ⟨_, rfl, nofun, by simp [Scalar.family]⟩
  | char => exact ⟨_, rfl, fun _ => rfl, by simp [Scalar.family]⟩
  | _ => exact ⟨_, rfl, fun _ => rfl, fun _ => rfl⟩

end CTarget

structure CCell where
  type : CInt
  value : Int

/-- Integer variables by name, the innermost first, and all else that is stored. -/
structure CStore (World : Type) where
  cells : List (String × CCell)
  world : World

namespace CStore

variable {World : Type} (s : CStore World)

def cell? (x : String) : Option CCell := s.cells.lookup x

def declare (x : String) (c : CCell) : CStore World := { s with cells := (x, c) :: s.cells }

/-- The outcome of comparing two variables of one type. -/
def test? : CExpr → Option Bool
  | .binary .lt (.var x) (.var y) => do
    let a ← s.cell? x
    let b ← s.cell? y
    return a.value < b.value
  | .binary .le (.var x) (.var y) => do
    let a ← s.cell? x
    let b ← s.cell? y
    return a.value ≤ b.value
  | _ => none

def assign (x : String) (v : Int) : CStore World :=
  { s with cells := go s.cells }
where
  go : List (String × CCell) → List (String × CCell)
    | [] => []
    | (y, c) :: rest => if x == y then (y, { c with value := v }) :: rest else (y, c) :: go rest

/-- Increments a variable, if it has a next value. -/
def advance? : CExpr → Option (CStore World)
  | .step .inc (.var x) => do
    let c ← s.cell? x
    return s.assign x (← c.type.next? c.value)
  | _ => none

end CStore

namespace CStore

variable {World : Type} (s : CStore World)

@[simp] theorem cell?_declare_self (x : String) (c : CCell) : (s.declare x c).cell? x = some c := by
  simp [cell?, declare]

theorem cell?_declare_of_ne {x y : String} (h : y ≠ x) (c : CCell) :
    (s.declare x c).cell? y = s.cell? y := by
  simp [cell?, declare, lookup, beq_false_of_ne h]

theorem lookup_assign (x y : String) (v : Int) (cells : List (String × CCell)) :
    (assign.go x v cells).lookup y =
      if y = x then (cells.lookup x).map ({ · with value := v }) else cells.lookup y := by
  induction cells with
  | nil => simp [assign.go]
  | cons first rest ih =>
    obtain ⟨z, c⟩ := first
    unfold assign.go
    by_cases hx : x = z
    · subst hx
      by_cases hy : y = x <;> simp [hy, lookup, beq_false_of_ne]
    · by_cases hz : y = z
      · subst hz
        simp [lookup, Ne.symm hx, hx]
      · simp [lookup, hx, hz, beq_false_of_ne, ih]

theorem cell?_assign (x y : String) (v : Int) :
    (s.assign x v).cell? y =
      if y = x then (s.cell? x).map ({ · with value := v }) else s.cell? y :=
  lookup_assign x y v s.cells

end CStore

/-- How the parts of a program that are not modelled run, with any effect on the store: the initial
value of a variable, in the scope of the variable itself, and the body of a loop. -/
structure CMachine (World : Type) where
  target : CTarget
  initial : CVar → CStore World → Int × CStore World
  body : List CStmt → CStore World → CStore World

namespace CMachine

variable {World : Type} (m : CMachine World)

/-- The store after a declaration of an integer variable. The initial value is converted to its
type. -/
def declare? (s : CStore World) (v : CVar) : Option (CStore World) := do
  let type ← m.target.integer? v.type
  let (value, s') := m.initial v s
  return s'.declare v.name ⟨type, type.wrap value⟩

/-- A counting loop ends after rounds that start with these values of its counter. -/
inductive Rounds (counter : String) (test advance : CExpr) (body : List CStmt) :
    CStore World → List Int → Prop where
  | stop {s : CStore World} (h : s.test? test = some false) : Rounds counter test advance body s []
  | round {s s' : CStore World} {c : CCell} {vs : List Int} (h : s.test? test = some true)
      (value : s.cell? counter = some c) (next : (m.body body s).advance? advance = some s')
      (rest : Rounds counter test advance body s' vs) :
      Rounds counter test advance body s (c.value :: vs)

/-- The statement, a counting loop behind declarations, ends after rounds that start with these
values of its counter. -/
inductive Visits : CStore World → CStmt → List Int → Prop where
  | declared {s s' : CStore World} {v : CVar} {loop : CStmt} {vs : List Int}
      (h : m.declare? s v = some s') (rest : Visits s' loop vs) :
      Visits s (.block [.var v, loop]) vs
  | counted {s s' : CStore World} {init : CVar} {test advance : CExpr} {body : List CStmt}
      {vs : List Int} (h : m.declare? s init = some s')
      (rounds : m.Rounds init.name test advance body s' vs) :
      Visits s (.count init test advance body) vs

end CMachine

/-- A loop from one bound to the other as it stands in C. -/
structure CountingLoop where
  type : CType
  counter : String
  bound : String
  low : CExpr
  high : CExpr
  inclusive : Bool
  body : List CStmt

namespace CountingLoop

variable {World : Type} (loop : CountingLoop) (m : CMachine World) (s : CStore World)

def test : CExpr :=
  .binary (if loop.inclusive then .le else .lt) (.var loop.counter) (.var loop.bound)

def advance : CExpr := .step .inc (.var loop.counter)

def boundVar : CVar := { type := loop.type, name := loop.bound, init := some loop.high }

def counterVar : CVar := { type := loop.type, name := loop.counter, init := some loop.low }

def toStmt : CStmt :=
  .block [.var loop.boundVar, .count loop.counterVar loop.test loop.advance loop.body]

def last (t : CInt) : Int := t.wrap (m.initial loop.boundVar s).1

/-- The store in which the counter gets its first value. -/
def bounded (t : CInt) : CStore World :=
  (m.initial loop.boundVar s).2.declare loop.bound ⟨t, loop.last m s t⟩

def first (t : CInt) : Int := t.wrap (m.initial loop.counterVar (loop.bounded m s t)).1

def start (t : CInt) : CStore World :=
  (m.initial loop.counterVar (loop.bounded m s t)).2.declare loop.counter ⟨t, loop.first m s t⟩

/-- The loop has two variables of its own, and nothing but the loop changes them. -/
structure Undisturbed : Prop where
  apart : loop.counter ≠ loop.bound
  low : ∀ s : CStore World, (m.initial loop.counterVar s).2.cell? loop.bound = s.cell? loop.bound
  counter : ∀ s : CStore World, (m.body loop.body s).cell? loop.counter = s.cell? loop.counter
  bound : ∀ s : CStore World, (m.body loop.body s).cell? loop.bound = s.cell? loop.bound

/-- The first value behind the range. -/
def behind (b : Int) : Int := if loop.inclusive then b + 1 else b

structure At (s : CStore World) (t : CInt) (v b : Int) : Prop where
  counter : s.cell? loop.counter = some ⟨t, v⟩
  bound : s.cell? loop.bound = some ⟨t, b⟩

variable {loop m s} {t : CInt} {v w b : Int}

theorem lt_behind : v < loop.behind b ↔ v < b ∨ loop.inclusive = true ∧ v = b := by
  unfold behind
  by_cases h : loop.inclusive = true
  · simp [h]
    omega
  · simp [h]

theorem At.test? (h : loop.At s t v b) : s.test? loop.test = some (decide (v < loop.behind b)) := by
  unfold test behind
  by_cases hi : loop.inclusive = true
  · simp [hi, CStore.test?, h.counter, h.bound]
  · simp [hi, CStore.test?, h.counter, h.bound]

/-- One round: the body leaves both variables alone, and the counter takes its next value. -/
theorem At.round (h : loop.At s t v b) (calm : loop.Undisturbed m) (hw : t.next? v = some w) :
    ∃ s', (m.body loop.body s).advance? loop.advance = some s' ∧ loop.At s' t w b := by
  have counter : (m.body loop.body s).cell? loop.counter = some ⟨t, v⟩ :=
    (calm.counter s).trans h.counter
  refine ⟨(m.body loop.body s).assign loop.counter w, ?_, ?_, ?_⟩
  · simp [CStore.advance?, advance, counter, hw]
  · rw [CStore.cell?_assign, if_pos rfl, counter]
    rfl
  · rw [CStore.cell?_assign, if_neg calm.apart.symm, calm.bound s, h.bound]

theorem At.advance?_of_none (h : loop.At s t v b) (calm : loop.Undisturbed m)
    (hv : t.next? v = none) : (m.body loop.body s).advance? loop.advance = none := by
  simp [CStore.advance?, advance, calm.counter s, h.counter, hv]

theorem rounds_unique {counter : String} {test advance : CExpr} {body : List CStmt} {vs' : List Int}
    (h : m.Rounds counter test advance body s vs) (h' : m.Rounds counter test advance body s vs') :
    vs = vs' := by
  induction h generalizing vs' with
  | stop h =>
    cases h' with
    | stop => rfl
    | round h' => cases h.symm.trans h'
  | round h value next rest ih =>
    cases h' with
    | stop h' => cases h.symm.trans h'
    | round h' value' next' rest' =>
      cases value.symm.trans value'
      cases next.symm.trans next'
      rw [ih rest']

def countUp (v stop : Int) : List Int := (range (stop - v).toNat).map fun n : Nat => v + n

theorem mem_countUp {x : Int} : x ∈ countUp v stop ↔ v ≤ x ∧ x < stop := by
  simp only [countUp, mem_map, mem_range]
  constructor
  · rintro ⟨n, hn, rfl⟩
    omega
  · intro hx
    exact ⟨(x - v).toNat, by omega, by omega⟩

theorem countUp_increases (v stop : Int) : (countUp v stop).Pairwise (· < ·) := by
  rw [countUp, pairwise_map]
  exact pairwise_lt_range.imp fun h => by omega

theorem countUp_of_le (h : stop ≤ v) : countUp v stop = [] := by
  rw [countUp, Int.toNat_of_nonpos (by omega), range_zero, map_nil]

theorem countUp_of_lt (h : v < stop) : countUp v stop = v :: countUp (v + 1) stop := by
  have steps : (stop - v).toNat = (stop - (v + 1)).toNat + 1 := by omega
  rw [countUp, countUp, steps, range_succ_eq_map, map_cons, map_map]
  congr 1
  · omega
  · apply map_congr_left
    intro n _
    simp only [Function.comp_apply]
    omega

theorem At.rounds (h : loop.At s t v b) (calm : loop.Undisturbed m) (hv : t.Holds v)
    (hb : loop.behind b ≤ t.greatest) :
    m.Rounds loop.counter loop.test loop.advance loop.body s (countUp v (loop.behind b)) := by
  -- By induction on the number of rounds to go.
  induction hn : (loop.behind b - v).toNat generalizing v s with
  | zero =>
    have done : ¬ v < loop.behind b := by omega
    rw [countUp_of_le (by omega)]
    exact .stop (by rw [h.test?, decide_eq_false done])
  | succ n ih =>
    have more : v < loop.behind b := by omega
    obtain ⟨s', hnext, h'⟩ := h.round calm (t.next?_of_lt hv (by omega))
    have hv' : t.Holds (v + 1) := ⟨by unfold CInt.Holds at hv; omega, by omega⟩
    rw [countUp_of_lt more]
    exact .round (by rw [h.test?, decide_eq_true more]) h.counter hnext (ih h' hv' (by omega))

theorem At.endless (h : loop.At s t v b) (calm : loop.Undisturbed m) (hv : t.Holds v)
    (hb : t.greatest < loop.behind b) :
    ¬ m.Rounds loop.counter loop.test loop.advance loop.body s vs := by
  intro rounds
  induction rounds generalizing v with
  | stop hstop =>
    rw [h.test?, decide_eq_true (by unfold CInt.Holds at hv; omega)] at hstop
    cases hstop
  | round _ _ next _ ih =>
    cases hw : t.next? v with
    | none =>
      rw [h.advance?_of_none calm hw] at next
      cases next
    | some w =>
      obtain ⟨s', hnext, h'⟩ := h.round calm hw
      obtain rfl := Option.some.inj (hnext.symm.trans next)
      exact ih h' (t.holds_of_next? hw)

theorem at_start (calm : loop.Undisturbed m) (t : CInt) :
    loop.At (loop.start m s t) t (loop.first m s t) (loop.last m s t) := by
  constructor
  · exact CStore.cell?_declare_self _ _ _
  · rw [start, CStore.cell?_declare_of_ne _ calm.apart.symm, calm.low]
    exact CStore.cell?_declare_self _ _ _

section

variable (ht : m.target.integer? loop.type = some t)

include ht

theorem visits_iff :
    m.Visits s loop.toStmt vs ↔
      m.Rounds loop.counter loop.test loop.advance loop.body (loop.start m s t) vs := by
  have bound : m.declare? s loop.boundVar = some (loop.bounded m s t) := by
    simp [CMachine.declare?, boundVar, ht, bounded, last]
  have counter : m.declare? (loop.bounded m s t) loop.counterVar = some (loop.start m s t) := by
    simp [CMachine.declare?, counterVar, ht, start, first]
  constructor
  · intro h
    cases h with
    | declared h rest =>
      cases bound.symm.trans h
      cases rest with
      | counted h rounds =>
        cases counter.symm.trans h
        exact rounds
  · intro h
    exact .declared bound (.counted counter h)

theorem visits_range (calm : loop.Undisturbed m)
    (hroom : ¬ (loop.inclusive = true ∧ loop.last m s t = t.greatest)) :
    m.Visits s loop.toStmt vs ↔
      vs = countUp (loop.first m s t) (loop.behind (loop.last m s t)) := by
  have hlast : t.Holds (loop.last m s t) := t.holds_wrap _
  have below : loop.behind (loop.last m s t) ≤ t.greatest := by
    unfold behind
    unfold CInt.Holds at hlast
    by_cases hi : loop.inclusive = true <;> simp [hi] at hroom ⊢ <;> omega
  have rounds := (at_start (s := s) calm t).rounds calm (t.holds_wrap _) below
  rw [visits_iff ht]
  exact ⟨fun h => rounds_unique h rounds, fun h => h ▸ rounds⟩

theorem visits_greatest (calm : loop.Undisturbed m) (hi : loop.inclusive = true)
    (hlast : loop.last m s t = t.greatest) : ¬ ∃ vs, m.Visits s loop.toStmt vs := by
  rintro ⟨vs, h⟩
  refine (at_start calm t).endless calm (t.holds_wrap _) ?_ ((visits_iff ht).mp h)
  rw [behind, if_pos hi, hlast]
  omega

end

/-- The loop is what a loop over a range is lowered to. -/
structure Lowers (cx : FunctionContext) (run : Stmt → Body (List CStmt))
    (l : RangeLoop) (loop : CountingLoop) : Prop where
  counter : loop.counter = cIdent l.binding
  bound : ∃ n : Nat, loop.bound = "__ql_end_" ++ toString n
  inclusive : loop.inclusive = l.inclusive
  low : ∃ st, loop.low = (expr cx.toChecked l.low st).1
  high : ∃ st, loop.high = (expr cx.toChecked l.high st).1
  body : ∃ st, loop.body = unbraced l.body (stmt cx run l.body st).1

theorem lowered (cx : FunctionContext) {k : Scalar}
    (hk : cx.resolution.typeOf? l.range.id = some (.scalar k))
    (run : Stmt → Body (List CStmt)) (st : BodyState) :
    ∃ loop : CountingLoop, (stmt cx run l.toStmt st).1 = [loop.toStmt] ∧
      loop.Lowers cx run l ∧ loop.type = { name := k.cName } := by
  have typed : plain (typeOf cx.toChecked l.range) st = ({ name := k.cName }, st) := by
    rw [plain, typeOf, hk]
    rfl
  let high := plain (expr cx.toChecked l.high) { st with temps := st.temps + 1 }
  let low := plain (expr cx.toChecked l.low) high.2
  let body := stmt cx run l.body low.2
  refine ⟨⟨{ name := k.cName }, cIdent l.binding, "__ql_end_" ++ toString st.temps, low.1, high.1,
    l.inclusive, unbraced l.body body.1⟩, ?_,
    ⟨rfl, ⟨_, rfl⟩, rfl, ⟨_, rfl⟩, ⟨_, rfl⟩, ⟨_, rfl⟩⟩, rfl⟩
  rw [RangeLoop.toStmt, stmt, countRange]
  simp only [bind, StateT.bind, typed]
  rfl

end CountingLoop

/-- What lowering reads inside a function of checked sources. -/
def Sources.functionContext (sources : Sources) (options : Options) (order : List PackageId)
    (result : Ty) : FunctionContext :=
  ⟨⟨sources.table options, (sources.resolved options order).1⟩, result⟩

/-- A loop over a range in an accepted program counts in an integer type, and wherever it is lowered
its body runs once for every value of the range, in increasing order, unless the range includes the
greatest value of the type; then it does not end. -/
theorem foreach_visits_range {sources : Sources} {options : Options} {order : List PackageId}
    (h : Accepted sources options order) {id : PackageId} (hid : id ∈ order) {file : File}
    (source : (sources.table options).sourceOf? id = some file) {d : Decl} (hd : d ∈ file.decls)
    (hl : l ∈ d.rangeLoops) (result : Ty) (run : Stmt → Lower.Body (List CStmt))
    (st : Lower.BodyState) : let cx := sources.functionContext options order result
    ∃ (k : Scalar) (loop : CountingLoop),
      cx.resolution.typeOf? l.range.id = some (.scalar k) ∧ k.isInteger = true ∧
      (Lower.stmt cx run l.toStmt st).1 = [loop.toStmt] ∧ loop.Lowers cx run l ∧
      ∀ {World : Type} (m : CMachine World), ∃ t : CInt,
        m.target.integer? loop.type = some t ∧ t.Represents k ∧
        (loop.Undisturbed m → ∀ s : CStore World,
          let a := loop.first m s t
          let b := loop.last m s t
          t.Holds a ∧ t.Holds b ∧
          (l.inclusive = true ∧ b = t.greatest → ¬ ∃ vs, m.Visits s loop.toStmt vs) ∧
          (¬ (l.inclusive = true ∧ b = t.greatest) →
            ∃ vs, (∀ vs', m.Visits s loop.toStmt vs' ↔ vs' = vs) ∧ vs.Pairwise (· < ·) ∧
              ∀ v, v ∈ vs ↔ a ≤ v ∧ (v < b ∨ l.inclusive = true ∧ v = b))) := by
  intro cx
  obtain ⟨k, hk, integer⟩ := h.range_integer hid source hd hl
  obtain ⟨loop, out, lowers, type⟩ := CountingLoop.lowered cx hk run st
  refine ⟨k, loop, hk, integer, out, lowers, fun m => ?_⟩
  obtain ⟨t, ht, represents⟩ := m.target.integer?_scalar integer
  rw [← type] at ht
  refine ⟨t, ht, represents, fun calm s => ⟨t.holds_wrap _, t.holds_wrap _, ?_, ?_⟩⟩
  · rintro ⟨hi, hb⟩
    exact CountingLoop.visits_greatest ht calm (lowers.inclusive.trans hi) hb
  · intro hroom
    rw [← lowers.inclusive] at hroom ⊢
    refine ⟨_, fun vs => CountingLoop.visits_range ht calm hroom,
      CountingLoop.countUp_increases _ _, fun v => ?_⟩
    rw [CountingLoop.mem_countUp, CountingLoop.lt_behind]

/-- Two loops between bytes, the first with its upper bound and the second without. -/
def byteLoops : Sources :=
  ["void f(u8 a, u8 b) { foreach i in a..=b { } foreach j in a..b { } }\n" ++
    "void main() \x7b f(0, 255); \x7d"]

/-- A machine on which all loops are empty and begin with these bounds. -/
def idle (a b : Int) : CMachine Unit where
  target := ⟨true, 32, 64, by decide, by decide⟩
  initial _ s := (if s.cells.isEmpty then b else a, s)
  body _ s := s

theorem byteLoops_accepted : Accepted byteLoops {} [0] := by decide +kernel

theorem byteLoops_found (inclusive : Bool) :
    ∃ file, (byteLoops.table {}).sourceOf? 0 = some file ∧ ∃ d ∈ file.decls, ∃ l ∈ d.rangeLoops,
      l.inclusive = inclusive ∧ l.binding = (if inclusive then "i" else "j") ∧
      (byteLoops.functionContext {} [0] .void).resolution.typeOf? l.range.id =
        some (.scalar .u8) := by
  have found : ∀ b : Bool, ((byteLoops.table {}).sourceOf? 0).any (fun file =>
      file.decls.any fun d => d.rangeLoops.any fun l =>
        l.inclusive == b && l.binding == (if b then "i" else "j") &&
          (byteLoops.functionContext {} [0] .void).resolution.typeOf? l.range.id ==
            some (.scalar .u8)) = true := by
    decide +kernel
  simpa [Option.any_eq_true, any_eq_true, and_assoc] using found inclusive

theorem undisturbed_idle {cx : FunctionContext} {run : Stmt → Body (List CStmt)}
    {loop : CountingLoop} (h : loop.Lowers cx run l) {inclusive : Bool}
    (hl : l.binding = if inclusive then "i" else "j") (a b : Int) :
    loop.Undisturbed (idle a b) := by
  refine ⟨?_, fun _ => rfl, fun _ => rfl, fun _ => rfl⟩
  obtain ⟨n, hn⟩ := h.bound
  have named : cIdent (if inclusive then "i" else "j") = if inclusive then "i" else "j" := by
    cases inclusive <;> decide
  rw [h.counter, hn, hl, named]
  intro heq
  have heads := congrArg (·.toList.head?) heq
  cases inclusive <;> simp [String.toList_append] at heads

theorem idle_bounds (loop : CountingLoop) {t : CInt} (ht : t.Represents .u8) {a b : Int}
    (ha : 0 ≤ a ∧ a ≤ 255) (hb : 0 ≤ b ∧ b ≤ 255) :
    loop.first (idle a b) ⟨[], ()⟩ t = a ∧ loop.last (idle a b) ⟨[], ()⟩ t = b ∧ t.greatest = 255 := by
  obtain ⟨signed, width, positive⟩ := t
  obtain rfl : signed = false := ht.sign (.inr rfl)
  obtain rfl : width = 8 := ht.width rfl
  refine ⟨?_, ?_, rfl⟩
  · exact CInt.wrap_of_holds _ ha
  · exact CInt.wrap_of_holds _ hb

/-- From 250 to 255 the second loop runs five times. -/
theorem byteLoops_visit_range : Accepted byteLoops {} [0] ∧
    ∃ file, (byteLoops.table {}).sourceOf? 0 = some file ∧ ∃ d ∈ file.decls, ∃ l ∈ d.rangeLoops,
      ∃ loop : CountingLoop,
        (Lower.stmt (byteLoops.functionContext {} [0] .void) (fun _ => pure []) l.toStmt
          { instances := {} }).1 = [loop.toStmt] ∧
        ∃ vs, (∀ vs', (idle 250 255).Visits ⟨[], ()⟩ loop.toStmt vs' ↔ vs' = vs) ∧
          vs.Pairwise (· < ·) ∧ ∀ v, v ∈ vs ↔ 250 ≤ v ∧ v < 255 := by
  obtain ⟨file, source, d, hd, l, hl, inclusive, binding, type⟩ := byteLoops_found false
  obtain ⟨k, loop, hk, -, out, lowers, counts⟩ := foreach_visits_range byteLoops_accepted
    List.mem_cons_self source hd hl .void (fun _ => pure []) { instances := {} }
  obtain rfl : k = .u8 := by
    cases type.symm.trans hk
    rfl
  obtain ⟨t, -, represents, visits⟩ := counts (idle 250 255)
  obtain ⟨-, -, -, visits⟩ := visits (undisturbed_idle lowers binding 250 255) ⟨[], ()⟩
  obtain ⟨first, last, -⟩ := idle_bounds loop represents (a := 250) (b := 255)
    (by omega) (by omega)
  obtain ⟨vs, only, increase, members⟩ := visits (by simp [inclusive])
  refine ⟨byteLoops_accepted, file, source, d, hd, l, hl, loop, out, vs, only, increase, fun v => ?_⟩
  rw [members, first, last, inclusive]
  simp

/-- From 0 to 255, both included, the first loop does not end. -/
theorem byteLoops_endless : Accepted byteLoops {} [0] ∧
    ∃ file, (byteLoops.table {}).sourceOf? 0 = some file ∧ ∃ d ∈ file.decls, ∃ l ∈ d.rangeLoops,
      ∃ loop : CountingLoop,
        (Lower.stmt (byteLoops.functionContext {} [0] .void) (fun _ => pure []) l.toStmt
          { instances := {} }).1 = [loop.toStmt] ∧
        loop.Undisturbed (idle 0 255) ∧
        ∃ t, (idle 0 255).target.integer? loop.type = some t ∧
          loop.first (idle 0 255) ⟨[], ()⟩ t = 0 ∧ loop.last (idle 0 255) ⟨[], ()⟩ t = 255 ∧
          ¬ ∃ vs, (idle 0 255).Visits ⟨[], ()⟩ loop.toStmt vs := by
  obtain ⟨file, source, d, hd, l, hl, inclusive, binding, type⟩ := byteLoops_found true
  obtain ⟨loop, out, lowers, ctype⟩ := CountingLoop.lowered
    (byteLoops.functionContext {} [0] .void) type (fun _ => pure []) { instances := {} }
  obtain ⟨t, ht, represents⟩ := (idle 0 255).target.integer?_scalar (k := .u8) rfl
  obtain ⟨first, last, greatest⟩ := idle_bounds loop represents (a := 0) (b := 255)
    (by omega) (by omega)
  have calm := undisturbed_idle lowers binding 0 255
  rw [← ctype] at ht
  refine ⟨byteLoops_accepted, file, source, d, hd, l, hl, loop, out, calm, t, ht, first, last, ?_⟩
  exact CountingLoop.visits_greatest ht calm (lowers.inclusive.trans inclusive)
    (last.trans greatest.symm)

end Quill
