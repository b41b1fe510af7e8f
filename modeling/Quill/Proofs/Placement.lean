import Mathlib.Data.List.Induction
import Quill.Proofs.ReadParts
import Quill.Proofs.Tiling

/-!
# Places of what is read

Spans of nodes and of written types lie in the text, carry the line they start on and lie within the
spans of what they are part of. It holds of any list of tokens that follow each other.
-/
namespace Quill

open List

/-- A text that is read, with what is known of the identifiers in it. -/
structure Page where
  file : FileId
  bytes : List UInt8
  Name : String → Prop

/-- The span lies in the text and carries its line. -/
structure Span.On (page : Page) (span : Span) : Prop where
  file : span.file = page.file
  le : span.start ≤ span.stop
  stop_le : span.stop ≤ page.bytes.length
  line : span.line = lineAt page.bytes span.start

theorem Span.On.join {page : Page} {a b : Span} (ha : a.On page) (hb : b.On page) :
    (a.join b).On page where
  file := ha.file
  le := Nat.le_trans (Nat.min_le_left _ _) (Nat.le_trans ha.le (Nat.le_max_left _ _))
  stop_le := Nat.max_le.mpr ⟨ha.stop_le, hb.stop_le⟩
  line := by
    show (if a.start ≤ b.start then a.line else b.line) = lineAt page.bytes (min a.start b.start)
    split
    · rename_i h
      rw [Nat.min_eq_left h]
      exact ha.line
    · rename_i h
      rw [Nat.min_eq_right (by omega)]
      exact hb.line

/-- The part lies between two offsets of the text, and so do all parts of it within it. -/
inductive Part.Lies (page : Page) : Nat → Part → Nat → Prop where
  | mk {lo hi : Nat} {x : Part} : x.span.On page → lo ≤ x.span.start → x.span.stop ≤ hi →
    (∀ c ∈ x.children, Lies page x.span.start c x.span.stop) →
    (∀ e : Expr, x.operand? = some e → Lies page e.span.start (.expr e) e.span.stop) →
    (∀ name ∈ x.names, page.Name name) → Lies page lo x hi

namespace Part.Lies

variable {page : Page} {lo hi : Nat} {x : Part}

section

variable (h : x.Lies page lo hi)

include h

theorem on : x.span.On page := by
  cases h
  assumption

theorem bounds : lo ≤ x.span.start ∧ x.span.stop ≤ hi := by
  cases h
  exact ⟨‹_›, ‹_›⟩

theorem child {c : Part} (hc : c ∈ x.children) : c.Lies page x.span.start x.span.stop := by
  cases h with
  | mk _ _ _ children => exact children c hc

theorem operand {e : Expr} (he : x.operand? = some e) :
    Lies page e.span.start (.expr e) e.span.stop := by
  cases h with
  | mk _ _ _ _ operand => exact operand e he

theorem name {name : String} (hn : name ∈ x.names) : page.Name name := by
  cases h with
  | mk _ _ _ _ _ names => exact names name hn

theorem mono {lo' hi' : Nat} (hlo : lo' ≤ x.span.start) (hhi : x.span.stop ≤ hi') :
    x.Lies page lo' hi' :=
  .mk h.on hlo hhi (fun _ hc => h.child hc) (fun _ he => h.operand he) fun _ hn => h.name hn

theorem wider {lo' hi' : Nat} (hlo : lo' ≤ lo) (hhi : hi ≤ hi') : x.Lies page lo' hi' :=
  h.mono (Nat.le_trans hlo h.bounds.1) (Nat.le_trans h.bounds.2 hhi)

theorem dress (ds : List Directive) : (x.withDirectives ds).Lies page lo hi := by
  obtain ⟨span, children, operand, names⟩ := x.withDirectives_frame ds
  refine .mk (span ▸ h.on) (span ▸ h.bounds.1) (span ▸ h.bounds.2) ?_ ?_ ?_
  · rw [span, children]
    exact fun _ hc => h.child hc
  · rw [operand]
    exact fun _ he => h.operand he
  · rw [names]
    exact fun _ hn => h.name hn

end

end Part.Lies

def Page.lo (page : Page) (s : Parser.State) : Nat := (s.rest.head?.map (·.span.start)).getD page.bytes.length

/-- Where the last token ends; before anything is read that is the first token itself. -/
def Page.hi (page : Page) (s : Parser.State) : Nat := min s.last.stop (page.lo s)

namespace Parser

/-- Tokens of the text that follow each other, and the last one before them. -/
structure Laid (page : Page) (s : State) : Prop where
  ordered : s.rest.Pairwise fun t u => t.span.stop ≤ u.span.start
  tokens : ∀ t ∈ s.rest, t.span.On page ∧ (t.kind = .identifier → page.Name t.text)
  last : s.last.On page

structure OnPage (page : Page) (s : State) : Prop extends Laid page s where
  file : s.file = page.file
  problems : ∀ d ∈ s.problems, d.span.On page

def Reached (s u : State) : Prop :=
  ∃ front, s.rest = front ++ u.rest ∧ u.last = (front.getLast?.map (·.span)).getD s.last

namespace Reached

theorem refl (s : State) : Reached s s := ⟨[], rfl, rfl⟩

theorem of_eq {s u : State} (hrest : u.rest = s.rest) (hlast : u.last = s.last) : Reached s u :=
  ⟨[], hrest.symm, hlast⟩

theorem trans {s t u : State} (h : Reached s t) (h' : Reached t u) : Reached s u := by
  obtain ⟨front, hrest, hlast⟩ := h
  obtain ⟨front', hrest', hlast'⟩ := h'
  refine ⟨front ++ front', by rw [hrest, hrest', append_assoc], ?_⟩
  rw [hlast', hlast, getLast?_append]
  cases front'.getLast? <;> rfl

theorem advance (s : State) : Reached s s.advance := by
  by_cases h : s.kind = .eof
  · rw [State.advance_of_eof h]
    exact refl s
  · exact ⟨[s.peek], (State.advance_eq h).1, (State.advance_eq h).2⟩

theorem advanceBy (n : Nat) (s : State) : Reached s (s.advanceBy n) := by
  induction n generalizing s with
  | zero => exact refl s
  | succ n ih => exact (advance s).trans (ih s.advance)

theorem rest_suffix {s u : State} (h : Reached s u) : u.rest <:+ s.rest := by
  obtain ⟨front, hrest, -⟩ := h
  exact ⟨front, hrest.symm⟩

end Reached

namespace Laid

variable {page : Page} {s u : State}

theorem peek (h : Laid page s) : s.peek.span.On page := by
  unfold State.peek
  cases hrest : s.rest with
  | nil => exact h.last
  | cons t ts => exact (h.tokens t (hrest ▸ mem_cons_self)).1

theorem reached (h : Laid page s) (hr : Reached s u) : Laid page u := by
  have hsuffix := hr.rest_suffix
  refine ⟨h.ordered.sublist hsuffix.sublist, fun t ht => h.tokens t (hsuffix.mem ht), ?_⟩
  obtain ⟨front, hrest, hlast⟩ := hr
  rw [hlast]
  cases hfront : front.getLast? with
  | none => exact h.last
  | some t => exact (h.tokens t (hrest ▸ mem_append_left _ (mem_of_getLast? hfront))).1

/-- Between two states with a token in between, what was read last is one of the tokens that stood
in front of what is left. -/
structure Passed (page : Page) (s u : State) : Prop where
  on : u.last.On page
  first : page.lo s = s.peek.span.start
  start : s.peek.span.start ≤ u.last.start
  stop : s.peek.span.stop ≤ u.last.stop
  settled : u.last.stop ≤ page.lo u
  hi : page.hi u = u.last.stop

theorem passed (h : Laid page s) (hr : Reached s u) (shorter : u.rest.length < s.rest.length) :
    Passed page s u := by
  obtain ⟨front, hrest, hlast⟩ := hr
  rcases eq_nil_or_concat' front with rfl | ⟨init, t, rfl⟩
  · rw [hrest] at shorter
    exact absurd shorter (Nat.lt_irrefl _)
  rw [getLast?_concat] at hlast
  have hlast : u.last = t.span := hlast
  have ordered := h.ordered
  rw [hrest, pairwise_append] at ordered
  have on : ∀ v ∈ init ++ [t], v.span.On page := fun v hv =>
    (h.tokens v (hrest ▸ mem_append_left _ hv)).1
  have ht := on t (mem_append_right _ mem_cons_self)
  have settled : t.span.stop ≤ page.lo u := by
    show _ ≤ (u.rest.head?.map (·.span.start)).getD page.bytes.length
    cases hu : u.rest with
    | nil => exact ht.stop_le
    | cons v vs =>
      exact ordered.2.2 t (mem_append_right _ mem_cons_self) v (hu ▸ mem_cons_self)
  have hi : page.hi u = u.last.stop := by
    show min u.last.stop (page.lo u) = u.last.stop
    rw [hlast]
    exact Nat.min_eq_left settled
  obtain ⟨first, more, hfirst, hbefore⟩ : ∃ first more, s.rest = first :: more ∧
      first.span.start ≤ t.span.start ∧ first.span.stop ≤ t.span.stop := by
    cases init with
    | nil => exact ⟨t, u.rest, hrest, Nat.le_refl _, Nat.le_refl _⟩
    | cons f init =>
      have hf := on f mem_cons_self
      have hft : f.span.stop ≤ t.span.start :=
        (pairwise_append.mp ordered.1).2.2 f mem_cons_self t mem_cons_self
      exact ⟨f, init ++ [t] ++ u.rest, hrest, Nat.le_trans hf.le hft, Nat.le_trans hft ht.le⟩
  have hpeek : s.peek = first := by
    unfold State.peek
    rw [hfirst]
    rfl
  refine ⟨hlast ▸ ht, ?_, ?_, ?_, hlast ▸ settled, hi⟩
  · rw [hpeek]
    show (s.rest.head?.map (·.span.start)).getD page.bytes.length = first.span.start
    rw [hfirst]
    rfl
  · rw [hpeek, hlast]
    exact hbefore.1
  · rw [hpeek, hlast]
    exact hbefore.2

theorem hi_le_lo (page : Page) (s : State) : page.hi s ≤ page.lo s :=
  Nat.min_le_right _ _

theorem grows (h : Laid page s) (hr : Reached s u) : page.lo s ≤ page.lo u ∧ page.hi s ≤ page.hi u := by
  have hle := hr.rest_suffix.length_le
  rcases Nat.lt_or_eq_of_le hle with shorter | same
  · obtain ⟨on, first, start, stop, settled, hi⟩ := h.passed hr shorter
    have := on.le
    have := hi_le_lo page s
    omega
  · obtain ⟨front, hrest, hlast⟩ := hr
    have hnil : front = [] := by
      rw [hrest, length_append] at same
      exact length_eq_zero_iff.mp (by omega)
    subst hnil
    have hlo : page.lo u = page.lo s := by
      show (u.rest.head?.map _).getD _ = (s.rest.head?.map _).getD _
      rw [hrest]
      rfl
    have hhi : page.hi u = page.hi s := by
      show min u.last.stop (page.lo u) = min s.last.stop (page.lo s)
      rw [hlo, hlast]
      rfl
    omega

end Laid

theorem State.upTo_eq {u : State} {start : Span} (h : start.start ≤ u.last.stop) :
    u.upTo start = start.join u.last := if_neg (Nat.not_lt.mpr h)

namespace OnPage

variable {page : Page} {s u : State}

theorem of_reached (h : OnPage page s) (hr : Reached s u) (hfile : u.file = s.file)
    (hproblems : ∀ d ∈ u.problems, d.span.On page) : OnPage page u :=
  ⟨h.toLaid.reached hr, hfile.trans h.file, hproblems⟩

theorem advance (h : OnPage page s) : OnPage page s.advance := by
  refine h.of_reached (.advance s) ?_ ?_ <;> rw [s.advance_frame]
  exact h.problems

theorem advanceBy (n : Nat) (h : OnPage page s) : OnPage page (s.advanceBy n) := by
  induction n generalizing s with
  | zero => exact h
  | succ n ih => exact ih h.advance

theorem told (h : OnPage page s) (told : s.Told u) : OnPage page u ∧ Reached s u := by
  obtain ⟨problem, span, hspan, rfl⟩ := told
  unfold State.report
  split
  · exact ⟨h, .refl s⟩
  · refine ⟨h.of_reached (.of_eq rfl rfl) rfl (forall_mem_append.mpr ⟨h.problems, ?_⟩), .of_eq rfl rfl⟩
    refine forall_mem_singleton.mpr ?_
    rcases hspan with rfl | rfl
    · exact h.peek
    · exact h.last

theorem rewind (h : OnPage page s) (hu : OnPage page u) : OnPage page (s.rewind u) :=
  ⟨⟨h.ordered, h.tokens, h.last⟩, hu.file, fun d hd => hu.problems d (mem_of_mem_take hd)⟩

end OnPage

def Held (page : Page) (s : State) (x : Item) (u : State) : Prop :=
  Reached s u ∧ match x with
    | .start a => a = s.peek.span
    | .word t => t.span = s.peek.span ∧ u.rest.length < s.rest.length
    | .name name => page.Name name ∧ u.rest.length < s.rest.length
    | .loose x | .part x => u.rest.length < s.rest.length ∧ x.Lies page (page.lo s) (page.hi u)
    | .operand e => Part.Lies page e.span.start (.expr e) e.span.stop
    | .node whole a i | .type whole a i => i.span = if whole then u.upTo a else a
    | .file f => (Part.node (.file f)).Lies page 0 page.bytes.length
    | _ => True

inductive Chain (page : Page) : State → List Item → State → Prop where
  | nil {s u} : Reached s u → Chain page s [] u
  | cons {s t v u x st} : Reached s t → Held page t x v → Chain page v st u → Chain page s (x :: st) u

namespace Chain

variable {page : Page} {s t u v : State} {st st' : List Item} {x : Item}

theorem reached (h : Chain page s st u) : Reached s u := by
  induction h with
  | nil hr => exact hr
  | cons hr held _ ih => exact hr.trans (held.1.trans ih)

theorem append (h : Chain page s st t) (h' : Chain page t st' u) : Chain page s (st ++ st') u := by
  induction h with
  | nil hr =>
    cases h' with
    | nil hr' => exact .nil (hr.trans hr')
    | cons hr' held more => exact .cons (hr.trans hr') held more
  | cons hr held _ ih => exact .cons hr held (ih h')

theorem later (h : Chain page s st u) (hr : Reached u v) : Chain page s st v :=
  append_nil st ▸ h.append (.nil hr)

theorem push (h : Chain page s st t) (held : Held page t x u) : Chain page s (st ++ [x]) u :=
  h.append (.cons (.refl t) held (.nil (.refl u)))

theorem split (h : Chain page s (st ++ st') u) : ∃ t, Chain page s st t ∧ Chain page t st' u := by
  induction st generalizing s with
  | nil => exact ⟨s, .nil (.refl s), h⟩
  | cons x st ih =>
    cases h with
    | cons hr held more =>
      obtain ⟨t, first, last⟩ := ih more
      exact ⟨t, .cons hr held first, last⟩

theorem single (h : Chain page s [x] u) : ∃ t v, Reached s t ∧ Held page t x v ∧ Reached v u := by
  cases h with
  | cons hr held more => exact ⟨_, _, hr, held, more.reached⟩

theorem mem (h : Chain page s st u) (hx : x ∈ st) : ∃ t v, Reached s t ∧ Held page t x v ∧ Reached v u := by
  induction h with
  | nil => cases hx
  | cons hr held more ih =>
    rcases mem_cons.mp hx with rfl | hx
    · exact ⟨_, _, hr, held, more.reached⟩
    · obtain ⟨t, v, hr', held', more'⟩ := ih hx
      exact ⟨t, v, hr.trans (held.1.trans hr'), held', more'⟩

theorem lies (h : Chain page s st u) (hs : Laid page s) {y : Part} (hy : .part y ∈ st ∨ .loose y ∈ st) :
    u.rest.length < s.rest.length ∧ y.Lies page (page.lo s) (page.hi u) := by
  obtain ⟨t, v, hr, held, hr'⟩ : ∃ t v, Reached s t ∧ Held page t (.part y) v ∧ Reached v u :=
    hy.elim h.mem h.mem
  have before := hs.grows hr
  have after := ((hs.reached hr).reached held.1).grows hr'
  have := hr.rest_suffix.length_le
  have := hr'.rest_suffix.length_le
  have := held.2.1
  exact ⟨by omega, held.2.2.wider before.1 after.2⟩

end Chain

end Parser

def Part.mark (x : Part) (whole : Bool) (a : Span) : Item :=
  match x with
  | .node n => .node whole a n.info
  | .type t => .type whole a t.info

def Item.takes : Item → Bool
  | .word _ | .name _ | .loose _ | .part _ => true
  | _ => false

inductive Spanned (x : Part) : List Item → Prop where
  | head {t} : Spanned x [.word t, x.mark false t.span]
  | whole {first a} (middle) : first = .start a ∨ (∃ t : Token, first = .word t ∧ t.span = a) →
      (first :: middle).any Item.takes = true → Spanned x (first :: middle ++ [x.mark true a])
  /-- It goes from a part that was read first to the last token. -/
  | onward {y} (middle) : Spanned x (.loose y :: middle ++ [x.mark true y.span])
  | joined {l r} : Spanned x [.loose l, .loose r, x.mark false (l.span.join r.span)]
  /-- It goes from the token of an operator to the end of the operand. -/
  | applied {a e} : Spanned x [.start a, .loose e, x.mark false (a.join e.span)]

theorem Made.spanned {items : List Item} {x : Part} (h : Made items x) : Spanned x items := by
  have word {t : Token} (middle : List Item) {x : Part} : Spanned x (.word t :: middle ++ [x.mark true t.span]) :=
    .whole middle (.inr ⟨t, rfl, rfl⟩) rfl
  cases h with
  | void | scalar | literal | separator => exact .head
  | tupleType | template | tuple | structInit | arrayInit | sizeofType | block | ret | crash | cond | package
  | imports | typedef | struct => exact word _
  | sizeofExpr | switch | defer => exact word [_]
  | cast | loop => exact word [_, _]
  | foreach => exact word [_, _, _]
  | applied | call => exact .onward _
  | pointer | mutPointer | slice | optional | array | step => exact .onward []
  | sized | result | field | index => exact .onward [_]
  | unary => exact .applied
  | binary | range => exact .joined
  | @named a ns i hns | @ref a ns i hns =>
    obtain ⟨n, ns, rfl⟩ := exists_cons_of_ne_nil hns
    exact .whole _ (.inl rfl) rfl
  | exprStmt => exact .whole [_] (.inl rfl) rfl
  | assign => exact .whole [_, _] (.inl rfl) rfl
  | header | function => exact .whole _ (.inl rfl) rfl
  | varStmt | varDecl => exact .whole _ (.inl rfl) (by simp [Item.takes])
namespace Parser

variable {page : Page}

theorem Chain.shorter {s u : State} {st : List Item} {y : Item} (h : Chain page s st u) (hy : y ∈ st)
    (takes : y.takes = true) : u.rest.length < s.rest.length := by
  obtain ⟨t, v, hr, held, hr'⟩ := h.mem hy
  have := hr.rest_suffix.length_le
  have := hr'.rest_suffix.length_le
  have : v.rest.length < t.rest.length := by
    cases y with
    | word | name => exact held.2.2
    | loose | part => exact held.2.1
    | _ => cases takes
  omega

theorem Chain.marked {s u : State} {x : Part} {whole : Bool} {a : Span} (front : List Item)
    (h : Chain page s (front ++ [x.mark whole a]) u) :
    ∃ v, Chain page s front v ∧ Reached v u ∧ x.span = if whole then v.upTo a else a := by
  obtain ⟨t, first, last⟩ := h.split
  obtain ⟨t', v, hr, held, hr'⟩ := last.single
  refine ⟨v, first.later (hr.trans held.1), hr', ?_⟩
  cases x <;> exact held.2

/-- What a span covers of what was read between two states. -/
structure Covers (page : Page) (s u : State) (span : Span) (front : List Item) : Prop where
  shorter : u.rest.length < s.rest.length
  on : span.On page
  lo : page.lo s ≤ span.start
  hi : span.stop ≤ page.hi u
  within : ∀ c, .part c ∈ front ∨ .loose c ∈ front → c.span.Within span

theorem Covers.wider {s t v u : State} {x : Part} {whole : Bool} {a : Span} (front : List Item)
    (h : Covers page t v x.span front) (hs : Laid page s) (hr : Reached s t) (hv : Reached t v) (hu : Reached v u) :
    Covers page s u x.span (front ++ [x.mark whole a]) := by
  have before := hs.grows hr
  have after := ((hs.reached hr).reached hv).grows hu
  have := hr.rest_suffix.length_le
  have := hu.rest_suffix.length_le
  have := h.shorter
  refine ⟨by omega, h.on, Nat.le_trans before.1 h.lo, Nat.le_trans h.hi after.2, fun c hc => h.within c ?_⟩
  cases x <;> simpa [Part.mark] using hc

theorem Chain.covers {s u : State} {items : List Item} {x : Part} (h : Chain page s items u) (hs : Laid page s)
    (spanned : Spanned x items) : Covers page s u x.span items := by
  cases spanned with
  | @head token =>
    obtain ⟨v, front, hu, hspan⟩ := marked [.word token] h
    cases front with
    | cons hr held more =>
      have laid := hs.reached hr
      obtain ⟨-, first, -, stop, -, hi⟩ := laid.passed held.1 held.2.2
      have hspan : x.span = _ := hspan.trans held.2.1
      refine .wider [.word token] ?_ hs hr held.1 (more.reached.trans hu)
      refine ⟨held.2.2, hspan ▸ laid.peek, ?_, ?_, by simp⟩ <;> rw [hspan] <;> omega
  | @whole token a middle hfirst takes =>
    obtain ⟨v, front, hu, hspan⟩ := h.marked _
    cases front with
    | @cons _ t w _ _ _ hr held more =>
      have laid := hs.reached hr
      have chain : Chain page t (token :: middle) v := .cons (.refl t) held more
      obtain ⟨y, hy, htakes⟩ := any_eq_true.mp takes
      have shorter := chain.shorter hy htakes
      obtain ⟨on, first, start, stop, -, hi⟩ := laid.passed chain.reached shorter
      have ha : a = t.peek.span := by
        rcases hfirst with rfl | ⟨token, rfl, rfl⟩
        · exact held.2
        · exact held.2.1
      have := on.le
      rw [if_pos rfl, ha, State.upTo_eq (by omega)] at hspan
      have hstart : x.span.start = t.peek.span.start := hspan ▸ Nat.min_eq_left start
      have hstop : x.span.stop = v.last.stop := hspan ▸ Nat.max_eq_right stop
      refine .wider _ ⟨shorter, hspan ▸ laid.peek.join on, by omega, by omega, fun c hc => ?_⟩ hs hr chain.reached hu
      have := (chain.lies laid hc).2.bounds
      exact ⟨by omega, by omega⟩
  | @onward y middle =>
    obtain ⟨v, front, hu, hspan⟩ := h.marked _
    cases front with
    | @cons _ t w _ _ _ hr held more =>
      have laid := hs.reached hr
      have chain : Chain page t (.loose y :: middle) v := .cons (.refl t) held more
      have shorter := chain.shorter mem_cons_self rfl
      obtain ⟨on, first, start, stop, -, hi⟩ := laid.passed chain.reached shorter
      have lies : y.Lies page (page.lo t) (page.hi w) := held.2.2
      have := lies.bounds
      have := lies.on.le
      have := ((laid.reached held.1).grows more.reached).2
      have := Laid.hi_le_lo page w
      rw [if_pos rfl, State.upTo_eq (by omega)] at hspan
      have hstart : x.span.start = min y.span.start v.last.start := hspan ▸ rfl
      have hstop : x.span.stop = max y.span.stop v.last.stop := hspan ▸ rfl
      refine .wider _ ⟨shorter, hspan ▸ lies.on.join on, by omega, by omega, fun c hc => ?_⟩ hs hr chain.reached hu
      simp only [mem_cons, reduceCtorEq, false_or, Item.loose.injEq] at hc
      have hc : c = y ∨ .part c ∈ middle ∨ .loose c ∈ middle := by tauto
      rcases hc with rfl | hc
      · exact ⟨by omega, by omega⟩
      · have := (more.lies (laid.reached held.1) hc).2.bounds
        exact ⟨by omega, by omega⟩
  | @joined l r =>
    obtain ⟨v, front, hu, hspan⟩ := marked [.loose l, .loose r] h
    obtain ⟨shorter, hl⟩ := front.lies (y := l) hs (.inr mem_cons_self)
    have hr := (front.lies (y := r) hs (.inr (mem_cons_of_mem _ mem_cons_self))).2
    have hspan : x.span = l.span.join r.span := hspan
    refine .wider [.loose l, .loose r] ⟨shorter, ?_, ?_, ?_, fun c hc => ?_⟩ hs (.refl s) front.reached hu
    · exact hspan ▸ hl.on.join hr.on
    · exact hspan ▸ Nat.le_min.mpr ⟨hl.bounds.1, hr.bounds.1⟩
    · exact hspan ▸ Nat.max_le.mpr ⟨hl.bounds.2, hr.bounds.2⟩
    · have hc : c = l ∨ c = r := by simpa using hc
      rw [hspan]
      rcases hc with rfl | rfl
      · exact Span.within_join_left _ _
      · exact Span.within_join_right _ _
  | @applied a e =>
    obtain ⟨v, front, hu, hspan⟩ := marked [.start a, .loose e] h
    cases front with
    | @cons _ t w _ _ _ hr held more =>
      have laid := hs.reached hr
      have chain : Chain page t [.start a, .loose e] v := .cons (.refl t) held more
      obtain ⟨shorter, he⟩ := chain.lies (y := e) laid (.inr (mem_cons_of_mem _ mem_cons_self))
      obtain ⟨-, first, -, stop, -, hi⟩ := laid.passed chain.reached shorter
      have ha : a = t.peek.span := held.2
      have hspan : x.span = a.join e.span := hspan
      have hstart : x.span.start = min a.start e.span.start := hspan ▸ rfl
      have hstop : x.span.stop = max a.stop e.span.stop := hspan ▸ rfl
      have := he.bounds
      subst ha
      refine .wider [.start _, .loose e] ⟨shorter, ?_, by omega, by omega, fun c hc => ?_⟩ hs hr chain.reached hu
      · exact hspan ▸ laid.peek.join he.on
      · have hc : c = e := by simpa using hc
        exact hc ▸ hspan ▸ Span.within_join_right _ _

theorem Chain.make {s u : State} {items : List Item} {x : Part} (h : Chain page s items u)
    (hs : Laid page s) (made : Made items x) :
    u.rest.length < s.rest.length ∧ x.Lies page (page.lo s) (page.hi u) := by
  obtain ⟨children, operands, names⟩ := made.composed
  have covers := h.covers hs made.spanned
  refine ⟨covers.shorter, .mk covers.on covers.lo covers.hi (fun c hc => ?_) (fun e he => ?_) fun name hname => ?_⟩
  · have within := covers.within c (children c hc)
    exact (h.lies hs (children c hc)).2.mono within.1 within.2
  · obtain ⟨_, _, -, held, -⟩ := h.mem (operands e he)
    exact held.2
  · rcases names name hname with hmem | ⟨y, hy, hname⟩
    · obtain ⟨_, _, -, held, -⟩ := h.mem hmem
      exact held.2.1
    · exact (h.lies hs (.inr hy)).2.name hname

/-- Declarations that follow each other, up to an offset. -/
structure InOrder (page : Page) (hi : Nat) (decls : List Decl) : Prop where
  lie : ∀ d ∈ decls, (Part.decl d).Lies page 0 hi
  ordered : decls.Pairwise fun a b => a.span.stop ≤ b.span.start

theorem InOrder.later {hi hi' : Nat} {decls : List Decl} (h : InOrder page hi decls)
    (hle : hi ≤ hi') : InOrder page hi' decls :=
  ⟨fun d hd => (h.lie d hd).mono (h.lie d hd).bounds.1 (Nat.le_trans (h.lie d hd).bounds.2 hle),
    h.ordered⟩

theorem InOrder.push {lo hi hi' : Nat} {decls : List Decl} {d : Decl} (h : InOrder page hi decls)
    (hlo : hi ≤ lo) (hle : hi ≤ hi') (hd : (Part.decl d).Lies page lo hi') :
    InOrder page hi' (decls ++ [d]) := by
  have later := h.later hle
  refine ⟨forall_mem_append.mpr ⟨later.lie, forall_mem_singleton.mpr
    (hd.mono (Nat.zero_le _) hd.bounds.2)⟩, ?_⟩
  refine pairwise_append.mpr ⟨h.ordered, pairwise_singleton _ _, fun a ha b hb => ?_⟩
  obtain rfl := mem_singleton.mp hb
  exact Nat.le_trans (h.lie a ha).bounds.2 (Nat.le_trans hlo hd.bounds.1)

theorem InOrder.ends {hi : Nat} {decls : List Decl} (h : InOrder page hi decls) (hne : decls ≠ []) :
    ∃ first ∈ decls, ∃ last ∈ decls, decls.head? = some first ∧ decls.getLast? = some last ∧
      ∀ d ∈ decls, first.span.start ≤ d.span.start ∧ d.span.stop ≤ last.span.stop := by
  have le : ∀ d ∈ decls, d.span.start ≤ d.span.stop := fun d hd => (h.lie d hd).on.le
  obtain ⟨first, more, hfirst⟩ := exists_cons_of_ne_nil hne
  obtain ⟨init, last, hlast⟩ := (eq_nil_or_concat' decls).resolve_left hne
  have hmem : first ∈ decls := hfirst ▸ mem_cons_self
  have hmem' : last ∈ decls := hlast ▸ mem_append_right _ mem_cons_self
  refine ⟨first, hmem, last, hmem', hfirst ▸ rfl, hlast ▸ getLast?_concat, fun d hd => ⟨?_, ?_⟩⟩
  · have ordered := h.ordered
    rw [hfirst, pairwise_cons] at ordered
    rcases mem_cons.mp (hfirst ▸ hd) with rfl | hd
    · exact Nat.le_refl _
    · exact Nat.le_trans (le first hmem) (ordered.1 d hd)
  · have ordered := h.ordered
    rw [hlast, pairwise_append] at ordered
    rcases mem_append.mp (hlast ▸ hd) with hd | hd
    · exact Nat.le_trans (ordered.2.2 d hd last mem_cons_self) (le last hmem')
    · exact Nat.le_of_eq (mem_singleton.mp hd ▸ rfl)

theorem InOrder.file {hi : Nat} {decls : List Decl} {s : State} {file : File}
    (h : InOrder page hi decls) (hfile : s.file = page.file) (hr : (fileOf decls s).1 = some file) :
    (Part.node (.file file)).Lies page 0 page.bytes.length := by
  have hdecls : file.decls = decls := by rw [← Option.some.inj hr]
  by_cases hne : decls = []
  · subst hne
    have on : file.info.span.On page := by
      rw [← Option.some.inj hr]
      exact ⟨hfile, Nat.le_refl _, Nat.zero_le _, by simp [lineAt]⟩
    refine .mk on (Nat.zero_le _) on.stop_le ?_ (fun _ h => by cases h) (forall_mem_nil _)
    exact forall_mem_map.mpr (forall_mem_map.mpr (hdecls ▸ forall_mem_nil _))
  · obtain ⟨first, hfirst, last, hlast, hhead, hend, hall⟩ := h.ends hne
    have hspan : file.info.span = first.span.join last.span := by
      rw [← Option.some.inj hr]
      simp only [hhead, hend]
    have on : file.info.span.On page := hspan ▸ (h.lie first hfirst).on.join (h.lie last hlast).on
    refine .mk on (Nat.zero_le _) on.stop_le ?_ (fun _ h => by cases h) (forall_mem_nil _)
    refine forall_mem_map.mpr (forall_mem_map.mpr fun d hd => ?_)
    rw [hdecls] at hd
    refine (h.lie d hd).mono ?_ ?_
    · show file.info.span.start ≤ d.span.start
      rw [hspan]
      exact Nat.le_trans (Nat.min_le_left _ _) (hall d hd).1
    · show d.span.stop ≤ file.info.span.stop
      rw [hspan]
      exact Nat.le_trans (hall d hd).2 (Nat.le_max_right _ _)

theorem Chain.inOrder {s u : State} {decls : List Decl} (h : Chain page s (decls.map .decl) u)
    (hs : Laid page s) : InOrder page (page.hi u) decls := by
  induction decls using List.reverseRecOn generalizing u with
  | nil => exact ⟨nofun, .nil⟩
  | append_singleton decls d ih =>
    rw [map_append] at h
    obtain ⟨t, first, last⟩ := h.split
    obtain ⟨-, lies⟩ := last.lies (hs.reached first.reached) (.inl mem_cons_self)
    have after := (hs.reached first.reached).grows last.reached
    exact (ih first).push (Laid.hi_le_lo page t) after.2 lies

theorem Steps.onPage {m : Mode} {s u : State} {st : List Item} (h : Steps m s st u) (hm : m ≠ .apart)
    (hs : OnPage page s) : OnPage page u ∧ Chain page s st u := by
  induction h with
  | refl => exact ⟨hs, .nil (.refl _)⟩
  | @pass _ _ u _ _ _ ih => exact ⟨(ih hm hs).1.advance, (ih hm hs).2.later (.advance u)⟩
  | @word _ _ u _ _ hk _ ih =>
    exact ⟨(ih hm hs).1.advance, (ih hm hs).2.push ⟨.advance u, rfl, State.length_advance hk⟩⟩
  | @name _ _ u _ _ hk ih =>
    have hne : u.kind ≠ .eof := hk ▸ nofun
    exact ⟨(ih hm hs).1.advance, (ih hm hs).2.push
      ⟨.advance u, ((ih hm hs).1.tokens _ (State.peek_mem hne)).2 hk, State.length_advance hne⟩⟩
  | @length _ _ u _ _ _ ih | @sign _ _ u _ _ _ ih =>
    exact ⟨(ih hm hs).1.advance, (ih hm hs).2.push ⟨.advance u, trivial⟩⟩
  | @body _ _ u _ _ _ n _ _ ih => exact ⟨(ih hm hs).1.advanceBy n, (ih hm hs).2.later (.advanceBy n u)⟩
  | @start _ _ u _ _ ih => exact ⟨(ih hm hs).1, (ih hm hs).2.push ⟨.refl u, rfl⟩⟩
  | @text _ _ u _ _ _ _ _ ih => exact ⟨(ih hm hs).1, (ih hm hs).2.push ⟨.refl u, trivial⟩⟩
  | directive _ _ ih =>
    obtain ⟨on, chain⟩ := ih hm hs
    obtain ⟨t, first, last⟩ := chain.split
    exact ⟨on, first.push ⟨last.reached, trivial⟩⟩
  | node whole a _ ih | type whole a _ ih =>
    obtain ⟨on, chain⟩ := ih hm hs
    exact ⟨⟨⟨on.ordered, on.tokens, on.last⟩, on.file, on.problems⟩, chain.push ⟨.of_eq rfl rfl, rfl⟩⟩
  | make _ made ih =>
    obtain ⟨on, chain⟩ := ih hm hs
    obtain ⟨t, first, last⟩ := chain.split
    exact ⟨on, first.push ⟨last.reached, last.make (hs.reached first.reached) made⟩⟩
  | inner _ _ ih =>
    obtain ⟨on, chain⟩ := ih hm hs
    rw [append_assoc] at chain
    obtain ⟨t, first, last⟩ := chain.split
    exact ⟨on, first.push ⟨last.reached, last.lies (hs.reached first.reached) (by simp)⟩⟩
  | settle _ ih =>
    obtain ⟨on, chain⟩ := ih hm hs
    obtain ⟨t, first, last⟩ := chain.split
    exact ⟨on, first.push ⟨last.reached, last.lies (hs.reached first.reached) (by simp)⟩⟩
  | @dress _ _ _ _ ds x _ ih =>
    obtain ⟨on, chain⟩ := ih hm hs
    rw [append_assoc] at chain
    obtain ⟨t, first, last⟩ := chain.split
    obtain ⟨shorter, lies⟩ := last.lies (y := x) (hs.reached first.reached) (.inr (by simp))
    exact ⟨on, first.push ⟨last.reached, shorter, lies.dress _⟩⟩
  | file next _ hf ih =>
    obtain ⟨on, chain⟩ := ih hm hs
    obtain ⟨t, first, last⟩ := chain.split
    obtain ⟨t', before, decls⟩ := first.split
    have lies := (decls.inOrder (hs.reached before.reached)).file on.file hf
    refine ⟨⟨⟨on.ordered, on.tokens, on.last⟩, on.file, on.problems⟩, ?_⟩
    exact (before.push ⟨decls.reached, lies⟩).append (last.later (.of_eq rfl rfl))
  | tried _ _ _ _ hw ih earlier _ again =>
    obtain ⟨on, chain⟩ := ih hm hs
    have onv := (again nofun ((earlier hm hs).1.rewind on)).1
    refine ⟨on.rewind ?_, chain.later (.of_eq rfl rfl)⟩
    rcases hw with rfl | told
    · exact onv
    · exact (onv.told told).1
  | operand _ _ _ _ ih earlier _ again =>
    obtain ⟨on, chain⟩ := ih hm hs
    have before := (earlier hm hs).1.rewind on
    obtain ⟨onv, more⟩ := again nofun before
    obtain ⟨-, lies⟩ := more.lies before.toLaid (.inl mem_cons_self)
    exact ⟨on.rewind onv, chain.push ⟨.of_eq rfl rfl, lies.mono (Nat.le_refl _) (Nat.le_refl _)⟩⟩
  | mend n _ _ told ih ih' =>
    obtain ⟨on, chain⟩ := ih hm hs
    obtain ⟨onv, more⟩ := ih' hm on
    obtain ⟨onw, hw⟩ := onv.told told
    have onx := onw.advanceBy n
    refine ⟨⟨⟨onx.ordered, onx.tokens, onx.last⟩, onx.file, onx.problems⟩, chain.later ?_⟩
    exact more.reached.trans (hw.trans ((Reached.advanceBy n _).trans (.of_eq rfl rfl)))
  | unmute _ ih =>
    obtain ⟨on, chain⟩ := ih hm hs
    exact ⟨⟨⟨on.ordered, on.tokens, on.last⟩, on.file, on.problems⟩, chain.later (.of_eq rfl rfl)⟩
  | given => exact absurd rfl hm

theorem files_lie {s : State} (h : OnPage page s) : ∃ fs u, files s = (some fs, u) ∧
    (∀ f ∈ fs, (Part.node (.file f)).Lies page 0 page.bytes.length) ∧
      ∀ d ∈ u.problems, d.span.On page := by
  obtain ⟨fs, u, hrun, -, steps, -⟩ := Steps.files s
  obtain ⟨on, chain⟩ := steps.onPage nofun ⟨⟨h.ordered, h.tokens, h.last⟩, h.file, h.problems⟩
  refine ⟨fs, u, hrun, fun f hf => ?_, on.problems⟩
  obtain ⟨_, _, -, held, -⟩ := chain.mem (mem_map_of_mem hf)
  exact held.2

end Parser

end Quill
