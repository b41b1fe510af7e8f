import Quill.Lower.Stmt
import Quill.Proofs.TreeIdentity

/-!
# Formats of crash messages

The text of a message becomes part of a format string, which C reads twice. A percent sign that is
written as the number of an octal or hexadecimal escape is taken for a conversion; without such
escapes a format has one conversion for each value that is put into the message.
-/
namespace Quill

open List Lower

/-- A character of a C string, or a number that an escape gives for one. -/
inductive CUnit where
  | char (c : Char)
  | code (n : Nat)
  deriving DecidableEq

namespace CUnit

def value : CUnit → Nat
  | char c => c.toNat
  | code n => n

def code? : CUnit → Option Nat
  | char _ => none
  | code n => some n

end CUnit

/-- Where the reading of a C string stands: between characters, behind a backslash, or behind digits of
an escape with a value so far. Up to three digits are octal. -/
inductive CReading where
  | plain
  | escape
  | octal (left value : Nat)
  | hex (value : Nat)
  deriving DecidableEq

namespace CReading

def digit? (base : Nat) (c : Char) : Option Nat :=
  let n := if '0' ≤ c ∧ c ≤ '9' then c.toNat - 48 else if 'a' ≤ c ∧ c ≤ 'f' then c.toNat - 87
    else if 'A' ≤ c ∧ c ≤ 'F' then c.toNat - 55 else base
  if n < base then some n else none

/-- What a letter behind a backslash stands for; any other character stands for itself. -/
def letter (c : Char) : Char :=
  match c with
  | 'a' => '\x07' | 'b' => '\x08' | 'f' => '\x0c' | 'n' => '\n' | 'r' => '\r' | 't' => '\t' | 'v' => '\x0b'
  | c => c

/-- The digits of an escape go on. -/
def digits? : CReading → Char → Option CReading
  | octal (left + 1) n, c => (digit? 8 c).map fun d => octal left (8 * n + d)
  | hex n, c => (digit? 16 c).map fun d => hex (16 * n + d)
  | _, _ => none

/-- The number of an escape that may still go on. -/
def pending : CReading → List CUnit
  | octal _ n | hex n => [.code n]
  | plain | escape => []

def escaped (c : Char) : List CUnit × CReading :=
  if c = 'x' then ([], hex 0)
  else match digit? 8 c with
    | some d => ([], octal 2 d)
    | none => ([.char (letter c)], plain)

def step (st : CReading) (c : Char) : List CUnit × CReading :=
  match st.digits? c with
  | some st => ([], st)
  | none =>
    if st = escape then escaped c
    else if c = '\x5c' then (st.pending, escape)
    else (st.pending ++ [.char c], plain)

def run : CReading → List Char → List CUnit × CReading
  | st, [] => ([], st)
  | st, c :: cs => ((st.step c).1 ++ ((st.step c).2.run cs).1, ((st.step c).2.run cs).2)

/-- All that is read, with a number that ends with the string. -/
def units (st : CReading) (cs : List Char) : List CUnit := (st.run cs).1 ++ (st.run cs).2.pending

end CReading

/-- The characters of a C string with this between its quotes, as numbers. -/
def CString.decode (inside : List Char) : List Nat := (CReading.plain.units inside).map (·.value)

def CString.escapes (inside : List Char) : List Nat := (CReading.plain.units inside).filterMap (·.code?)

/-- Conversions of `printf`, each with the C type of the argument that it reads. -/
def printfTypes : List (String × CType) :=
  [("%d", { name := "int" }), ("%c", { name := "int" }), ("%u", { name := "unsigned int" }),
    ("%lld", { name := "long long" }), ("%llu", { name := "unsigned long long" }),
    ("%f", { name := "double" }), ("%s", { name := "char", stars := 1 }),
    ("%p", { name := "void", stars := 1 })]

/-- A format with these conversions, in order; every other percent sign is doubled. -/
inductive Formats : List Nat → List String → Prop where
  | nil : Formats [] []
  | char {n : Nat} {ns : List Nat} {ds : List String} : n ≠ '%'.toNat → Formats ns ds → Formats (n :: ns) ds
  | percent {ns : List Nat} {ds : List String} : Formats ns ds →
    Formats ('%'.toNat :: '%'.toNat :: ns) ds
  | conversion {d : String} {type : CType} {ns : List Nat} {ds : List String} : (d, type) ∈ printfTypes →
    Formats ns ds → Formats (d.toList.map Char.toNat ++ ns) (d :: ds)

theorem Formats.append {ns ms : List Nat} {ds es : List String} (h : Formats ns ds) (h' : Formats ms es) :
    Formats (ns ++ ms) (ds ++ es) := by
  induction h with
  | nil => exact h'
  | char hn _ ih => exact .char hn ih
  | percent _ ih => exact .percent ih
  | conversion hd _ ih =>
    rw [append_assoc]
    exact .conversion hd ih

theorem Formats.plain {ns : List Nat} (h : ∀ n ∈ ns, n ≠ '%'.toNat) : Formats ns [] := by
  induction ns with
  | nil => exact .nil
  | cons n ns ih => exact .char (h n mem_cons_self) (ih fun m hm => h m (mem_cons_of_mem n hm))

namespace CReading

variable {st : CReading} {c : Char} {cs ds : List Char}

theorem run_append (st : CReading) (cs ds : List Char) :
    st.run (cs ++ ds) = ((st.run cs).1 ++ ((st.run cs).2.run ds).1, ((st.run cs).2.run ds).2) := by
  induction cs generalizing st with
  | nil => rfl
  | cons c cs ih => simp only [cons_append, run, ih, append_assoc]

theorem units_append (st : CReading) (cs ds : List Char) :
    st.units (cs ++ ds) = (st.run cs).1 ++ (st.run cs).2.units ds := by
  simp only [units, run_append, append_assoc]

theorem step_of_not_digit (h : digit? 8 c = none ∧ digit? 16 c = none) (hst : st ≠ escape) :
    st.step c = if c = '\x5c' then (st.pending, escape) else (st.pending ++ [.char c], plain) := by
  have hnone : st.digits? c = none := by
    cases st with
    | octal left n => cases left <;> simp [digits?, h.1]
    | hex n => simp [digits?, h.2]
    | _ => rfl
  rw [step, hnone]
  exact if_neg hst

theorem letter_ne (hc : c ≠ '%') : letter c ≠ '%' := by
  unfold letter
  split <;> first | decide | exact hc

theorem mem_step {u : CUnit} (h : u ∈ (st.step c).1) : (∃ n, u = .code n) ∨ u = .char c ∨ u = .char (letter c) := by
  unfold step at h
  split at h
  · cases h
  · have hpending : ∀ v ∈ st.pending, ∃ n, v = .code n := by
      cases st <;> simp [pending]
    split at h
    · unfold escaped at h
      split at h
      · cases h
      · split at h <;> simp_all
    · split at h
      · exact .inl (hpending u h)
      · rcases mem_append.mp h with h | h
        · exact .inl (hpending u h)
        · exact .inr (.inl (mem_singleton.mp h))

theorem step_escape_iff : (st.step c).2 = escape ↔ c = '\x5c' ∧ st ≠ escape := by
  by_cases hc : c = '\x5c'
  · subst hc
    by_cases hst : st = escape
    · subst hst
      decide
    · simp [step_of_not_digit (c := '\x5c') (by decide) hst, hst]
  · refine iff_of_false ?_ fun h => hc h.1
    unfold step
    split
    · rename_i st' hst'
      cases st with
      | octal left n =>
        cases left with
        | zero => cases hst'
        | succ left =>
          obtain ⟨d, -, rfl⟩ := Option.map_eq_some_iff.mp hst'
          nofun
      | hex n =>
        obtain ⟨d, -, rfl⟩ := Option.map_eq_some_iff.mp hst'
        nofun
      | _ => cases hst'
    · rw [if_neg hc]
      unfold escaped
      split
      · split
        · nofun
        · split <;> nofun
      · nofun

/-- No percent sign is written as a number. -/
def Clean (us : List CUnit) : Prop := ∀ n, .code n ∈ us → n ≠ '%'.toNat

/-- What is shown for a character is read like it, but a percent sign is doubled. -/
structure Shows (st : CReading) (c : Char) (shown : List Char) : Prop where
  after : (st.run shown).2 = (st.step c).2
  format : Clean (st.step c).1 → Formats ((st.run shown).1.map (·.value)) []

theorem Clean.formats {us : List CUnit} (h : Clean us) (hchars : ∀ c, .char c ∈ us → c ≠ '%') :
    Formats (us.map (·.value)) [] := by
  refine .plain (forall_mem_map.mpr fun u hu => ?_)
  cases u with
  | char c => exact fun heq => hchars c hu (Char.toNat_inj.mp heq)
  | code n => exact h n hu

theorem shows_self (hc : c ≠ '%') : Shows st c [c] := by
  refine ⟨rfl, fun h => ?_⟩
  rw [run, run, append_nil]
  refine h.formats fun d hd => ?_
  rcases mem_step hd with ⟨n, hn⟩ | hd | hd
  · cases hn
  · cases hd
    exact hc
  · cases hd
    exact letter_ne hc

theorem Clean.append {us vs : List CUnit} (h : Clean (us ++ vs)) : Clean us ∧ Clean vs :=
  ⟨fun n hn => h n (mem_append_left _ hn), fun n hn => h n (mem_append_right _ hn)⟩

theorem Clean.pending (h : Clean st.pending) : Formats (st.pending.map (·.value)) [] := by
  refine h.formats fun c hc => ?_
  cases st <;> simp [CReading.pending] at hc

theorem shows_percent : Shows st '%' ['%', '%'] := by
  by_cases hst : st = escape
  · subst hst
    exact ⟨rfl, fun _ => .percent .nil⟩
  · have hstep := step_of_not_digit (c := '%') (by decide) hst
    rw [if_neg (by decide)] at hstep
    refine ⟨by simp only [run, hstep]; rfl, fun h => ?_⟩
    rw [hstep] at h
    simp only [run, hstep, map_append, append_assoc]
    exact h.append.1.pending.append (.percent .nil)

theorem shows_escaped {d : Char} (hst : st ≠ escape) (hdigit : digit? 8 c = none ∧ digit? 16 c = none)
    (hc : c ≠ '\x5c' ∧ c ≠ '%') (hd : escaped d = ([.char c], plain)) : Shows st c ['\x5c', d] := by
  have hstep := step_of_not_digit hdigit hst
  have hback := step_of_not_digit (c := '\x5c') (by decide) hst
  rw [if_neg hc.1] at hstep
  rw [if_pos rfl] at hback
  have hrun : st.run ['\x5c', d] = (st.pending ++ [.char c], plain) := by
    rw [run, run, run, hback, show escape.step d = _ from hd]
    rfl
  refine ⟨by rw [hrun, hstep], fun h => ?_⟩
  rw [hstep] at h
  rw [hrun, map_append]
  exact h.append.1.pending.append (.char (fun heq => hc.2 (Char.toNat_inj.mp heq)) .nil)

theorem shows_newline : Shows st '\n' ['\x5c', 'n'] := by
  by_cases hst : st = escape
  · subst hst
    exact ⟨rfl, fun _ => .char (by decide) (.char (by decide) .nil)⟩
  · exact shows_escaped hst (by decide) (by decide) rfl

theorem run_shown (text : CReading → List Char → List Char) (hnil : ∀ st, text st [] = [])
    (hcons : ∀ st c cs, ∃ shown, text st (c :: cs) = shown ++ text (st.step c).2 cs ∧ Shows st c shown)
    (st : CReading) (cs : List Char) : (st.run (text st cs)).2 = (st.run cs).2 ∧
      (Clean (st.run cs).1 → Formats ((st.run (text st cs)).1.map (·.value)) []) := by
  induction cs generalizing st with
  | nil =>
    rw [hnil]
    exact ⟨rfl, fun _ => .nil⟩
  | cons c cs ih =>
    obtain ⟨shown, htext, hshown⟩ := hcons st c cs
    obtain ⟨after, format⟩ := ih (st.step c).2
    rw [htext, run_append, hshown.after, run]
    refine ⟨after, fun h => ?_⟩
    rw [map_append]
    exact (hshown.format h.append.1).append (format h.append.2)

theorem run_formatText (text : String) : (plain.run (formatText text).toList).2 = (plain.run text.toList).2 ∧
    (Clean (plain.run text.toList).1 →
      Formats ((plain.run (formatText text).toList).1.map (·.value)) []) := by
  rw [formatText, String.toList_ofList]
  refine run_shown (fun st cs => formatChars (st = escape) cs) (fun _ => rfl) (fun st c cs => ?_)
    plain text.toList
  refine ⟨_, congrArg (_ ++ formatChars · cs) ?_, ?_⟩
  · rw [Bool.eq_iff_iff, decide_eq_true_eq, step_escape_iff]
    simp
  · split
    · subst c
      exact shows_percent
    split
    · rename_i hc
      obtain ⟨rfl, hst⟩ := hc
      exact shows_escaped (by simpa using hst) (by decide) (by decide) rfl
    split
    · subst c
      exact shows_newline
    · exact shows_self ‹_›

theorem run_doublePercents (text : String) :
    (plain.run (doublePercents text).toList).2 = (plain.run text.toList).2 ∧
    (Clean (plain.run text.toList).1 →
      Formats ((plain.run (doublePercents text).toList).1.map (·.value)) []) := by
  rw [doublePercents, String.toList_ofList]
  refine run_shown (fun _ cs => cs.flatMap fun c => if c = '%' then ['%', '%'] else [c])
    (fun _ => rfl) (fun st c cs => ⟨_, flatMap_cons, ?_⟩) plain text.toList
  split
  · subst c
    exact shows_percent
  · exact shows_self ‹_›

theorem run_directive {d : String} {type : CType} (h : (d, type) ∈ printfTypes) (st : CReading) :
    st.run d.toList = (st.pending ++ d.toList.map .char, plain) := by
  obtain ⟨ls, hd, hls⟩ : ∃ ls, d.toList = '%' :: ls ∧ plain.run ls = (ls.map .char, plain) := by
    simp only [printfTypes, mem_cons, not_mem_nil, or_false, Prod.mk.injEq] at h
    rcases h with h | h | h | h | h | h | h | h <;> rw [h.1] <;> exact ⟨_, rfl, rfl⟩
  have hstep : st.step '%' = (st.pending ++ [.char '%'], plain) := by
    by_cases hst : st = escape
    · subst hst
      rfl
    · exact step_of_not_digit (by decide) hst
  rw [hd, run, hstep, hls, map_cons, append_assoc]
  rfl

theorem formats_end (h : Clean st.pending) : Formats ((st.units ['\x5c', 'n']).map (·.value)) [] := by
  by_cases hst : st = escape
  · subst hst
    exact .char (by decide) (.char (by decide) .nil)
  · have hback := step_of_not_digit (c := '\x5c') (by decide) hst
    have hunits : st.units ['\x5c', 'n'] = st.pending ++ [.char '\n'] := by
      rw [units, run, run, run, hback]
      simp [step, digits?, escaped, digit?, letter, pending]
    rw [hunits, map_append]
    exact h.pending.append (.char (by decide) .nil)

end CReading

/-- A message as it is written: a literal, or text with values put in. -/
inductive Message where
  | string (text : String)
  | chars (text : String)
  | template (first : String) (rest : List (Expr × String))

namespace Message

def textParts (text : String) : List (TemplatePart Expr) := if text.isEmpty then [] else [.text text]

def restParts (rest : List (Expr × String)) : List (TemplatePart Expr) :=
  rest.flatMap fun x => .expr x.1 :: textParts x.2

def toExpr (info : Info) : Message → Expr
  | string text => .literal info (.string text)
  | chars text => .literal info (.chars text)
  | template first rest => .template info (textParts first ++ restParts rest)

def values : Message → List Expr
  | string _ | chars _ => []
  | template _ rest => rest.map (·.1)

def texts : Message → List String
  | string text | chars text => [text]
  | template first rest => first :: rest.map (·.2)

end Message

/-- The argument gives the conversion a value of the type that it reads: it is converted to that type
or has it already. -/
def Conveys (cx : Checked) (e : Expr) (x : String × CExpr) : Prop :=
  ∃ st type, (x.1, type) ∈ printfTypes ∧ (x.2 = .cast type (expr cx e st).1 ∨
    x.2 = (expr cx e st).1 ∧ ∃ t, cx.resolution.typeOf? e.id = some t ∧
      (cType? cx t st).1 = some type)

/-- Statements that print a format with arguments, at once or by way of a buffer. -/
inductive Prints (format : CExpr) (arguments : List CExpr) : List CStmt → Prop where
  | direct : Prints format arguments
    [.expr (.callTo "fprintf" (.var "stderr" :: format :: arguments))]
  | buffered (name : String) : Prints format arguments
    [.block [.var { type := stackBuffer, name, init := none },
      .expr (.callTo "snprintf" (.var name :: .sizeofExpr (.var name) :: format :: arguments)),
      .expr (.callTo "fputs" [.var name, .var "stderr"])]]

/-- A crash prints the message with one conversion for each value in it, in order, and no other. -/
def Message.Printed (cx : Checked) (m : Message) : Prop :=
  ∀ info st, ∃ printed inside inserted,
    (crash cx (some (m.toExpr info)) st).1 = printed ++ [.expr (.callTo "abort" [])] ∧
    Prints (.literal ("\"" ++ String.ofList inside ++ "\"")) (inserted.map (·.2)) printed ∧
    Formats (CString.decode inside) (inserted.map (·.1)) ∧ List.Forall₂ (Conveys cx) m.values inserted

open CReading in
theorem clean_of_escapes {text : String} (h : '%'.toNat ∉ CString.escapes text.toList) :
    Clean (plain.run text.toList).1 ∧ Clean (plain.run text.toList).2.pending := by
  refine Clean.append ?_
  rintro n hn rfl
  exact h (mem_filterMap.mpr ⟨_, hn, rfl⟩)

theorem conversion_conveys (cx : Checked) (e : Expr) (st : Lowering) :
    let c := conversion (cx.resolution.typeOf? e.id)
    Conveys cx e (c.1, match c.2 with
      | some type => .cast type (expr cx e st).1
      | none => (expr cx e st).1) := by
  unfold conversion
  split
  · rename_i s hs
    have htype : (s.conversion.directive, { name := s.conversion.argument }) ∈ printfTypes := by
      cases s <;> decide
    refine ⟨st, _, htype, ?_⟩
    by_cases h : s.conversion.argument = s.cName
    · simp only [h, if_true]
      exact .inr ⟨trivial, _, hs, rfl⟩
    · simp only [h, if_false, true_or]
  iterate 2
    exact ⟨st, _, (by decide : ("%s", ({ name := "char", stars := 1 } : CType)) ∈ printfTypes),
      .inr ⟨rfl, _, ‹_›, rfl⟩⟩
  exact ⟨st, _, (by decide : ("%p", ({ name := "void", stars := 1 } : CType)) ∈ printfTypes), .inl rfl⟩

theorem template_textParts (cx : Checked) (text : String) (parts : List (TemplatePart Expr)) (st : Lowering) :
    template cx (Message.textParts text ++ parts) st =
      (((formatText text ++ (template cx parts st).1.1), (template cx parts st).1.2),
        (template cx parts st).2) := by
  unfold Message.textParts
  split
  · rename_i h
    rw [String.isEmpty_iff.mp h, show formatText "" = "" from rfl, String.empty_append]
    rfl
  · rfl

open CReading in
theorem template_restParts (cx : Checked) {rest : List (Expr × String)}
    (hclean : ∀ x ∈ rest, '%'.toNat ∉ CString.escapes x.2.toList) (st : Lowering) :
    ∃ inserted, (template cx (Message.restParts rest) st).1.2 = inserted.map (·.2) ∧
      List.Forall₂ (Conveys cx) (rest.map (·.1)) inserted ∧ ∀ reading : CReading, Clean reading.pending →
        Formats ((reading.units ((template cx (Message.restParts rest) st).1.1.toList ++
          ['\x5c', 'n'])).map (·.value)) (inserted.map (·.1)) := by
  induction rest generalizing st with
  | nil => exact ⟨[], rfl, .nil, fun reading h => formats_end h⟩
  | cons x rest ih =>
    obtain ⟨e, text⟩ := x
    rw [forall_mem_cons] at hclean
    obtain ⟨inserted, hargs, hvalues, hformat⟩ := ih hclean.2 (expr cx e st).2
    obtain ⟨hbefore, hafter⟩ := clean_of_escapes hclean.1
    obtain ⟨hrun, htext⟩ := run_formatText text
    have hconveys := conversion_conveys cx e st
    generalize hc : conversion (cx.resolution.typeOf? e.id) = c at hconveys
    have htemplate : template cx (Message.restParts ((e, text) :: rest)) st =
        let more := template cx (Message.restParts rest) (expr cx e st).2
        ((c.1 ++ (formatText text ++ more.1.1), (match c.2 with
          | some type => .cast type (expr cx e st).1
          | none => (expr cx e st).1) :: more.1.2), more.2) := by
      subst hc
      exact congrArg (fun more => ((_ ++ more.1.1, _ :: more.1.2), more.2))
        (template_textParts cx text (Message.restParts rest) (expr cx e st).2)
    obtain ⟨-, type, htype, -⟩ := id hconveys
    refine ⟨(c.1, _) :: inserted, ?_, .cons hconveys hvalues, fun reading hreading => ?_⟩
    · rw [htemplate, map_cons, ← hargs]
    · rw [htemplate]
      rw [String.toList_append, String.toList_append, append_assoc, append_assoc, units_append,
        run_directive htype, units_append, hrun, map_append, map_append, map_append,
        map_map, append_assoc]
      exact hreading.pending.append (.conversion htype ((htext hbefore).append (hformat _ hafter)))

theorem formats_literal {text : String} (h : '%'.toNat ∉ CString.escapes text.toList) :
    Formats (CString.decode ((doublePercents text).toList ++ ['\x5c', 'n'])) [] := by
  obtain ⟨hbefore, hafter⟩ := clean_of_escapes h
  obtain ⟨hrun, htext⟩ := CReading.run_doublePercents text
  rw [CString.decode, CReading.units_append, hrun, map_append]
  exact (htext hbefore).append (CReading.formats_end hafter)

theorem formatLine_eq (inside : String) :
    formatLine inside = .literal ("\"" ++ String.ofList (inside.toList ++ ['\x5c', 'n']) ++ "\"") :=
  congrArg CExpr.literal (String.toList_inj.mp (by simp))

/-- Without escapes that give the number of a percent sign, a message is printed as it is meant. -/
theorem Message.printed (cx : Checked) (m : Message)
    (h : ∀ text ∈ m.texts, '%'.toNat ∉ CString.escapes text.toList) : m.Printed cx := by
  intro info st
  cases m with
  | string text | chars text =>
    have hformat := formats_literal (h text mem_cons_self)
    refine ⟨[Lower.printError (doublePercents text) []], _, [], rfl, ?_, hformat, .nil⟩
    rw [← formatLine_eq]
    exact .direct
  | template first rest =>
    simp only [texts, forall_mem_cons, forall_mem_map] at h
    obtain ⟨hbefore, hafter⟩ := clean_of_escapes h.1
    obtain ⟨hrun, htext⟩ := CReading.run_formatText first
    obtain ⟨inserted, hargs, hvalues, hformat⟩ := template_restParts cx h.2 st.toLowering
    have htemplate := template_textParts cx first (restParts rest) st.toLowering
    rw [hargs] at htemplate
    generalize Lower.template cx (restParts rest) st.toLowering = more at htemplate hformat
    have hdecode : Formats (CString.decode ((formatText first ++ more.1.1).toList ++ ['\x5c', 'n']))
        (inserted.map (·.1)) := by
      rw [CString.decode, String.toList_append, append_assoc, CReading.units_append, hrun,
        map_append]
      exact (htext hbefore).append (hformat _ hafter)
    have hplain : Lower.plain (Lower.template cx (textParts first ++ restParts rest)) st =
        ((formatText first ++ more.1.1, inserted.map (·.2)), { st with toLowering := more.2 }) := by
      rw [Lower.plain, htemplate]
    refine ⟨_, _, inserted, rfl, ?_, hdecode, hvalues⟩
    rw [← formatLine_eq]
    change Prints _ _ (Lower.crashMessage cx (.template info _) st).1
    rw [Lower.crashMessage]
    simp only [bind, StateT.bind, hplain]
    split
    · exact .buffered _
    · exact .direct

theorem Parser.interpolation_parts {p : Parser Expr} {s u : State} {x : List (TemplatePart Expr) × Bool}
    (h : interpolation p s = (some x, u)) : ∃ e text, x.1 = .expr e :: Message.textParts text := by
  rw [interpolation, bind_apply] at h
  generalize p s = r at h
  obtain ⟨_ | e, v⟩ := r
  · cases h
  · dsimp only at h
    rw [bind_apply, show peek v = (some v.peek, v) from rfl] at h
    dsimp only at h
    generalize v.peek.kind = kind at h
    cases kind with
    | templateMiddle | templateEnd =>
      cases h
      exact ⟨e, _, rfl⟩
    | _ => cases h

theorem Parser.extendWithin_keeps {α : Type} {I : State → α → Prop} {step : α → Parser (Option α)}
    (h : ∀ {s s' a r}, I s a → step a s = (some r, s') → I s' (r.getD a)) :
    ∀ {fuel : Fuel} {s s' : State} {a b : α}, I s a →
      extendWithin step fuel a s = (some b, s') → I s' b := by
  intro fuel
  induction fuel with
  | nil =>
    intro s s' a b _ hr
    cases hr
  | cons _ fuel ih =>
    intro s s' a b hI hr
    rw [extendWithin, bind_apply] at hr
    cases hstep : step a s with
    | mk r u =>
      rw [hstep] at hr
      rcases r with _ | _ | next
      · cases hr
      · obtain ⟨ha, rfl⟩ := Prod.mk.inj hr
        cases ha
        exact h hI hstep
      · exact ih (h hI hstep) hr

theorem Parser.template_message {p : Parser Expr} {s u : State} {e : Expr}
    (h : template p s = (some e, u)) :
    ∃ info first rest, e = (Message.template first rest).toExpr info := by
  unfold template at h
  rw [bind_apply] at h
  dsimp only [advance] at h
  split at h
  · rw [bind_apply] at h
    generalize hparts : extend _ _ _ = r at h
    obtain ⟨_ | ⟨parts, done⟩, v⟩ := r
    · cases h
    cases h
    suffices hI : ∃ rest, parts = Message.textParts s.peek.inner ++ Message.restParts rest by
      obtain ⟨rest, hrest⟩ := hI
      exact ⟨_, _, rest, congrArg _ hrest⟩
    refine extendWithin_keeps (I := fun _ a => ∃ rest, a.1 = Message.textParts s.peek.inner ++
      Message.restParts rest) ?_ ⟨[], (append_nil _).symm⟩ hparts
    rintro t t' ⟨before, done⟩ r ⟨rest, hrest⟩ hstep
    cases done with
    | true =>
      cases hstep
      exact ⟨rest, hrest⟩
    | false =>
      change (interpolation p >>= _) t = _ at hstep
      rw [bind_apply] at hstep
      generalize hmore : interpolation p t = more at hstep
      obtain ⟨_ | ⟨more, last⟩, w⟩ := more
      · cases hstep
      · obtain ⟨e, text, heq⟩ := interpolation_parts hmore
        cases hstep
        refine ⟨rest ++ [(e, text)], ?_⟩
        subst hrest heq
        simp [Message.restParts]
  · cases h
    exact ⟨_, _, [], congrArg _ (append_nil _).symm⟩

def noPackages : Checked := { table := .ofBuckets 1, resolution := ⟨⟨#[], {}, {}⟩, {}, []⟩ }

/-- Text with percent signs, a backslash in front of one, quotes and a line end, and three values. -/
theorem printed_mixed :
    let n : Expr := .literal ⟨0, {}, []⟩ (.int "1")
    let m := Message.template "100% \\" [(n, "\\%d \"%\n"), (n, ""), (n, "\\x24d")]
    (∀ text ∈ m.texts, '%'.toNat ∉ CString.escapes text.toList) ∧ m.Printed noPackages := by
  intro n m
  have h : ∀ text ∈ m.texts, '%'.toNat ∉ CString.escapes text.toList := by
    change ∀ text ∈ ["100% \\", "\\%d \"%\n", "", "\\x24d"], _
    decide +kernel
  exact ⟨h, m.printed noPackages h⟩

/-- The octal number of a percent sign makes a conversion that has no argument. -/
theorem octal_percent_converts : ¬ ∀ m : Message, m.Printed noPackages := by
  intro h
  obtain ⟨printed, inside, inserted, hcrash, hprints, hformat, hvalues⟩ :=
    h (.string "\\45d") ⟨0, {}, []⟩ { instances := {} }
  cases hvalues
  have hprinted := (append_inj' hcrash rfl).1
  cases hprints with
  | buffered name => cases hprinted
  | direct =>
    have hline : Lower.formatLine "\\45d" = .literal ("\"" ++ String.ofList inside ++ "\"") := by
      injection hprinted with hstmt
      injection hstmt with hcall
      injection hcall with _ harguments
      exact (List.cons.inj (List.cons.inj harguments).2).1
    have hinside : inside = "\\45d\\n".toList := by
      have hchars := congrArg String.toList (CExpr.literal.inj ((formatLine_eq _).symm.trans hline))
      refine append_cancel_right (?_ : inside ++ ['"'] = _ ++ ['"'])
      simpa using hchars.symm
    have hdecode : CString.decode inside = ['%'.toNat, 'd'.toNat, '\n'.toNat] := by
      rw [hinside]
      decide +kernel
    change Formats _ [] at hformat
    generalize CString.decode inside = ns at hformat hdecode
    cases hformat with
    | nil => cases hdecode
    | char hne _ => exact hne (List.cons.inj hdecode).1
    | percent _ => cases hdecode

end Quill
