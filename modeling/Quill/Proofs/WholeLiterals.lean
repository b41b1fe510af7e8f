import Quill.Proofs.MessageFormat
import Quill.Proofs.TokenForm

/-!
# Literals that stay whole

What stands between the quotes of a token is copied between quotes of C. It stays one literal there
with one exception: a text between single quotes may have a double quote in it, and is put between
double quotes.
-/
namespace Quill

open List Lower

namespace CLiteral

/-- Whether the next character is escaped, behind a character that is escaped or not; none where the
literal ends. -/
def step (delimiter : Char) (escaped : Bool) (c : Char) : Option Bool :=
  if c = '\n' then none
  else if escaped then some false
  else if c = delimiter then none
  else some (c == '\x5c')

/-- The text is one literal: its last character is the first delimiter behind the opening one that is
not escaped, and it has no line end. -/
def Whole (delimiter : Char) (text : String) : Prop :=
  ∃ inside, text.toList = delimiter :: (inside ++ [delimiter]) ∧
    inside.foldlM (step delimiter) false = some false

/-- Whether a delimiter stands in the text that is not escaped. -/
def bare (delimiter : Char) : (escaped : Bool) → List Char → Bool
  | _, [] => false
  | true, _ :: cs => bare delimiter false cs
  | false, c :: cs => c == delimiter || bare delimiter (c == '\x5c') cs

variable {d : Char}

theorem whole_iff {text : String} {inside : List Char} (h : text.toList = d :: (inside ++ [d])) :
    Whole d text ↔ inside.foldlM (step d) false = some false := by
  constructor
  · rintro ⟨other, hother, hstep⟩
    rw [h, List.cons.injEq, append_left_inj] at hother
    exact hother.2 ▸ hstep
  · exact fun hstep => ⟨inside, h, hstep⟩

section Stretches

open Lexer (Stretch)

variable {ends body : List Char}

theorem bare_of_mem (h : Stretch ends body) (hd : d ∈ ends) (hback : '\x5c' ≠ d) :
    bare d false body = false := by
  induction h with
  | nil => rfl
  | plain hc hends _ ih =>
    have hne := ne_of_mem_of_not_mem hd hends
    simp [bare, beq_false_of_ne hc, hne.symm, ih]
  | escape _ _ ih => simp [bare, hback, ih]

theorem foldlM_step (h : Stretch ends body) (hline : '\n' ∈ ends) (hback : '\x5c' ≠ d) :
    body.foldlM (step d) false = if bare d false body then none else some false := by
  induction h with
  | nil => rfl
  | @plain c cs hc hends _ ih =>
    have hne := ne_of_mem_of_not_mem hline hends
    by_cases hd : c = d
    · simp [step, bare, hd, foldlM_cons]
    · simpa [step, bare, hd, beq_false_of_ne hc, hne.symm, foldlM_cons] using ih
  | escape hescaped _ ih =>
    simpa [step, bare, hback, hescaped hline, foldlM_cons] using ih

theorem foldlM_formatChars (h : Stretch ends body) :
    (formatChars false body).foldlM (step '\x22') false = some false := by
  induction h with
  | nil => rfl
  | @plain c cs hc _ _ ih =>
    rw [formatChars, beq_false_of_ne hc, Bool.false_and, foldlM_append]
    split
    · exact ih
    split
    · exact ih
    split
    · exact ih
    · rename_i _ hquote hline
      have hquote : c ≠ '\x22' := by simpa using hquote
      simpa [step, hline, hquote, beq_false_of_ne hc, foldlM_cons] using ih
  | @escape c cs _ _ ih =>
    show (formatChars true (c :: cs)).foldlM (step '\x22') true = some false
    rw [formatChars, Bool.not_true, Bool.and_false, foldlM_append]
    split
    · exact ih
    split
    · rename_i hquote
      cases hquote.2
    split
    · exact ih
    · rename_i hline
      simpa [step, hline, foldlM_cons] using ih

end Stretches

theorem foldlM_doublePercents (text : String) (escaped : Bool) (hd : '%' ≠ d) :
    (doublePercents text).toList.foldlM (step d) escaped = text.toList.foldlM (step d) escaped := by
  rw [doublePercents, String.toList_ofList]
  induction text.toList generalizing escaped with
  | nil => rfl
  | cons c cs ih =>
    rw [flatMap_cons, foldlM_append, foldlM_cons]
    split
    · rename_i hc
      subst hc
      cases escaped <;> simp [step, hd, foldlM_cons, ih]
    · simp only [foldlM_cons, foldlM_nil, bind_pure]
      exact bind_congr fun escaped => ih escaped

theorem whole_formatLine_iff (inside : String) :
    Whole '\x22' ("\"" ++ inside ++ "\\n\"") ↔
      inside.toList.foldlM (step '\x22') false ≠ none := by
  have htext : ("\"" ++ inside ++ "\\n\"").toList =
      '\x22' :: ((inside.toList ++ ['\x5c', 'n']) ++ ['\x22']) := by simp
  rw [whole_iff htext, foldlM_append]
  cases inside.toList.foldlM (step '\x22') false with
  | none => simp
  | some escaped => cases escaped <;> decide

theorem whole_quoted_iff (text : String) :
    Whole '\x22' ("\"" ++ text ++ "\"") ↔ text.toList.foldlM (step '\x22') false = some false :=
  whole_iff (by simp)

theorem foldlM_template (cx : Checked) {parts : List (TemplatePart Expr)}
    (h : ∀ text, .text text ∈ parts → ∃ ends, Lexer.Stretch ends text.toList) (st : Lowering) :
    (template cx parts st).1.1.toList.foldlM (step '\x22') false = some false := by
  induction parts generalizing st with
  | nil => rfl
  | cons part parts ih =>
    have rest (st : Lowering) := ih (fun text ht => h text (mem_cons_of_mem _ ht)) st
    cases part with
    | text text =>
      obtain ⟨ends, hstretch⟩ := h text mem_cons_self
      show (formatText text ++ (template cx parts st).1.1).toList.foldlM _ _ = _
      rw [String.toList_append, foldlM_append, formatText, String.toList_ofList,
        foldlM_formatChars hstretch]
      exact rest st
    | expr e =>
      obtain ⟨-, type, htype, -⟩ := conversion_conveys cx e st
      have hdirective : (conversion (cx.resolution.typeOf? e.id)).1.toList.foldlM
          (step '\x22') false = some false := by
        simp only [printfTypes, mem_cons, not_mem_nil, or_false, Prod.mk.injEq] at htype
        rcases htype with h | h | h | h | h | h | h | h <;> rw [h.1] <;> rfl
      show ((conversion _).1 ++ (template cx parts _).1.1).toList.foldlM _ _ = _
      rw [String.toList_append, foldlM_append, hdirective]
      exact rest _

end CLiteral

open CLiteral

/-- A crash with this message prints a format of which `P` holds. -/
def CrashFormat (cx : Checked) (message : Expr) (P : String → Prop) : Prop :=
  ∀ st, ∃ printed format arguments,
    (crash cx (some message) st).1 = printed ++ [.expr (.callTo "abort" [])] ∧
    Prints (.literal format) arguments printed ∧ P format

theorem crashFormat_template (cx : Checked) (info : Info) {parts : List (TemplatePart Expr)}
    (h : ∀ text, .text text ∈ parts → ∃ ends, Lexer.Stretch ends text.toList) :
    CrashFormat cx (.template info parts) (Whole '\x22') := by
  intro st
  have inside := foldlM_template cx h st.toLowering
  rcases hout : template cx parts st.toLowering with ⟨⟨format, arguments⟩, after⟩
  have hplain : plain (template cx parts) st =
      ((format, arguments), { st with toLowering := after }) := by rw [plain, hout]
  rw [hout] at inside
  refine ⟨_, _, arguments, rfl, ?_, (whole_formatLine_iff format).mpr (by simp [inside])⟩
  change Prints _ _ (crashMessage cx (.template info parts) st).1
  rw [crashMessage]
  simp only [bind, StateT.bind, hplain]
  split
  · exact .buffered _
  · exact .direct

theorem whole_iff_bare {ends : List Char} {text : String} (h : Lexer.Stretch ends text.toList)
    (hline : '\n' ∈ ends) :
    (Whole '\x22' ("\"" ++ text ++ "\"") ↔ bare '\x22' false text.toList = false) ∧
      (Whole '\x22' ("\"" ++ doublePercents text ++ "\\n\"") ↔
        bare '\x22' false text.toList = false) := by
  rw [whole_quoted_iff, whole_formatLine_iff, foldlM_doublePercents text false (by decide),
    foldlM_step h hline (by decide)]
  cases bare '\x22' false text.toList <;> simp

theorem inner_stretch {file : FileId} {text : String} {t : Token} (ht : t ∈ Lexer.scan file text)
    {q : TokenKind.Quotes} (hq : t.kind.quotes? = some q) (hquoted : t.kind.quoted = true) :
    Lexer.Stretch q.ends t.inner.toList := by
  obtain ⟨front, rest, stands⟩ := Lexer.scan_stands ht
  obtain ⟨q', hq', -, hinner⟩ := stands.quoted hquoted
  cases hq.symm.trans hq'
  exact hinner

def templateKinds : List TokenKind := [.templateFull, .templateStart, .templateMiddle, .templateEnd]

/-- String literals and character literals are one literal in C, and so is the format of a crash with a
string literal or a template. Text of several characters between single quotes is one, by itself and as
a format, exactly if it has no double quote that is not escaped. -/
theorem literals_whole (file : FileId) (text : String) (cx : Checked) (info : Info) :
    (∀ t ∈ Lexer.scan file text, ∀ inner : String,
      (Parser.literal? t = some (.string inner) → Whole '\x22' (Literal.string inner).cText ∧
        CrashFormat cx (.literal info (.string inner)) (Whole '\x22')) ∧
      (Parser.literal? t = some (.char inner) → Whole '\x27' (Literal.char inner).cText) ∧
      (Parser.literal? t = some (.chars inner) →
        (Whole '\x22' (Literal.chars inner).cText ↔ bare '\x22' false inner.toList = false) ∧
        CrashFormat cx (.literal info (.chars inner)) fun format =>
          (Whole '\x22' format ↔ bare '\x22' false inner.toList = false))) ∧
    ∀ parts : List (TemplatePart Expr), (∀ part, .text part ∈ parts →
        ∃ t ∈ Lexer.scan file text, t.kind ∈ templateKinds ∧ t.inner = part) →
      CrashFormat cx (.template info parts) (Whole '\x22') := by
  refine ⟨fun t ht inner => ?_, fun parts hparts => crashFormat_template cx info fun part hpart => ?_⟩
  · have stretch {k : TokenKind} {q : TokenKind.Quotes} (hkind : t.kind = k)
        (hq : k.quotes? = some q) (hquoted : k.quoted = true) : Lexer.Stretch q.ends t.inner.toList :=
      inner_stretch ht (hkind ▸ hq) (hkind ▸ hquoted)
    refine ⟨fun hl => ?_, fun hl => ?_, fun hl => ?_⟩
    all_goals
      unfold Parser.literal? at hl
      split at hl <;> cases hl
      rename_i hkind
      have hinner := stretch hkind rfl rfl
    · obtain ⟨plain, format⟩ := whole_iff_bare hinner (by simp)
      have clear := bare_of_mem hinner mem_cons_self (by decide)
      exact ⟨plain.mpr clear, fun st => ⟨_, _, [], rfl, .direct, format.mpr clear⟩⟩
    · have clear := bare_of_mem hinner mem_cons_self (by decide)
      refine ⟨t.inner.toList, by simp [Literal.cText], ?_⟩
      rw [foldlM_step hinner (by simp) (by decide), clear]
      rfl
    · obtain ⟨plain, format⟩ := whole_iff_bare hinner (by simp)
      exact ⟨plain, fun st => ⟨_, _, [], rfl, .direct, format⟩⟩
  · obtain ⟨t, ht, hkind, rfl⟩ := hparts part hpart
    simp only [templateKinds, mem_cons, not_mem_nil, or_false] at hkind
    rcases hkind with h | h | h | h
    all_goals exact ⟨_, inner_stretch ht (by rw [h]; rfl) (by rw [h]; rfl)⟩

/-- A quote in a string and one between single quotes, percent signs, and a template with quotes and a
line end around a value. -/
theorem literals_whole_mixed :
    let text := "\"50% \\\"off\\\"\" '\"' 'a\\\"b' `say \"\n\x7bn\x7d\"`"
    let info : Info := ⟨0, {}, []⟩
    let parts : List (TemplatePart Expr) :=
      [.text "say \"\n", .expr (.literal info (.int "1")), .text "\""]
    Whole '\x22' (Literal.string "50% \\\"off\\\"").cText ∧ Whole '\x27' (Literal.char "\"").cText ∧
    Whole '\x22' (Literal.chars "a\\\"b").cText ∧ (∀ part, .text part ∈ parts →
      ∃ t ∈ Lexer.scan 0 text, t.kind ∈ templateKinds ∧ t.inner = part) ∧
    CrashFormat noPackages (.template info parts) (Whole '\x22') := by
  intro text info parts
  obtain ⟨literals, templates⟩ := literals_whole 0 text noPackages info
  have token (i : Fin (Lexer.scan 0 text).length) := literals _ (get_mem _ i)
  have hparts : ∀ part, .text part ∈ parts →
      ∃ t ∈ Lexer.scan 0 text, t.kind ∈ templateKinds ∧ t.inner = part := by
    intro part hpart
    have hpart : part = "say \"\n" ∨ part = "\"" := by simpa [parts] using hpart
    rcases hpart with rfl | rfl
    · exact ⟨_, get_mem _ ⟨3, by decide +kernel⟩, by decide +kernel⟩
    · exact ⟨_, get_mem _ ⟨5, by decide +kernel⟩, by decide +kernel⟩
  exact ⟨((token ⟨0, by decide +kernel⟩ _).1 (by decide +kernel)).1,
    (token ⟨1, by decide +kernel⟩ _).2.1 (by decide +kernel),
    ((token ⟨2, by decide +kernel⟩ _).2.2 (by decide +kernel)).1.mpr (by decide), hparts,
    templates parts hparts⟩

/-- A quote between single quotes cuts the literal short. -/
theorem quoted_chars_cut :
    let t : Token := ⟨.charsLiteral, "'a\"b'", ⟨0, 0, 5, 1⟩⟩
    t ∈ Lexer.scan 0 "'a\"b'" ∧ Parser.literal? t = some (.chars "a\"b") ∧
      ¬ Whole '\x22' (Literal.chars "a\"b").cText := by
  refine ⟨by decide +kernel, by decide +kernel, fun h => ?_⟩
  have := (whole_quoted_iff "a\"b").mp h
  revert this
  decide

end Quill
