import Quill.Token.Lexer

/-!
# What one token can be

What the token at the front of a text can be: where it ends, and what it does to the counters of
open interpolations.
-/
namespace Quill

open List

/-- Letters, digits and underscores, and not only digits. -/
structure IsWord (name : String) : Prop where
  chars : ∀ c ∈ name.toList, Lexer.isWordPart c
  starts : ∃ c ∈ name.toList, Lexer.isWordStart c

namespace TokenKind

def quoted : TokenKind → Bool
  | stringLiteral | charLiteral | charsLiteral | templateFull | templateStart | templateMiddle
  | templateEnd => true
  | _ => false

/-- The characters around a quoted token, and those that its text goes up to. -/
structure Quotes where
  first : Char
  last : Char
  ends : List Char

def quotes? : TokenKind → Option Quotes
  | stringLiteral => some ⟨'\x22', '\x22', ['\x22', '\n']⟩
  | charLiteral | charsLiteral => some ⟨'\x27', '\x27', ['\x27', '\n']⟩
  | templateFull => some ⟨'\x60', '\x60', ['\x60', '\x7b']⟩
  | templateStart => some ⟨'\x60', '\x7b', ['\x60', '\x7b']⟩
  | templateMiddle => some ⟨'\x7d', '\x7b', ['\x60', '\x7b']⟩
  | templateEnd => some ⟨'\x7d', '\x60', ['\x60', '\x7b']⟩
  | _ => none

/-- Braces, and the parts of templates that open or close an interpolation. -/
def nests : TokenKind → Bool
  | templateStart | templateMiddle | templateEnd | punct .leftBrace | punct .rightBrace
  | error .unterminatedTemplate => true
  | _ => false

end TokenKind

namespace Lexer

/-- Characters and escapes, with none of the characters that would end them and are not escaped. A
line end that ends them cannot be escaped. -/
inductive Stretch (ends : List Char) : List Char → Prop where
  | nil : Stretch ends []
  | plain {c : Char} {cs : List Char} : c ≠ '\x5c' → c ∉ ends → Stretch ends cs → Stretch ends (c :: cs)
  | escape {c : Char} {cs : List Char} : ('\n' ∈ ends → c ≠ '\n') → Stretch ends cs →
    Stretch ends ('\x5c' :: c :: cs)

/-- A quoted token that begins with `c`, and what is taken behind it. -/
def Delimited (kind : TokenKind) (c : Char) (taken : List Char) : Prop :=
  ∃ q ∈ kind.quotes?, ∃ body, c = q.first ∧ taken = body ++ [q.last] ∧ Stretch q.ends body

/-- What can be cut from the front of `c :: cs` where these interpolations are open. -/
inductive Cut (frames : Frames) (c : Char) (cs : List Char) : Lexeme → Prop where
  | word {more : Nat} : IsWord (String.ofList (c :: cs.take more)) →
    Cut frames c cs ⟨.ofWord (String.ofList (c :: cs.take more)), more, frames⟩
  | int {more : Nat} : (∀ d ∈ c :: cs.take more, isDigit d = true) →
    Cut frames c cs ⟨.intLiteral, more, frames⟩
  | plain {k : TokenKind} {more : Nat} : k.quoted = false → k.nests = false →
    k ∉ [.eof, .identifier, .intLiteral] → Cut frames c cs ⟨k, more, frames⟩
  | quoted {kind : TokenKind} {more : Nat} : kind.nests = false →
    Delimited kind c (cs.take more) → Cut frames c cs ⟨kind, more, frames⟩
  | opened {more : Nat} : Delimited .templateStart c (cs.take more) →
    Cut frames c cs ⟨.templateStart, more, 0 :: frames⟩
  | resumed {more : Nat} : frames.head? = some 0 → Delimited .templateMiddle c (cs.take more) →
    Cut frames c cs ⟨.templateMiddle, more, frames⟩
  | ended {more : Nat} : frames.head? = some 0 → Delimited .templateEnd c (cs.take more) →
    Cut frames c cs ⟨.templateEnd, more, frames.tail⟩
  | unterminated {more : Nat} : c ≠ '\x7d' →
    Cut frames c cs ⟨.error .unterminatedTemplate, more, frames⟩
  | abandoned {more : Nat} : c = '\x7d' → frames.head? = some 0 →
    Cut frames c cs ⟨.error .unterminatedTemplate, more, frames.tail⟩
  | leftBrace : Cut frames c cs ⟨.punct .leftBrace, 0, frames.modifyHead (· + 1)⟩
  | rightBrace : frames.head? ≠ some 0 →
    Cut frames c cs ⟨.punct .rightBrace, 0, frames.modifyHead (· - 1)⟩

section Runs

variable {p : Char → Bool} {cs r : List Char}

theorem runLength_of_head (h : ∀ d ∈ r.head?, p d = false) : runLength p r = 0 := by
  cases r with
  | nil => rfl
  | cons d r => rw [runLength, h d rfl, if_neg Bool.false_ne_true]

theorem runLength_append (h : ∀ c ∈ cs, p c = true) :
    runLength p (cs ++ r) = cs.length + runLength p r := by
  induction cs with
  | nil => exact (Nat.zero_add _).symm
  | cons c cs ih =>
    rw [forall_mem_cons] at h
    rw [cons_append, runLength, if_pos h.1, ih h.2, length_cons]
    omega

theorem exists_run (p : Char → Bool) (cs : List Char) : ∃ run rest, cs = run ++ rest ∧
    (∀ c ∈ run, p c = true) ∧ (∀ d ∈ rest.head?, p d = false) ∧ runLength p cs = run.length := by
  induction cs with
  | nil => exact ⟨[], [], rfl, nofun, nofun, rfl⟩
  | cons c cs ih =>
    by_cases hc : p c = true
    · obtain ⟨run, rest, rfl, hrun, hrest, hlength⟩ := ih
      refine ⟨c :: run, rest, rfl, forall_mem_cons.mpr ⟨hc, hrun⟩, hrest, ?_⟩
      rw [runLength, if_pos hc, hlength, length_cons]
    · refine ⟨[], c :: cs, rfl, nofun, fun d hd => ?_, by rw [runLength, if_neg hc]; rfl⟩
      cases hd
      simpa using hc

end Runs

section Numbers

variable {frames : Frames} {c : Char} {run rest : List Char} (hrun : ∀ d ∈ run, isDigit d = true)
include hrun

theorem number_int (hrest : ∀ d ∈ rest.head?, isWordPart d = false)
    (hpoint : ∀ e es, rest = '.' :: e :: es → isDigit e = false) :
    number frames c (run ++ rest) = ⟨.intLiteral, run.length, frames⟩ := by
  have hdigit : ∀ d ∈ rest.head?, isDigit d = false := fun d hd => by
    have := hrest d hd
    simp_all [isWordPart]
  unfold number
  simp only [runLength_append hrun, runLength_of_head hdigit, Nat.add_zero, drop_left]
  cases rest with
  | nil => rfl
  | cons d ds =>
    have hd := hrest d rfl
    rw [isWordPart, Bool.or_eq_false_iff] at hd
    simp only [hd.1, Bool.false_eq_true, if_false]
    split
    · rename_i e es
      rw [hpoint e es rfl, if_neg Bool.false_ne_true]
    · rfl

theorem number_float {e : Char} {es : List Char} (he : isDigit e = true) :
    number frames c (run ++ '.' :: e :: es) =
      ⟨.floatLiteral, run.length + (runLength isDigit es + 2), frames⟩ := by
  have hpoint : runLength isDigit ('.' :: e :: es) = 0 := rfl
  unfold number
  simp only [runLength_append hrun, hpoint, Nat.add_zero, drop_left, he, if_true]
  rw [if_neg (by decide), Nat.add_assoc, Nat.add_comm 2]

theorem number_word {d : Char} {ds : List Char} (hdigit : isDigit d = false)
    (hd : isWordStart d = true) :
    number frames c (run ++ d :: ds) =
      ⟨.ofWord (String.ofList (c :: (run ++ d :: ds.take (runLength isWordPart ds)))),
        run.length + (runLength isWordPart ds + 1), frames⟩ := by
  have hpart : ∀ e ∈ run, isWordPart e = true := fun e he => by
    rw [isWordPart, hrun e he, Bool.or_true]
  have hword : runLength isWordPart (d :: ds) = runLength isWordPart ds + 1 := by
    rw [runLength, isWordPart, hd, Bool.true_or, if_pos rfl]
  have hnone : runLength isDigit (d :: ds) = 0 := by
    rw [runLength, hdigit, if_neg Bool.false_ne_true]
  unfold number
  simp only [runLength_append hrun, hnone, Nat.add_zero, drop_left, hd, if_true,
    runLength_append hpart, hword, take_append, take_succ_cons, Nat.add_sub_cancel_left,
    take_of_length_le (Nat.le_add_right run.length _)]

end Numbers

section Stretches

variable {cs body : List Char} {ends : List Char}

theorem take_closed (body : List Char) (d : Char) (rest : List Char) :
    (body ++ d :: rest).take (body.length + 1) = body ++ [d] := by
  rw [take_length_add_append, take_succ_cons, take_zero]

-- In the last case of the inductions on a scan a backslash would stand at the end of the text, which
-- then is not closed.

theorem stringLength_closed (h : (stringLength cs).2 = true) :
    ∃ body rest, cs = body ++ '\x22' :: rest ∧ Stretch ['\x22', '\n'] body := by
  fun_induction stringLength cs with
  | case1 | case3 | case4 => cases h
  | case2 cs => exact ⟨[], cs, rfl, .nil⟩
  | case5 c cs hc n closed hrun ih =>
    rw [hrun] at ih
    obtain ⟨body, rest, rfl, hbody⟩ := ih h
    exact ⟨_ :: c :: body, rest, rfl, .escape (fun _ => hc) hbody⟩
  | case6 c cs hquote hline _ hescape n closed hrun ih =>
    have hc : c ≠ '\x5c' := by
      rintro rfl
      cases cs with
      | nil => cases hrun; cases h
      | cons d cs => exact hescape d cs rfl rfl
    rw [hrun] at ih
    obtain ⟨body, rest, rfl, hbody⟩ := ih h
    exact ⟨c :: body, rest, rfl, .plain hc (by simpa using ⟨hquote, hline⟩) hbody⟩

theorem stringLength_stretch (h : Stretch ['\x22', '\n'] body) (rest : List Char) :
    stringLength (body ++ '\x22' :: rest) = (body.length + 1, true) := by
  induction h with
  | nil => rfl
  | plain hc hends _ ih =>
    simp only [mem_cons, not_mem_nil, or_false, not_or] at hends
    simp [stringLength, hc, hends, ih]
  | escape hline _ ih =>
    have hne := hline (by simp)
    simp [stringLength, ih]

theorem charsLength_closed (h : (charsLength cs).2.2 = true) :
    ∃ body rest, cs = body ++ '\x27' :: rest ∧ Stretch ['\x27', '\n'] body := by
  fun_induction charsLength cs with
  | case1 | case3 | case4 => cases h
  | case2 cs => exact ⟨[], cs, rfl, .nil⟩
  | case5 c cs hc n count closed hrun ih =>
    rw [hrun] at ih
    obtain ⟨body, rest, rfl, hbody⟩ := ih h
    exact ⟨_ :: c :: body, rest, rfl, .escape (fun _ => hc) hbody⟩
  | case6 c cs hquote hline _ hescape n count closed hrun ih =>
    have hc : c ≠ '\x5c' := by
      rintro rfl
      cases cs with
      | nil => cases hrun; cases h
      | cons d cs => exact hescape d cs rfl rfl
    rw [hrun] at ih
    obtain ⟨body, rest, rfl, hbody⟩ := ih h
    exact ⟨c :: body, rest, rfl, .plain hc (by simpa using ⟨hquote, hline⟩) hbody⟩

theorem charsLength_stretch (h : Stretch ['\x27', '\n'] body) :
    ∃ count, ∀ rest, charsLength (body ++ '\x27' :: rest) = (body.length + 1, count, true) := by
  induction h with
  | nil => exact ⟨0, fun _ => rfl⟩
  | plain hc hends _ ih =>
    obtain ⟨count, ih⟩ := ih
    simp only [mem_cons, not_mem_nil, or_false, not_or] at hends
    exact ⟨count + 1, fun rest => by simp [charsLength, hc, hends, ih]⟩
  | escape hline _ ih =>
    obtain ⟨count, ih⟩ := ih
    have hne := hline (by simp)
    exact ⟨count + 1, fun rest => by simp [charsLength, ih]⟩

theorem templateLength_closed (h : (templateLength cs).2 ≠ .unterminated) :
    ∃ body d rest, cs = body ++ d :: rest ∧ d ∈ ['\x60', '\x7b'] ∧ Stretch ['\x60', '\x7b'] body := by
  fun_induction templateLength cs with
  | case1 => exact absurd rfl h
  | case2 cs | case3 cs => exact ⟨[], _, cs, rfl, by decide, .nil⟩
  | case4 c cs n ending hrun ih =>
    rw [hrun] at ih
    obtain ⟨body, d, rest, rfl, hd, hbody⟩ := ih h
    exact ⟨_ :: c :: body, d, rest, rfl, hd, .escape (fun h => absurd h (by decide)) hbody⟩
  | case5 c cs hquote hbrace hescape n ending hrun ih =>
    have hc : c ≠ '\x5c' := by
      rintro rfl
      cases cs with
      | nil => cases hrun; exact absurd rfl h
      | cons d cs => exact hescape d cs rfl rfl
    rw [hrun] at ih
    obtain ⟨body, d, rest, rfl, hd, hbody⟩ := ih h
    exact ⟨c :: body, d, rest, rfl, hd, .plain hc (by simpa using ⟨hquote, hbrace⟩) hbody⟩

theorem templateLength_stretch (h : Stretch ['\x60', '\x7b'] body) {d : Char}
    (hd : d ∈ ['\x60', '\x7b']) (rest : List Char) :
    templateLength (body ++ d :: rest) =
      (body.length + 1, if d = '\x60' then .closed else .interpolation) := by
  induction h with
  | nil =>
    simp only [mem_cons, not_mem_nil, or_false] at hd
    rcases hd with rfl | rfl <;> rfl
  | plain hc hends _ ih =>
    simp only [mem_cons, not_mem_nil, or_false, not_or] at hends
    simp [templateLength, hc, hends, ih]
  | escape _ _ ih => simp [templateLength, ih]

end Stretches

theorem spelling_isPrefix {p : Punct} {text : List Char} (h : Punct.longest? text = some p) :
    p.spelling <+: text := by
  have := find?_some h
  exact isPrefixOf_iff_prefix.mp this

theorem mark_of_longest {frames : Frames} {c : Char} {cs : List Char} {p : Punct}
    (hcomment : c = '/' → cs.head? ≠ some '*')
    (hp : Punct.longest? (c :: cs) = some p) (hleft : p ≠ .leftBrace) (hright : p ≠ .rightBrace) :
    mark frames c cs = ⟨.punct p, p.spelling.length - 1, frames⟩ := by
  unfold mark
  rw [if_neg (by simpa using hcomment), hp]
  split <;> simp_all

variable (frames : Frames) {c : Char} (cs : List Char)

theorem word_cut (hc : isWordPart c = true)
    (hstart : ∃ d ∈ c :: cs.take (runLength isWordPart cs), isWordStart d = true) :
    Cut frames c cs ⟨.ofWord (String.ofList (c :: cs.take (runLength isWordPart cs))),
      runLength isWordPart cs, frames⟩ := by
  refine .word ⟨?_, ?_⟩ <;> rw [String.toList_ofList]
  · obtain ⟨run, rest, rfl, hrun, -, hlength⟩ := exists_run isWordPart cs
    rw [hlength, take_left]
    exact forall_mem_cons.mpr ⟨hc, hrun⟩
  · exact hstart

theorem number_cut (hc : isDigit c = true) : Cut frames c cs (number frames c cs) := by
  obtain ⟨run, rest, rfl, hrun, hrest, -⟩ := exists_run isDigit cs
  have int (h : number frames c (run ++ rest) = ⟨.intLiteral, run.length, frames⟩) :
      Cut frames c (run ++ rest) (number frames c (run ++ rest)) := by
    rw [h]
    refine .int ?_
    rw [take_left]
    exact forall_mem_cons.mpr ⟨hc, hrun⟩
  cases rest with
  | nil => exact int (number_int hrun nofun nofun)
  | cons d ds =>
    by_cases hd : isWordStart d = true
    · have hpart : ∀ e ∈ run ++ [d], isWordPart e = true := by
        simp +contextual [or_imp, isWordPart, hrun, hd]
      have hlength : runLength isWordPart (run ++ d :: ds) = run.length + (runLength isWordPart ds + 1) := by
        rw [append_cons, runLength_append hpart, length_append, length_singleton]
        omega
      have htake : (run ++ d :: ds).take (run.length + (runLength isWordPart ds + 1)) =
          run ++ d :: ds.take (runLength isWordPart ds) := by
        rw [take_length_add_append, take_succ_cons]
      have hcut := word_cut frames (c := c) (run ++ d :: ds) (by simp [isWordPart, hc])
      rw [hlength, htake] at hcut
      rw [number_word hrun (hrest d rfl) hd]
      exact hcut ⟨d, by simp, hd⟩
    by_cases hfloat : ∃ e es, d :: ds = '.' :: e :: es ∧ isDigit e = true
    · obtain ⟨e, es, heq, he⟩ := hfloat
      cases heq
      rw [number_float hrun he]
      exact .plain rfl rfl (by decide)
    · refine int (number_int hrun (fun e he => ?_) fun e es heq => ?_)
      · cases he
        rw [isWordPart, hrest d rfl, Bool.or_false]
        simpa using hd
      · exact Bool.eq_false_iff.mpr fun he => hfloat ⟨e, es, heq, he⟩

theorem templateOpen_cut : Cut frames '\x60' cs (templateOpen frames cs) := by
  by_cases h : (templateLength cs).2 = .unterminated
  · unfold templateOpen
    generalize templateLength cs = found at h ⊢
    obtain ⟨n, ending⟩ := found
    obtain rfl := h
    exact .unterminated (by decide)
  · obtain ⟨body, d, rest, rfl, hd, hbody⟩ := templateLength_closed h
    rw [templateOpen, templateLength_stretch hbody hd]
    simp only [mem_cons, not_mem_nil, or_false] at hd
    rcases hd with rfl | rfl
    · exact .quoted rfl ⟨_, rfl, body, rfl, take_closed .., hbody⟩
    · exact .opened ⟨_, rfl, body, rfl, take_closed .., hbody⟩

theorem templateResume_cut : Cut (0 :: frames) '\x7d' cs (templateResume frames cs) := by
  by_cases h : (templateLength cs).2 = .unterminated
  · unfold templateResume
    generalize templateLength cs = found at h ⊢
    obtain ⟨n, ending⟩ := found
    obtain rfl := h
    exact .abandoned rfl rfl
  · obtain ⟨body, d, rest, rfl, hd, hbody⟩ := templateLength_closed h
    rw [templateResume, templateLength_stretch hbody hd]
    simp only [mem_cons, not_mem_nil, or_false] at hd
    rcases hd with rfl | rfl
    · exact .ended rfl ⟨_, rfl, body, rfl, take_closed .., hbody⟩
    · exact .resumed rfl ⟨_, rfl, body, rfl, take_closed .., hbody⟩

theorem mark_cut : Cut frames c cs (mark frames c cs) := by
  by_cases hcomment : c = '/' → cs.head? ≠ some '*'
  · cases hp : Punct.longest? (c :: cs) with
    | none =>
      unfold mark
      rw [if_neg (by simpa using hcomment), hp]
      exact .plain rfl rfl (by decide)
    | some p =>
      obtain ⟨more, hmore⟩ := spelling_isPrefix hp
      by_cases hleft : p = .leftBrace
      · subst hleft
        cases hmore
        cases frames <;> exact .leftBrace
      by_cases hright : p = .rightBrace
      · subst hright
        cases hmore
        match frames with
        | [] => exact .rightBrace nofun
        | (n + 1) :: outer => exact .rightBrace nofun
        | 0 :: outer => exact templateResume_cut outer _
      rw [mark_of_longest hcomment hp hleft hright]
      refine .plain rfl ?_ (by simp)
      unfold TokenKind.nests
      split <;> simp_all
  · unfold mark
    rw [if_pos (by simpa using hcomment)]
    exact .plain rfl rfl (by decide)

theorem lexeme_cut (c : Char) : Cut frames c cs (lexeme frames c cs) := by
  unfold lexeme
  split
  · exact number_cut frames cs ‹_›
  split
  · exact word_cut frames cs (by simp [isWordPart, *]) ⟨c, mem_cons_self, ‹_›⟩
  split
  · by_cases h : (stringLength cs).2 = true
    · obtain ⟨body, rest, rfl, hbody⟩ := stringLength_closed h
      rw [stringLength_stretch hbody]
      exact .quoted rfl ⟨_, rfl, body, rfl, take_closed .., hbody⟩
    · simp only [h]
      exact .plain rfl rfl (by decide)
  · by_cases h : (charsLength cs).2.2 = true
    · obtain ⟨body, rest, rfl, hbody⟩ := charsLength_closed h
      obtain ⟨count, hrun⟩ := charsLength_stretch hbody
      rw [hrun]
      by_cases hcount : count = 1
      · simp only [hcount]
        exact .quoted rfl ⟨_, rfl, body, rfl, take_closed .., hbody⟩
      · simp only [hcount]
        exact .quoted rfl ⟨_, rfl, body, rfl, take_closed .., hbody⟩
    · simp only [h]
      exact .plain (k := .error .unterminatedChar) rfl rfl (by decide)
  · exact templateOpen_cut frames cs
  · dsimp only
    split <;> exact .plain rfl rfl (by decide)
  · exact mark_cut frames cs

theorem ofWord_plain (text : String) : let kind := TokenKind.ofWord text
    kind.quoted = false ∧ kind.nests = false ∧ kind ≠ .eof ∧ kind ≠ .intLiteral ∧
      ∀ reason, kind ≠ .error reason := by
  unfold TokenKind.ofWord
  split
  · exact ⟨rfl, rfl, nofun, nofun, nofun⟩
  · split
    · exact ⟨rfl, rfl, nofun, nofun, nofun⟩
    · split <;> exact ⟨rfl, rfl, nofun, nofun, nofun⟩

section Forms

variable {frames cs} {lex : Lexeme} (h : Cut frames c cs lex)
include h

theorem Cut.kind_ne_eof : lex.kind ≠ .eof := by
  cases h with
  | word => exact (ofWord_plain _).2.2.1
  | plain _ _ hkind => exact fun heof => hkind (heof ▸ mem_cons_self)
  | quoted _ hquoted =>
    rintro rfl
    cases hquoted.choose_spec.1
  | _ => nofun

theorem Cut.isWord (hkind : lex.kind = .identifier) :
    IsWord (String.ofList (c :: cs.take lex.more)) ∧
      .ofWord (String.ofList (c :: cs.take lex.more)) = TokenKind.identifier := by
  cases h with
  | word hword => exact ⟨hword, hkind⟩
  | plain _ _ hother => exact absurd (hkind ▸ by simp) hother
  | quoted _ hquoted =>
    cases hkind
    cases hquoted.choose_spec.1
  | _ => cases hkind

theorem Cut.digits (hkind : lex.kind = .intLiteral) :
    ∀ d ∈ c :: cs.take lex.more, isDigit d = true := by
  cases h with
  | int hdigits => exact hdigits
  | word => exact absurd hkind (ofWord_plain _).2.2.2.1
  | plain _ _ hother => exact absurd (hkind ▸ by simp) hother
  | quoted _ hquoted =>
    cases hkind
    cases hquoted.choose_spec.1
  | _ => cases hkind

theorem Cut.delimited (hkind : lex.kind.quoted = true) :
    Delimited lex.kind c (cs.take lex.more) := by
  cases h with
  | word => exact absurd hkind (by simp [(ofWord_plain _).1])
  | plain hplain => exact absurd hkind (by simp [hplain])
  | quoted _ h | opened h | resumed _ h | ended _ h => exact h
  | int | unterminated | abandoned | leftBrace | rightBrace => cases hkind

end Forms

end Lexer
end Quill
