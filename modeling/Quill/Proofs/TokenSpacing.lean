import Quill.Proofs.Tiling

/-!
# Spaces between tokens

A token is told by its own characters and the open interpolations, so the tokens of a text stay the
same when they are written with single spaces in between.
-/
namespace Quill

open List

def Token.word (t : Token) : TokenKind × String := (t.kind, t.text)

/-- The characters that go on with a mark to a longer one. -/
def Punct.more (p : Punct) : List Char :=
  (all.filter (p.spelling.isPrefixOf ·.spelling)).filterMap (·.spelling[p.spelling.length]?)

namespace Lexer

/-- Nothing follows, or a blank. -/
def Apart (r : List Char) : Prop := ∀ d ∈ r.head?, isBlank d = true

theorem Apart.head {p : Char → Bool} {r : List Char} (h : Apart r)
    (hp : ∀ d, isBlank d = true → p d = false) : ∀ d ∈ r.head?, p d = false :=
  fun d hd => hp d (h d hd)

theorem isBlank_cases {d : Char} (h : isBlank d = true) : d = ' ' ∨ d = '\t' ∨ d = '\r' ∨ d = '\n' := by
  simpa only [isBlank, Bool.or_eq_true, beq_iff_eq, or_assoc] using h

theorem isDigit_of_isBlank (d : Char) (h : isBlank d = true) : isDigit d = false := by
  rcases isBlank_cases h with rfl | rfl | rfl | rfl <;> rfl

theorem isWordPart_of_isBlank (d : Char) (h : isBlank d = true) : isWordPart d = false := by
  rcases isBlank_cases h with rfl | rfl | rfl | rfl <;> rfl

section Runs

variable {p : Char → Bool} {cs r : List Char}

theorem runLength_take (h : ∀ d ∈ r.head?, p d = false) :
    runLength p (cs.take (runLength p cs) ++ r) = runLength p cs := by
  obtain ⟨run, rest, rfl, hrun, -, hlength⟩ := exists_run p cs
  rw [hlength, take_left, runLength_append hrun, runLength_of_head h, Nat.add_zero]

end Runs

section Texts

variable {cs r : List Char}

theorem stringLength_take (h : (stringLength cs).2 = true) :
    stringLength (cs.take (stringLength cs).1 ++ r) = stringLength cs := by
  obtain ⟨body, rest, rfl, hbody⟩ := stringLength_closed h
  rw [stringLength_stretch hbody, take_closed, append_assoc]
  exact stringLength_stretch hbody r

theorem charsLength_take (h : (charsLength cs).2.2 = true) :
    charsLength (cs.take (charsLength cs).1 ++ r) = charsLength cs := by
  obtain ⟨body, rest, rfl, hbody⟩ := charsLength_closed h
  obtain ⟨count, hrun⟩ := charsLength_stretch hbody
  rw [hrun, take_closed, append_assoc]
  exact hrun r

theorem templateLength_take (h : (templateLength cs).2 ≠ .unterminated) :
    templateLength (cs.take (templateLength cs).1 ++ r) = templateLength cs := by
  obtain ⟨body, d, rest, rfl, hd, hbody⟩ := templateLength_closed h
  rw [templateLength_stretch hbody hd, take_closed, append_assoc]
  exact templateLength_stretch hbody hd r

end Texts

section Marks

variable {frames : Frames} {c : Char} {cs r : List Char}

theorem isBlank_spelling (q : Punct) : ∀ d ∈ q.spelling, isBlank d = false := by
  have h : q.spelling.all (!isBlank ·) = true := by
    cases q <;> decide
  simpa using h

theorem mem_more_iff {p : Punct} {d : Char} :
    d ∈ p.more ↔ ∃ q : Punct, p.spelling ++ [d] <+: q.spelling := by
  have hall (q : Punct) : q ∈ Punct.all := by
    cases q <;> decide
  simp only [Punct.more, mem_filterMap, mem_filter, hall, true_and,
    isPrefixOf_iff_prefix]
  refine exists_congr fun q => ⟨?_, ?_⟩
  · rintro ⟨⟨w, hw⟩, hd⟩
    rw [← hw, getElem?_append_right (Nat.le_refl _), Nat.sub_self] at hd
    obtain ⟨w, rfl⟩ := head?_eq_some_iff.mp (head?_eq_getElem? ▸ hd)
    exact ⟨w, by rw [← hw, append_assoc]; rfl⟩
  · rintro ⟨w, hw⟩
    rw [append_assoc] at hw
    exact ⟨⟨_, hw⟩, by rw [← hw]; simp⟩

theorem longest?_stops {p : Punct} {text : List Char} (h : Punct.longest? text = some p)
    (hr : ∀ d ∈ r.head?, d ∉ p.more) : Punct.longest? (p.spelling ++ r) = some p := by
  obtain ⟨hp, before, behind, hall, hbefore⟩ := find?_eq_some_iff_append.mp h
  refine find?_eq_some_iff_append.mpr ⟨?_, before, behind, hall, fun q hq => ?_⟩
  · exact isPrefixOf_iff_prefix.mpr (prefix_append _ _)
  · have := hbefore q hq
    simp only [Bool.not_eq_true', ← Bool.not_eq_true, isPrefixOf_iff_prefix] at this ⊢
    refine fun hprefix => this (.trans ?_ (spelling_isPrefix h))
    obtain ⟨more, hmore⟩ := hprefix
    rcases append_eq_append_iff.mp hmore with ⟨s, hs, -⟩ | ⟨s, hs, hsr⟩
    · exact ⟨s, hs.symm⟩
    · cases s with
      | nil => exact ⟨[], hs ▸ by simp⟩
      | cons d s =>
        refine absurd (mem_more_iff.mpr ⟨q, s, ?_⟩) (hr d (by rw [hsr]; rfl))
        rw [hs, append_assoc]
        rfl

theorem Apart.stops (hr : Apart r) (p : Punct) : ∀ d ∈ r.head?, d ∉ p.more := by
  intro d hd hmore
  obtain ⟨q, hq⟩ := mem_more_iff.mp hmore
  have := isBlank_spelling q d (hq.subset (by simp))
  rw [hr d hd] at this
  cases this

theorem templateOpen_take (h : ∀ reason, (templateOpen frames cs).kind ≠ .error reason) :
    templateOpen frames (cs.take (templateOpen frames cs).more ++ r) = templateOpen frames cs := by
  have htake : (templateLength cs).2 ≠ .unterminated →
      templateLength (cs.take (templateLength cs).1 ++ r) = templateLength cs := templateLength_take
  unfold templateOpen at h ⊢
  generalize templateLength cs = found at h htake ⊢
  obtain ⟨n, _ | _ | _⟩ := found
  iterate 2 rw [htake (by simp)]
  exact absurd rfl (h _)

theorem templateResume_take (h : ∀ reason, (templateResume frames cs).kind ≠ .error reason) :
    templateResume frames (cs.take (templateResume frames cs).more ++ r) = templateResume frames cs := by
  have htake : (templateLength cs).2 ≠ .unterminated →
      templateLength (cs.take (templateLength cs).1 ++ r) = templateLength cs := templateLength_take
  unfold templateResume at h ⊢
  generalize templateLength cs = found at h htake ⊢
  obtain ⟨n, _ | _ | _⟩ := found
  iterate 2 rw [htake (by simp)]
  exact absurd rfl (h _)

theorem not_comment (h : ∀ reason, (mark frames c cs).kind ≠ .error reason) :
    c = '/' → cs.head? ≠ some '*' := by
  rintro rfl star
  unfold mark at h
  rw [star] at h
  exact h _ rfl

theorem mark_take (h : ∀ reason, (mark frames c cs).kind ≠ .error reason) (hr : Apart r) :
    mark frames c (cs.take (mark frames c cs).more ++ r) = mark frames c cs := by
  have hcomment := not_comment h
  cases hp : Punct.longest? (c :: cs) with
  | none =>
    unfold mark at h
    rw [if_neg (by simpa using hcomment), hp] at h
    exact absurd rfl (h _)
  | some p =>
    obtain ⟨more, hmore⟩ := spelling_isPrefix hp
    by_cases hleft : p = .leftBrace
    · subst hleft
      cases hmore
      cases frames <;> rfl
    by_cases hright : p = .rightBrace
    · subst hright
      cases hmore
      match frames with
      | [] | (n + 1) :: outer => rfl
      | 0 :: outer => exact templateResume_take h
    rw [mark_of_longest hcomment hp hleft hright]
    obtain ⟨w, hw⟩ : ∃ w, p.spelling = c :: w := by
      cases hs : p.spelling with
      | nil => cases p <;> cases hs
      | cons d w =>
        rw [hs] at hmore
        cases hmore
        exact ⟨w, rfl⟩
    have hcs : cs.take (p.spelling.length - 1) = w := by
      rw [hw] at hmore ⊢
      cases hmore
      exact take_left
    rw [hcs]
    refine mark_of_longest (fun hc => ?_) ?_ hleft hright
    · have := hcomment hc
      cases w with
      | nil =>
        intro star
        cases hr _ star
      | cons d w =>
        rw [hw] at hmore
        cases hmore
        exact this
    · rw [← cons_append, ← hw]
      exact longest?_stops hp (hr.stops p)

end Marks

section Words

variable {frames : Frames} {c : Char} {cs r : List Char}

theorem take_take_runLength (p : Char → Bool) :
    (cs.take (runLength p cs) ++ r).take (runLength p cs) = cs.take (runLength p cs) :=
  take_left' (by rw [length_take, Nat.min_eq_left (runLength_le p cs)])

theorem number_take (hr : Apart r) :
    number frames c (cs.take (number frames c cs).more ++ r) = number frames c cs := by
  obtain ⟨run, rest, rfl, hrun, hrest, -⟩ := exists_run isDigit cs
  have int : number frames c (run ++ r) = ⟨.intLiteral, run.length, frames⟩ := by
    refine number_int hrun (hr.head isWordPart_of_isBlank) fun e es hpoint => ?_
    cases hr '.' (by rw [hpoint]; rfl)
  cases rest with
  | nil =>
    rw [number_int hrun (by simp) (by simp), take_left]
    exact int
  | cons d ds =>
    by_cases hd : isWordStart d = true
    · rw [number_word hrun (hrest d rfl) hd, take_append, Nat.add_sub_cancel_left,
        take_of_length_le (Nat.le_add_right run.length _), take_succ_cons, append_assoc,
        cons_append, number_word hrun (hrest d rfl) hd,
        runLength_take (hr.head isWordPart_of_isBlank), take_take_runLength]
    by_cases hfloat : ∃ e es, d :: ds = '.' :: e :: es ∧ isDigit e = true
    · obtain ⟨e, es, heq, he⟩ := hfloat
      cases heq
      rw [number_float hrun he, take_append, Nat.add_sub_cancel_left,
        take_of_length_le (Nat.le_add_right run.length _), take_succ_cons,
        take_succ_cons, append_assoc, cons_append, cons_append,
        number_float hrun he, runLength_take (hr.head isDigit_of_isBlank)]
    · rw [number_int hrun, take_left]
      · exact int
      · intro d' hd'
        cases hd'
        rw [isWordPart, hrest d rfl, Bool.or_false]
        simpa using hd
      · intro e es heq
        by_contra he
        exact hfloat ⟨e, es, heq, by simpa using he⟩

theorem lexeme_of_mark (hdigit : isDigit c = false) (hstart : isWordStart c = false)
    (hc : c ∉ ['\x22', '\x27', '\x60', '@']) : lexeme frames c cs = mark frames c cs := by
  unfold lexeme
  simp only [hdigit, hstart, Bool.false_eq_true, if_false]
  split <;> first | rfl | exact absurd (by decide) hc

theorem lexeme_take (h : ∀ reason, (lexeme frames c cs).kind ≠ .error reason) (hr : Apart r) :
    lexeme frames c (cs.take (lexeme frames c cs).more ++ r) = lexeme frames c cs := by
  have hword : runLength isWordPart (cs.take (runLength isWordPart cs) ++ r) = runLength isWordPart cs :=
    runLength_take (hr.head isWordPart_of_isBlank)
  have htake : (cs.take (runLength isWordPart cs) ++ r).take (runLength isWordPart cs) =
      cs.take (runLength isWordPart cs) := take_take_runLength isWordPart
  by_cases hdigit : isDigit c = true
  · simp only [lexeme, hdigit, if_true]
    exact number_take hr
  by_cases hstart : isWordStart c = true
  · simp only [lexeme, hdigit, hstart, Bool.false_eq_true, if_true, if_false, hword, htake]
  by_cases hc : c ∈ ['\x22', '\x27', '\x60', '@']
  · simp only [mem_cons, not_mem_nil, or_false] at hc
    rcases hc with rfl | rfl | rfl | rfl
    · have hclosed : (stringLength cs).2 = true := by
        by_contra hopen
        exact h .unterminatedString (by simp [lexeme, hdigit, hstart, hopen])
      simp [lexeme, hdigit, hstart, stringLength_take hclosed]
    · have hclosed : (charsLength cs).2.2 = true := by
        by_contra hopen
        exact h .unterminatedChar (by simp [lexeme, hdigit, hstart, hopen])
      simp [lexeme, hdigit, hstart, charsLength_take hclosed]
    · exact templateOpen_take h
    · simp [lexeme, hdigit, hstart, hword]
  · simp only [Bool.not_eq_true] at hdigit hstart
    rw [lexeme_of_mark hdigit hstart hc] at h ⊢
    rw [lexeme_of_mark hdigit hstart hc, mark_take h hr]

end Words

section Separators

variable {frames : Frames} {c : Char} {cs r : List Char}

theorem separatorLength?_trivia (cs : List Char) :
    separatorLength? (cs.drop (triviaLength 0 cs)) = none := by
  induction hlength : cs.length using Nat.strongRecOn generalizing cs with
  | ind length ih =>
    subst hlength
    cases hfirst : separatorLength? cs with
    | none =>
      rw [triviaLength_of_none hfirst]
      exact hfirst
    | some n =>
      obtain ⟨hpos, hle⟩ := separatorLength?_bounds hfirst
      rw [triviaLength_of_separator hfirst, ← drop_drop]
      exact ih _ (by rw [length_drop]; omega) _ rfl

theorem separatorLength?_eq_none (hblank : isBlank c = false)
    (hslash : c = '/' → cs.head? ≠ some '/' ∧ cs.head? ≠ some '*') :
    separatorLength? (c :: cs) = none := by
  unfold separatorLength?
  split <;> simp_all

theorem separatorLength?_take (hsep : separatorLength? (c :: cs) = none)
    (h : ∀ reason, (lexeme frames c cs).kind ≠ .error reason) (hr : Apart r) (n : Nat) :
    separatorLength? (c :: (cs.take n ++ r)) = none := by
  have hhead {d : Char} (hd : (cs.take n ++ r).head? = some d) : cs.head? = some d ∨ isBlank d = true := by
    cases hw : cs.take n with
    | nil =>
      rw [hw] at hd
      exact .inr (hr d hd)
    | cons e w =>
      obtain ⟨more, hmore⟩ := take_prefix n cs
      rw [hw] at hd hmore
      rw [← hmore]
      exact .inl hd
  refine separatorLength?_eq_none ?_ ?_
  · rw [Bool.eq_false_iff]
    intro hblank
    rcases isBlank_cases hblank with rfl | rfl | rfl | rfl <;> cases hsep
  · rintro rfl
    constructor
    · intro hd
      rcases hhead hd with hd | hblank
      · cases cs <;> cases hd
        cases hsep
      · cases hblank
    · intro hd
      rcases hhead hd with hd | hblank
      · exact not_comment (lexeme_of_mark (c := '/') rfl rfl (by decide) ▸ h) rfl hd
      · cases hblank

end Separators

namespace State

variable {st st' : State}

theorem next_word_of_cons {c : Char} {cs : List Char} (h : st.atToken.rest = c :: cs) :
    st.next.1.word = ((lexeme st.frames c cs).kind, String.ofList (c :: cs.take (lexeme st.frames c cs).more)) ∧
      st.next.2.frames = (lexeme st.frames c cs).frames ∧
      st.next.2.rest = cs.drop (lexeme st.frames c cs).more := by
  rw [next_of_cons h]
  refine ⟨rfl, rfl, ?_⟩
  change st.atToken.rest.drop _ = _
  rw [h, drop_succ_cons]

theorem atToken_of_space {cs : List Char} (hsep : separatorLength? cs = none)
    (h : st.rest = cs ∨ st.rest = ' ' :: cs) : st.atToken.rest = cs := by
  change st.rest.drop (triviaLength 0 st.rest) = cs
  rcases h with h | h <;> rw [h]
  · rw [triviaLength_of_none hsep]
    rfl
  · rw [triviaLength_of_separator (n := 1) rfl, drop_succ_cons, drop_zero,
      triviaLength_of_none hsep]
    rfl

theorem intercalate_cons (w : List Char) (ws : List (List Char)) :
    ∃ r, [' '].intercalate (w :: ws) = w ++ r ∧ Apart r ∧ (ws = [] → r = []) ∧
      (r = [' '].intercalate ws ∨ r = ' ' :: [' '].intercalate ws) := by
  cases ws with
  | nil => exact ⟨[], by simp, nofun, fun _ => rfl, .inl rfl⟩
  | cons v ws =>
    refine ⟨' ' :: [' '].intercalate (v :: ws), by simp, fun d hd => ?_, nofun, .inr rfl⟩
    cases hd
    rfl

theorem run_joined {fuel fuel' : Nat} (hfuel : st.rest.length < fuel) (hfuel' : st'.rest.length < fuel')
    (hframes : st'.frames = st.frames) (hclean : ∀ t ∈ (st.run fuel).map (·.1), ¬ t.Faulty)
    {text : List Char}
    (htext : text = [' '].intercalate (((st.run fuel).map (·.1)).dropLast.map (·.text.toList)))
    (hrest : st'.rest = text ∨ st'.rest = ' ' :: text) :
    ((st'.run fuel').map (·.1)).map Token.word = ((st.run fuel).map (·.1)).map Token.word := by
  subst htext
  induction fuel generalizing st st' fuel' with
  | zero => exact absurd hfuel (Nat.not_lt_zero _)
  | succ fuel ih =>
    obtain ⟨fuel', rfl⟩ := Nat.exists_eq_add_one_of_ne_zero (Nat.ne_of_gt (Nat.zero_lt_of_lt hfuel'))
    cases hat : st.atToken.rest with
    | nil =>
      rw [run_of_nil hat] at hrest ⊢
      have hat' : st'.atToken.rest = [] := atToken_of_space rfl hrest
      rw [run_of_nil hat', next_of_nil hat, next_of_nil hat']
      rfl
    | cons c cs =>
      obtain ⟨hword, hframe, hbehind⟩ := next_word_of_cons hat
      have hlength : st.next.2.rest.length < fuel := by
        have := length_next hat
        omega
      obtain ⟨tokens, eof, hrun, -⟩ := call_eq hlength
      rw [run_of_cons hat, hrun, ← cons_append, dropLast_concat, map_cons] at hrest
      rw [run_of_cons hat, forall_mem_cons] at hclean
      obtain ⟨r, hjoined, hr, hlast, hmore⟩ :=
        intercalate_cons st.next.1.text.toList (tokens.map (·.text.toList))
      have htext : st.next.1.text.toList = c :: cs.take (lexeme st.frames c cs).more := by
        rw [show st.next.1.text = _ from congrArg Prod.snd hword, String.toList_ofList]
      have herror (reason : LexError) : (lexeme st.frames c cs).kind ≠ .error reason := by
        intro hkind
        exact hclean.1 ⟨reason, (congrArg Prod.fst hword).trans hkind⟩
      rw [hjoined, htext, cons_append] at hrest
      have hsep := separatorLength?_take (hat ▸ separatorLength?_trivia st.rest) herror hr
      have hat' := atToken_of_space (hsep _) hrest
      have hsame := lexeme_take herror hr
      obtain ⟨hword', hframe', hbehind'⟩ := next_word_of_cons hat'
      rw [hframes, hsame] at hword' hframe' hbehind'
      obtain ⟨htake, hdrop⟩ : let n := (lexeme st.frames c cs).more
          (cs.take n ++ r).take n = cs.take n ∧ (cs.take n ++ r).drop n = r := by
        by_cases hle : (lexeme st.frames c cs).more ≤ cs.length
        · have hn := length_take_of_le hle
          exact ⟨take_left' hn, drop_left' hn⟩
        · -- Then the text ends with this token.
          have hend : st.next.2.rest = [] := hbehind.trans (drop_eq_nil_of_le (Nat.le_of_not_le hle))
          obtain ⟨fuel, rfl⟩ := Nat.exists_eq_add_one_of_ne_zero (Nat.ne_of_gt (Nat.zero_lt_of_lt hlength))
          rw [run_of_nil (atToken_of_space rfl (.inl hend))] at hrun
          have hnone : tokens = [] := by simpa using congrArg List.length hrun
          simp [hlast (by rw [hnone]; rfl), take_take]
      rw [run_of_cons hat, run_of_cons hat', map_cons, map_cons]
      refine congrArg₂ List.cons ?_ (ih hlength ?_ ?_ hclean.2 ?_)
      · rw [hword', hword, htake]
      · have := length_next hat'
        omega
      · rw [hframe', hframe]
      · rw [hrun, dropLast_concat, hbehind', hdrop]
        exact hmore

end State

/-- Tokens that are written again with single spaces between them are read as before. -/
theorem scan_joined (file : FileId) (text : String) (h : ∀ t ∈ scan file text, ¬ t.Faulty) :
    let again := scan file (" ".intercalate ((scan file text).dropLast.map (·.text)))
    again.map Token.word = (scan file text).map Token.word ∧ ∀ t ∈ again, ¬ t.Faulty := by
  have hjoined : (" ".intercalate ((scan file text).dropLast.map (·.text))).toList =
      [' '].intercalate ((scan file text).dropLast.map (·.text.toList)) := by
    rw [String.toList_intercalate, map_map]
    rfl
  generalize " ".intercalate ((scan file text).dropLast.map (·.text)) = joined at hjoined ⊢
  have hwords : (scan file joined).map Token.word = (scan file text).map Token.word :=
    State.run_joined (Nat.lt_succ_self _) (Nat.lt_succ_self _) rfl h hjoined (.inl rfl)
  refine ⟨hwords, fun t ht faulty => ?_⟩
  obtain ⟨reason, hreason⟩ := faulty
  obtain ⟨t', ht', hword⟩ := mem_map.mp (hwords ▸ mem_map_of_mem ht)
  exact h t' ht' ⟨reason, (congrArg Prod.fst hword).trans hreason⟩

/-- Brackets, numbers that run into points, a comment and a template inside a template. -/
theorem scan_joined_nested :
    let text := "a>>=1..2/*x*/-->`u\x7bf(`v\x7b \x7b1\x7d.x \x7d`)\x7dw`"
    let again := scan 0 (" ".intercalate ((scan 0 text).dropLast.map (·.text)))
    (∀ t ∈ scan 0 text, ¬ t.Faulty) ∧ again.map Token.word = (scan 0 text).map Token.word ∧
      ∀ t ∈ again, ¬ t.Faulty := by
  intro text again
  have clean : ∀ t ∈ scan 0 text, ¬ t.Faulty := by decide +kernel
  exact ⟨clean, scan_joined 0 text clean⟩

end Lexer
end Quill
