import Quill.Proofs.TokenSpacing

/-!
# Spelling words

A text that is put together from words is scanned as these words if what stands behind each of them
does not go on with it.
-/
namespace Quill

open List

abbrev Word := TokenKind × String

def Punct.word (p : Punct) : Word := (.punct p, String.ofList p.spelling)

namespace Lexer

/-- Where no interpolation is open, a scan reads these words from `cs` without a fault and then
stands before `r`. -/
structure Spells (cs r : List Char) (words : List Word) : Prop where
  length_le : words.length ≤ cs.length
  clean : ∀ w ∈ words, ∀ reason, w.1 ≠ .error reason
  read : ∀ st : State, st.frames = [] → st.rest = cs ++ r → ∃ (tokens : List Token) (st' : State),
    tokens.map Token.word = words ∧ st'.frames = [] ∧ st'.rest = r ∧
    ∀ fuel, (st.run (words.length + fuel)).map (·.1) = tokens ++ (st'.run fuel).map (·.1)

/-- What may stand in front of a word. -/
inductive Pad : List Char → Prop where
  | none : Pad []
  | space : Pad [' ']

section Words

variable {cs ds r pad : List Char} {c : Char} {ws vs : List Word}

theorem Spells.append (h : Spells cs (ds ++ r) ws) (h' : Spells ds r vs) :
    Spells (cs ++ ds) r (ws ++ vs) := by
  refine ⟨?_, forall_mem_append.mpr ⟨h.clean, h'.clean⟩, fun st hframes hrest => ?_⟩
  · rw [length_append, length_append]
    exact Nat.add_le_add h.length_le h'.length_le
  rw [append_assoc] at hrest
  obtain ⟨tokens, st', hwords, hframes, hrest, hrun⟩ := h.read st hframes hrest
  obtain ⟨tokens', st'', hwords', hframes, hrest, hrun'⟩ := h'.read st' hframes hrest
  refine ⟨tokens ++ tokens', st'', ?_, hframes, hrest, fun fuel => ?_⟩
  · rw [map_append, hwords, hwords']
  · rw [length_append, Nat.add_assoc, hrun, hrun', append_assoc]

theorem spells_lexeme {kind : TokenKind} (hpad : Pad pad) (hkind : ∀ reason, kind ≠ .error reason)
    (hsep : separatorLength? (c :: (cs ++ r)) = none)
    (hlex : lexeme [] c (cs ++ r) = ⟨kind, cs.length, []⟩) :
    Spells (pad ++ c :: cs) r [(kind, String.ofList (c :: cs))] := by
  refine ⟨by simp; omega, by simpa using hkind, fun st hframes hrest => ?_⟩
  have hat : st.atToken.rest = c :: (cs ++ r) := by
    refine State.atToken_of_space hsep ?_
    cases hpad with
    | none => exact .inl hrest
    | space => exact .inr hrest
  obtain ⟨hword, hframe, hbehind⟩ := State.next_word_of_cons hat
  rw [hframes, hlex] at hword hframe hbehind
  rw [take_left] at hword
  rw [drop_left] at hbehind
  refine ⟨[st.next.1], st.next.2, congrArg (· :: []) hword, hframe, hbehind, fun fuel => ?_⟩
  rw [length_singleton, Nat.add_comm, State.run_of_cons hat]
  rfl

theorem isWordPart_of_isDigit {d : Char} (h : isDigit d = true) : isWordPart d = true := by
  rw [isWordPart, h, Bool.or_true]

theorem separatorLength?_of_word (hc : isWordPart c = true) : separatorLength? (c :: cs) = none := by
  refine separatorLength?_eq_none ?_ ?_
  · exact Bool.eq_false_iff.mpr fun hblank => by simp [isWordPart_of_isBlank c hblank] at hc
  · rintro rfl
    cases hc

theorem spells_word {w : String} (hpad : Pad pad) (hw : IsWord w)
    (hr : ∀ d ∈ r.head?, isWordPart d = false) :
    Spells (pad ++ w.toList) r [(.ofWord w, w)] := by
  obtain ⟨hchars, d, hmem, hd⟩ := hw
  have hd' : isDigit d = false := by
    simp only [isWordStart, isDigit, Bool.or_eq_true, Bool.and_eq_true, decide_eq_true_eq,
      beq_iff_eq, Bool.and_eq_false_iff, decide_eq_false_iff_not] at hd ⊢
    rcases hd with (hd | hd) | rfl
    · exact .inr fun hle => absurd (Char.le_trans hd.1 hle) (by decide)
    · exact .inr fun hle => absurd (Char.le_trans hd.1 hle) (by decide)
    · decide
  obtain ⟨c, cs, hcs⟩ := exists_cons_of_ne_nil (ne_nil_of_mem hmem)
  rw [← String.ofList_toList (s := w), String.toList_ofList] at *
  rw [hcs] at hchars hmem ⊢
  obtain ⟨hc, hchars⟩ := forall_mem_cons.mp hchars
  refine spells_lexeme hpad (ofWord_plain _).2.2.2.2 (separatorLength?_of_word hc) ?_
  have hlength (es : List Char) (hes : ∀ e ∈ es, isWordPart e = true) :
      runLength isWordPart (es ++ r) = es.length := by
    rw [runLength_append hes, runLength_of_head hr, Nat.add_zero]
  by_cases hdigit : isDigit c = true
  · -- Behind the digits in front the word goes on with another character.
    obtain ⟨run, rest, rfl, hrun, hrest, -⟩ := exists_run isDigit cs
    cases rest with
    | nil =>
      rw [append_nil] at hmem
      have hall : ∀ e ∈ c :: run, isDigit e = true := forall_mem_cons.mpr ⟨hdigit, hrun⟩
      cases hd'.symm.trans (hall d hmem)
    | cons e es =>
      have he := hrest e rfl
      have hstart : isWordStart e = true := by simpa [isWordPart, he] using hchars e (by simp)
      have hes := hlength es fun e he => hchars e (by simp [he])
      unfold lexeme
      rw [if_pos hdigit, append_assoc, cons_append, number_word hrun he hstart, hes,
        take_left]
      simp
  · have hstart : isWordStart c = true := by simpa [isWordPart, hdigit] using hc
    unfold lexeme
    rw [if_neg hdigit, if_pos hstart, hlength cs hchars]
    simp

theorem spells_int {n : String} (hne : n.toList ≠ []) (hn : ∀ d ∈ n.toList, isDigit d = true)
    (hr : ∀ d ∈ r.head?, isWordPart d = false ∧ d ≠ '.') :
    Spells n.toList r [(.intLiteral, n)] := by
  obtain ⟨c, cs, hcs⟩ := exists_cons_of_ne_nil hne
  rw [← String.ofList_toList (s := n), String.toList_ofList] at *
  rw [hcs] at hn ⊢
  obtain ⟨hc, hcs⟩ := forall_mem_cons.mp hn
  refine spells_lexeme .none nofun (separatorLength?_of_word (isWordPart_of_isDigit hc)) ?_
  unfold lexeme
  rw [if_pos hc]
  refine number_int hcs (fun d hd => (hr d hd).1) fun e es heq => ?_
  exact absurd rfl (hr '.' (by rw [heq]; rfl)).2

theorem spells_mark {p : Punct} (hleft : p ≠ .leftBrace) (hright : p ≠ .rightBrace) (hpad : Pad pad)
    (hr : ∀ d ∈ r.head?, d ∉ p.more ∧ (p = .slash → d ≠ '/' ∧ d ≠ '*')) :
    Spells (pad ++ p.spelling) r [p.word] := by
  obtain ⟨c, cs, hspelling, hdigit, hstart, hblank, hquote, hslash⟩ : ∃ c cs, p.spelling = c :: cs ∧
      isDigit c = false ∧ isWordStart c = false ∧ isBlank c = false ∧
      c ∉ ['\x22', '\x27', '\x60', '@'] ∧
      (c = '/' → p = .slash ∧ cs = [] ∨ ∃ d ∈ cs.head?, d ≠ '/' ∧ d ≠ '*') := by
    cases p <;> refine ⟨_, _, rfl, rfl, rfl, rfl, by decide, ?_⟩ <;> simp
  have hcomment : c = '/' → (cs ++ r).head? ≠ some '/' ∧ (cs ++ r).head? ≠ some '*' := by
    intro hc
    rcases hslash hc with ⟨rfl, rfl⟩ | ⟨d, hd, hne⟩
    · exact ⟨fun h => ((hr _ h).2 rfl).1 rfl, fun h => ((hr _ h).2 rfl).2 rfl⟩
    · obtain ⟨ds, rfl⟩ := head?_eq_some_iff.mp hd
      simpa using hne
  have hlongest : Punct.longest? p.spelling = some p := by
    cases p <;> rfl
  have hstops := longest?_stops hlongest fun d hd => (hr d hd).1
  unfold Punct.word
  rw [hspelling, cons_append] at hstops
  rw [hspelling]
  refine spells_lexeme hpad nofun (separatorLength?_eq_none hblank hcomment) ?_
  rw [lexeme_of_mark hdigit hstart hquote,
    mark_of_longest (fun hc => (hcomment hc).2) hstops hleft hright, hspelling]
  rfl

end Words

theorem Spells.scan {text : String} {words : List Word} (h : Spells text.toList [] words)
    (file : FileId) : (scan file text).map Token.word = words ++ [(TokenKind.eof, "")] := by
  obtain ⟨tokens, st, hwords, -, hrest, hrun⟩ := h.read (.start file text) rfl (append_nil _).symm
  have hat : st.atToken.rest = [] := State.atToken_of_space rfl (.inl hrest)
  obtain ⟨fuel, hfuel⟩ := Nat.exists_eq_add_of_le h.length_le
  have := hrun (fuel + 1)
  rw [State.run_of_nil hat, State.next_of_nil hat, ← Nat.add_assoc, ← hfuel] at this
  change ((State.run (text.toList.length + 1) (.start file text)).map (·.1)).map Token.word = _
  rw [this, map_append, hwords]
  rfl

theorem Spells.scan_clean {text : String} {words : List Word} (h : Spells text.toList [] words)
    (file : FileId) : ∀ t ∈ Lexer.scan file text, ¬ t.Faulty := by
  rintro t ht ⟨reason, hreason⟩
  have hmem := mem_map_of_mem (f := Token.word) ht
  rw [h.scan file] at hmem
  rcases mem_append.mp hmem with hword | heof
  · exact h.clean _ hword reason hreason
  · cases hreason.symm.trans (congrArg Prod.fst (mem_singleton.mp heof))

end Lexer
end Quill
