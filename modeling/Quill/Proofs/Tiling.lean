import Quill.Parser.Decl
import Quill.Proofs.Lexemes
import Quill.Proofs.Utf8

/-!
# Tokens tile their text

Between two tokens of a text stand only blanks and comments, every token takes at least a byte, and
its line is told by the line ends before it.
-/
namespace Quill

open List

namespace Byte

variable {cs : List Char} {rest : List UInt8} {n : Nat}

def slash : UInt8 := 47
def asterisk : UInt8 := 42
def newline : UInt8 := 10

def blanks : List UInt8 := [32, 9, 13, newline]

end Byte

open Byte

/-- What follows the mark that opens a block comment, up to the mark that closes it. -/
inductive CommentBody : List UInt8 → Prop where
  | close : CommentBody [asterisk, slash]
  | nested {inner rest : List UInt8} :
    CommentBody inner → CommentBody rest → CommentBody (slash :: asterisk :: (inner ++ rest))
  | byte {b : UInt8} {rest : List UInt8} : ¬ [slash, asterisk] <+: b :: rest →
    ¬ [asterisk, slash] <+: b :: rest → CommentBody rest → CommentBody (b :: rest)

/-- Blanks and comments one after the other. A line comment goes up to a line end, or, where the
text ends behind the separators, to this end. -/
inductive Separators (atEnd : Prop) : List UInt8 → Prop where
  | none : Separators atEnd []
  | blank {b : UInt8} {rest : List UInt8} : b ∈ blanks → Separators atEnd rest →
    Separators atEnd (b :: rest)
  | line {body rest : List UInt8} : newline ∉ body →
    rest.head? = some newline ∨ rest = [] ∧ atEnd → Separators atEnd rest →
    Separators atEnd (slash :: slash :: (body ++ rest))
  | block {body rest : List UInt8} : CommentBody body → Separators atEnd rest →
    Separators atEnd (slash :: asterisk :: (body ++ rest))

def lineAt (bytes : List UInt8) (offset : Nat) : Nat := 1 + (bytes.take offset).count newline

def slice (bytes : List UInt8) (start stop : Nat) : List UInt8 := (bytes.take stop).drop start

/-- Tokens cover bytes from an offset on, with separators in between and an end token behind. -/
inductive Tiles (file : FileId) (bytes : List UInt8) : Nat → List Token → Prop where
  | eof {start : Nat} {token : Token} : token.kind = .eof →
    token.span = ⟨file, bytes.length, bytes.length, lineAt bytes bytes.length⟩ →
    start ≤ bytes.length → Separators True (slice bytes start bytes.length) →
    Tiles file bytes start [token]
  | token {start : Nat} {token : Token} {tokens : List Token} : token.kind ≠ .eof →
    token.span.file = file → start ≤ token.span.start → token.span.start < token.span.stop →
    token.span.stop ≤ bytes.length → token.span.line = lineAt bytes token.span.start →
    Separators False (slice bytes start token.span.start) →
    Tiles file bytes token.span.stop tokens → Tiles file bytes start (token :: tokens)

namespace Lexer

/-- Bodies of as many comments as are open, the innermost first. -/
def Closes : Nat → List UInt8 → Prop
  | 0, bytes => bytes = []
  | depth + 1, bytes => ∃ body rest, bytes = body ++ rest ∧ CommentBody body ∧ Closes depth rest

theorem commentBody_append_upper {bs : List UInt8} (h : ∀ b ∈ bs, 128 ≤ b.toNat)
    (hrest : CommentBody rest) : CommentBody (bs ++ rest) := by
  induction bs with
  | nil => exact hrest
  | cons b bs ih =>
    have hb := h b mem_cons_self
    have hne : ∀ a ∈ [slash, asterisk], a ≠ b := by
      simp only [slash, asterisk, mem_cons, not_mem_nil, or_false, forall_eq_or_imp,
        forall_eq]
      constructor <;> rintro rfl <;> exact absurd hb (by decide)
    refine .byte ?_ ?_ (ih fun a ha => h a (mem_cons_of_mem b ha))
    · exact fun hp => hne slash (by simp) (cons_prefix_cons.mp hp).1
    · exact fun hp => hne asterisk (by simp) (cons_prefix_cons.mp hp).1

theorem commentBody_append_char {c : Char} {body : List UInt8} (hopen : ¬ ['/', '*'] <+: c :: cs)
    (hclose : ¬ ['*', '/'] <+: c :: cs) (hbody : CommentBody body) (heq : utf8 cs = body ++ rest) :
    CommentBody (String.utf8EncodeChar c ++ body) := by
  have hfront : String.utf8EncodeChar c ++ body <+: utf8 (c :: cs) := by
    rw [utf8_cons, heq, ← append_assoc]
    exact prefix_append _ _
  rcases utf8EncodeChar_cases c with ⟨-, hc⟩ | ⟨-, hc⟩
  · rw [hc] at hfront ⊢
    refine .byte (fun hp => hopen ?_) (fun hp => hclose ?_) hbody
    · exact (utf8_isPrefix_iff ['/', '*'] (by simp)).mp (hp.trans hfront)
    · exact (utf8_isPrefix_iff ['*', '/'] (by simp)).mp (hp.trans hfront)
  · exact commentBody_append_upper hc hbody

theorem not_pair_isPrefix {a b c : Char} (h : ∀ rest, c = a → cs = b :: rest → False) (n : Nat) :
    ¬ [a, b] <+: c :: cs.take n := by
  intro hp
  obtain ⟨hc, hb⟩ := cons_prefix_cons.mp hp
  obtain ⟨rest, hrest⟩ := hb.trans (List.take_prefix n cs)
  exact h rest hc.symm hrest.symm

theorem closes_of_commentLength? {depth : Nat} (h : commentLength? depth cs = some n) :
    Closes depth (utf8 (cs.take n)) := by
  fun_induction commentLength? depth cs generalizing n with
  | case1 cs =>
    cases h
    rfl
  | case2 depth => cases h
  | case3 depth cs ih =>
    obtain ⟨m, hm, rfl⟩ := Option.map_eq_some_iff.mp h
    obtain ⟨inner, -, heq, hinner, body, rest, rfl, hbody, hrest⟩ := ih hm
    refine ⟨slash :: asterisk :: (inner ++ body), rest, ?_, .nested hinner hbody, hrest⟩
    change slash :: asterisk :: utf8 (cs.take m) = _
    rw [heq, cons_append, cons_append, append_assoc]
  | case4 depth cs ih =>
    obtain ⟨m, hm, rfl⟩ := Option.map_eq_some_iff.mp h
    exact ⟨[asterisk, slash], _, rfl, .close, ih hm⟩
  | case5 depth c cs hopen hclose ih =>
    obtain ⟨m, hm, rfl⟩ := Option.map_eq_some_iff.mp h
    obtain ⟨body, rest, heq, hbody, hrest⟩ := ih hm
    refine ⟨String.utf8EncodeChar c ++ body, rest, ?_, ?_, hrest⟩
    · rw [take_succ_cons, utf8_cons, heq, append_assoc]
    · exact commentBody_append_char (not_pair_isPrefix hopen m) (not_pair_isPrefix hclose m) hbody
        heq

theorem commentLength?_le {depth : Nat} (h : commentLength? depth cs = some n) : n ≤ cs.length := by
  fun_induction commentLength? depth cs generalizing n with
  | case1 cs =>
    cases h
    exact Nat.zero_le _
  | case2 depth => cases h
  | case3 depth cs ih | case4 depth cs ih | case5 depth c cs _ _ ih =>
    obtain ⟨m, hm, rfl⟩ := Option.map_eq_some_iff.mp h
    have := ih hm
    simp only [length_cons]
    omega

theorem take_runLength (p : Char → Bool) (cs : List Char) :
    cs.take (runLength p cs) = cs.takeWhile p ∧ cs.drop (runLength p cs) = cs.dropWhile p := by
  induction cs with
  | nil => exact ⟨rfl, rfl⟩
  | cons c cs ih =>
    rw [runLength, takeWhile_cons, dropWhile_cons]
    split
    · rw [take_succ_cons, drop_succ_cons, ih.1, ih.2]
      exact ⟨rfl, rfl⟩
    · exact ⟨rfl, rfl⟩

theorem runLength_le (p : Char → Bool) (cs : List Char) : runLength p cs ≤ cs.length := by
  induction cs with
  | nil => exact Nat.le_refl _
  | cons c cs ih =>
    rw [runLength, length_cons]
    split <;> omega

theorem separatorLength?_bounds (h : separatorLength? cs = some n) : 0 < n ∧ n ≤ cs.length := by
  unfold separatorLength? at h
  split at h
  · rename_i cs
    cases h
    have := runLength_le (· != '\n') cs
    simp only [length_cons]
    omega
  · obtain ⟨m, hm, rfl⟩ := Option.map_eq_some_iff.mp h
    have := commentLength?_le hm
    simp only [length_cons]
    omega
  · split at h
    · cases h
      simp
    · cases h
  · cases h

/-- A blank or a comment goes in front of other separators. If it is a line comment, these start
with the line end or there is nothing behind. -/
theorem separators_append {atEnd : Prop} (h : separatorLength? cs = some n)
    (hrest : Separators atEnd rest) (hend : cs.drop n = [] → rest = [] ∧ atEnd)
    (hline : ∀ ds, cs.drop n = '\n' :: ds → rest.head? = some newline) :
    Separators atEnd (utf8 (cs.take n) ++ rest) := by
  unfold separatorLength? at h
  split at h
  · rename_i cs
    cases h
    rw [drop_succ_cons, drop_succ_cons, (take_runLength _ cs).2] at hend hline
    rw [take_succ_cons, take_succ_cons, (take_runLength _ cs).1]
    refine .line ?_ ?_ hrest
    · have hnone : '\n' ∉ cs.takeWhile (· != '\n') := by
        intro hmem
        simpa using all_eq_true.mp all_takeWhile _ hmem
      rw [← count_eq_zero, ← count_utf8 (by decide)] at hnone
      exact count_eq_zero.mp hnone
    · cases hdrop : cs.dropWhile (· != '\n') with
      | nil => exact .inr (hend hdrop)
      | cons d ds =>
        have hd := head_dropWhile_not (· != '\n') (l := cs) (by simp [hdrop])
        simp only [hdrop, head_cons, bne_eq_false_iff_eq] at hd
        exact .inl (hline ds (hd ▸ hdrop))
  · rename_i cs
    obtain ⟨m, hm, rfl⟩ := Option.map_eq_some_iff.mp h
    obtain ⟨body, more, heq, hbody, hmore⟩ := closes_of_commentLength? hm
    rw [hmore, append_nil] at heq
    change Separators atEnd (slash :: asterisk :: (utf8 (cs.take m) ++ rest))
    rw [heq]
    exact .block hbody hrest
  · rename_i c cs _ _
    split at h
    · rename_i hblank
      cases h
      have hbyte : String.utf8EncodeChar c = [UInt8.ofNat c.toNat] ∧
          UInt8.ofNat c.toNat ∈ blanks := by
        simp only [isBlank, Bool.or_eq_true, beq_iff_eq] at hblank
        rcases hblank with ((rfl | rfl) | rfl) | rfl <;> decide
      change Separators atEnd (String.utf8EncodeChar c ++ utf8 [] ++ rest)
      rw [hbyte.1]
      exact .blank hbyte.2 hrest
    · cases h
  · cases h

theorem triviaLength_eq (known : Nat) (cs : List Char) :
    triviaLength known cs = min known cs.length + triviaLength 0 (cs.drop known) := by
  induction cs generalizing known with
  | nil => simp [triviaLength]
  | cons c cs ih =>
    cases known with
    | zero => simp
    | succ known =>
      rw [triviaLength, ih known, drop_succ_cons, length_cons]
      omega

theorem triviaLength_of_separator (h : separatorLength? cs = some n) :
    triviaLength 0 cs = n + triviaLength 0 (cs.drop n) := by
  obtain ⟨hpos, hle⟩ := separatorLength?_bounds h
  cases cs with
  | nil => cases h
  | cons c cs =>
    obtain ⟨m, rfl⟩ := Nat.exists_eq_add_one_of_ne_zero (Nat.ne_of_gt hpos)
    rw [length_cons] at hle
    rw [triviaLength, h]
    simp only [Nat.add_sub_cancel]
    rw [triviaLength_eq, drop_succ_cons]
    omega

theorem triviaLength_of_none (h : separatorLength? cs = none) : triviaLength 0 cs = 0 := by
  cases cs with
  | nil => rfl
  | cons c cs => rw [triviaLength, h]

theorem separators_trivia (cs : List Char) :
    Separators (cs.drop (triviaLength 0 cs) = []) (utf8 (cs.take (triviaLength 0 cs))) := by
  induction hlength : cs.length using Nat.strongRecOn generalizing cs with
  | ind length ih =>
    subst hlength
    cases hfirst : separatorLength? cs with
    | none =>
      rw [triviaLength_of_none hfirst]
      exact .none
    | some n =>
      obtain ⟨hpos, hle⟩ := separatorLength?_bounds hfirst
      have hrest := ih _ (by rw [length_drop]; omega) (cs.drop n) rfl
      rw [drop_drop] at hrest
      rw [triviaLength_of_separator hfirst, take_add, utf8_append]
      refine separators_append hfirst hrest (fun hend => ?_) (fun ds hline => ?_)
      · rw [hend, take_nil, ← drop_drop, hend, drop_nil]
        exact ⟨rfl, rfl⟩
      · rw [hline, triviaLength_of_separator (n := 1) rfl, Nat.add_comm, take_succ_cons]
        rfl

/-- A scan stands behind `front`, at the offset and on the line of this place. -/
structure Placed (file : FileId) (text front : List Char) (st : State) : Prop where
  file : st.file = file
  split : text = front ++ st.rest
  offset : st.offset = (utf8 front).length
  line : st.line = 1 + (utf8 front).count newline

namespace Placed

variable {file : FileId} {text front : List Char} {st : State}

theorem start (file : FileId) (text : String) :
    Placed file text.toList [] (.start file text) :=
  ⟨rfl, rfl, rfl, rfl⟩

theorem skip (h : Placed file text front st) (n : Nat) :
    Placed file text (front ++ st.rest.take n) (st.skip n) where
  file := h.file
  split := by
    rw [h.split, append_assoc]
    exact congrArg (front ++ ·) (take_append_drop n st.rest).symm
  offset := by
    rw [utf8_append, length_append, ← h.offset, ← bytes_eq_length]
    rfl
  line := by
    rw [utf8_append, count_append, ← Nat.add_assoc, ← h.line]
    exact congrArg (st.line + ·) (count_utf8 (a := '\n') (by decide) _).symm

theorem lineAt_offset (h : Placed file text front st) : lineAt (utf8 text) st.offset = st.line := by
  rw [lineAt, h.split, utf8_append, h.offset, take_left, h.line]

theorem offset_le (h : Placed file text front st) : st.offset ≤ (utf8 text).length := by
  rw [h.split, utf8_append, h.offset, length_append]
  exact Nat.le_add_right _ _

theorem slice_skip (h : Placed file text front st) (n : Nat) :
    slice (utf8 text) st.offset (st.skip n).offset = utf8 (st.rest.take n) := by
  have hskip := h.skip n
  rw [slice, hskip.split, utf8_append, hskip.offset, take_left, utf8_append, h.offset,
    drop_left]

end Placed

def State.atToken (st : State) : State := st.skip (triviaLength 0 st.rest)

theorem State.next_of_nil {st : State} (h : st.atToken.rest = []) :
    st.next = (⟨.eof, "", ⟨st.file, st.atToken.offset, st.atToken.offset, st.atToken.line⟩⟩,
      st.atToken) := by
  have h : (st.skip (triviaLength 0 st.rest)).rest = [] := h
  simp only [next, h]
  rfl

theorem State.next_of_cons {st : State} {c : Char} {cs : List Char}
    (h : st.atToken.rest = c :: cs) :
    let lex := lexeme st.frames c cs
    let after := { st.atToken.skip (lex.more + 1) with frames := lex.frames }
    st.next = (⟨lex.kind, String.ofList (c :: cs.take lex.more),
      ⟨st.file, st.atToken.offset, after.offset, st.atToken.line⟩⟩, after) := by
  have h : (st.skip (triviaLength 0 st.rest)).rest = c :: cs := h
  simp only [next, h]
  rfl

/-- The token that a call of `next` gives after `n` calls before it. -/
def State.call (st : State) : (n : Nat) → Token
  | 0 => st.next.1
  | n + 1 => st.next.2.call n

theorem State.atToken_of_nil {st : State} (h : st.rest = []) : st.atToken = st := by
  cases st
  subst h
  rfl

theorem State.call_of_nil {st : State} (h : st.atToken.rest = []) (n : Nat) :
    st.call n = st.next.1 := by
  have hagain : st.atToken.next = st.next := by
    have hsame := atToken_of_nil h
    rw [next_of_nil h, next_of_nil (hsame.symm ▸ h : st.atToken.atToken.rest = []), hsame]
    rfl
  have hstay : ∀ m, st.atToken.call m = st.next.1 := by
    intro m
    induction m with
    | zero => rw [call, hagain]
    | succ m ih =>
      rw [call, hagain, next_of_nil h]
      rw [next_of_nil h] at ih
      exact ih
  cases n with
  | zero => rfl
  | succ n =>
    have hnext : st.next.2 = st.atToken := by rw [next_of_nil h]
    rw [call, hnext, hstay n]

theorem State.run_of_nil {st : State} (h : st.atToken.rest = []) (fuel : Nat) :
    (st.run (fuel + 1)).map (·.1) = [st.next.1] := by
  rw [run, if_pos]
  · rfl
  · rw [next_of_nil h]
    rfl

theorem State.run_of_cons {st : State} {c : Char} {cs : List Char}
    (h : st.atToken.rest = c :: cs) (fuel : Nat) :
    (st.run (fuel + 1)).map (·.1) = st.next.1 :: (st.next.2.run fuel).map (·.1) := by
  rw [run, if_neg]
  · rfl
  · rw [next_of_cons h, Token.isEof, beq_iff_eq]
    exact (lexeme_cut _ cs c).kind_ne_eof

theorem State.length_next {st : State} {c : Char} {cs : List Char}
    (h : st.atToken.rest = c :: cs) : st.next.2.rest.length < st.rest.length := by
  have hat : (c :: cs).length ≤ st.rest.length := by
    rw [← h]
    exact (length_drop ▸ Nat.sub_le _ _ : (st.rest.drop _).length ≤ _)
  rw [next_of_cons h]
  change (st.atToken.rest.drop _).length < _
  rw [h, length_drop, length_cons] at *
  omega

theorem Placed.run_tiles {file : FileId} {text front : List Char} {st : State}
    (h : Placed file text front st) {fuel : Nat} (hfuel : st.rest.length < fuel) :
    Tiles file (utf8 text) st.offset ((st.run fuel).map (·.1)) := by
  induction fuel generalizing st front with
  | zero => exact absurd hfuel (Nat.not_lt_zero _)
  | succ fuel ih =>
    have hat : Placed file text _ st.atToken := h.skip (triviaLength 0 st.rest)
    have hgap := separators_trivia st.rest
    rw [← h.slice_skip] at hgap
    change Separators (st.atToken.rest = []) (slice _ _ st.atToken.offset) at hgap
    have hle : st.offset ≤ st.atToken.offset := Nat.le_add_right _ _
    cases hrest : st.atToken.rest with
    | nil =>
      have hend : st.atToken.offset = (utf8 text).length := by
        rw [hat.offset, hat.split, hrest, append_nil]
      have hline := hat.lineAt_offset
      rw [hrest, eq_self, hend] at hgap
      rw [hend] at hle hline
      rw [State.run_of_nil hrest]
      refine .eof ?_ ?_ hle hgap
      · rw [State.next_of_nil hrest]
      · rw [State.next_of_nil hrest, hend, hline, h.file]
    | cons c cs =>
      have hafter := hat.skip ((lexeme st.frames c cs).more + 1)
      have hlength := State.length_next hrest
      rw [hrest] at hgap
      have hgap' : Separators False (slice (utf8 text) st.offset st.atToken.offset) := by
        simpa using hgap
      have hpos : st.atToken.offset < (st.atToken.skip ((lexeme st.frames c cs).more + 1)).offset := by
        have := length_utf8_pos c (cs.take (lexeme st.frames c cs).more)
        rw [← bytes_eq_length] at this
        change _ < st.atToken.offset + State.bytes (st.atToken.rest.take _)
        rw [hrest, take_succ_cons]
        omega
      obtain ⟨front', hnext⟩ : ∃ front', Placed file text front' st.next.2 := by
        rw [State.next_of_cons hrest]
        exact ⟨_, hafter.file, hafter.split, hafter.offset, hafter.line⟩
      have hrun := ih hnext (by omega)
      rw [State.run_of_cons hrest]
      rw [State.next_of_cons hrest] at hrun ⊢
      exact .token (lexeme_cut _ cs c).kind_ne_eof h.file hle hpos hafter.offset_le
        hat.lineAt_offset.symm hgap' hrun

theorem State.call_eq {st : State} {fuel : Nat} (hfuel : st.rest.length < fuel) :
    ∃ tokens eof, (st.run fuel).map (·.1) = tokens ++ [eof] ∧ ∀ n, st.call n = tokens[n]?.getD eof := by
  induction fuel generalizing st with
  | zero => exact absurd hfuel (Nat.not_lt_zero _)
  | succ fuel ih =>
    cases hrest : st.atToken.rest with
    | nil => exact ⟨[], st.next.1, run_of_nil hrest fuel, call_of_nil hrest⟩
    | cons c cs =>
      have hlength := length_next hrest
      obtain ⟨tokens, eof, hrun, hcall⟩ := ih (by omega : st.next.2.rest.length < fuel)
      refine ⟨st.next.1 :: tokens, eof, ?_, fun n => ?_⟩
      · rw [run_of_cons hrest, hrun, cons_append]
      · cases n with
        | zero => rfl
        | succ n => exact hcall n

end Lexer

theorem Tiles.kinds {file : FileId} {bytes : List UInt8} {start : Nat} {tokens : List Token}
    {last : Token} (h : Tiles file bytes start (tokens ++ [last])) :
    last.kind = .eof ∧ ∀ t ∈ tokens, t.kind ≠ .eof := by
  induction tokens generalizing start with
  | nil =>
    cases h with
    | eof hkind => exact ⟨hkind, nofun⟩
    | token _ _ _ _ _ _ _ hrest => cases hrest
  | cons t tokens ih =>
    cases tokens with
    | nil =>
      cases h with
      | token hkind _ _ _ _ _ _ hrest =>
        exact ⟨(ih hrest).1, forall_mem_cons.mpr ⟨hkind, nofun⟩⟩
    | cons u tokens =>
      cases h with
      | token hkind _ _ _ _ _ _ hrest =>
        exact ⟨(ih hrest).1, forall_mem_cons.mpr ⟨hkind, (ih hrest).2⟩⟩

/-- The token stands for characters that are no token. -/
def Token.Faulty (t : Token) : Prop := ∃ reason, t.kind = .error reason

theorem Token.faulty_iff (t : Token) : t.lexError?.isSome ↔ t.Faulty := by
  unfold lexError? Faulty
  cases t.kind <;> simp

instance : DecidablePred Token.Faulty := fun t => decidable_of_iff _ t.faulty_iff

/-- The diagnostic tells the reason and the place of the token. -/
def Diagnostic.Reports (d : Diagnostic) (t : Token) : Prop :=
  ∃ reason, t.kind = .error reason ∧ d = ⟨.lexical reason, t.span⟩

theorem Token.kept_eq (tokens : List Token) :
    Token.kept tokens = tokens.filter fun t => ¬ t.Faulty := by
  refine filter_congr fun t _ => ?_
  rw [Bool.eq_iff_iff, decide_eq_true_iff, ← t.faulty_iff]
  cases t.lexError? <;> simp

theorem lexProblems_reports (tokens : List Token) :
    List.Forall₂ Diagnostic.Reports (lexProblems tokens) (tokens.filter fun t => t.Faulty) := by
  induction tokens with
  | nil => exact .nil
  | cons t tokens ih =>
    rw [lexProblems, filterMap_cons, filter_cons]
    by_cases ht : t.Faulty
    · obtain ⟨reason, hreason⟩ := ht
      have herror : t.lexError? = some reason := by
        rw [Token.lexError?, hreason]
      rw [herror, if_pos (decide_eq_true ⟨reason, hreason⟩)]
      exact .cons ⟨reason, hreason, rfl⟩ ih
    · have hnone : t.lexError? = none := by
        rw [← t.faulty_iff] at ht
        simpa using ht
      rw [hnone, if_neg (by simpa using ht)]
      exact ih

end Quill
