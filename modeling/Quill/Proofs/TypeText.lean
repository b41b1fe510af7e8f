import Mathlib.Data.Bool.AllAny
import Quill.Proofs.TextPlaces
import Quill.Proofs.WordReading

/-!
# Types as text

A type that was read is rendered as a text that reads as the same type.
-/
namespace Quill

open List

namespace TypeExpr

variable {ts : List TypeExpr} {p : Punct} {t : TypeExpr}

mutual

/-- The type without identities, places and directives. -/
def bare : TypeExpr → TypeExpr
  | void _ => void ⟨0, default, []⟩
  | scalar _ s => scalar ⟨0, default, []⟩ s
  | named _ path arguments => named ⟨0, default, []⟩ path (bareAll arguments)
  | pointer _ t => pointer ⟨0, default, []⟩ t.bare
  | mutPointer _ t => mutPointer ⟨0, default, []⟩ t.bare
  | array _ t n => array ⟨0, default, []⟩ t.bare n
  | slice _ t => slice ⟨0, default, []⟩ t.bare
  | optional _ t => optional ⟨0, default, []⟩ t.bare
  | result _ t e => result ⟨0, default, []⟩ t.bare e.bare
  | tuple _ items => tuple ⟨0, default, []⟩ (bareAll items)

def bareAll : List TypeExpr → List TypeExpr
  | [] => []
  | t :: ts => t.bare :: bareAll ts

end

theorem bareAll_congr {us : List TypeExpr} (h : List.Forall₂ (fun t u => u.bare = t.bare) ts us) :
    bareAll us = bareAll ts := by
  induction h with
  | nil => rfl
  | cons ht _ ih => rw [bareAll, bareAll, ht, ih]

end TypeExpr

def IsName (name : String) : Prop := IsWord name ∧ TokenKind.ofWord name = .identifier

def IsNumber (n : String) : Prop := n.toList ≠ [] ∧ ∀ d ∈ n.toList, Lexer.isDigit d = true

namespace TypeExpr

inductive Writable : TypeExpr → Prop where
  | void {i : Info} : Writable (.void i)
  | scalar {i : Info} {s : Scalar} : Writable (.scalar i s)
  | named {i : Info} {path : List String} {arguments : List TypeExpr} : path ≠ [] →
    (∀ name ∈ path, IsName name) → (∀ a ∈ arguments, Writable a) → Writable (.named i path arguments)
  | pointer {i : Info} {t : TypeExpr} : Writable t → Writable (.pointer i t)
  | mutPointer {i : Info} {t : TypeExpr} : Writable t → Writable (.mutPointer i t)
  | array {i : Info} {t : TypeExpr} {n : Option String} : Writable t →
    (∀ x ∈ n, IsName x ∨ IsNumber x) → Writable (.array i t n)
  | slice {i : Info} {t : TypeExpr} : Writable t → Writable (.slice i t)
  | optional {i : Info} {t : TypeExpr} : Writable t → Writable (.optional i t)
  | result {i : Info} {t e : TypeExpr} : Writable t → Writable e → e.isBase = true →
    Writable (.result i t e)
  | tuple {i : Info} {items : List TypeExpr} : items ≠ [] → (∀ t ∈ items, Writable t) →
    Writable (.tuple i items)

theorem Writable.withDirectives (h : Writable t) (ds : List Directive) :
    Writable (t.withDirectives ds) := by
  cases h <;> constructor <;> assumption

def pathWords : List String → List Word
  | [] => []
  | name :: more =>
    (.identifier, name) :: more.flatMap fun n => [Punct.word .colonColon, (.identifier, n)]

def lengthWord (n : String) : Word := (if n.toList.all Lexer.isDigit then .intLiteral else .identifier, n)

mutual

def words : TypeExpr → List Word
  | void _ => [(.void, "void")]
  | scalar _ s => [(.scalar s, s.name)]
  | named _ path [] => pathWords path
  | named _ path (a :: as) =>
    pathWords path ++ Punct.word .less :: (a.words ++ wordsMore as ++ [Punct.word .greater])
  | pointer _ t => t.words ++ [Punct.word .star]
  | mutPointer _ t => t.words ++ [(.keyword .kMut, "mut"), Punct.word .star]
  | array _ t n => t.words ++ Punct.word .leftBracket :: (n.toList.map lengthWord ++ [Punct.word .rightBracket])
  | slice _ t => t.words ++ [Punct.word .leftBracket, Punct.word .dotDot, Punct.word .rightBracket]
  | optional _ t => t.words ++ [Punct.word .question]
  | result _ t e => t.words ++ Punct.word .bang :: e.words
  | tuple _ [] => []
  | tuple _ (t :: ts) => Punct.word .leftParen :: (t.words ++ wordsMore ts ++ [Punct.word .rightParen])

def wordsMore : List TypeExpr → List Word
  | [] => []
  | t :: ts => Punct.word .comma :: (t.words ++ wordsMore ts)

end

theorem wordsMore_eq (ts : List TypeExpr) :
    wordsMore ts = ts.flatMap fun t => Punct.word .comma :: t.words := by
  induction ts with
  | nil => rfl
  | cons t ts ih => rw [wordsMore, ih, flatMap_cons, cons_append]

end TypeExpr

section Text

open Lexer

def typeEnds : List Char := [' ', '*', '[', '?', '!', ',', ')', '>']

def typeMarks : List Punct :=
  [.star, .leftBracket, .rightBracket, .dotDot, .less, .greater, .comma, .question, .bang, .leftParen,
    .rightParen, .colonColon]

def Ends (r : List Char) : Prop := ∀ d ∈ r.head?, d ∈ typeEnds

variable {r pad : List Char}

theorem ends_cons {d : Char} {ds : List Char} (h : d ∈ typeEnds) : Ends (d :: ds ++ r) :=
  fun _ hd => Option.some.inj hd ▸ h

theorem Ends.not_word (hr : Ends r) : ∀ d ∈ r.head?, isWordPart d = false := by
  have hall : ∀ d ∈ typeEnds, isWordPart d = false := all_iff_forall_prop.mp (by decide)
  exact fun d hd => hall d (hr d hd)

/-- Nothing follows that goes on with a mark of a type. -/
def Calm (r : List Char) : Prop := ∀ d ∈ r.head?, d ≠ '=' ∧ d ≠ '<'

theorem calm_cons {d : Char} {ds : List Char} (h : d ≠ '=' ∧ d ≠ '<') : Calm (d :: ds ++ r) :=
  fun _ hd => Option.some.inj hd ▸ h

theorem Ends.calm (hr : Ends r) : Calm r := by
  have hall : ∀ d ∈ typeEnds, d ≠ '=' ∧ d ≠ '<' := all_iff_forall_prop.mp (by decide)
  exact fun d hd => hall d (hr d hd)

theorem Calm.mark (hr : Calm r) (hp : p ∈ typeMarks) (hpad : Pad pad) :
    Spells (pad ++ p.spelling) r [p.word] := by
  have hall : ∀ p ∈ typeMarks,
      p ≠ .leftBrace ∧ p ≠ .rightBrace ∧ p ≠ .slash ∧ p.more.all (fun d => d = '=' ∨ d = '<') :=
    all_iff_forall_prop.mp (by decide)
  obtain ⟨hleft, hright, hslash, hmore⟩ := hall p hp
  refine spells_mark hleft hright hpad fun d hd => ⟨fun h => ?_, fun h => absurd h hslash⟩
  rcases all_iff_forall_prop.mp hmore d h with rfl | rfl
  · exact (hr _ hd).1 rfl
  · exact (hr _ hd).2 rfl

theorem Calm.front {cs : List Char} {ws : List Word} (hr : Calm (cs ++ r)) (h : Spells cs r ws)
    (hp : p ∈ typeMarks) (hpad : Pad pad) : Spells (pad ++ p.spelling ++ cs) r (p.word :: ws) :=
  (hr.mark hp hpad).append h

theorem isWord_of_all {w : String} (h : (w.toList.all isWordPart && w.toList.any isWordStart) = true) :
    IsWord w := by
  rw [Bool.and_eq_true, all_eq_true, any_eq_true] at h
  exact ⟨h.1, h.2⟩

theorem spells_name {name : String} (h : IsName name) (hr : ∀ d ∈ r.head?, isWordPart d = false)
    (hpad : Pad pad) : Spells (pad ++ name.toList) r [(.identifier, name)] := by
  have := spells_word hpad h.1 hr
  rwa [h.2] at this

theorem calm_word {cs : List Char} (hne : cs ≠ []) (h : ∀ c ∈ cs, isWordPart c = true) (ds : List Char) :
    Calm (cs ++ ds) := by
  obtain ⟨c, cs, rfl⟩ := exists_cons_of_ne_nil hne
  have hc := h c mem_cons_self
  refine calm_cons ⟨?_, ?_⟩ <;> rintro rfl <;> cases hc

theorem IsWord.calm {w : String} (h : IsWord w) (ds : List Char) : Calm (w.toList ++ ds) :=
  calm_word (ne_nil_of_mem h.starts.choose_spec.1) h.chars ds

theorem calm_path {path : List String} (hne : path ≠ []) (h : ∀ name ∈ path, IsName name)
    (ds : List Char) : Calm ([':', ':'].intercalate (path.map String.toList) ++ ds) := by
  obtain ⟨name, more, rfl⟩ := exists_cons_of_ne_nil hne
  have := (h name mem_cons_self).1.calm
  cases more <;> simp [this]

theorem spells_path {path : List String} (hne : path ≠ []) (h : ∀ name ∈ path, IsName name)
    (hr : ∀ d ∈ r.head?, isWordPart d = false) (hpad : Pad pad) :
    Spells (pad ++ [':', ':'].intercalate (path.map String.toList)) r (TypeExpr.pathWords path) := by
  induction path generalizing pad with
  | nil => exact absurd rfl hne
  | cons name more ih =>
    obtain ⟨hname, hmore⟩ := forall_mem_cons.mp h
    cases more with
    | nil => simpa [TypeExpr.pathWords] using spells_name hname hr hpad
    | cons next more =>
      have hrest := (calm_path (cons_ne_nil next more) hmore r).front (p := .colonColon) (ih nofun hmore .none) (by decide) .none
      have := (spells_name hname (fun d hd => by cases hd; rfl) hpad).append hrest
      simpa [TypeExpr.pathWords, Punct.spelling] using this

theorem spells_length {n : String} (h : IsName n ∨ IsNumber n) :
    Spells n.toList (']' :: r) [TypeExpr.lengthWord n] := by
  by_cases hdigits : n.toList.all isDigit = true
  · rw [TypeExpr.lengthWord, if_pos hdigits]
    have hne : n.toList ≠ [] := by
      rcases h with ⟨hword, -⟩ | hnumber
      · exact ne_nil_of_mem hword.starts.choose_spec.1
      · exact hnumber.1
    exact spells_int hne (all_eq_true.mp hdigits) fun d hd => by cases hd; decide
  · rw [TypeExpr.lengthWord, if_neg hdigits]
    rcases h with hname | hnumber
    · exact spells_name hname (fun d hd => by cases hd; rfl) .none
    · exact absurd (all_eq_true.mpr hnumber.2) hdigits

theorem calm_length {n : String} (h : IsName n ∨ IsNumber n) (ds : List Char) : Calm (n.toList ++ ds) :=
  h.elim (·.1.calm ds) fun h => calm_word h.1 (fun d hd => isWordPart_of_isDigit (h.2 d hd)) ds

theorem scalar_word (s : Scalar) : IsWord s.name ∧ TokenKind.ofWord s.name = .scalar s := by
  cases s <;> exact ⟨isWord_of_all (by decide +kernel), by decide +kernel⟩

namespace TypeExpr

theorem Writable.calm (h : Writable t) (ds : List Char) : Calm (t.render.toList ++ ds) := by
  induction h generalizing ds with
  | void => exact (isWord_of_all (w := "void") (by decide +kernel)).calm ds
  | @scalar i s => exact (scalar_word s).1.calm ds
  | @named i path arguments hne hnames _ _ =>
    have := calm_path hne hnames
    cases arguments <;> simp [render, this]
  | @tuple i items hne _ _ =>
    obtain ⟨t, ts, rfl⟩ := exists_cons_of_ne_nil hne
    simp [render, Calm]
  | pointer _ ih | mutPointer _ ih | array _ _ ih | slice _ ih | optional _ ih | result _ _ _ ih _ =>
    simp [render, ih]

theorem spells_items (h : ∀ u ∈ t :: ts, ∀ pad r, Pad pad → Ends r →
    Spells (pad ++ u.render.toList) r u.words) (hpad : Pad pad) (hr : Ends r) :
    Spells (pad ++ (t.render.toList ++ (renderMore ts).toList)) r (t.words ++ wordsMore ts) := by
  induction ts generalizing t pad with
  | nil => simpa [renderMore, wordsMore] using h t mem_cons_self pad r hpad hr
  | cons u us ih =>
    obtain ⟨ht, hus⟩ := forall_mem_cons.mp h
    have hmore := Calm.front (p := .comma) (by simp [Calm]) (ih hus .space) (by decide) .none
    have := (ht pad _ hpad (ends_cons (by decide))).append hmore
    simpa [renderMore, wordsMore, Punct.spelling] using this

theorem Writable.spells (h : Writable t) (hpad : Pad pad) (hr : Ends r) :
    Spells (pad ++ t.render.toList) r t.words := by
  induction h generalizing pad r with
  | void => exact spells_word (w := "void") hpad (isWord_of_all (by decide +kernel)) hr.not_word
  | @scalar i s =>
    have := spells_word hpad (scalar_word s).1 hr.not_word
    rwa [(scalar_word s).2] at this
  | @named i path arguments hne hnames harguments ih =>
    cases arguments with
    | nil => simpa [render, words] using spells_path hne hnames hr.not_word hpad
    | cons a as =>
      have hitems := (spells_items (fun u hu _ _ => ih u hu) .none (ends_cons (by decide))).append
        (hr.calm.mark (p := .greater) (by decide) .none)
      have hlist := Calm.front (p := .less) (by simpa using (harguments a mem_cons_self).calm _)
        hitems (by decide) .none
      have := (spells_path hne hnames (fun d hd => by cases hd; rfl) hpad).append hlist
      simpa [render, words, Punct.spelling] using this
  | @tuple i items hne hitemsW ih =>
    obtain ⟨t, ts, rfl⟩ := exists_cons_of_ne_nil hne
    have hitems := (spells_items (fun u hu _ _ => ih u hu) .none (ends_cons (by decide))).append
      (hr.calm.mark (p := .rightParen) (by decide) .none)
    have := Calm.front (p := .leftParen) (by simpa using (hitemsW t mem_cons_self).calm _) hitems
      (by decide) hpad
    simpa [render, words, Punct.spelling] using this
  | pointer _ ih =>
    have := (ih hpad (ends_cons (by decide))).append (hr.calm.mark (p := .star) (by decide) .none)
    simpa [render, words] using this
  | mutPointer _ ih =>
    have hmut : Spells [' ', 'm', 'u', 't'] ('*' :: r) [(.keyword .kMut, "mut")] :=
      spells_word (w := "mut") .space (isWord_of_all (by decide +kernel)) (fun d hd => by cases hd; rfl)
    have := (ih hpad (ends_cons (by decide))).append
      (hmut.append (hr.calm.mark (p := .star) (by decide) .none))
    simpa [render, words, Punct.spelling] using this
  | @array i t n _ hn ih =>
    have hclose := hr.calm.mark (p := .rightBracket) (by decide) .none
    cases n with
    | none =>
      have := (ih hpad (ends_cons (by decide))).append
        (Calm.front (p := .leftBracket) (calm_cons (by decide)) hclose (by decide) .none)
      simpa [render, words, Punct.spelling] using this
    | some x =>
      have hx := (spells_length (hn x rfl)).append hclose
      have := (ih hpad (ends_cons (by decide))).append
        (Calm.front (p := .leftBracket) (by simpa using calm_length (hn x rfl) _) hx (by decide) .none)
      simpa [render, words, Punct.spelling] using this
  | slice _ ih =>
    have hclose := Calm.front (p := .dotDot) (calm_cons (by decide))
      (hr.calm.mark (p := .rightBracket) (by decide) .none) (by decide) .none
    have := (ih hpad (ends_cons (by decide))).append
      (Calm.front (p := .leftBracket) (calm_cons (by decide)) hclose (by decide) .none)
    simpa [render, words, Punct.spelling] using this
  | optional _ ih =>
    have := (ih hpad (ends_cons (by decide))).append (hr.calm.mark (p := .question) (by decide) .none)
    simpa [render, words] using this
  | @result i t e _ he _ ih ihe =>
    have := (ih hpad (ends_cons (by decide))).append
      (Calm.front (p := .bang) (he.calm r) (ihe .none hr) (by decide) .none)
    simpa [render, words] using this

end TypeExpr

end Text

namespace Parser

open TypeExpr

/-- The kinds of tokens that stand behind a type in a rendered one. -/
def closers : List TokenKind := [.eof, .punct .comma, .punct .greater, .punct .rightParen]

variable {t u : TypeExpr} {vs rest : List Word} {Q : TypeExpr → Prop}

theorem progresses_type : Shrinks type := fun _ => (Gives.type (m := .plain)).moves.length_le

theorem extend_closed (h : firstKind rest ∈ closers) :
    Consumes (extend (typeSuffix type) t) [] rest (· = t) := by
  refine .extend_stop progresses_typeSuffix (.kind ?_)
  rw [nil_append]
  simp only [closers, mem_cons, not_mem_nil, or_false] at h
  rcases h with h | h | h | h <;> rw [h] <;> exact .pure rfl

/-- Read without directives, such a type is taken up by what follows it. -/
def TakenUp (t : TypeExpr) : Prop :=
  ∀ (vs rest : List Word) (Q : TypeExpr → Prop), firstKind (vs ++ rest) ≠ .punct .colonColon →
    (∀ u : TypeExpr, u.bare = t.bare → Consumes (extend (typeSuffix type) u) vs rest Q) →
    Consumes (typeBase type >>= extend (typeSuffix type)) (t.words ++ vs) rest Q

def TakenAsBase (t : TypeExpr) : Prop :=
  ∀ rest : List Word, firstKind rest ≠ .punct .colonColon →
    Consumes (typeBase type) t.words rest fun u => u.bare = t.bare

theorem TakenAsBase.takenUp (h : TakenAsBase t) : TakenUp t :=
  fun _ _ _ hrest hmore => .bind (h _ hrest) hmore

theorem TakenUp.suffix {t' : TypeExpr} {ws : List Word} (h : TakenUp t) (hwords : t'.words = t.words ++ ws)
    (hws : ∀ vs, firstKind (ws ++ vs) ≠ .punct .colonColon)
    (hstep : ∀ u : TypeExpr, u.bare = t.bare → ∀ rest, firstKind rest ≠ .punct .colonColon →
      Consumes (typeSuffix type u) ws rest fun r => ∃ v, r = some v ∧ v.bare = t'.bare) : TakenUp t' := by
  intro vs rest Q hrest hmore
  rw [hwords, append_assoc]
  refine h (ws ++ vs) rest Q (by rw [append_assoc]; exact hws _) fun u hu => ?_
  exact .extend_more progresses_typeSuffix (hstep u hu _ hrest) hmore

theorem TakenUp.consumes (h : TakenUp t) (hdir : ∀ vs, firstKind (t.words ++ vs) ≠ .directive)
    (hrest : firstKind rest ∈ closers) : Consumes type t.words rest fun u => u.bare = t.bare := by
  have hcolons : firstKind rest ≠ .punct .colonColon := by
    rintro heq
    rw [heq] at hrest
    exact absurd hrest (by decide)
  have hbody := h [] rest _ hcolons fun u hu => (extend_closed hrest).weaken fun v hv =>
    (hv ▸ hu : v.bare = t.bare)
  rw [append_nil] at hbody
  intro s hs
  have tie : type s = typeStep type s := (ties_type (fun _ => type) () s fun _ _ _ => rfl).symm
  rw [tie]
  obtain ⟨ds, s', hds, rfl, hs'⟩ := Consumes.directives (hdir rest) s hs
  obtain ⟨u, v, hrun, hu, hv⟩ := hbody s' hs'
  refine ⟨u, v, ?_, hu, hv⟩
  rw [bind_apply] at hrun
  rw [typeStep, bind_apply, hds]
  dsimp only
  rw [bind_apply]
  rcases hbase : typeBase .type s' with ⟨_ | base, w⟩
  · rw [hbase] at hrun
    cases hrun
  · rw [hbase] at hrun
    dsimp only at hrun ⊢
    rw [bind_apply, hrun]
    rfl

theorem writable_first (h : Writable t) (vs : List Word) :
    firstKind (t.words ++ vs) ≠ .directive := by
  induction h generalizing vs with
  | void | scalar => nofun
  | @named i path arguments hne _ _ _ =>
    obtain ⟨name, more, rfl⟩ := exists_cons_of_ne_nil hne
    cases arguments <;> nofun
  | @tuple i items hne _ _ =>
    obtain ⟨t, ts, rfl⟩ := exists_cons_of_ne_nil hne
    nofun
  | pointer _ ih | mutPointer _ ih | array _ _ ih | slice _ ih | optional _ ih | result _ _ _ ih _ =>
    rw [words, append_assoc]
    exact ih _

theorem items_consumes (hp : .punct p ∈ closers) (hcomma : p ≠ .comma)
    (hw : ∀ u ∈ t :: ts, Writable u) (h : ∀ u ∈ t :: ts, TakenUp u) :
    Consumes (commaSeparated type) (t.words ++ wordsMore ts) (p.word :: rest)
      fun us => bareAll us = bareAll (t :: ts) := by
  rw [wordsMore_eq]
  refine (Consumes.commaSeparated progresses_type (fun u hu vs hvs => ?_) ?_).weaken
    fun us hus => bareAll_congr hus
  · refine (h u hu).consumes (writable_first (hw u hu)) ?_
    rcases hvs with hvs | rfl
    · rw [hvs]
      decide
    · exact hp
  · simpa [firstKind, Punct.word] using hcomma

theorem eq_named {i : Info} {path : List String} (h : u.bare = (TypeExpr.named i path []).bare) :
    ∃ j, u = .named j path [] := by
  cases u with
  | named j path' arguments =>
    simp only [bare, bareAll, named.injEq, true_and] at h
    cases arguments with
    | nil => exact ⟨j, by rw [h.1]⟩
    | cons a as => exact absurd h.2 (by simp [bareAll])
  | _ => simp [bare] at h

theorem writable_taken (h : Writable t) : TakenUp t ∧ (t.isBase = true → TakenAsBase t) := by
  have base {t : TypeExpr} (h : TakenAsBase t) : TakenUp t ∧ (t.isBase = true → TakenAsBase t) :=
    ⟨h.takenUp, fun _ => h⟩
  have simple {i : Info} {path : List String} (hne : path ≠ []) : TakenAsBase (.named i path []) := by
    obtain ⟨name, more, rfl⟩ := exists_cons_of_ne_nil hne
    refine fun rest hrest => .peek fun token htoken => ?_
    rw [show token.kind = .identifier from congrArg Prod.fst htoken]
    refine .last (.path hrest) fun names hnames => .last (.typeNodeFrom _) fun j _ => .pure ?_
    rw [hnames]
    rfl
  induction h with
  | void =>
    refine base fun rest _ => .peek fun token htoken => ?_
    rw [show token.kind = .void from congrArg Prod.fst htoken]
    exact .last (.advance nofun) fun _ _ => .last (.typeNodeAt _) fun j _ => .pure rfl
  | scalar =>
    refine base fun rest _ => .peek fun token htoken => ?_
    rw [show token.kind = .scalar _ from congrArg Prod.fst htoken]
    exact .last (.advance nofun) fun _ _ => .last (.typeNodeAt _) fun j _ => .pure rfl
  | @named i path arguments hne _ hw ih =>
    cases arguments with
    | nil => exact base (simple hne)
    | cons a as =>
      refine ⟨(simple (i := i) hne).takenUp.suffix rfl nofun fun u hu rest _ => .kind ?_, nofun⟩
      obtain ⟨j, rfl⟩ := eq_named hu
      refine .word (.advance nofun) fun _ _ => ?_
      refine .bind (items_consumes (p := .greater) (by decide) nofun hw fun u hu => (ih u hu).1)
        fun us hus => .last (.mark .greater _) fun _ _ => .last (.typeNodeFrom _) fun j _ => .pure ?_
      exact ⟨_, rfl, by rw [bare, bare, hus]⟩
  | @tuple i items hne hw ih =>
    obtain ⟨t, ts, rfl⟩ := exists_cons_of_ne_nil hne
    refine base fun rest _ => .peek fun token htoken => ?_
    rw [show token.kind = .punct .leftParen from congrArg Prod.fst htoken]
    refine .word (.advance nofun) fun _ _ => ?_
    refine .bind (items_consumes (p := .rightParen) (by decide) nofun hw fun u hu => (ih u hu).1)
      fun us hus => .last (.mark .rightParen _) fun _ _ => .last (.typeNodeFrom _) fun j _ => .pure ?_
    rw [bare, bare, hus]
  | pointer _ ih =>
    refine ⟨ih.1.suffix rfl nofun fun u hu rest _ => .kind ?_, nofun⟩
    refine .last (.advance nofun) fun _ _ => .last (.typeNodeFrom _) fun j _ => .pure ⟨_, rfl, ?_⟩
    rw [bare, bare, hu]
  | mutPointer _ ih =>
    refine ⟨ih.1.suffix rfl nofun fun u hu rest _ => .kind (.kindAt ?_), nofun⟩
    refine .last (.advanceBy (by decide)) fun _ _ => .last (.typeNodeFrom _) fun j _ => .pure ⟨_, rfl, ?_⟩
    rw [bare, bare, hu]
  | @array i t n _ _ ih =>
    cases n with
    | none =>
      refine ⟨ih.1.suffix rfl nofun fun u hu rest _ => .kind (.kindAt (.kindAt ?_)), nofun⟩
      refine .last (.advanceBy (by decide)) fun _ _ => .last (.typeNodeFrom _) fun j _ => .pure ⟨_, rfl, ?_⟩
      rw [bare, bare, hu]
    | some x =>
      have sized {k : TokenKind} (hk : k = .intLiteral ∨ k = .identifier) (hx : lengthWord x = (k, x)) :
          TakenUp (.array i t (some x)) := by
        refine ih.1.suffix rfl nofun fun u hu rest _ => .kind (.kindAt (.kindAt ?_))
        simp only [Option.toList_some, map_singleton, hx]
        rcases hk with rfl | rfl
        iterate 2
          refine .word (.advance nofun) fun _ _ => ?_
          refine .word (.advance nofun) fun length hlength => ?_
          refine .last (.advance nofun) fun _ _ => .last (.typeNodeFrom _) fun j _ => .pure ⟨_, rfl, ?_⟩
          rw [bare, bare, hu, show length.text = x from congrArg Prod.snd hlength]
      refine ⟨?_, nofun⟩
      by_cases hdigits : x.toList.all Lexer.isDigit = true
      · exact sized (.inl rfl) (by rw [lengthWord, if_pos hdigits])
      · exact sized (.inr rfl) (by rw [lengthWord, if_neg hdigits])
  | slice _ ih =>
    refine ⟨ih.1.suffix rfl nofun fun u hu rest _ => .kind (.kindAt (.kindAt ?_)), nofun⟩
    refine .last (.advanceBy (by decide)) fun _ _ => .last (.typeNodeFrom _) fun j _ => .pure ⟨_, rfl, ?_⟩
    rw [bare, bare, hu]
  | optional _ ih =>
    refine ⟨ih.1.suffix rfl nofun fun u hu rest _ => .kind ?_, nofun⟩
    refine .last (.advance nofun) fun _ _ => .last (.typeNodeFrom _) fun j _ => .pure ⟨_, rfl, ?_⟩
    rw [bare, bare, hu]
  | result _ _ hbase ih ihe =>
    refine ⟨ih.1.suffix rfl nofun fun u hu rest hrest => .kind ?_, nofun⟩
    refine .word (.advance nofun) fun _ _ => ?_
    refine .last (ihe.2 hbase rest hrest) fun e he => .last (.typeNodeFrom _) fun j _ => .pure ⟨_, rfl, ?_⟩
    rw [bare, bare, hu, he]

def Scanned (t : Token) : Prop :=
  (t.kind = .identifier → IsName t.text) ∧ (t.kind = .intLiteral → IsNumber t.text)

theorem writable_law : PartLaw Scanned fun x => ∀ t, x = .type t → Writable t where
  made {items x} made from_ := by
    rintro t rfl
    have typed {t : TypeExpr} (h : .typed t ∈ items ∨ .base t ∈ items) : Writable t :=
      h.elim (fun h => from_ _ h t rfl) fun h => from_ _ h t rfl
    have named {n : String} (h : .name n ∈ items) : IsName n := by
      obtain ⟨token, ht, hk, rfl⟩ := from_ _ h
      exact ht.1 hk
    cases made with
    | void => exact .void
    | scalar => exact .scalar
    | named hne => exact .named hne (fun n hn => named (by simp [hn])) nofun
    | tupleType hne => exact .tuple hne fun t ht => typed (by simp [ht])
    | pointer => exact .pointer (typed (by simp))
    | mutPointer => exact .mutPointer (typed (by simp))
    | slice => exact .slice (typed (by simp))
    | optional => exact .optional (typed (by simp))
    | array => exact .array (typed (by simp)) nofun
    | @sized t n i =>
      refine .array (typed (by simp)) fun x hx => ?_
      obtain ⟨token, ht, hk, rfl⟩ := from_ (.length n) (by simp)
      cases hx
      exact hk.imp ht.1 ht.2
    | @applied j i ns args _ =>
      cases typed (t := .named j ns []) (by simp) with
      | named hne hnames _ => exact .named hne hnames fun t ht => typed (by simp [ht])
    | result hbase => exact .result (typed (by simp)) (typed (by simp)) hbase
  dress {x} ds _ h := by
    rintro t ht
    cases x with
    | node n => cases n <;> cases ht
    | type u =>
      cases ht
      exact (h u rfl).withDirectives ds

theorem type_writable {s u : State} (hs : ∀ t ∈ s.rest, Scanned t) (h : type s = (some t, u)) :
    Writable t := by
  have run := Gives.type (m := .plain) (n := s.rest.length) (c := false) s [] .refl (Nat.le_refl _)
  rw [h] at run
  exact run.1.all_from writable_law nofun hs (.typed t) mem_cons_self t rfl

theorem scanned_scan {file : FileId} {text : String} {s : State}
    (h : s.rest <:+ Token.kept (Lexer.scan file text)) : ∀ t ∈ s.rest, Scanned t := by
  intro t ht
  have hmem : t ∈ Lexer.scan file text := (mem_filter.mp (h.subset ht)).1
  refine ⟨Lexer.scan_isWord hmem, fun hkind => ?_⟩
  rcases Lexer.State.run_cut t hmem with heof | ⟨frames, c, cs, lex, hcut, hkind', htext⟩
  · cases hkind.symm.trans heof
  · rw [IsNumber, htext, String.toList_ofList]
    exact ⟨nofun, hcut.digits (hkind'.symm.trans hkind)⟩

end Parser

/-- A type that is read somewhere in a text is rendered as a text without faults that reads as the
same type, up to its end. -/
theorem type_rendered (file file' : FileId) (text : String) (s u : Parser.State) (t : TypeExpr)
    (hs : s.rest <:+ Token.kept (Lexer.scan file text)) (h : Parser.type s = (some t, u))
    (nodes types : Nat) :
    (∀ token ∈ Lexer.scan file' t.render, ¬ token.Faulty) ∧
    ∃ t' u', Parser.type (.start file' (Lexer.scan file' t.render) nodes types) = (some t', u') ∧
      t'.bare = t.bare ∧ u'.kind = .eof ∧ u'.rest.length = 1 := by
  have hw := Parser.type_writable (Parser.scanned_scan hs) h
  have hspells : Lexer.Spells t.render.toList [] t.words := hw.spells .none nofun
  have hread : Parser.Consumes .type t.words [(.eof, "")] fun t' => t'.bare = t.bare :=
    (Parser.writable_taken hw).1.consumes (Parser.writable_first hw) (by decide)
  obtain ⟨t', u', hrun, ht', hu'⟩ :=
    hread (.start file' (Lexer.scan file' t.render) nodes types) (hspells.scan file')
  have hkind : u'.kind = .eof := by
    rw [u'.kind_eq, hu']
    rfl
  have hlength : u'.rest.length = 1 := by
    simpa [Parser.State.words] using congrArg List.length hu'
  exact ⟨hspells.scan_clean file', t', u', hrun, ht', hkind, hlength⟩

/-- A type with generic arguments, lengths, a directive and a space that has to stay. -/
theorem type_rendered_nested :
    let text := "std :: map<@restrict u8[ n ], (a!b)*, int[4]?>mut *[..]!e x"
    let s := Parser.State.start 0 (Token.kept (Lexer.scan 0 text)) 0 0
    ∃ t u, s.rest <:+ Token.kept (Lexer.scan 0 text) ∧ Parser.type s = (some t, u) ∧
      t.render = "std::map<u8[n], (a!b)*, int[4]?> mut*[..]!e" ∧
      (∀ token ∈ Lexer.scan 1 t.render, ¬ token.Faulty) ∧
      ∃ t' u', Parser.type (.start 1 (Lexer.scan 1 t.render) 0 0) = (some t', u') ∧
        t'.bare = t.bare ∧ u'.kind = .eof ∧ u'.rest.length = 1 := by
  intro text s
  have hrender : (Parser.type s).1.map TypeExpr.render =
      some "std::map<u8[n], (a!b)*, int[4]?> mut*[..]!e" := by
    decide +kernel
  obtain ⟨t, ht, hrender⟩ := Option.map_eq_some_iff.mp hrender
  have hrun : Parser.type s = (some t, (Parser.type s).2) := by rw [← ht]
  exact ⟨t, _, suffix_rfl, hrun, hrender,
    type_rendered 0 1 text s _ t suffix_rfl hrun 0 0⟩

end Quill
