import Quill.Proofs.TreeIdentity

/-!
# Parts of what is read

What is known of the tokens of a text carries over to what is read of it.
-/
namespace Quill

open List

open Relation (ReflTransGen)

def TypeExpr.inner : TypeExpr → List TypeExpr
  | void _ | scalar _ _ => []
  | named _ _ items | tuple _ items => items
  | pointer _ t | mutPointer _ t | array _ t _ | slice _ t | optional _ t => [t]
  | result _ t failure => [t, failure]

namespace TypeExpr

/-- A type is the other one or nested in it. -/
def Within : TypeExpr → TypeExpr → Prop := ReflTransGen fun u t => u ∈ t.inner

theorem sizeOf_inner {t u : TypeExpr} (h : u ∈ t.inner) : sizeOf u < sizeOf t := by
  have := sizeOf_lt_of_mem h
  cases t <;> simp only [inner, cons.sizeOf_spec, nil.sizeOf_spec, named.sizeOf_spec, tuple.sizeOf_spec,
    pointer.sizeOf_spec, mutPointer.sizeOf_spec, array.sizeOf_spec, slice.sizeOf_spec, optional.sizeOf_spec,
    result.sizeOf_spec, not_mem_nil, mem_singleton, mem_pair] at this h ⊢ <;> grind

theorem levels_eq (t : TypeExpr) (depth : Nat) :
    t.levels depth = (depth, t) :: levelsOf (depth + 1) t.inner := by
  cases t <;> simp [levels, levelsOf, inner]

theorem mem_levelsOf {x : Nat × TypeExpr} {depth : Nat} {ts : List TypeExpr} :
    x ∈ levelsOf depth ts ↔ ∃ t ∈ ts, x ∈ t.levels depth := by
  induction ts with
  | nil => simp [levelsOf]
  | cons t ts ih => simp [levelsOf, ih]

theorem mem_levels_iff {t u : TypeExpr} {depth : Nat} :
    (∃ d, (d, u) ∈ t.levels depth) ↔ u.Within t := by
  induction hsize : sizeOf t using Nat.strongRecOn generalizing t depth with
  | ind size ih =>
    subst hsize
    rw [levels_eq, Within, ReflTransGen.cases_tail_iff]
    simp only [mem_cons, Prod.mk.injEq, mem_levelsOf]
    constructor
    · rintro ⟨d, ⟨-, rfl⟩ | ⟨v, hv, hd⟩⟩
      · exact .inl rfl
      · exact .inr ⟨v, (ih _ (sizeOf_inner hv) rfl).mp ⟨d, hd⟩, hv⟩
    · rintro (rfl | ⟨v, hwithin, hv⟩)
      · exact ⟨depth, .inl ⟨rfl, rfl⟩⟩
      · obtain ⟨d, hd⟩ := (ih _ (sizeOf_inner hv) rfl).mpr hwithin
        exact ⟨d, .inr ⟨v, hv, hd⟩⟩

theorem mem_parts_iff {t u : TypeExpr} : u ∈ t.parts ↔ u.Within t := by
  have levels : (∃ d, (d, u) ∈ t.levels 0) ↔ u.Within t := mem_levels_iff
  rw [← levels, parts]
  simp

end TypeExpr

def Node.names : Node → List String
  | decl (.package _ path) => path
  | decl (.imports _ d) => d.segments ++ d.symbols
  | decl (.typedef _ name _) => [name]
  | decl (.struct _ d) => d.name :: (d.generics ++ d.fields.map (·.name))
  | decl (.header _ sig) | decl (.function _ sig _) => sig.name :: sig.params.map (·.name)
  | decl (.var _ d) | stmt (.var _ d) => [d.name]
  | stmt (.foreach _ binding _ _) => [binding]
  | expr (.ref _ path) => path
  | expr (.field _ _ name _) => [name]
  | expr (.structInit _ fields) => fields.map (·.name)
  | _ => []

namespace Part

/-- The parts directly inside a part. The kept operand of a `sizeof` stands for the same tokens as
its type and is none of them. -/
def children : Part → List Part
  | node n => n.types.map type ++ n.children.map node
  | type t => t.inner.map type

def operand? : Part → Option Expr
  | node n => n.operand?
  | type _ => none

def names : Part → List String
  | node n => n.names
  | type (.named _ path _) => path
  | type _ => []

theorem withDirectives_frame (ds : List Directive) (x : Part) : (x.withDirectives ds).span = x.span ∧
    (x.withDirectives ds).children = x.children ∧ (x.withDirectives ds).operand? = x.operand? ∧
      (x.withDirectives ds).names = x.names := by
  cases x with
  | node n =>
    cases n with
    | expr e => cases e <;> exact ⟨rfl, rfl, rfl, rfl⟩
    | stmt s => cases s <;> exact ⟨rfl, rfl, rfl, rfl⟩
    | decl d => cases d <;> exact ⟨rfl, rfl, rfl, rfl⟩
    | _ => exact ⟨rfl, rfl, rfl, rfl⟩
  | type t => cases t <;> exact ⟨rfl, rfl, rfl, rfl⟩

end Part

theorem Made.composed {items : List Item} {x : Part} (h : Made items x) :
    (∀ c ∈ x.children, .part c ∈ items ∨ .loose c ∈ items) ∧
      (∀ e, x.operand? = some e → .operand e ∈ items) ∧
        ∀ name ∈ x.names, .name name ∈ items ∨ ∃ y, .loose y ∈ items ∧ name ∈ y.names := by
  cases h
  all_goals simp [Part.children, Part.operand?, Part.names, Node.types, Node.children, Node.operand?, Node.names,
    TypeExpr.inner]
  case template ps i =>
    rintro c e p hp he rfl
    refine .inl ⟨p, hp, ?_⟩
    cases p with
    | text => cases he
    | expr e' => simpa [Item.ofTemplate, TemplatePart.exprs] using he
  all_goals grind

/-- The directive is what such a token says. -/
def Directive.From (W : Token → Prop) (d : Directive) : Prop :=
  ∃ t, W t ∧ t.kind = .directive ∧ DirectiveKind.ofName? t.text = some d.kind ∧
    t.span.Within d.span

/-- What is in hand comes from such tokens and such parts. -/
def Item.From (W : Token → Prop) (P : Part → Prop) : Item → Prop
  | word t => W t
  | sign t => W t ∧ t.kind = .directive
  | directive d => d.From W
  | node _ _ i | type _ _ i => i.directives = []
  | name x => ∃ t, W t ∧ t.kind = .identifier ∧ t.text = x
  | length x => ∃ t, W t ∧ (t.kind = .identifier ∨ t.kind = .intLiteral) ∧ t.text = x
  | text x => ∃ t, W t ∧ t.isTemplate = true ∧ t.inner = x
  | loose x | part x => P x
  | operand e => P (.expr e)
  | file f => ∀ d ∈ f.decls, P (.decl d)
  | _ => True

/-- What is made of such tokens and parts is such a part. -/
structure PartLaw (W : Token → Prop) (P : Part → Prop) : Prop where
  made {items : List Item} {x : Part} : Made items x → (∀ y ∈ items, y.From W P) → P x
  dress {x : Part} (ds : List Directive) : (∀ d ∈ ds, d.From W) → P x → P (x.withDirectives ds)

namespace Parser

theorem State.peek_mem {s : State} (hk : s.kind ≠ .eof) : s.peek ∈ s.rest := by
  rw [(State.advance_eq hk).1]
  exact mem_cons_self

theorem Steps.all_from {W : Token → Prop} {P : Part → Prop} (law : PartLaw W P) {m : Mode} {s u : State}
    {st : List Item} (h : Steps m s st u) (hm : m ≠ .apart) (hs : ∀ t ∈ s.rest, W t) :
    ∀ y ∈ st, y.From W P := by
  have peek {m : Mode} {s u : State} {st : List Item} {k : TokenKind} (h : Steps m s st u)
      (hs : ∀ t ∈ s.rest, W t) (hk : u.kind = k) (hne : k ≠ .eof) : W u.peek :=
    hs _ (h.moves.suffix.subset (State.peek_mem (hk ▸ hne)))
  have push {st : List Item} {x : Item} (h : ∀ y ∈ st, y.From W P) (hx : x.From W P) :
      ∀ y ∈ st ++ [x], y.From W P :=
    forall_mem_append.mpr ⟨h, forall_mem_singleton.mpr hx⟩
  have pop {st items : List Item} (h : ∀ y ∈ st ++ items, y.From W P) :=
    forall_mem_append.mp h
  induction h with
  | refl => exact forall_mem_nil _
  | pass _ _ ih | body _ _ _ ih | tried _ _ _ _ _ ih | mend _ _ _ _ ih | unmute _ ih => exact ih hm hs
  | start _ ih => exact push (ih hm hs) trivial
  | node _ _ _ ih | type _ _ _ ih => exact push (ih hm hs) rfl
  | word h hk _ ih => exact push (ih hm hs) (peek h hs rfl hk)
  | sign h hk ih => exact push (ih hm hs) ⟨peek h hs hk (by simp), hk⟩
  | name h hk ih => exact push (ih hm hs) ⟨_, peek h hs hk (by simp), hk, rfl⟩
  | length h hk ih =>
    refine push (ih hm hs) ⟨_, ?_, hk, rfl⟩
    rcases hk with hk | hk <;> exact peek h hs hk (by simp)
  | @text _ _ u _ t h ht hmem ih =>
    refine push (ih hm hs) ⟨t, ?_, ht hm, rfl⟩
    rcases hmem with rfl | hmem
    · refine peek h hs rfl fun heof => ?_
      have := ht hm
      rw [Token.isTemplate, show u.peek.kind = .eof from heof] at this
      cases this
    · exact ih hm hs _ hmem
  | @directive _ _ _ _ t _ _ _ hkind ih =>
    obtain ⟨before, last⟩ := pop (ih hm hs)
    obtain ⟨hw, ht⟩ := last (.sign t) mem_cons_self
    refine push before ⟨t, hw, ht, hkind, ?_⟩
    unfold State.upTo
    split
    · exact ⟨Nat.le_refl _, Nat.le_refl _⟩
    · exact Span.within_join_left _ _
  | make _ made ih => exact push (pop (ih hm hs)).1 (law.made made (pop (ih hm hs)).2)
  | @inner _ _ _ _ _ x _ _ ih =>
    exact push (pop (pop (ih hm hs)).1).1 ((pop (ih hm hs)).2 (.part x) mem_cons_self)
  | @settle _ _ _ _ x _ ih => exact push (pop (ih hm hs)).1 ((pop (ih hm hs)).2 (.loose x) mem_cons_self)
  | @dress _ _ _ _ ds x _ ih =>
    obtain ⟨before, last⟩ := pop (ih hm hs)
    obtain ⟨before, hds⟩ := pop before
    exact push before (law.dress ds (fun d hd => hds _ (mem_map_of_mem hd)) (last (.loose x) mem_cons_self))
  | file next _ hf ih =>
    cases hf
    obtain ⟨before, last⟩ := pop (ih hm hs)
    exact forall_mem_append.mpr ⟨push (pop before).1 fun d hd => (pop before).2 _ (mem_map_of_mem hd), last⟩
  | @operand _ _ _ _ _ _ _ _ x _ h _ _ ih _ _ again =>
    exact push (ih hm hs) (again (by simp) (fun t ht => hs t (h.moves.suffix.subset ht)) (.expr x) mem_cons_self)
  | given => exact absurd rfl hm

end Parser

theorem mem_parseTexts {texts : List (FileId × String)} {ids : Identities} {f : File}
    (hf : f ∈ (parseTexts texts ids).1) : ∃ r ∈ texts, ∃ ids', f ∈ (parseText r.1 r.2 ids').1 := by
  induction texts generalizing ids with
  | nil => cases hf
  | cons text more ih =>
    rw [parseTexts] at hf
    have first (f : File) (hf : f ∈ (parseText text.1 text.2 ids).1) :
        ∃ r ∈ text :: more, ∃ ids', f ∈ (parseText r.1 r.2 ids').1 := ⟨text, mem_cons_self, ids, hf⟩
    generalize parseText text.1 text.2 ids = parsed at hf first
    rcases mem_append.mp hf with hf | hf
    · exact first f hf
    · obtain ⟨r, hr, found⟩ := ih hf
      exact ⟨r, mem_cons_of_mem _ hr, found⟩

theorem parseTokens_steps (file : FileId) (tokens : List Token) (ids : Identities) :
    ∃ u, Parser.Steps .mending (.start file tokens ids.nodes ids.types)
      ((parseTokens file tokens ids).1.map .file) u := by
  obtain ⟨fs, u, hrun, -, steps, -⟩ := Parser.Steps.files (.start file tokens ids.nodes ids.types)
  rw [parseTokens, hrun]
  exact ⟨_, steps⟩

theorem parseText_steps (file : FileId) (text : String) (ids : Identities) :
    ∃ u, Parser.Steps .mending (.start file (Token.kept (Lexer.scan file text)) ids.nodes ids.types)
      ((parseText file text ids).1.map .file) u := by
  unfold parseText
  generalize Lexer.scan file text = tokens
  exact parseTokens_steps file (Token.kept tokens) ids

theorem parse_all_from {W : Token → Prop} {P : Part → Prop} (law : PartLaw W P) {texts : List (FileId × String)}
    (h : ∀ r ∈ texts, ∀ t ∈ Token.kept (Lexer.scan r.1 r.2), W t) :
    ∀ f ∈ (parse texts).program.files, ∀ d ∈ f.decls, P (.decl d) := by
  intro f hf
  obtain ⟨r, hr, ids, hf⟩ := mem_parseTexts hf
  obtain ⟨u, steps⟩ := parseText_steps r.1 r.2 ids
  exact steps.all_from law (by simp) (h r hr) (.file f) (mem_map_of_mem hf)

end Quill
