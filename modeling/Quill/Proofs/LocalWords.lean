import Quill.Proofs.JoinedNames
import Quill.Proofs.Layout
import Quill.Proofs.TextPlaces

/-!
# Names of locals

All names in a program are words of its texts. What is lowered of a function declares its
parameters, variables and bindings and names that are made up, however often a statement is written
out.
-/
namespace Quill

open List Laid Stmt Postponed Mark Lay Expr

variable {name : String}

theorem parse_isWord (texts : List (FileId × String)) : ∀ f ∈ (parse texts).program.files,
    ∀ n ∈ (Node.file f).all, ∀ name ∈ n.names, IsWord name := by
  suffices h : ∀ ids, ∀ f ∈ (parseTexts texts ids).1, ∀ n ∈ (Node.file f).all, ∀ name ∈ n.names,
      IsWord name from h {}
  induction texts with
  | nil => exact nofun
  | cons text texts ih =>
    intro ids f hf
    have first := (parseText_lies text.1 text.2 ids).1
    unfold parseTexts at hf
    generalize parseText text.1 text.2 ids = r at first hf
    rcases mem_append.mp hf with hf | hf
    · exact fun n hn name hname => ((first f hf).of_mem_all hn).name hname
    · exact ih _ f hf

mutual

def Stmt.locals : Stmt → List String
  | .block _ body => allLocals body
  | .var _ decl => [decl.name]
  | .cond _ _ onTrue onFalse => onTrue.locals ++ elseLocals onFalse
  | .loop _ _ body | .defer _ body => body.locals
  | .foreach _ binding _ body => binding :: body.locals
  | .ret _ _ | .crash _ _ | .expr _ _ | .assign _ _ _ _ | .switch _ _ => []

def Stmt.allLocals : List Stmt → List String
  | [] => []
  | s :: ss => s.locals ++ allLocals ss

def Stmt.elseLocals : Option Stmt → List String
  | none => []
  | some s => s.locals

end

def Decl.locals : Decl → List String
  | .header _ sig => sig.params.map (·.name)
  | .function _ sig body => sig.params.map (·.name) ++ allLocals body.body
  | _ => []

namespace Node

/-- The name stands at the node or somewhere inside it. -/
def Mentions (n : Node) (name : String) : Prop := ∃ m ∈ n.all, name ∈ m.names

theorem Mentions.self {n : Node} (h : name ∈ n.names) : n.Mentions name :=
  ⟨n, mem_all_iff.mpr .refl, h⟩

theorem Mentions.part {m n : Node} (h : m.Mentions name) (hm : m ∈ n.children) :
    n.Mentions name := by
  obtain ⟨u, hu, hname⟩ := h
  exact ⟨u, mem_all_iff.mpr ((mem_all_iff.mp hu).tail (mem_append_left _ hm)), hname⟩

end Node

mutual

theorem Stmt.mentions_of_mem_locals {s : Stmt} (h : name ∈ s.locals) :
    (Node.stmt s).Mentions name := by
  match s with
  | .block _ body =>
    obtain ⟨t, ht, found⟩ := mentions_of_mem_allLocals h
    exact found.part (mem_map_of_mem ht)
  | .var _ decl => exact .self h
  | .cond _ test onTrue onFalse =>
    rcases mem_append.mp h with h | h
    · exact (mentions_of_mem_locals h).part (mem_cons_of_mem _ mem_cons_self)
    · match onFalse with
      | none => cases h
      | some s =>
        exact (mentions_of_mem_locals (s := s) h).part
          (mem_cons_of_mem _ (mem_cons_of_mem _ mem_cons_self))
  | .loop _ test body =>
    exact (mentions_of_mem_locals (s := body) h).part (mem_cons_of_mem _ mem_cons_self)
  | .defer _ body => exact (mentions_of_mem_locals (s := body) h).part mem_cons_self
  | .foreach _ binding iterable body =>
    rcases mem_cons.mp h with rfl | h
    · exact .self mem_cons_self
    · exact (mentions_of_mem_locals h).part (mem_cons_of_mem _ mem_cons_self)
  | .ret _ _ | .crash _ _ | .expr _ _ | .assign _ _ _ _ | .switch _ _ => cases h

theorem Stmt.mentions_of_mem_allLocals {ss : List Stmt} (h : name ∈ allLocals ss) :
    ∃ s ∈ ss, (Node.stmt s).Mentions name := by
  match ss with
  | [] => cases h
  | s :: ss =>
    rcases mem_append.mp h with h | h
    · exact ⟨s, mem_cons_self, mentions_of_mem_locals h⟩
    · obtain ⟨t, ht, found⟩ := mentions_of_mem_allLocals h
      exact ⟨t, mem_cons_of_mem s ht, found⟩

end

theorem Decl.mentions_of_mem_locals {d : Decl} (h : name ∈ d.locals) :
    (Node.decl d).Mentions name := by
  cases d with
  | header info sig => exact .self (mem_cons_of_mem _ h)
  | function info sig body =>
    rcases mem_append.mp h with h | h
    · exact .self (mem_cons_of_mem _ h)
    · obtain ⟨s, hs, found⟩ := mentions_of_mem_allLocals h
      exact (found.part (n := .stmt body.toStmt) (mem_map_of_mem hs)).part mem_cons_self
  | _ => cases h

namespace Mark

variable {α : Type}

def declared? : Mark α → Option String
  | declares name _ => some name
  | _ => none

/-- All names that the marks declare are of this kind. -/
def Declare (P : String → Prop) (ms : List (Mark α)) : Prop :=
  ∀ m ∈ ms, ∀ name ∈ m.declared?, P name

namespace Declare

variable {P : String → Prop} {ms ns : List (Mark α)}

theorem nil : Declare P ([] : List (Mark α)) := nofun

theorem cons (label : α) (hname : P name) (h : Declare P ms) :
    Declare P (declares name label :: ms) :=
  forall_mem_cons.mpr ⟨fun _ hn => Option.some.inj hn ▸ hname, h⟩

theorem uses (name : String) (label : α) (h : Declare P ms) :
    Declare P (.uses name label :: ms) :=
  forall_mem_cons.mpr ⟨nofun, h⟩

theorem append (h : Declare P ms) (h' : Declare P ns) : Declare P (ms ++ ns) :=
  forall_mem_append.mpr ⟨h, h'⟩

theorem inScope (h : Declare P ms) : Declare P (inScope ms) :=
  forall_mem_cons.mpr ⟨nofun, h.append (forall_mem_singleton.mpr nofun)⟩

theorem bare (h : Declare P ms) : Declare P (ms.map .bare) := by
  refine forall_mem_map.mpr fun m hm name hname => h m hm name ?_
  cases m <;> exact hname

end Declare
end Mark

section Layout

variable {cx : Checked} {env : Env} {P : String → Prop}

theorem Checked.referenceMarks_declare (info : Info) (path : List String) :
    Declare P (cx.referenceMarks env info path) := by
  unfold Checked.referenceMarks
  split
  · exact .uses _ _ .nil
  · exact .uses _ _ .nil
  · exact .uses _ _ .nil
  · exact .uses _ _ .nil
  · exact .nil

mutual

theorem Expr.marks_declare : (e : Expr) → Declare P (e.marks cx env)
  | .ref info path => Checked.referenceMarks_declare info path
  | .binary _ _ l r | .index _ l r => l.marks_declare.append r.marks_declare
  | .unary _ _ e | .step _ _ e | .field _ e _ _ | .sizeofExpr _ e | .cast _ _ e => e.marks_declare
  | .call _ callee arguments => callee.marks_declare.append (allMarks_declare arguments)
  | .structInit _ fields => fieldMarks_declare fields
  | .sizeofType info _ (some e) => by
    rw [marks]
    split
    · exact .nil
    · exact e.marks_declare
  | .literal _ _ | .arrayInit _ _ _ | .sizeofType _ _ none | .range _ _ _ _ | .tuple _ _
  | .template _ _ => .nil

theorem Expr.allMarks_declare : (es : List Expr) → Declare P (allMarks cx env es)
  | [] => .nil
  | e :: es => e.marks_declare.append (allMarks_declare es)

theorem Expr.fieldMarks_declare :
    (fs : List (FieldInit Expr)) → Declare P (fieldMarks cx env fs)
  | [] => .nil
  | ⟨_, _, e⟩ :: fs => e.marks_declare.append (fieldMarks_declare fs)

end

theorem Expr.elementMarks_declare :
    (es : List (ArrayElement Expr)) → Declare P (elementMarks cx env es)
  | [] => .nil
  | ⟨none, e⟩ :: es => e.marks_declare.append (elementMarks_declare es)
  | ⟨some i, e⟩ :: es =>
    (i.marks_declare.append e.marks_declare).append (elementMarks_declare es)

theorem Expr.initialMarks?_declare (init : Option Expr) :
    Declare P (initialMarks? cx env init) := by
  match init with
  | none => exact .nil
  | some (.arrayInit _ _ items) => exact elementMarks_declare items
  | some (.literal _ _) | some (.ref _ _) | some (.binary _ _ _ _) | some (.unary _ _ _)
  | some (.step _ _ _) | some (.call _ _ _) | some (.field _ _ _ _) | some (.index _ _ _)
  | some (.sizeofType _ _ _) | some (.sizeofExpr _ _) | some (.cast _ _ _) | some (.tuple _ _)
  | some (.structInit _ _) | some (.range _ _ _ _) | some (.template _ _) =>
    exact marks_declare _

theorem Expr.partMarks_declare (ps : List (TemplatePart Expr)) :
    Declare P (partMarks cx env ps) := by
  induction ps with
  | nil => exact .nil
  | cons p ps ih =>
    cases p with
    | text t => exact ih
    | expr e => exact e.marks_declare.append ih

def Laid.Declare (P : String → Prop) (ls : List Laid) : Prop := ∀ l ∈ ls, Mark.Declare P l.marks

namespace Laid.Declare

variable {ls rs : List Laid}

theorem nil : Declare P [] := nofun

theorem single {l : Laid} (h : Mark.Declare P l.marks) : Declare P [l] :=
  forall_mem_singleton.mpr h

theorem append (h : Declare P ls) (h' : Declare P rs) : Declare P (ls ++ rs) :=
  forall_mem_append.mpr ⟨h, h'⟩

theorem all (h : Declare P ls) : Mark.Declare P (all ls) := by
  intro m hm
  obtain ⟨l, hl, hm⟩ := mem_flatMap.mp hm
  unfold full at hm
  split at hm
  · exact (h l hl).inScope m hm
  · exact h l hl m hm

theorem unbraced (h : Declare P ls) (s : Stmt) : Mark.Declare P (unbraced s ls) := by
  unfold Laid.unbraced
  split
  · exact h _ mem_cons_self
  · exact h.all

end Laid.Declare

/-- The C name of a local of this kind, or a name that is made up. -/
inductive Declarable (S : String → Prop) : String → Prop
  | named {x : String} (h : S x) : Declarable S (cIdent x)
  | madeUp {purpose : String} (h : purpose ∈ ["ret", "buf", "end", "i"]) (n : Nat) :
    Declarable S (fresh purpose n).1

/-- Deferred statements have locals of this kind only. -/
def Postponed.Locals (S : String → Prop) (ps : List Postponed) : Prop :=
  ∀ p ∈ ps, ∀ x ∈ p.body.locals, S x

theorem Postponed.Locals.nil {S : String → Prop} : Locals S [] := forall_mem_nil _

variable {S : String → Prop} {run : Postponed → Lay (List Laid)} {pending : List Postponed}

theorem Lay.inTurn_declare
    (hrun : ∀ p : Postponed, (∀ x ∈ p.body.locals, S x) →
      ∀ n, Declare (Declarable S) (run p n).1) {ps : List Postponed}
    (h : Locals S ps) (n : Nat) :
    Declare (Declarable S) (inTurn run ps n).1 := by
  induction ps generalizing n with
  | nil => exact .nil
  | cons p ps ih =>
    exact (hrun p (h p mem_cons_self) n).append
      (ih (fun q hq => h q (mem_cons_of_mem p hq)) _)

theorem Lay.inBlock_declare
    (hrun : ∀ p : Postponed, (∀ x ∈ p.body.locals, S x) →
      ∀ n, Declare (Declarable S) (run p n).1) {own : List Postponed}
    (hown : Locals S own) (body : List Stmt) {statements : Lay (List Laid)}
    (h : ∀ n, Declare (Declarable S) (statements n).1) (n : Nat) :
    Declare (Declarable S) (inBlock run own body statements n).1 := by
  unfold inBlock
  show Declare _ ((ite _ _ _ : Lay Marks) _).1
  split
  · exact (h n).all
  · exact ((h n).append (inTurn_declare hrun hown _)).all

theorem Lay.returned_declare
    (hrun : ∀ p : Postponed, (∀ x ∈ p.body.locals, S x) →
      ∀ n, Declare (Declarable S) (run p n).1)
    (hpending : Locals S pending) (value : Option Expr) (n : Nat) :
    Declare (Declarable S) (returned cx run pending env value n).1 := by
  cases value with
  | none =>
    show Declare _ ((ite _ _ _ : Lay (List Laid)) _).1
    split
    · exact .single .nil
    · exact .single (inTurn_declare hrun hpending n).all
  | some e =>
    show Declare _ ((ite _ _ _ : Lay (List Laid)) _).1
    split
    · exact .single e.marks_declare
    · exact .single (((e.marks_declare.cons none (.madeUp (by decide) n)).append
        (inTurn_declare hrun hpending _).all).append (.uses _ _ .nil))

theorem Lay.crashMessage_declare (e : Expr) (n : Nat) :
    Declare (Declarable S) (crashMessage cx env e n).1 := by
  have printed {arguments : Marks} (h : Mark.Declare (Declarable S) arguments) :
      Declare (Declarable S) [printError arguments] := .single (.uses _ _ (.uses _ _ h))
  unfold crashMessage
  split
  · rename_i parts
    show Declare _ ((ite _ _ _ : Lay (List Laid)) _).1
    split
    · refine .single (.cons _ (.madeUp (by decide) n) (.uses _ _ (.uses _ _ (.uses _ _ ?_))))
      exact (partMarks_declare parts).append (.uses _ _ (.uses _ _ (.uses _ _ .nil)))
    · exact printed (partMarks_declare parts)
  · exact printed .nil
  · exact printed .nil
  · exact printed (marks_declare _)

theorem Lay.crash_declare (message : Option Expr) (n : Nat) :
    Declare (Declarable S) (crash cx env message n).1 := by
  have aborts : Declare (Declarable S) [{ marks := [.uses "abort" none] }] :=
    .single (.uses _ _ .nil)
  cases message with
  | none => exact aborts
  | some e => exact (crashMessage_declare e n).append aborts

theorem Lay.countRange_declare {x : String} (hx : S x) (o : Origin) (low high : Expr)
    {body : Lay Marks} (h : ∀ n, Declare (Declarable S) (body n).1) (n : Nat) :
    Declare (Declarable S) (countRange cx env o x low high body n).1 := by
  have counted : Declare (Declarable S) (.declares (cIdent x) (some o) :: low.marks cx env) :=
    low.marks_declare.cons (some o) (.named hx)
  have bounded : Declare (Declarable S)
      (.declares (fresh "end" n).1 none :: high.marks cx env) :=
    high.marks_declare.cons none (.madeUp (by decide) n)
  exact .single (bounded.append
    ((counted.append (.uses _ _ (.uses _ _ (.uses _ _ .nil)))).append (h _).inScope).inScope)

theorem Lay.countElements_declare {x : String} (hx : S x) (o : Origin) (iterable : Expr)
    {body : Lay Marks} (h : ∀ n, Declare (Declarable S) (body n).1) (n : Nat) :
    Declare (Declarable S) (countElements cx env o x iterable body n).1 := by
  unfold countElements
  rcases cx.resolution.typeOf? iterable.id with _ | t
  · exact .nil
  cases t with
  | array element length =>
    cases length with
    | none => exact .nil
    | some count =>
      have position : Declare (Declarable S) ([.declares (fresh "i" n).1 none,
          .uses (fresh "i" n).1 none, .uses (fresh "i" n).1 none] : Marks) :=
        .cons none (.madeUp (by decide) n) (.uses _ _ (.uses _ _ .nil))
      have item : Declare (Declarable S)
          (.declares (cIdent x) (some o) :: iterable.marks cx env) :=
        iterable.marks_declare.cons (some o) (.named hx)
      exact .single (position.append
        ((item.append (.uses _ _ .nil)).append (h _)).inScope).inScope
  | _ => exact .nil

theorem Stmt.postponed_locals {s : Stmt} (h : ∀ x ∈ s.locals, S x) (env : Env) :
    Locals S (s.postponed env) := by
  cases s with
  | defer info body => exact forall_mem_singleton.mpr h
  | _ => exact nofun

theorem Stmt.postponedBy_locals {own : List Postponed} (hown : Locals S own) (env : Env)
    {ss : List Stmt} (h : ∀ x ∈ allLocals ss, S x) :
    Locals S (postponedBy env own ss) := by
  induction ss generalizing own env with
  | nil => exact hown
  | cons s ss ih =>
    obtain ⟨hs, hss⟩ := forall_mem_append.mp h
    exact ih (forall_mem_append.mpr ⟨s.postponed_locals hs env, hown⟩) _ hss

mutual

theorem Stmt.lay_declare
    (hrun : ∀ p : Postponed, (∀ x ∈ p.body.locals, S x) →
      ∀ n, Declare (Declarable S) (run p n).1) {pending : List Postponed}
    (hpending : Locals S pending) (env : Env) (s : Stmt) (h : ∀ x ∈ s.locals, S x)
    (n : Nat) : Declare (Declarable S) (s.lay cx run pending env n).1 := by
  match s with
  | .block _ body =>
    exact .single (inBlock_declare hrun (postponedBy_locals .nil env h) body
      (layAll_declare hrun hpending .nil env body h) n)
  | .var _ decl =>
    exact .single ((initialMarks?_declare decl.init).cons _ (.named (h _ mem_cons_self)))
  | .cond _ test onTrue onFalse =>
    obtain ⟨htrue, hfalse⟩ := forall_mem_append.mp h
    exact .single ((test.marks_declare.append
      ((onTrue.lay_declare hrun hpending env htrue n).unbraced onTrue).inScope).append
        (layElse_declare hrun hpending _ onFalse hfalse _))
  | .loop _ test body =>
    exact .single (test.marks_declare.append
      ((body.lay_declare hrun hpending env h n).unbraced body).inScope)
  | .foreach info binding iterable body =>
    obtain ⟨hx, hbody⟩ := forall_mem_cons.mp h
    have inner (n : Nat) := (body.lay_declare hrun hpending ((binding, .node info.id) :: env) hbody
      n).unbraced body
    cases iterable with
    | range i low high inclusive => exact countRange_declare hx _ low high inner n
    | _ =>
      rw [lay_foreach cx run pending env info binding body (by simp)]
      exact countElements_declare hx _ _ inner n
  | .ret _ value => exact returned_declare hrun hpending value n
  | .crash _ message => exact crash_declare message n
  | .expr _ e => exact .single e.marks_declare
  | .assign _ _ target value => exact .single (target.marks_declare.append value.marks_declare)
  | .defer _ _ | .switch _ _ => exact .nil

theorem Stmt.layAll_declare
    (hrun : ∀ p : Postponed, (∀ x ∈ p.body.locals, S x) →
      ∀ n, Declare (Declarable S) (run p n).1) {pending own : List Postponed}
    (hpending : Locals S pending) (hown : Locals S own) (env : Env)
    (ss : List Stmt) (h : ∀ x ∈ allLocals ss, S x) (n : Nat) :
    Declare (Declarable S) (layAll cx run pending own env ss n).1 := by
  match ss with
  | [] => exact .nil
  | s :: ss =>
    obtain ⟨hs, hss⟩ := forall_mem_append.mp h
    have all : Locals S (own ++ pending) := forall_mem_append.mpr ⟨hown, hpending⟩
    have own' : Locals S (s.postponed env ++ own) :=
      forall_mem_append.mpr ⟨s.postponed_locals hs env, hown⟩
    exact (s.lay_declare hrun all env hs n).append
      (layAll_declare hrun hpending own' (s.binds ++ env) ss hss _)

theorem Stmt.layElse_declare
    (hrun : ∀ p : Postponed, (∀ x ∈ p.body.locals, S x) →
      ∀ n, Declare (Declarable S) (run p n).1) {pending : List Postponed}
    (hpending : Locals S pending) (env : Env) (s : Option Stmt)
    (h : ∀ x ∈ elseLocals s, S x) (n : Nat) :
    Declare (Declarable S) (layElse cx run pending env s n).1 := by
  match s with
  | none => exact .nil
  | some s => exact ((s.lay_declare hrun hpending env h n).unbraced s).inScope

end

theorem Param.marks_declare {ps : List Param} (h : ∀ x ∈ ps.map (·.name), S x) (index : Nat) :
    Declare (Declarable S) (Param.marks index ps) := by
  induction ps generalizing index with
  | nil => exact .nil
  | cons p ps ih =>
    obtain ⟨hp, hps⟩ := forall_mem_cons.mp h
    exact (ih hps _).cons _ (.named hp)

theorem functionMarks_declare (params : List Param) (body : List Stmt)
    (h : ∀ x ∈ params.map (·.name) ++ allLocals body, S x) :
    Declare (Declarable S) (functionMarks cx params body) := by
  obtain ⟨hparams, hbody⟩ := forall_mem_append.mp h
  have hrun (p : Postponed) (hp : ∀ x ∈ p.body.locals, S x) (n : Nat) :
      Declare (Declarable S) (p.lay cx n).1 :=
    p.body.lay_declare (fun _ _ _ => .nil) .nil p.env hp n
  exact ((Param.marks_declare hparams 0).append (inBlock_declare hrun
    (postponedBy_locals .nil _ hbody) body
      (layAll_declare hrun .nil .nil _ body hbody) 0)).inScope

end Layout

/-- A word that C can read as a name, or that it is known to reserve. -/
structure Speakable (name : String) : Prop where
  starts : ∀ c ∈ name.toList.head?, Lexer.isDigit c = false
  known : name ∈ cKeywords → name ∈ cReserved

instance (name : String) : Decidable (Speakable name) :=
  decidable_of_iff (name.toList.head?.any Lexer.isDigit = false ∧
      (name ∈ cKeywords → name ∈ cReserved))
    ⟨fun h => ⟨(Option.any_eq_false _ _).mp h.1, h.2⟩,
      fun h => ⟨(Option.any_eq_false _ _).mpr h.starts, h.known⟩⟩

theorem IsWord.exists_start (word : IsWord name)
    (h : ∀ c ∈ name.toList.head?, Lexer.isDigit c = false) :
    ∃ c ∈ name.toList.head?, Lexer.isWordStart c := by
  obtain ⟨c, hc, -⟩ := word.starts
  obtain ⟨d, ds, hname⟩ := exists_cons_of_ne_nil (ne_nil_of_mem hc)
  have first : name.toList.head? = some d := by rw [hname]; rfl
  have part := word.chars d (mem_of_mem_head? first)
  exact ⟨d, first, by simpa [Lexer.isWordPart, h d first] using part⟩

theorem IsWord.isIdentifier (word : IsWord name) (h : Speakable name) :
    IsIdentifier (cIdent name) :=
  .cIdent word.chars (word.exists_start h.starts) h.known

theorem Declarable.isIdentifier {S : String → Prop} (h : Declarable S name)
    (hS : ∀ x, S x → IsIdentifier (cIdent x)) : IsIdentifier name := by
  cases h with
  | named h => exact hS _ h
  | @madeUp purpose h n =>
    have text : (fresh purpose n).1.toList =
        '_' :: '_' :: ('q' :: 'l' :: '_' :: purpose.toList ++ '_' :: (toString n).toList) := by
      simp [fresh]
    have plain : ∀ purpose ∈ ["ret", "buf", "end", "i"],
        purpose.toList.all Lexer.isWordPart = true := by decide
    refine ⟨?_, ⟨'_', by rw [text]; rfl, by decide⟩, fun hmem => ?_⟩
    · rw [text]
      intro c hc
      simp only [mem_cons, mem_append] at hc
      rcases hc with rfl | rfl | (rfl | rfl | rfl | hc) | rfl | hc
      case inr.inr.inl.inr.inr.inr => exact all_eq_true.mp (plain purpose h) c hc
      case inr.inr.inr.inr => simp [Lexer.isWordPart, isDigit_of_mem_toString hc]
      all_goals rfl
    · have free := underscored_of_mem_cKeywords hmem
      rw [text] at free
      cases free

end Quill
