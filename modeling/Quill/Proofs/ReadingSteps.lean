import Quill.Parser.Decl
import Quill.Tree.Outline

/-!
# Steps of reading

A reader passes over tokens, takes up items and puts items together to parts; where it fails it has
told of one problem. Everything that holds of what is read is shown for one step, and so for all.
-/
namespace Quill

inductive Part where
  | node (n : Node)
  | type (t : TypeExpr)

namespace Part

abbrev expr (e : Expr) : Part := node (.expr e)

abbrev stmt (s : Stmt) : Part := node (.stmt s)

abbrev decl (d : Decl) : Part := node (.decl d)

def info : Part → Info
  | node n => n.info
  | type t => t.info

def span (x : Part) : Span := x.info.span

def withDirectives (ds : List Directive) : Part → Part
  | node (.expr e) => expr (e.withDirectives ds)
  | node (.stmt s) => stmt (s.withDirectives ds)
  | node (.decl d) => decl (d.withDirectives ds)
  | node n => node n
  | type t => type (t.withDirectives ds)

end Part

/-- Whether a type is one without constructors after it. -/
def TypeExpr.isBase : TypeExpr → Bool
  | void _ | scalar _ _ | named _ _ [] | tuple _ _ => true
  | _ => false

/-- Whether a statement is a block or another conditional. -/
def Stmt.isBranch : Stmt → Bool
  | block _ _ | cond _ _ _ _ => true
  | _ => false

def Token.isTemplate (t : Token) : Bool :=
  match t.kind with
  | .templateFull | .templateStart | .templateMiddle | .templateEnd => true
  | _ => false

inductive Item where
  /-- The place of the token that came next. -/
  | start (span : Span)
  | word (t : Token)
  | name (text : String)
  | length (text : String)
  | text (text : String)
  /-- A part in front of which directives may still stand. -/
  | loose (x : Part)
  | part (x : Part)
  /-- What a type was read as once more. -/
  | operand (e : Expr)
  | sign (t : Token)
  | directive (d : Directive)
  /-- The identity of a node that reaches from a place up to the token read last, or no further. -/
  | node (whole : Bool) (start : Span) (info : Info)
  | type (whole : Bool) (start : Span) (info : Info)
  | file (f : File)

namespace Item

abbrev typed (t : TypeExpr) : Item := part (.type t)

abbrev expr (e : Expr) : Item := part (.expr e)

abbrev stmt (s : Stmt) : Item := part (.stmt s)

abbrev decl (d : Decl) : Item := part (.decl d)

/-- A type so far, behind which constructors may stand. -/
abbrev base (t : TypeExpr) : Item := loose (.type t)

abbrev bare (e : Expr) : Item := loose (.expr e)

def ofTemplate : TemplatePart Expr → List Item
  | .text x => [text x]
  | .expr e => [expr e]

abbrev ofType (name : String) (t : TypeExpr) : List Item := [typed t, .name name]

abbrev ofParams (ps : List Param) : List Item := ps.flatMap fun p => ofType p.name p.type

abbrev ofVar (start : Span) (d : VarDecl) (i : Info) : List Item :=
  [.start start] ++ d.type.toList.map typed ++ [.name d.name] ++ d.init.toList.map expr ++
    [node true start i]

abbrev ofHead (start : Span) (sig : Signature) : List Item :=
  [.start start] ++ [typed sig.result] ++ [.name sig.name] ++ ofParams sig.params

end Item

open Item in
inductive Made : List Item → Part → Prop where
  | void {t i} : Made [word t, type false t.span i] (.type (.void i))
  | scalar {t i s} : Made [word t, type false t.span i] (.type (.scalar i s))
  | named {a ns i} : ns ≠ [] →
      Made ([start a] ++ ns.map name ++ [type true a i]) (.type (.named i ns []))
  | tupleType {t ts i} : ts ≠ [] →
      Made ([word t] ++ ts.map typed ++ [type true t.span i]) (.type (.tuple i ts))
  | pointer {t i} : Made [base t, type true t.span i] (.type (.pointer i t))
  | mutPointer {t i} : Made [base t, type true t.span i] (.type (.mutPointer i t))
  | slice {t i} : Made [base t, type true t.span i] (.type (.slice i t))
  | optional {t i} : Made [base t, type true t.span i] (.type (.optional i t))
  | array {t i} : Made [base t, type true t.span i] (.type (.array i t none))
  | sized {t n i} :
      Made [base t, length n, type true t.span i] (.type (.array i t (some n)))
  /-- The identity of the type without arguments is dropped. -/
  | applied {j i ns args} : args ≠ [] →
      Made ([base (.named j ns [])] ++ args.map typed ++ [type true j.span i]) (.type (.named i ns args))
  | result {t e i} : e.isBase = true →
      Made [base t, base e, type true t.span i] (.type (.result i t e))
  | literal {t v i} : Parser.literal? t = some v → Made [word t, node false t.span i] (.expr (.literal i v))
  | ref {a ns i} : ns ≠ [] →
      Made ([start a] ++ ns.map name ++ [node true a i]) (.expr (.ref i ns))
  | template {t ps i} :
      Made ([word t] ++ ps.flatMap ofTemplate ++ [node true t.span i]) (.expr (.template i ps))
  | tuple {t l i} :
      Made ([word t] ++ l.map expr ++ [node true t.span i]) (.expr (.tuple i l))
  | structInit {t fs i} :
      Made ([word t] ++ fs.flatMap (fun f => [name f.name, expr f.value]) ++ [node true t.span i])
        (.expr (.structInit i fs))
  | arrayInit {t n es i} :
      Made ([word t] ++ n.toList.map expr ++ es.flatMap (fun e => e.index.toList.map expr ++ [expr e.value]) ++
        [node true t.span i]) (.expr (.arrayInit i n es))
  | sizeofType {t ty o i} :
      Made ([word t] ++ [typed ty] ++ o.toList.map operand ++ [node true t.span i]) (.expr (.sizeofType i ty o))
  | sizeofExpr {t e i} :
      Made [word t, expr e, node true t.span i] (.expr (.sizeofExpr i e))
  | cast {t ty e i} :
      Made [word t, typed ty, expr e, node true t.span i] (.expr (.cast i ty e))
  | field {e n arrow i} :
      Made [bare e, name n, node true e.span i] (.expr (.field i e n arrow))
  | step {e op i} : Made [bare e, node true e.span i] (.expr (.step i op e))
  | call {e es i} :
      Made ([bare e] ++ es.map expr ++ [node true e.span i]) (.expr (.call i e es))
  | index {e f i} : Made [bare e, expr f, node true e.span i] (.expr (.index i e f))
  | unary {a op e i} :
      Made [start a, bare e, node false (a.join e.span) i] (.expr (.unary i op e))
  | binary {op l r i} :
      Made [bare l, bare r, node false (l.span.join r.span) i] (.expr (.binary i op l r))
  | range {l r inclusive i} :
      Made [bare l, bare r, node false (l.span.join r.span) i] (.expr (.range i l r inclusive))
  | block {t ss i} :
      Made ([word t] ++ ss.map stmt ++ [node true t.span i]) (.stmt (.block i ss))
  | varStmt {a d i} : Made (ofVar a d i) (.stmt (.var i d))
  | exprStmt {a e i} : Made [start a, expr e, node true a i] (.stmt (.expr i e))
  | assign {a op e f i} :
      Made [start a, expr e, expr f, node true a i] (.stmt (.assign i op e f))
  | ret {t e i} :
      Made ([word t] ++ e.toList.map expr ++ [node true t.span i]) (.stmt (.ret i e))
  | crash {t e i} :
      Made ([word t] ++ e.toList.map expr ++ [node true t.span i]) (.stmt (.crash i e))
  | switch {t e i} :
      Made [word t, expr e, node true t.span i] (.stmt (.switch i e))
  | cond {t e s r i} : s.isBranch = true →
      (∀ s' ∈ r, s'.isBranch = true) →
      Made ([word t] ++ [expr e] ++ [stmt s] ++ r.toList.map stmt ++ [node true t.span i])
        (.stmt (.cond i e s r))
  | loop {t e s i} : s.isBranch = true →
      Made [word t, expr e, stmt s, node true t.span i] (.stmt (.loop i e s))
  | foreach {t n e s i} : s.isBranch = true →
      Made [word t, name n, expr e, stmt s, node true t.span i] (.stmt (.foreach i n e s))
  | defer {t s i} :
      Made [word t, stmt s, node true t.span i] (.stmt (.defer i s))
  | separator {t i} : Made [word t, node false t.span i] (.decl (.separator i))
  | package {t ns i} :
      Made ([word t] ++ ns.map name ++ [node true t.span i]) (.decl (.package i ns))
  | imports {t d i} :
      Made ([word t] ++ d.segments.map name ++ d.symbols.map name ++ [node true t.span i]) (.decl (.imports i d))
  | typedef {t n ty i} :
      Made ([word t] ++ [name n] ++ ty.toList.map typed ++ [node true t.span i]) (.decl (.typedef i n ty))
  | struct {t d i} :
      Made ([word t] ++ [name d.name] ++ d.generics.map name ++
        d.fields.flatMap (fun f => ofType f.name f.type) ++ [node true t.span i]) (.decl (.struct i d))
  | header {a d i} :
      Made (ofHead a d ++ [node true a i]) (.decl (.header i d))
  | function {a d b i} :
      Made (ofHead a d ++ [stmt b.toStmt] ++ [node true a i]) (.decl (.function i d b))
  | varDecl {a d i} : Made (ofVar a d i) (.decl (.var i d))

namespace Parser

namespace State

/-- The span from `start` up to the token read last. -/
def upTo (s : State) (start : Span) : Span :=
  if s.last.stop < start.start then start else start.join s.last

def unmuted (s : State) : State := { s with muted := false }

/-- A problem with the next token or the last one is told. -/
def Told (s u : State) : Prop :=
  ∃ problem span, (span = s.peek.span ∨ span = s.last) ∧ u = s.report problem span

end State

inductive Mode where
  /-- Up to the first problem. -/
  | plain
  /-- Reading may be taken up again behind a problem. -/
  | mending
  /-- A production is looked at on its own, whatever is in hand and whatever token it begins with. -/
  | apart
  deriving DecidableEq

/-- From the first state to the second a reader gets to these items. -/
inductive Steps : Mode → State → List Item → State → Prop where
  | refl {m s} : Steps m s [] s
  | pass {m s u st} : Steps m s st u → (m ≠ .apart → u.kind ≠ .directive) → Steps m s st u.advance
  | start {m s u st} : Steps m s st u → Steps m s (st ++ [.start u.peek.span]) u
  | word {m s u st} : Steps m s st u → u.kind ≠ .eof → (m ≠ .apart → u.kind ≠ .directive) →
      Steps m s (st ++ [.word u.peek]) u.advance
  | name {m s u st} : Steps m s st u → u.kind = .identifier →
      Steps m s (st ++ [.name u.peek.text]) u.advance
  | length {m s u st} : Steps m s st u →
      u.kind = .identifier ∨ u.kind = .intLiteral → Steps m s (st ++ [.length u.peek.text]) u.advance
  | text {m s u st t} : Steps m s st u → (m ≠ .apart → t.isTemplate = true) → t = u.peek ∨ .word t ∈ st →
      Steps m s (st ++ [.text t.inner]) u
  | sign {m s u st} : Steps m s st u → u.kind = .directive →
      Steps m s (st ++ [.sign u.peek]) u.advance
  | directive {m s u st t kind argument} :
      Steps m s (st ++ [Item.sign t]) u → DirectiveKind.ofName? t.text = some kind →
      Steps m s (st ++ [.directive ⟨kind, argument, u.upTo t.span⟩]) u
  | node {m s u st} (whole : Bool) (a : Span) : Steps m s st u →
      Steps m s (st ++ [.node whole a ⟨u.nodes, if whole then u.upTo a else a, []⟩]) { u with nodes := u.nodes + 1 }
  | type {m s u st} (whole : Bool) (a : Span) : Steps m s st u →
      Steps m s (st ++ [.type whole a ⟨u.types, if whole then u.upTo a else a, []⟩]) { u with types := u.types + 1 }
  | make {m s u st items x} : Steps m s (st ++ items) u → Made items x →
      Steps m s (st ++ [.loose x]) u
  /-- Parentheses leave no node. -/
  | inner {m s u st t x} : Steps m s (st ++ [.word t] ++ [.part x]) u →
      (m ≠ .apart → t.kind = .punct .leftParen) → Steps m s (st ++ [.loose x]) u
  | settle {m s u st x} : Steps m s (st ++ [.loose x]) u → Steps m s (st ++ [.part x]) u
  /-- A file is closed. The declaration behind it is already read. -/
  | file {m s u st decls f} (next : List Decl) : Steps m s (st ++ decls.map .decl ++ next.map .decl) u →
      (fileOf decls u).1 = some f →
      Steps m s (st ++ [.file f] ++ next.map .decl) { u with nodes := u.nodes + 1 }
  /-- Directives are put on the part behind them. -/
  | dress {m s u st ds x} : Steps m s (st ++ ds.map .directive ++ [.loose x]) u →
      Steps m s (st ++ [.part (x.withDirectives ds)]) u
  /-- The tokens of the body of a switch are passed over. -/
  | body {m s u st t x} (n : Nat) :
      Steps m s (st ++ [.word t] ++ [.part x]) u → t.kind = .keyword .kSwitch →
      Steps m s (st ++ [.word t] ++ [.part x]) (u.advanceBy n)
  /-- Something is tried in vain from here or from a place before. -/
  | tried {m s u v w e st st' st'' st₁} : Steps m s st u → Steps m s st₁ e → Steps .plain e st' u →
      Steps .plain (e.rewind u) st'' v → w = v ∨ v.Told w → Steps m s st (u.rewind w)
  /-- The same tokens are read once more. -/
  | operand {m s u v e st st' st₁ x} : Steps m s st u → Steps m s st₁ e → Steps .plain e st' u →
      Steps .plain (e.rewind u) [.expr x] v → Steps m s (st ++ [.operand x]) (u.rewind v)
  /-- Reading is taken up again behind a problem. -/
  | mend {s u v w st st'} (n : Nat) : Steps .mending s st u → Steps .mending u st' v → v.Told w →
      Steps .mending s st (w.advanceBy n).recovered.unmuted
  | unmute {s u st} : Steps .mending s st u → Steps .mending s st u.unmuted
  | given {s u st} (items : List Item) : Steps .apart s st u → Steps .apart s (st ++ items) u

def Fails (m : Mode) (s u : State) : Prop := ∃ st v, Steps m s st v ∧ v.Told u

end Parser
end Quill
