import Quill.Proofs.ReadingRules

/-!
# Steps of the productions

One script for each production: over which tokens it goes, what it takes up and which parts it makes.
-/
namespace Quill.Parser

open Option Nat List State Item

variable {e : Expr} {k : TokenKind} {α : Type}

def signRound : Parser (Option (UnaryOp × Span)) := do
  match unaryOp? (← kind) with
  | some op => return some (op, (← advance).span)
  | none => return none

section BlockItem

variable {nested : Parser Stmt} {s u : State}

theorem blockItem_end (h : s.kind = .eof ∨ s.kind = .punct .rightBrace) :
    blockItem nested s = (some none, s) := by
  have stops : (s.kind == .punct .rightBrace || s.kind == .eof) = true := by
    rcases h with h | h <;> simp [h]
  simp only [blockItem, bind_apply, at?, atEnd, inspect, stops, if_true]
  rfl

theorem blockItem_read {a : Stmt} (hk : s.kind ≠ .eof) (hb : s.kind ≠ .punct .rightBrace)
    (h : nested s = (some a, u)) : blockItem nested s = (some (some (some a)), u.unmuted) := by
  simp only [blockItem, bind_apply, at?, atEnd, inspect, result?, update, beq_false_of_ne hk,
    beq_false_of_ne hb, h, Bool.or_self, Bool.false_eq_true, if_false]
  rfl

theorem blockItem_failed (hk : s.kind ≠ .eof) (hb : s.kind ≠ .punct .rightBrace)
    (h : nested s = (none, u)) : blockItem nested s =
      (some (some none), (u.resumed s.rest (stmtResync 0)).recovered.unmuted) := by
  simp only [blockItem, bind_apply, at?, atEnd, inspect, result?, resyncStmt, update,
    beq_false_of_ne hk, beq_false_of_ne hb, h, Bool.or_self, Bool.false_eq_true, if_false]
  rfl

end BlockItem

namespace Gives

variable {m : Mode} {n : Nat} {c : Bool} {s : State}

theorem kind_peek (h : s.peek.kind = k) : s.kind = k := h

theorem solid (h : s.kind = k) [hk : Solid m k] : Solid m s.kind := h ▸ hk

section Types

variable {nested : Parser TypeExpr} (hn : ReadsBelow m n nested fun t => [.typed t])
include hn

theorem typeBase : Gives m n c (typeBase nested) s [] (fun _ => true) fun t => [.base t] := by
  refine look ?_
  split
  · rename_i hk
    exact take hk (typeNodeAt fun i t => made .void rfl)
  · rename_i hk
    exact take hk (typeNodeAt fun i t => made .scalar rfl)
  · exact start (known path (Yields.cons s) fun ns t hns => typeNodeFrom fun i u => made (.named hns) rfl)
  · rename_i hk
    refine take hk (commaSeparated hn fun ts t hts => mark fun u => typeNodeFrom fun i v => ?_)
    rw [← map_eq_flatMap]
    exact made (.tupleType hts) rfl
  · exact expected _

omit hn in
theorem isBase_typeBase : Yields (.typeBase nested) fun t => t.isBase = true := by
  refine .bind fun token => ?_
  split
  · exact .bind fun _ => .bind fun _ => .pure rfl
  · exact .bind fun _ => .bind fun _ => .pure rfl
  · exact .bind fun _ => .bind fun _ => .pure rfl
  · exact .bind fun _ => .bind fun _ => .bind fun _ => .bind fun _ => .pure rfl
  · exact nofun

omit hn in
theorem arraySuffix {type : TypeExpr} (hs : Solid m s.kind) :
    Gives m n c (arraySuffix type) s [.base type] isSome fun r => [.base (r.getD type)] := by
  have hone := kindAt_one hs.1
  have htwo := kindAt_two hs.1
  refine look (look ?_)
  split
  · rename_i hk'
    exact passBy rfl (passBy (hone ▸ hk') (passed (typeNodeFrom fun i t => made .array rfl)))
  · rename_i hk' hk''
    rw [hone] at hk'
    rw [htwo, kindAt_one (hk' ▸ by simp)] at hk''
    exact passBy rfl (passBy hk' (passBy hk'' (passed (typeNodeFrom fun i t => made .slice rfl))))
  iterate 2
    rename_i hk' hk''
    rw [hone] at hk'
    rw [htwo, kindAt_one (hk' ▸ by simp)] at hk''
    exact pass rfl (length (by simp [hk']) (pass hk'' (typeNodeFrom fun i t => made .sized rfl)))
  · exact stay rfl rfl

theorem typeSuffix {type : TypeExpr} :
    Gives m n c (typeSuffix nested type) s [.base type] isSome fun r => [.base (r.getD type)] := by
  refine look ?_
  split
  · rename_i hk
    exact pass hk (typeNodeFrom fun i t => made .pointer rfl)
  · rename_i hk
    refine look ?_
    split
    · rename_i hk'
      rw [kindAt_one (hk ▸ by simp), beq_iff_eq] at hk'
      exact passBy hk (passBy hk' (passed (typeNodeFrom fun i t => made .mutPointer rfl)))
    · exact stay rfl rfl
  · rename_i hk
    exact arraySuffix (solid hk)
  · rename_i hk
    split
    · refine pass hk (commaSeparated hn fun ts t hts => mark fun u => typeNodeFrom fun i v => ?_)
      rw [← map_eq_flatMap]
      exact made (.applied hts) rfl
    · exact stay rfl rfl
  · rename_i hk
    exact pass hk (typeNodeFrom fun i t => made .optional rfl)
  · rename_i hk
    exact pass hk (known (typeBase hn) (isBase_typeBase _) fun e t he => typeNodeFrom fun i u => made (.result he) rfl)
  · exact stay rfl rfl

theorem typeStep : Gives m n c (typeStep nested) s [] (fun _ => true) fun t => [.typed t] := by
  refine part directives fun ds t => part (typeBase hn) fun base u => ?_
  refine bind ((extend (r := fun b => [.base b]) fun b v hv => typeSuffix fun w hw => hn w (by omega)).frame _)
    fun type v => dressed ?_
  split <;> rfl

end Types

theorem typeAt (depth : Fuel) (enough : s.rest.length < depth.length) :
    Reads m (typeAt depth) (fun t => [.typed t]) s := by
  induction depth generalizing s with
  | nil => exact absurd enough (not_lt_zero _)
  | cons _ depth ih =>
    rw [length_cons] at enough
    exact alone (typeStep fun t ht => ih (by omega))

theorem type : Reads m type (fun t => [.typed t]) s := typeAt (s.peek :: s.rest) (lt_succ_self _)


theorem solid_of {β : Type} {f : TokenKind → Option β} {b : β} (h : f k = some b)
    (heof : f .eof = none) (hdirective : f .directive = none) : Solid m k := by
  constructor
  · rintro rfl
    cases heof.symm.trans h
  · rintro - rfl
    cases hdirective.symm.trans h

section Operands

variable {expr : Parser Expr} (he : ∀ m, ReadsBelow m n expr fun e => [.expr e])
include he

omit he in
theorem text {t : Token} {front : List Item} {p : Parser α} {moved : α → Bool}
    {back : α → List Item} (ht : m ≠ .apart → t.isTemplate = true)
    (hmem : t = s.peek ∨ .word t ∈ front)
    (h : Gives m n c p s (front ++ (textPart t).flatMap ofTemplate) moved back) :
    Gives m n c p s front moved back := by
  unfold textPart at h
  split at h
  · exact append_nil front ▸ h
  · intro s₀ st steps bound
    refine h s₀ st ?_ bound
    rw [← append_assoc]
    exact steps.text ht (hmem.imp_right (mem_append_right st))

theorem interpolation {k : Nat} (hlt : k < n) :
    Gives m k c (interpolation expr) s [] (fun _ => true) fun r => r.1.flatMap ofTemplate := by
  have isTemplate {t : State} {k : TokenKind} (hk : t.peek.kind = k)
      (h : k = .templateMiddle ∨ k = .templateEnd) : m ≠ .apart → t.peek.isTemplate = true := by
    rcases h with rfl | rfl <;> exact fun _ => by rw [Token.isTemplate, hk]
  refine part (within (he m) hlt) fun e t => look ?_
  split
  · rename_i hk
    exact text (isTemplate hk (.inl rfl)) (.inl rfl) (pass hk (done rfl))
  · rename_i hk
    exact text (isTemplate hk (.inr rfl)) (.inl rfl) (pass hk (done rfl))
  · exact expected _

theorem templateRound {k : Nat} (hlt : k < n) (r : List (TemplatePart Expr) × Bool) :
    Gives m k c (do
        if r.2 then return none
        let (more, last) ← Parser.interpolation expr
        return some (r.1 ++ more, last)) s (r.1.flatMap ofTemplate) isSome
      fun r' => (r'.getD r).1.flatMap ofTemplate := by
  split
  · exact stay rfl rfl
  · exact part (interpolation he hlt) fun r u => done (by simp)

section

variable (hs : Solid m s.kind)

include hs

theorem template (ht : m ≠ .apart → s.peek.isTemplate = true) :
    Gives m n c (template expr) s [] (fun _ => true) fun e => [.bare e] := by
  refine take rfl (text ht (.inr mem_cons_self) ?_)
  split
  · exact bind ((extend (r := fun r => r.1.flatMap ofTemplate) (a := (textPart s.peek, false))
      fun r t ht => templateRound he ht r).frame [.word s.peek]) fun r u => nodeFrom fun i v => made .template rfl
  · exact nodeFrom fun i t => made .template rfl

theorem paren (hk : m ≠ .apart → s.kind = .punct .leftParen) :
    Gives m n c (paren expr) s [] (fun _ => true) fun e => [.bare e] := by
  refine take rfl (part (nested (he m) (by omega)) fun first t => eat ?_ ?_)
  · refine part (commaList (he m) fun _ => ⟨_, rfl⟩) fun more u => mark fun v => nodeFrom fun i w => ?_
    rw [← map_eq_flatMap]
    exact made (.tuple (l := first :: more)) rfl
  · exact mark fun u => pure (fun _ _ steps => .inner (append_assoc .. ▸ steps) hk) (Nat.le_refl _)

theorem structInit (hd : m ≠ .apart → s.advance.kind ≠ .directive) :
    Gives m n c (structInit expr) s [] (fun _ => true) fun e => [.bare e] := by
  refine take rfl (passOver (part (commaList (g := fun f : FieldInit Expr => [.name f.name, .expr f.value])
    (fun t ht => ?_) fun _ => ⟨_, rfl⟩) fun fields t => mark fun u => nodeFrom fun i v => made .structInit rfl) hd)
  exact alone (mark fun u => name fun x v => mark fun w => part (nested (he m) (by omega)) fun e y => look (done rfl))

theorem arrayInit : Gives m n c (arrayInit expr) s [] (fun _ => true) fun e => [.bare e] := by
  refine take rfl (look ?_)
  lift_lets
  intro jp
  have rest (length : Option Expr) (t : State) :
      Gives m n true (jp length) t ([.word s.peek] ++ length.toList.map .expr) (fun _ => true) fun e => [.bare e] := by
    refine mark fun u => mark fun v => part (commaList
      (g := fun e : ArrayElement Expr => e.index.toList.map .expr ++ [.expr e.value]) (fun w hw => ?_) fun _ => ⟨_, rfl⟩)
      fun es w => mark fun x => nodeFrom fun i y => made .arrayInit rfl
    exact alone (part (within (he m) (by omega)) fun first x => eat (part (nested (he m) (by omega)) fun e y => done rfl) (done rfl))
  split
  · exact rest none _
  · exact part (given (nested (he m) (by omega))) rest

theorem sizeof : Gives m n c (sizeof expr) s [] (fun _ => true) fun e => [.bare e] := by
  refine take rfl (mark fun opened => look fun s₀ st steps bound => ?_)
  have run := tries_closed (m := m) (s := opened) (fun _ => type) s₀ _ steps
  have between := tries_closed (m := .plain) (s := opened) (fun _ => type) opened [] .refl
  rw [bind_apply]
  unfold Parser.attempt
  rcases hr : closed .type opened with ⟨_ | ty, t⟩ <;> rw [hr] at run between
  · obtain ⟨st', v, more, told⟩ := run
    rw [← rewind_self opened] at more
    dsimp only
    refine (show Gives m n true _ (opened.rewind t) [.word s.peek] (fun _ => true) fun e => [.bare e] from ?_)
      s₀ st (steps.tried steps .refl more told) bound
    exact part (nested (he m) (by omega)) fun e u => mark fun v => nodeFrom fun i w => made .sizeofExpr rfl
  · obtain ⟨steps', shorter⟩ := run
    have rest (operand : Option Expr) (u : State) : Gives m n true (do
          let _ ← Parser.mark .rightParen "')' to close sizeof"
          return .sizeofType (← Parser.nodeFrom s.peek.span) ty operand) u
        ([.word s.peek] ++ [.typed ty] ++ operand.toList.map .operand) (fun _ => true) fun e => [.bare e] :=
      mark fun v => nodeFrom fun i w => made .sizeofType rfl
    dsimp only
    by_cases hname : ty.valueName?.isSome = true
    · rw [if_pos hname, bind_apply]
      have again := tries_closed (m := .plain) fun m => he m (opened.rewind t) bound
      obtain ⟨operand, u, hread, hsteps, hrest⟩ := reread steps' steps between.1 again
      rw [hread]
      refine rest operand u s₀ st (by simpa using hsteps) ?_
      rw [hrest]
      simp only [Bool.toNat_true] at bound ⊢
      omega
    · rw [if_neg hname]
      refine rest none t s₀ st (by simpa using steps') ?_
      simp only [Bool.toNat_true] at bound ⊢
      omega

theorem cast : Gives m n c (cast expr) s [] (fun _ => true) fun e => [.bare e] :=
  take rfl (mark fun t => part type fun ty u => mark fun v => mark fun w => part (nested (he m) (by omega)) fun e x =>
    mark fun y => nodeFrom fun i z => made .cast rfl)

end

theorem primary : Gives m n c (primary expr) s [] (fun _ => true) fun e => [.bare e] := by
  refine look ?_
  split
  · rename_i hv
    have : Solid m s.kind := by
      refine ⟨fun hk => ?_, fun _ hk => ?_⟩ <;> rw [literal?, show s.peek.kind = _ from hk] at hv <;> cases hv
    exact take rfl (nodeAt fun i t => made (.literal hv) rfl)
  · split
    · exact start (known path (Yields.cons s) fun ns t hns => nodeFrom fun i u => made (.ref hns) rfl)
    · rename_i hk
      exact template he (solid hk) fun _ => by rw [Token.isTemplate, hk]
    · rename_i hk
      exact template he (solid hk) fun _ => by rw [Token.isTemplate, hk]
    · rename_i hk
      exact paren he (solid hk) fun _ => hk
    · rename_i hk
      refine look ?_
      split
      · rename_i hk'
        rw [kindAt_one (kind_peek hk ▸ by simp), beq_iff_eq] at hk'
        exact structInit he (solid hk) fun _ => hk' ▸ by simp
      · exact expected _
    · rename_i hk
      exact arrayInit he (solid hk)
    · rename_i hk
      exact sizeof he (solid hk)
    · rename_i hk
      exact cast he (solid hk)
    · exact expected _

omit he in
theorem fieldSuffix {arrow : Bool} (hs : Solid m s.kind) :
    Gives m n c (fieldSuffix e arrow) s [.bare e] isSome fun r => [.bare (r.getD e)] := by
  refine look ?_
  split
  · rename_i hk'
    rw [kindAt_one hs.1, beq_iff_eq] at hk'
    exact pass rfl (named hk' (nodeFrom fun i t => made .field rfl))
  · exact stay rfl rfl

omit he in
theorem stepSuffix {op : StepOp} (hs : Solid m s.kind) :
    Gives m n c (stepSuffix e op) s [.bare e] isSome fun r => [.bare (r.getD e)] :=
  pass rfl (nodeFrom fun i t => made .step rfl)

theorem suffix :
    Gives m n c (suffix expr e) s [.bare e] isSome fun r => [.bare (r.getD e)] := by
  refine look ?_
  split
  · rename_i hk
    refine pass hk (look ?_)
    lift_lets
    intro jp
    have rest (es : List Expr) (t : State) : Gives m n true (jp es) t ([.bare e] ++ es.map .expr)
        isSome fun r => [.bare (r.getD e)] :=
      mark fun u => nodeFrom fun i v => made .call rfl
    split
    · exact rest [] _
    · refine commaSeparated (he m) fun es t _ => ?_
      rw [← map_eq_flatMap]
      exact rest es t
  · rename_i hk
    exact fieldSuffix (solid hk)
  · rename_i hk
    exact fieldSuffix (solid hk)
  · rename_i hk
    exact pass hk (part (nested (he m) (by omega)) fun f t => mark fun u => nodeFrom fun i v => made .index rfl)
  · rename_i hk
    exact stepSuffix (solid hk)
  · rename_i hk
    exact stepSuffix (solid hk)
  · exact stay rfl rfl

omit he in
theorem applyUnary {ops : List (UnaryOp × Span)} :
    Gives m n c (applyUnary ops e) s (ops.map (.start ·.2) ++ [.bare e]) (fun _ => c) fun e => [.bare e] := by
  induction ops with
  | nil => exact pure (fun _ _ steps => steps) (Nat.le_refl _)
  | cons op ops ih =>
    refine bind (ih.frame [.start op.2]) fun e t => nodeAt fun i u => ?_
    exact pure (fun _ _ steps => steps.make .unary) (Nat.le_refl _)

omit he in
theorem signRound : Gives m n c signRound s [] isSome fun r => (r.map fun op => [.start op.2]).getD [] := by
  refine look ?_
  split
  · rename_i hop
    have := solid_of hop (m := m) rfl rfl
    exact start (pass rfl (done rfl))
  · exact stay rfl rfl

theorem unary : Gives m n c (unary expr) s [] (fun _ => true) fun e => [.bare e] := by
  refine part (many fun _ _ => signRound) fun ops t => ?_
  rw [← map_eq_flatMap]
  refine part (primary he) fun e u => ?_
  refine bind ((extend (r := fun e => [.bare e]) fun e v hv => suffix fun m w hw => ?_).frame _)
    fun e v => applyUnary
  exact he m w (Nat.lt_of_lt_of_le hw (Nat.le_of_succ_le hv))

end Operands

theorem kind_of_adjacent {s : State} (hs : s.kind ≠ .eof) (h : adjacent k s = (some true, s)) :
    s.advance.kind = k := by
  rw [← State.kindAt_one hs, State.kindAt]
  dsimp only [adjacent, inspect] at h
  split at h
  · rename_i current following more hrest
    simp only [Prod.mk.injEq, some.injEq, Bool.and_eq_true, beq_iff_eq, and_true] at h
    rw [hrest]
    exact h.1
  · cases h

theorem touching {g : Bool → Parser α} {front : List Item} {moved : α → Bool} {back : α → List Item}
    (h : ∀ b, (b = true → s.kind ≠ .eof → s.advance.kind = k) →
      Gives m n c (g b) s front moved back) : Gives m n c (adjacent k >>= g) s front moved back :=
  h _ fun hb hs => kind_of_adjacent hs (congrArg (fun b => (some b, s)) hb)

theorem peekBinaryOp_eq (m : Mode) (s : State) : ∃ r, peekBinaryOp s = (some r, s) ∧ ∀ op width, r = some (op, width) →
    width = 1 ∧ Solid m s.kind ∨ width = 2 ∧ s.kind = .punct .greater ∧ s.advance.kind = .punct .greater := by
  have one : ∀ op width, (binaryOp? s.kind).map (·, 1) = some (op, width) → width = 1 ∧ Solid m s.kind := by
    intro op width h
    obtain ⟨_, hop, ⟨⟩⟩ := map_eq_some_iff.mp h
    exact ⟨rfl, solid_of hop rfl rfl⟩
  unfold peekBinaryOp
  rw [bind_apply]
  dsimp only [kind, inspect]
  split
  · rename_i hk
    rw [beq_iff_eq] at hk
    obtain ⟨shift, hshift⟩ : ∃ b, adjacent (.punct .greater) s = (some b, s) := ⟨_, rfl⟩
    obtain ⟨assign, hassign⟩ : ∃ b, adjacent (.punct .greaterEqual) s = (some b, s) := ⟨_, rfl⟩
    rw [bind_apply, hshift]
    cases shift with
    | true => exact ⟨_, rfl, fun _ _ h => .inr (by cases h; exact ⟨rfl, hk, kind_of_adjacent (hk ▸ by simp) hshift⟩)⟩
    | false =>
      dsimp only
      rw [if_neg Bool.false_ne_true, bind_apply, hassign]
      cases assign with
      | true => exact ⟨_, rfl, nofun⟩
      | false => exact ⟨_, rfl, fun op width h => .inl (one op width h)⟩
  · exact ⟨_, rfl, fun op width h => .inl (one op width h)⟩

section Climbing

variable {binary : Nat → Parser Expr} (hb : ∀ least m, ReadsBelow m n (binary least) fun e => [.bare e])
include hb

theorem exprOf (m : Mode) : ReadsBelow m n (exprOf binary) fun e => [.expr e] := by
  refine fun s hs => alone (part directives fun ds t => part (within (hb 0 m) (by omega)) fun e u => dressed ?_)
  split <;> rfl

theorem operation {least : Nat} {left : Expr} :
    Gives m n c (.operation binary least left) s [.bare left] isSome fun r => [.bare (r.getD left)] := by
  intro s₀ st steps bound
  obtain ⟨r, hr, hwidth⟩ := peekBinaryOp_eq m s
  rw [Parser.operation, bind_apply, hr]
  refine (show Gives m n c _ s [.bare left] isSome fun r => [.bare (r.getD left)] from ?_) s₀ st steps bound
  split
  · exact stay rfl rfl
  · rename_i op width
    split
    · exact stay rfl rfl
    · have operand (t : State) : Gives m n true (do
            let right ← binary (op.precedence + 1)
            return some (.binary (← Parser.nodeAt (left.span.join right.span)) op left right)) t
          [.bare left] isSome fun r => [.bare (r.getD left)] :=
        part (nested (hb _ m) (by omega)) fun right u => nodeAt fun i v => made .binary rfl
      rcases hwidth op width rfl with ⟨rfl, solid⟩ | ⟨rfl, hk, hk'⟩
      · exact passBy rfl (passed (operand _))
      · exact passBy hk (passBy hk' (passed (operand _)))

theorem binaryStep {least : Nat} :
    Gives m n c (binaryStep binary least) s [] (fun _ => true) fun e => [.bare e] := by
  refine part (unary (exprOf hb)) fun first t => ?_
  refine bind (extend (r := fun e => [.bare e]) fun e u hu => operation fun least m v hv => ?_) fun left u => look ?_
  · exact hb least m v (Nat.lt_of_lt_of_le hv (Nat.le_of_succ_le hu))
  · split
    · rename_i hk
      have : Solid m u.kind := by
        simp only [Bool.and_eq_true, Bool.or_eq_true, beq_iff_eq] at hk
        rcases hk.2 with hk | hk <;> rw [hk] <;> infer_instance
      exact pass rfl (part (nested (hb 2 m) (by omega)) fun right v => nodeAt fun i w => made .range rfl)
    · exact done rfl

end Climbing

theorem binaryAt (depth : Fuel) (least : Nat) (enough : s.rest.length < depth.length) :
    Reads m (binaryAt depth least) (fun e => [.bare e]) s := by
  induction depth generalizing m s least with
  | nil => exact absurd enough (not_lt_zero _)
  | cons _ depth ih =>
    rw [length_cons] at enough
    exact alone (binaryStep fun least m t ht => ih least (by omega))

theorem binary (least : Nat) : Reads m (fuelled (.binaryAt · least)) (fun e => [.bare e]) s :=
  binaryAt (s.peek :: s.rest) least (lt_succ_self _)

theorem expr : Reads m expr (fun e => [.expr e]) s :=
  exprOf (fun least _ _ ht => binaryAt (s.peek :: s.rest) least ht) m s (lt_succ_self _)

section Statements

theorem varDeclEnd {a : Span} {isStatic : Bool} (type : Option TypeExpr) :
    Gives m n c (varDeclEnd a isStatic type) s ([.start a] ++ type.toList.map .typed) (fun _ => true)
      fun r => ofVar a r.2 r.1 := by
  refine skip eaten fun mutable t => name fun x u => skip eaten fun given v => ?_
  lift_lets
  intro jp
  have rest (init : Option Expr) (w : State) :
      Gives m n true (jp init) w ([.start a] ++ type.toList.map .typed ++ [.name x] ++ init.toList.map .expr)
        (fun _ => true) fun r => ofVar a r.2 r.1 :=
    mark fun y => nodeFrom fun i z => done rfl
  split
  · exact part (.given expr) rest
  · exact (append_nil _ ▸ rest none v :)

theorem varDecl : Gives m n c varDecl s [] (fun _ => true) fun r => ofVar s.peek.span r.2 r.1 := by
  refine look (start (skip eaten fun isStatic t => skip eaten fun _ u => ?_))
  split
  · exact varDeclEnd none
  · exact part type fun ty v => varDeclEnd (some ty)

theorem varStmt : Reads m varStmt (fun a => [.loose (.stmt a)]) s :=
  bind varDecl fun r t => made .varStmt rfl

theorem exprStmt : Reads m exprStmt (fun a => [.loose (.stmt a)]) s :=
  look (start (part expr fun e t => mark fun u => nodeFrom fun i v => made .exprStmt rfl))

theorem assignOp : Gives m n c assignOp s [] (fun _ => true) fun _ => [] := by
  refine look ?_
  refine touching fun shift hshift => ?_
  split
  · rename_i hk
    rw [Bool.and_eq_true, beq_iff_eq] at hk
    have hnext := hshift hk.2 (hk.1 ▸ by simp)
    exact passBy hk.1 (passBy hnext (passed (done rfl)))
  · split
    · rename_i hop
      have := solid_of hop (m := m) rfl rfl
      exact pass rfl (done rfl)
    · exact expected _

theorem assignment : Reads m assignment (fun a => [.loose (.stmt a)]) s :=
  look (start (part expr fun e t => skip assignOp fun op u => part expr fun f v => mark fun w =>
    nodeFrom fun i x => made .assign rfl))

theorem simpleStmt : Reads m simpleStmt (fun a => [.loose (.stmt a)]) s :=
  attempt (tries fun _ => varStmt) (fun a t => done rfl) fun t =>
    attempt (tries fun _ => exprStmt) (fun a u => done rfl) fun u => assignment

theorem returnStmt (hk : s.kind = .keyword .kReturn) :
    Gives m n c returnStmt s [] (fun _ => true) fun a => [.loose (.stmt a)] := by
  refine take hk (look ?_)
  lift_lets
  intro jp
  have rest (value : Option Expr) (t : State) : Gives m n true (jp value) t
      ([.word s.peek] ++ value.toList.map .expr) (fun _ => true) fun a => [.loose (.stmt a)] :=
    mark fun u => nodeFrom fun i v => made .ret rfl
  split
  · exact rest none _
  · exact part (given expr) rest

theorem crashMessage : Gives m n true crashMessage s [] (fun _ => true) fun r => r.toList.map .expr := by
  refine look ?_
  split
  · exact done rfl
  iterate 4 exact given expr
  · exact expected _

theorem crashStmt (hk : s.kind = .keyword .kCrash) :
    Gives m n c crashStmt s [] (fun _ => true) fun a => [.loose (.stmt a)] :=
  take hk (part crashMessage fun r t => mark fun u => nodeFrom fun i v => made .crash rfl)

theorem body {k : Nat} {g : Unit → Parser α} {t : Token} {x : Part} {moved : α → Bool}
    {back : α → List Item} (hk : t.kind = .keyword .kSwitch)
    (h : ∀ u, Gives m n c (g ()) u ([.word t] ++ [.part x]) moved back) :
    Gives m n c (update (.advanceBy k) >>= g) s ([.word t] ++ [.part x]) moved back := by
  intro s₀ st steps bound
  have fewer := (advanceBy_rest_suffix k s).length_le
  refine h _ s₀ st ?_ (Nat.le_trans (Nat.add_le_add_right fewer _) bound)
  rw [← append_assoc] at steps ⊢
  exact steps.body k hk

theorem switchStmt (hk : s.kind = .keyword .kSwitch) :
    Gives m n c switchStmt s [] (fun _ => true) fun a => [.loose (.stmt a)] := by
  refine take hk (part expr fun e t => mark fun u => look ?_)
  split
  · exact body hk fun v => nodeFrom fun i w => made .switch rfl
  · exact body hk fun v => expected _

variable {stmt : Parser Stmt}

theorem flatMap_toList (items : List (Option Stmt)) :
    items.flatMap (fun a => a.toList.map Item.stmt) = (items.filterMap (·)).map .stmt := by
  induction items with
  | nil => rfl
  | cons a items ih => cases a <;> simp [ih]

variable (hs : ReadsBelow .mending n stmt fun a => [.stmt a])
include hs

theorem blockItem_steps (hlt : s.rest.length < n) {s₀ : State} {st : List Item} (steps : Steps .mending s₀ st s) :
    ∃ item u, blockItem stmt s = (some item, u) ∧
      Steps .mending s₀ (st ++ (item.map fun a => a.toList.map .stmt).getD []) u ∧
        (item = none ∧ u = s ∧ (s.kind = .eof ∨ s.kind = .punct .rightBrace) ∨
          item.isSome ∧ u.rest.length < s.rest.length) := by
  by_cases hstop : s.kind = .eof ∨ s.kind = .punct .rightBrace
  · exact ⟨_, _, blockItem_end hstop, by simpa using steps, .inl ⟨rfl, rfl, hstop⟩⟩
  obtain ⟨hk, hb⟩ := not_or.mp hstop
  have run := @hs s hlt s.rest.length false s₀ st (by rwa [append_nil]) (Nat.le_refl _)
  have alone := @hs s hlt s.rest.length false s [] .refl (Nat.le_refl _)
  rcases hr : stmt s with ⟨_ | a, u⟩ <;> rw [hr] at run alone
  · obtain ⟨st', v, more, told⟩ := alone
    obtain ⟨k, heq⟩ := u.resumed_eq s.rest (stmtResync 0)
    refine ⟨_, _, blockItem_failed hk hb hr, ?_, .inr ⟨rfl, ?_⟩⟩
    · rw [heq]
      simpa using steps.mend k more told
    · exact length_resumed hk (told.rest ▸ more.moves.suffix) (stmtResync 0)
  · exact ⟨_, _, blockItem_read hk hb hr, run.1.unmute, .inr ⟨rfl, run.2⟩⟩

theorem blockItem (hlt : s.rest.length < n) :
    Gives .mending s.rest.length false (blockItem stmt) s [] isSome fun r =>
      (r.map fun a => a.toList.map .stmt).getD [] := by
  intro s₀ st steps _
  obtain ⟨item, u, hitem, steps', ⟨rfl, rfl, -⟩ | ⟨hsome, shorter⟩⟩ :=
    blockItem_steps hs hlt (append_nil st ▸ steps)
  · rw [hitem]
    exact ⟨steps', Nat.le_refl _⟩
  · rw [hitem]
    exact ⟨steps', by rw [hsome]; exact shorter⟩

theorem block : Gives .mending n c (block stmt) s [] (fun _ => true) fun b => [.loose (.stmt b.toStmt)] := by
  refine expect_cases fun hk => take hk (part (many (g := fun a : Option Stmt => a.toList.map .stmt)
    fun t ht => blockItem hs ht) fun items t => mark fun u => nodeFrom fun i v => ?_)
  rw [flatMap_toList]
  exact made .block rfl

theorem blockStmt : Gives .mending n c (blockStmt stmt) s [] (fun _ => true) fun a => [.loose (.stmt a)] :=
  bind (block hs) fun b t => done rfl

omit hs in
theorem isBranch_blockStmt : Yields (.blockStmt stmt) fun a => a.isBranch = true :=
  .bind fun _ => .pure rfl

theorem condStmt (hif : ∀ s a u, s.kind = .keyword .kIf → stmt s = (some a, u) → a.isBranch = true)
    (hk : s.kind = .keyword .kIf) :
    Gives .mending n c (condStmt stmt) s [] (fun _ => true) fun a => [.loose (.stmt a)] := by
  refine take hk (part expr fun e t => known (settled (blockStmt hs)) (isBranch_blockStmt _) fun a u ha => ?_)
  lift_lets
  intro jp
  have rest (other : Option Stmt) (hother : ∀ b ∈ other, b.isBranch = true) (v : State) :
      Gives .mending n true (jp other) v
        ([.word s.peek] ++ [.expr e] ++ [.stmt a] ++ other.toList.map .stmt) (fun _ => true)
        fun a => [.loose (.stmt a)] :=
    nodeFrom fun i w => made (.cond ha hother) rfl
  refine eat (look ?_) (rest none nofun _)
  split
  · rename_i hk'
    exact known (given (nested hs (Nat.le_refl n))) (Yields.given fun a u => hif _ a u (beq_iff_eq.mp hk')) fun r v hr =>
      rest r hr v
  · exact known (given (settled (blockStmt hs))) (Yields.given (isBranch_blockStmt _)) fun r v hr => rest r hr v

theorem loopStmt (hk : s.kind = .keyword .kWhile) :
    Gives .mending n c (loopStmt stmt) s [] (fun _ => true) fun a => [.loose (.stmt a)] :=
  take hk (part expr fun e t => known (settled (blockStmt hs)) (isBranch_blockStmt _) fun a u ha =>
    nodeFrom fun i v => made (.loop ha) rfl)

theorem foreachStmt (hk : s.kind = .keyword .kForeach) :
    Gives .mending n c (foreachStmt stmt) s [] (fun _ => true) fun a => [.loose (.stmt a)] := by
  refine take hk (name fun x t => look ?_)
  split
  · exact look (refuse (.inl rfl))
  · exact expect fun u => part expr fun e v => known (settled (blockStmt hs)) (isBranch_blockStmt _) fun a w ha =>
      nodeFrom fun i x => made (.foreach ha) rfl

theorem deferStmt (hk : s.kind = .keyword .kDefer) :
    Gives .mending n c (deferStmt stmt) s [] (fun _ => true) fun a => [.loose (.stmt a)] :=
  take hk (part (nested hs (Nat.le_refl n)) fun a t => nodeFrom fun i u => made .defer rfl)

theorem stmtStep (hif : ∀ s a u, s.kind = .keyword .kIf → stmt s = (some a, u) → a.isBranch = true) :
    Gives .mending n c (stmtStep stmt) s [] (fun _ => true) fun a => [.stmt a] := by
  refine part directives fun ds t => look ?_
  lift_lets
  intro jp
  have rest {p : Parser Stmt} (hp : Gives .mending n c p t [] (fun _ => true) fun a => [.loose (.stmt a)]) :
      Gives .mending n c (p >>= jp) t ([] ++ ds.map .directive) (fun _ => true) fun a => [.stmt a] := by
    refine part hp fun a u => dressed ?_
    split <;> rfl
  split
  · exact rest (blockStmt hs)
  · rename_i hk
    exact rest (condStmt hs hif hk)
  · rename_i hk
    exact rest (loopStmt hs hk)
  · rename_i hk
    exact rest (foreachStmt hs hk)
  · rename_i hk
    exact rest (returnStmt hk)
  · rename_i hk
    exact rest (deferStmt hs hk)
  · rename_i hk
    exact rest (crashStmt hk)
  · rename_i hk
    exact rest (switchStmt hk)
  · exact rest varStmt
  · exact rest varStmt
  · exact rest simpleStmt

omit hs in
theorem isBranch_condStmt : Yields (.condStmt stmt) fun a => a.isBranch = true := by
  refine .bind fun _ => .bind fun _ => .bind fun _ => ?_
  lift_lets
  intro jp
  have rest (r : Option Stmt) : Yields (jp r) fun a => a.isBranch = true := .bind fun _ => .pure rfl
  refine .bind fun b => ?_
  split
  · refine .bind fun b => ?_
    split
    · exact .bind rest
    · exact .bind rest
  · exact .bind rest

omit hs in
theorem isBranch_stmtAt (depth : Fuel) (s : State) (a : Stmt) (u : State) (hk : s.kind = .keyword .kIf)
    (h : stmtAt depth s = (some a, u)) : a.isBranch = true := by
  cases depth with
  | nil => cases h
  | cons _ depth =>
    rw [stmtAt, Parser.stmtStep, bind_apply, directives_none (hk ▸ by simp)] at h
    dsimp only at h
    rw [bind_apply] at h
    dsimp only [kind, inspect] at h
    rw [hk] at h
    dsimp only at h
    rw [bind_apply] at h
    split at h <;> cases h
    exact isBranch_condStmt _ _ _ ‹_›

omit hs in
theorem stmtAt (depth : Fuel) (enough : s.rest.length < depth.length) :
    Reads .mending (stmtAt depth) (fun a => [.stmt a]) s := by
  induction depth generalizing s with
  | nil => exact absurd enough (not_lt_zero _)
  | cons _ depth ih =>
    rw [length_cons] at enough
    exact alone (stmtStep (fun t ht => ih (by omega)) (isBranch_stmtAt depth))

end Statements

theorem stmt : Reads .mending stmt (fun a => [.stmt a]) s := stmtAt (s.peek :: s.rest) (lt_succ_self _)

end Gives

end Quill.Parser
