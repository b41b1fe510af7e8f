import Quill.Proofs.Unrolling

/-!
# Progress through the tokens

Every round of a repetition takes a token unless it is the last. So a source is read up to its end.
-/
namespace Quill.Parser

section Items

variable {s : State}

/-- Before the end there is an item of a source, and it takes a token whether it can be read or is
passed over. -/
theorem declItem_moves (h : s.kind ≠ .eof) : ∃ d u, declItem s = (some (some d), u) ∧ Moves s u ∧
    u.rest.length < s.rest.length := by
  obtain ⟨item, u, hrun, steps, ⟨-, -, hk⟩ | ⟨hsome, shorter⟩⟩ := Steps.declItem (s := s) .refl
  · exact absurd hk h
  · obtain ⟨d, rfl⟩ := Option.isSome_iff_exists.mp hsome
    exact ⟨d, u, hrun, steps.moves, shorter⟩

theorem blockItem_moves (hk : s.kind ≠ .eof) (hb : s.kind ≠ .punct .rightBrace) :
    ∃ a u, blockItem stmt s = (some (some a), u) ∧ Moves s u ∧ u.rest.length < s.rest.length := by
  obtain ⟨item, u, hrun, steps, ⟨-, -, hstop⟩ | ⟨hsome, shorter⟩⟩ :=
    Gives.blockItem_steps (fun _ _ => Gives.stmt) (Nat.lt_succ_self s.rest.length) (s := s) .refl
  · exact absurd hstop (not_or.mpr ⟨hk, hb⟩)
  · obtain ⟨a, rfl⟩ := Option.isSome_iff_exists.mp hsome
    exact ⟨a, u, hrun, steps.moves, shorter⟩

theorem fileStep_moves (soFar : FilesSoFar) : ∃ r u, fileStep soFar s = (some r, u) ∧ Moves s u ∧
    (r = none → u.kind = .eof) ∧ (r.isSome → u.rest.length < s.rest.length) := by
  by_cases hk : s.kind = .eof
  · refine ⟨none, s, ?_, .refl s, fun _ => hk, (fun h => by cases h)⟩
    rw [fileStep, bind_apply, declItem_end hk]
    rfl
  · obtain ⟨d, u, hrun, moves, shorter⟩ := declItem_moves hk
    obtain ⟨closed, decls⟩ := soFar
    rw [fileStep, bind_apply, hrun]
    rcases d with _ | d
    · exact ⟨_, u, rfl, moves, (fun h => by cases h), fun _ => shorter⟩
    · dsimp only
      split
      · exact ⟨_, _, rfl, moves.trans (.of_rest rfl), (fun h => by cases h), fun _ => shorter⟩
      · exact ⟨_, u, rfl, moves, (fun h => by cases h), fun _ => shorter⟩

end Items

/-- The productions of the grammar that are taken in any state. -/
inductive Reader : {α : Type} → Parser α → Prop where
  | directives : Reader directives
  | path : Reader path
  | type : Reader type
  | expr : Reader expr
  | operators (least : Nat) : Reader (fuelled (binaryAt · least))
  | varDecl : Reader varDecl
  | simpleStmt : Reader simpleStmt
  | stmt : Reader stmt
  | block : Reader (block stmt)
  | blockItem : Reader (blockItem stmt)
  | packagePath : Reader packagePath
  | importSymbols : Reader importSymbols
  | structField : Reader structField
  | params : Reader params
  | typedDecl : Reader typedDecl
  | topLevel : Reader topLevel
  | declItem : Reader declItem
  | fileStep (soFar : FilesSoFar) : Reader (fileStep soFar)
  | files : Reader files

theorem Reader.moves {α : Type} {p : Parser α} (h : Reader p) (s : State) : Moves s (p s).2 := by
  have moves {α : Type} {p : Parser α} {moved : α → Bool} {back : α → List Item}
      (h : Gives .mending s.rest.length false p s [] moved back) : Moves s (p s).2 := h.moves
  cases h with
  | directives => exact moves .directives
  | path => exact moves .path
  | type => exact moves .type
  | expr => exact moves .expr
  | operators least => exact moves (.binary least)
  | varDecl => exact moves .varDecl
  | simpleStmt => exact moves .simpleStmt
  | stmt => exact moves .stmt
  | block => exact moves (.block fun _ _ => .stmt)
  | blockItem =>
    by_cases h : s.kind = .eof ∨ s.kind = .punct .rightBrace
    · rw [blockItem_end h]
      exact .refl s
    · obtain ⟨hk, hb⟩ := not_or.mp h
      obtain ⟨a, u, hrun, moves, -⟩ := blockItem_moves hk hb
      rw [hrun]
      exact moves
  | packagePath => exact moves .packagePath
  | importSymbols => exact moves .importSymbols
  | structField => exact moves .structField
  | params => exact moves .params
  | typedDecl => exact moves .typedDecl
  | topLevel => exact moves .topLevel
  | declItem =>
    obtain ⟨item, u, hrun, steps, -⟩ := Steps.declItem (s := s) .refl
    rw [hrun]
    exact steps.moves
  | fileStep soFar =>
    obtain ⟨r, u, hrun, moves, -⟩ := fileStep_moves (s := s) soFar
    rw [hrun]
    exact moves
  | files =>
    obtain ⟨fs, u, hrun, -, steps, -⟩ := Steps.files s
    rw [hrun]
    exact steps.moves

section Rounds

theorem path_eq : path = (do
    let first ← identifier "a name"
    let more ← many pathRound
    return first :: more) := rfl

def commaRound {α : Type} (item : Parser α) : Parser (Option α) := do
  if ← eat (.punct .comma) then return some (← item) else return none

theorem unary_eq (nested : Parser Expr) : unary nested = (do
    let ops ← many signRound
    let operand ← primary nested
    applyUnary ops (← extend (suffix nested) operand)) := rfl

def templateRound (soFar : List (TemplatePart Expr) × Bool) :
    Parser (Option (List (TemplatePart Expr) × Bool)) := do
  if soFar.2 then return none
  let (more, last) ← interpolation expr
  return some (soFar.1 ++ more, last)

theorem progresses {α : Type} {item : Parser (Option α)} {front : List Item} {back : Option α → List Item}
    (h : ∀ s : State, Gives .apart s.rest.length false item s front Option.isSome back) : Progresses item := by
  intro s u a hrun
  have run := h s s [] (.given front .refl) (Nat.le_refl _)
  rw [hrun] at run
  exact run.2

theorem progresses_directiveRound : Progresses directiveRound := progresses fun _ => .directiveRound

theorem progresses_pathRound : Progresses pathRound := progresses fun _ => .pathRound

theorem progresses_packageRound : Progresses packageRound := progresses fun _ => .packageRound

theorem progresses_commaRound {α : Type} {item : Parser α} (h : Shrinks item) :
    Progresses (commaRound item) := by
  intro s u a hrun
  have within := h s.advance
  by_cases hk : s.kind = .punct .comma
  · have shorter := State.length_advance (State.kind_ne_eof hk nofun)
    simp only [commaRound, bind_apply, eat, hk, beq_self_eq_true, if_true] at hrun
    rcases hitem : item s.advance with ⟨_ | b, t⟩
    · rw [hitem] at hrun
      cases hrun
    · rw [hitem] at hrun within
      obtain ⟨-, rfl⟩ := Prod.mk.inj hrun
      exact Nat.lt_of_le_of_lt within shorter
  · simp only [commaRound, bind_apply, eat, beq_false_of_ne hk, Bool.false_eq_true, if_false] at hrun
    cases hrun

theorem progresses_signRound : Progresses signRound := progresses fun _ => .signRound

theorem progresses_templateRound (soFar : List (TemplatePart Expr) × Bool) :
    Progresses (templateRound soFar) :=
  progresses fun _ => .templateRound (fun _ _ _ => .expr) (Nat.lt_succ_self _) soFar

theorem progresses_importRound (soFar : List String × Bool) : Progresses (importRound soFar) :=
  progresses fun _ => .importRound soFar

theorem progresses_typeSuffix (t : TypeExpr) : Progresses (typeSuffix type t) :=
  progresses fun _ => .typeSuffix fun _ _ => .type

theorem progresses_suffix (e : Expr) : Progresses (suffix expr e) :=
  progresses fun _ => .suffix fun _ _ _ => .expr

theorem progresses_operation (least : Nat) (e : Expr) :
    Progresses (operation (fun k => fuelled (binaryAt · k)) least e) :=
  progresses fun _ => .operation fun k _ _ _ => .binary k

theorem progresses_blockItem : Progresses (blockItem stmt) := by
  intro s u a hrun
  by_cases h : s.kind = .eof ∨ s.kind = .punct .rightBrace
  · rw [blockItem_end h] at hrun
    cases hrun
  · obtain ⟨hk, hb⟩ := not_or.mp h
    obtain ⟨_, _, hitem, -, shorter⟩ := blockItem_moves hk hb
    obtain ⟨-, rfl⟩ := Prod.mk.inj (hitem.symm.trans hrun)
    exact shorter

theorem progresses_fileStep (soFar : FilesSoFar) : Progresses (fileStep soFar) := by
  intro s u next hrun
  obtain ⟨r, _, hstep, -, -, shorter⟩ := fileStep_moves (s := s) soFar
  obtain ⟨hr, rfl⟩ := Prod.mk.inj (hstep.symm.trans hrun)
  obtain rfl := Option.some.inj hr
  exact shorter rfl

end Rounds

/-- The recursions and repetitions of the grammar: one level or one round, and the whole. -/
inductive Recurs : {σ α : Type} → ((σ → Parser α) → σ → Parser α) → (σ → Parser α) → Prop where
  | type : Recurs (fun nested (_ : Unit) => typeStep (nested ())) fun _ => type
  | operators : Recurs binaryStep fun least => fuelled (binaryAt · least)
  | stmt : Recurs (fun nested (_ : Unit) => stmtStep (nested ())) fun _ => stmt
  | directives : Recurs (manyStep directiveRound) fun _ => directives
  | path : Recurs (manyStep pathRound) fun _ => many pathRound
  | packagePath : Recurs (manyStep packageRound) fun _ => many packageRound
  | signs : Recurs (manyStep signRound) fun _ => many signRound
  | block : Recurs (manyStep (blockItem stmt)) fun _ => many (blockItem stmt)
  | separated {α : Type} {item : Parser α} : Shrinks item →
      Recurs (manyStep (commaRound item)) fun _ => many (commaRound item)
  | listed {α : Type} {stop : Parser Bool} {item : Parser α} : Shrinks stop → Shrinks item →
      Recurs (commaListStep stop item) fun _ => commaList stop item
  | typeSuffixes : Recurs (extendStep (typeSuffix type)) (extend (typeSuffix type))
  | suffixes : Recurs (extendStep (suffix expr)) (extend (suffix expr))
  | operations (least : Nat) : Recurs (extendStep (operation (fun k => fuelled (binaryAt · k)) least))
      (extend (operation (fun k => fuelled (binaryAt · k)) least))
  | template : Recurs (extendStep templateRound) (extend templateRound)
  | importSymbols : Recurs (extendStep importRound) (extend importRound)
  | files : Recurs (extendStep fileStep) (extend fileStep)

theorem Recurs.unrolls {σ α : Type} {step : (σ → Parser α) → σ → Parser α} {whole : σ → Parser α}
    (h : Recurs step whole) : Unrolls step whole := by
  apply Ties.unrolls
  cases h with
  | type => exact ties_type
  | operators => exact ties_binary
  | stmt => exact ties_stmt
  | directives => exact ties_many progresses_directiveRound
  | path => exact ties_many progresses_pathRound
  | packagePath => exact ties_many progresses_packageRound
  | signs => exact ties_many progresses_signRound
  | block => exact ties_many progresses_blockItem
  | separated hitem => exact ties_many (progresses_commaRound hitem)
  | listed hstop hitem => exact ties_commaList hstop hitem
  | typeSuffixes => exact ties_extend progresses_typeSuffix
  | suffixes => exact ties_extend progresses_suffix
  | operations least => exact ties_extend (progresses_operation least)
  | template => exact ties_extend progresses_templateRound
  | importSymbols => exact ties_extend progresses_importRound
  | files => exact ties_extend progresses_fileStep

/-- Reading a list of tokens that ends with its only end token comes to that token and gives at least
one file. On the way every item of the source and every item of a block takes a token, whether it is
read or passed over, and nothing passes an end token. No recursion and no repetition of the grammar
goes deeper than there are tokens left. -/
theorem files_reach_end :
    (∀ (file : FileId) (front : List Token) (last : Token) (ids : Identities),
      last.kind = .eof → (∀ t ∈ front, t.kind ≠ .eof) → ∃ fs u,
        files (.start file (front ++ [last]) ids.nodes ids.types) = (some fs, u) ∧ fs ≠ [] ∧
        u.rest = [last] ∧
        parseTokens file (front ++ [last]) ids = (fs, u.problems, ⟨u.nodes, u.types⟩)) ∧
    (∀ s : State, s.kind ≠ .eof → ∃ d u, declItem s = (some (some d), u) ∧ Moves s u ∧
      u.rest.length < s.rest.length) ∧
    (∀ s : State, s.kind ≠ .eof → s.kind ≠ .punct .rightBrace → ∃ a u,
      blockItem stmt s = (some (some a), u) ∧ Moves s u ∧ u.rest.length < s.rest.length) ∧
    (∀ (α : Type) (p : Parser α) (s : State), Reader p → Moves s (p s).2) ∧
    (∀ (σ α : Type) (step : (σ → Parser α) → σ → Parser α) (whole : σ → Parser α),
      Recurs step whole → Unrolls step whole) := by
  refine ⟨?_, fun s hk => declItem_moves hk, fun s hk hb => blockItem_moves hk hb,
    fun α p s h => h.moves s, fun σ α step whole h => h.unrolls⟩
  intro file front last ids hlast hfront
  obtain ⟨fs, u, hrun, hfs, steps, hend⟩ := Steps.files (.start file (front ++ [last]) ids.nodes ids.types)
  obtain ⟨left, hrest, hleft⟩ := steps.moves.up_to_end rfl hlast
  refine ⟨fs, u, hrun, hfs, ?_, ?_⟩
  · cases left with
    | nil => exact hrest
    | cons t left =>
      -- The token in front is not an end token, and nothing is read before one.
      have here : u.kind = t.kind := by
        rw [State.kind, State.peek, show u.rest = _ from hrest]
        rfl
      exact absurd (here.symm.trans hend) (hfront t (hleft.subset List.mem_cons_self))
  · rw [parseTokens, hrun]
    rfl

/-- An initializer that is not closed, a stray bracket and a struct without an end: the source is read
to its last token all the same. -/
theorem files_reach_end_unclosed :
    let tokens := Token.kept (Lexer.scan 0 "void f() \x7b x = .\x7b .a = 1, ; \x7d ] struct S \x7b int")
    let front := tokens.dropLast
    let last := tokens.getLastD ⟨.eof, "", {}⟩
    let s := State.start 0 (front ++ [last]) 0 0
    (last.kind = .eof ∧ (∀ t ∈ front, t.kind ≠ .eof) ∧ 20 < front.length ∧
      ∃ fs u, files s = (some fs, u) ∧ fs ≠ [] ∧ u.rest = [last]) ∧
    (s.kind ≠ .eof ∧ ∃ d u, declItem s = (some (some d), u) ∧ Moves s u ∧
      u.rest.length < s.rest.length) ∧
    (s.kind ≠ .punct .rightBrace ∧ ∃ a u, blockItem stmt s = (some (some a), u) ∧ Moves s u ∧
      u.rest.length < s.rest.length) ∧
    (Reader topLevel ∧ Moves s (topLevel s).2) ∧
    (Recurs (manyStep (blockItem stmt)) (fun _ => many (blockItem stmt)) ∧
      (manyStep (blockItem stmt))^[30] (fun _ => fail) () s = many (blockItem stmt) s) := by
  intro tokens front last s
  have hlast : last.kind = .eof := by decide +kernel
  have hfront : ∀ t ∈ front, t.kind ≠ .eof := by decide +kernel
  have hs : s.kind ≠ .eof := by decide +kernel
  have hb : s.kind ≠ .punct .rightBrace := by decide +kernel
  have hlength : s.rest.length < 30 := by decide +kernel
  obtain ⟨source, item, inner, reader, unrolls⟩ := files_reach_end
  obtain ⟨fs, u, hrun, hfs, hrest, -⟩ := source 0 front last {} hlast hfront
  refine ⟨⟨hlast, hfront, by decide +kernel, fs, u, hrun, hfs, hrest⟩, ⟨hs, item s hs⟩,
    ⟨hb, inner s hs hb⟩, ⟨.topLevel, reader _ topLevel s .topLevel⟩, .block, ?_⟩
  exact unrolls _ _ _ _ .block (fun _ => fail) 30 () s hlength

end Quill.Parser
