import Quill.Proofs.Placement

/-!
# Places in the tree of a text

Every node and every written type of the tree of a text lies in the text and in the node it is part
of, and every diagnostic lies in the text.
-/
namespace Quill

open List Lexer

variable (file : FileId) (text : String)

/-- The text of a source, in which identifiers are words. -/
def Page.ofText (file : FileId) (text : String) : Page := ⟨file, textBytes text, IsWord⟩

namespace Lexer

theorem State.run_cut {st : State} {fuel : Nat} : ∀ t ∈ (st.run fuel).map (·.1), t.kind = .eof ∨
    ∃ frames c cs lex, Cut frames c cs lex ∧ t.kind = lex.kind ∧
      t.text = String.ofList (c :: cs.take lex.more) := by
  induction fuel generalizing st with
  | zero => exact nofun
  | succ fuel ih =>
    cases hrest : st.atToken.rest with
    | nil =>
      rw [run_of_nil hrest, next_of_nil hrest]
      exact forall_mem_singleton.mpr (.inl rfl)
    | cons c cs =>
      rw [run_of_cons hrest]
      refine forall_mem_cons.mpr ⟨.inr ?_, ih⟩
      rw [next_of_cons hrest]
      exact ⟨_, c, cs, _, lexeme_cut _ cs c, rfl, rfl⟩

theorem scan_isWord {file : FileId} {text : String} {t : Token} (ht : t ∈ scan file text)
    (hkind : t.kind = .identifier) : IsWord t.text ∧ .ofWord t.text = TokenKind.identifier := by
  rcases State.run_cut t ht with heof | ⟨frames, c, cs, lex, hcut, hkind', htext⟩
  · cases hkind.symm.trans heof
  · rw [htext]
    exact hcut.isWord (hkind'.symm.trans hkind)

end Lexer

theorem Tiles.onPage (page : Page) {start : Nat} {tokens : List Token}
    (h : Tiles page.file page.bytes start tokens) :
    (tokens.Pairwise fun t u => t.span.stop ≤ u.span.start) ∧
      ∀ t ∈ tokens, t.span.On page ∧ start ≤ t.span.start := by
  induction h with
  | @eof start token hkind hspan hle _ =>
    refine ⟨pairwise_singleton _ _, forall_mem_singleton.mpr ?_⟩
    rw [hspan]
    exact ⟨⟨rfl, Nat.le_refl _, Nat.le_refl _, rfl⟩, hle⟩
  | @token start token tokens hkind hfile hle hlt hstop hline _ _ ih =>
    refine ⟨pairwise_cons.mpr ⟨fun u hu => (ih.2 u hu).2, ih.1⟩, ?_⟩
    refine forall_mem_cons.mpr ⟨⟨⟨hfile, Nat.le_of_lt hlt, hstop, hline⟩, hle⟩, fun u hu => ?_⟩
    exact ⟨(ih.2 u hu).1, by have := (ih.2 u hu).2; omega⟩

theorem Tiles.exists_eof {file : FileId} {bytes : List UInt8} {start : Nat} {tokens : List Token}
    (h : Tiles file bytes start tokens) : ∃ t ∈ tokens, t.kind = .eof := by
  induction h with
  | eof hkind => exact ⟨_, mem_cons_self, hkind⟩
  | token _ _ _ _ _ _ _ _ ih =>
    obtain ⟨t, ht, hkind⟩ := ih
    exact ⟨t, mem_cons_of_mem _ ht, hkind⟩

theorem scan_onPage : Tiles file (textBytes text) 0 (scan file text) := by
  rw [textBytes_eq]
  exact (Lexer.Placed.start file text).run_tiles (Nat.lt_succ_self _)

theorem start_onPage (nodes types : Nat) :
    Parser.OnPage (.ofText file text) (.start file (Token.kept (scan file text)) nodes types) := by
  have tiles := scan_onPage file text
  obtain ⟨ordered, on⟩ := Tiles.onPage (.ofText file text) tiles
  have sub : (Token.kept (scan file text)).Sublist (scan file text) :=
    filter_sublist
  have word : ∀ t ∈ scan file text, t.kind = .identifier → IsWord t.text :=
    fun t ht hkind => (scan_isWord ht hkind).1
  have kept : ∀ t ∈ Token.kept (scan file text), t.span.On (.ofText file text) :=
    fun t ht => (on t (sub.mem ht)).1
  refine ⟨⟨ordered.sublist sub, fun t ht => ⟨kept t ht, word t (sub.mem ht)⟩, ?_⟩, rfl, nofun⟩
  -- The end token is kept, so there is a first one.
  obtain ⟨eof, heof, hkind⟩ := tiles.exists_eof
  have hmem : eof ∈ Token.kept (scan file text) :=
    mem_filter.mpr ⟨heof, by simp [Token.lexError?, hkind]⟩
  unfold Parser.State.start
  cases htokens : Token.kept (scan file text) with
  | nil => exact absurd (htokens ▸ hmem) not_mem_nil
  | cons t ts => exact kept t (htokens ▸ mem_cons_self)

theorem parseText_lies (ids : Identities) :
    (∀ f ∈ (parseText file text ids).1,
      (Part.node (.file f)).Lies (.ofText file text) 0 (textBytes text).length) ∧
    ∀ d ∈ (parseText file text ids).2.1, d.span.On (.ofText file text) := by
  obtain ⟨fs, u, hrun, hfiles, hproblems⟩ :=
    Parser.files_lie (start_onPage file text ids.nodes ids.types)
  have hparse : parseTokens file (Token.kept (scan file text)) ids =
      (fs, u.problems, ⟨u.nodes, u.types⟩) := by
    rw [parseTokens, hrun]
    rfl
  rw [parseText]
  dsimp only
  rw [hparse]
  refine ⟨hfiles, forall_mem_append.mpr ⟨?_, hproblems⟩⟩
  intro d hd
  obtain ⟨t, ht, hd⟩ := mem_filterMap.mp hd
  obtain ⟨reason, -, rfl⟩ := Option.map_eq_some_iff.mp hd
  exact (Tiles.onPage (.ofText file text) (scan_onPage file text)).2 t ht |>.1

namespace Part.Lies

variable {page : Page} {lo hi : Nat}

theorem of_mem_all {n m : Node} (h : (Part.node n).Lies page lo hi) (hm : m ∈ n.all) :
    (Part.node m).Lies page m.span.start m.span.stop := by
  rw [Node.mem_all_iff] at hm
  induction hm using Relation.ReflTransGen.head_induction_on with
  | refl => exact h.mono (Nat.le_refl _) (Nat.le_refl _)
  | @head a c hac _ ih =>
    rcases mem_append.mp hac with hchild | hoperand
    · have hmem : .node a ∈ (Part.node c).children :=
        mem_append_right _ (mem_map_of_mem hchild)
      exact (ih.child hmem).mono (Nat.le_refl _) (Nat.le_refl _)
    · obtain ⟨e, he, rfl⟩ := mem_map.mp hoperand
      exact ih.operand (Option.mem_toList.mp he)

end Part.Lies

theorem Part.Lies.type_parts {page : Page} {lo hi : Nat} {t u : TypeExpr} (h : (Part.type t).Lies page lo hi)
    (hu : u ∈ t.parts) : (Part.type u).Lies page lo hi := by
  rw [TypeExpr.mem_parts_iff] at hu
  induction hu using Relation.ReflTransGen.head_induction_on with
  | refl => exact h
  | head hi _ ih =>
    have hin := ih.child (mem_map_of_mem hi)
    exact hin.mono (Nat.le_trans ih.bounds.1 hin.bounds.1) (Nat.le_trans hin.bounds.2 ih.bounds.2)

theorem parse_single :
    (parse [(file, text)]).program.files = (parseText file text {}).1 ∧
      (parse [(file, text)]).diagnostics = (parseText file text {}).2.1 := by
  unfold parse parseTexts parseTexts
  generalize parseText file text {} = r
  exact ⟨append_nil _, append_nil _⟩

/-- Every node of the tree of a text below its root lies in the text, with the line it starts on, and
so do the types written on it with the types in them; they and the children of the node lie within
the node. Every diagnostic lies in the text too. -/
theorem parse_places :
    (∀ f ∈ (parse [(file, text)]).program.files, ∀ n ∈ (Node.file f).all,
      n.span.On (.ofText file text) ∧ (∀ m ∈ n.children, m.span.Within n.span) ∧
      ∀ t ∈ n.types, ∀ u ∈ t.parts, u.span.On (.ofText file text) ∧ u.span.Within n.span) ∧
    ∀ d ∈ (parse [(file, text)]).diagnostics, d.span.On (.ofText file text) := by
  obtain ⟨hfiles, hdiagnostics⟩ := parseText_lies file text {}
  rw [(parse_single file text).1, (parse_single file text).2]
  refine ⟨fun f hf n hn => ?_, hdiagnostics⟩
  have lies := (hfiles f hf).of_mem_all hn
  refine ⟨lies.on, fun m hm => ?_, fun t ht u hu => ?_⟩
  · exact (lies.child (mem_append_right _ (mem_map_of_mem hm))).bounds
  · have within := (lies.child (mem_append_left _ (mem_map_of_mem ht))).type_parts hu
    exact ⟨within.on, within.bounds⟩

/-- A sum whose first operand stands in parentheses, and a stray bracket behind it. -/
theorem parse_places_sum :
    let text := "int f(int* p) \x7b return (1) + 2; \x7d )"
    ∃ f ∈ (parse [(0, text)]).program.files, f.decls.map (·.span) = [⟨0, 0, 33, 1⟩] ∧
      (∀ d ∈ f.decls, d.span.On (.ofText 0 text) ∧ d.span.Within f.info.span) ∧
      (parse [(0, text)]).diagnostics.map (·.span) = [⟨0, 34, 35, 1⟩] ∧
      ∀ d ∈ (parse [(0, text)]).diagnostics, d.span.On (.ofText 0 text) := by
  intro text
  have hfiles : (parse [(0, text)]).program.files.map (fun f => f.decls.map (·.span)) =
      [[⟨0, 0, 33, 1⟩]] := by decide +kernel
  have hdiagnostics : (parse [(0, text)]).diagnostics.map (·.span) = [⟨0, 34, 35, 1⟩] := by
    decide +kernel
  obtain ⟨nodes, diagnostics⟩ := parse_places 0 text
  generalize parse [(0, text)] = r at hfiles hdiagnostics nodes diagnostics ⊢
  obtain ⟨f, hf, hdecls⟩ := mem_map.mp (hfiles ▸ mem_cons_self :
    [(⟨0, 0, 33, 1⟩ : Span)] ∈ r.program.files.map fun f => f.decls.map (·.span))
  refine ⟨f, hf, hdecls, fun d hd => ?_, hdiagnostics, diagnostics⟩
  have hdecl : .decl d ∈ (Node.file f).all := Node.mem_all_iff.mpr
    (.single (mem_append_left _ (mem_map_of_mem hd)))
  exact ⟨(nodes f hf (.decl d) hdecl).1,
    (nodes f hf (.file f) (Node.mem_all_iff.mpr .refl)).2.1 _ (mem_map_of_mem hd)⟩

end Quill
