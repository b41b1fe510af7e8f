import Quill.Proofs.ReadingTrees

/-!
# Steps of reading files

Problems stay held back until the next declaration is begun, so states between declarations are
taken without that.
-/
namespace Quill.Parser

open List

def packageRound : Parser (Option String) := do
  if ← eat (.punct .slash) then return some (← identifier "a package path segment")
  else return none

def importRound (soFar : List String × Bool) : Parser (Option (List String × Bool)) := do
  if soFar.2 then return none
  if ← eat (.punct .colonColon) then
    if ← eat (.punct .star) then return some (soFar.1, true)
    let name ← identifier "a symbol name or '*'"
    return some (soFar.1 ++ [name], false)
  return none

namespace Gives

variable {m : Mode} {n : Nat} {c : Bool} {s : State}

theorem packageRound :
    Gives m n c packageRound s [] Option.isSome fun r => (r.map fun x => [.name x]).getD [] :=
  eat (name fun x v => done rfl) (stay rfl rfl)

theorem packagePath : Gives m n c packagePath s [] (fun _ => true) fun ns => ns.map .name :=
  name fun first t => part (many fun _ _ => packageRound) fun more u =>
    done (by rw [map_cons, map_eq_flatMap]; rfl)

theorem packageDecl (hk : s.kind = .keyword .kPackage) :
    Gives m n c packageDecl s [] (fun _ => true) fun d => [.loose (.decl d)] :=
  take hk (part packagePath fun ns t => mark fun u => nodeFrom fun i v => made .package rfl)

theorem importKind : Gives m n true importKind s [] (fun _ => true) fun _ => [] := by
  refine look (look ?_)
  split
  iterate 2
    rename_i hk hk'
    rw [State.kindAt_one (hk ▸ by simp)] at hk'
    exact passBy hk (passBy hk' (passed (done rfl)))
  · exact done rfl

theorem importRound (r : List String × Bool) :
    Gives m n c (importRound r) s (r.1.map .name) Option.isSome fun r' => (r'.getD r).1.map .name := by
  unfold Parser.importRound
  split
  · exact stay rfl rfl
  · exact eat (eat (done rfl) (name fun x u => done (by simp))) (stay rfl rfl)

theorem importSymbols : Gives m n c importSymbols s [] (fun _ => c) fun r => r.1.map .name :=
  extend (r := fun r : List String × Bool => r.1.map .name) (a := ([], false)) fun r _ _ => importRound r

theorem importDecl (hk : s.kind = .keyword .kImport) :
    Gives m n c importDecl s [] (fun _ => true) fun d => [.loose (.decl d)] :=
  take hk (skip importKind fun kind t => part packagePath fun segments u => part importSymbols fun symbols v =>
    mark fun w => nodeFrom fun i x => made (.imports (d := ⟨kind, segments, symbols.1, symbols.2⟩)) rfl)

theorem typedefDecl (hk : s.kind = .keyword .kTypedef) :
    Gives m n c typedefDecl s [] (fun _ => true) fun d => [.loose (.decl d)] := by
  refine take hk (name fun x t => skip eaten fun given u => ?_)
  lift_lets
  intro jp
  have rest (target : Option TypeExpr) (v : State) : Gives m n true (jp target) v
      ([.word s.peek] ++ [.name x] ++ target.toList.map .typed) (fun _ => true) fun d => [.loose (.decl d)] :=
    mark fun w => nodeFrom fun i y => made .typedef rfl
  split
  · exact part (.given type) rest
  · exact rest none _

theorem structField : Reads m structField (fun f => Item.ofType f.name f.type) s :=
  look (part type fun ty t => name fun x u => look (done rfl))

theorem structDecl (hk : s.kind = .keyword .kStruct) :
    Gives m n c structDecl s [] (fun _ => true) fun d => [.loose (.decl d)] := by
  refine take hk (name fun x t => skip eaten fun generic u => ?_)
  lift_lets
  intro jp
  have rest (generics : List String) (v : State) : Gives m n true (jp generics) v
      ([.word s.peek] ++ [.name x] ++ generics.map .name) (fun _ => true) fun d => [.loose (.decl d)] :=
    mark fun w => part (commaList (fun _ _ => structField) fun _ => ⟨_, rfl⟩) fun fields y => mark fun z => skip eaten fun _ v =>
      nodeFrom fun i w => made (.struct (d := ⟨x, generics, fields⟩)) rfl
  split
  · refine commaSeparated (fun _ _ => identifier) fun names v _ => mark fun w => ?_
    rw [← map_eq_flatMap]
    exact rest names w
  · exact rest [] _

theorem param : Reads m param (fun p => Item.ofType p.name p.type) s :=
  look (part type fun ty t => skip eaten fun mutable u => name fun x v => look (done rfl))

theorem params : Gives m n c params s [] (fun _ => true) Item.ofParams := by
  refine mark fun t => look ?_
  lift_lets
  intro jp
  have rest (ps : List Param) (u : State) : Gives m n true (jp ps) u (Item.ofParams ps) (fun _ => true) Item.ofParams :=
    mark fun v => done rfl
  split
  · exact rest [] _
  · exact commaSeparated (fun _ _ => param) fun ps u _ => rest ps u

theorem typedDecl : Gives .mending n c typedDecl s [] (fun _ => true) fun d => [.loose (.decl d)] := by
  refine look (start (part type fun result t => look (look ?_)))
  split
  · refine name fun x u => part params fun ps v => look ?_
    split
    · rename_i hk
      exact pass hk (nodeFrom fun i w => made (.header (d := ⟨x, ps, result⟩)) rfl)
    · exact part (settled (block fun _ _ => stmt)) fun b w => nodeFrom fun i y =>
        made (.function (d := ⟨x, ps, result⟩)) rfl
    · exact expected _
  · exact bind (varDeclEnd (some result)) fun r u => made .varDecl rfl

theorem topLevel : Gives .mending n c topLevel s [] (fun _ => true) fun d => [.decl d] := by
  refine part directives fun ds t => look (look ?_)
  lift_lets
  intro jp
  have last (d : Decl) (u : State) : Gives .mending n true (jp d) u (ds.map .directive ++ [.loose (.decl d)])
      (fun _ => true) fun d => [.decl d] :=
    pure (fun _ _ steps => .dress (append_assoc .. ▸ steps)) (Nat.le_refl _)
  have rest {p : Parser Decl} (hp : Gives .mending n c p t [] (fun _ => true) fun d => [.loose (.decl d)]) :
      Gives .mending n c (p >>= jp) t (ds.map .directive) (fun _ => true) fun d => [.decl d] := part hp last
  split
  · rename_i hk
    refine take hk (nodeAt fun i u => ?_)
    rw [append_assoc]
    exact make .separator (last _ u)
  · rename_i hk
    exact rest (packageDecl hk)
  · rename_i hk
    exact rest (importDecl hk)
  · rename_i hk
    exact rest (typedefDecl hk)
  · rename_i hk
    exact rest (structDecl hk)
  · exact part varDecl fun r u => make .varDecl (last _ u)
  · exact part varDecl fun r u => make .varDecl (last _ u)
  · exact rest typedDecl

end Gives

theorem declItem_end {s : State} (hk : s.kind = .eof) : declItem s = (some none, s) := by
  simp [declItem, bind_apply, atEnd, at?, inspect, hk, Pure.pure]

theorem declItem_read {s u : State} {d : Decl} (hk : s.kind ≠ .eof) (h : topLevel s.unmuted = (some d, u)) :
    declItem s = (some (some (some d)), u) := by
  unfold State.unmuted at h
  simp only [declItem, bind_apply, atEnd, at?, inspect, update, result?, beq_false_of_ne hk,
    Bool.false_eq_true, if_false, h]
  rfl

theorem declItem_failed {s u : State} (hk : s.kind ≠ .eof) (h : topLevel s.unmuted = (none, u)) :
    declItem s = (some (some none), (u.resumed s.rest (declResync 0)).recovered) := by
  unfold State.unmuted at h
  simp only [declItem, bind_apply, atEnd, at?, inspect, update, result?, beq_false_of_ne hk,
    Bool.false_eq_true, if_false, h, resyncDecl]
  rfl

namespace Steps

variable {s₀ s : State} {st : List Item}

theorem declItem (h : Steps .mending s₀ st s.unmuted) : ∃ item u, declItem s = (some item, u) ∧
    Steps .mending s₀ (st ++ item.join.toList.map .decl) u.unmuted ∧
      (item = none ∧ u = s ∧ s.kind = .eof ∨ item.isSome ∧ u.rest.length < s.rest.length) := by
  by_cases hk : s.kind = .eof
  · exact ⟨none, s, declItem_end hk, by simpa using h, .inl ⟨rfl, rfl, hk⟩⟩
  have run := (Gives.topLevel (s := s.unmuted) (n := s.rest.length) (c := false)) s₀ st (by simpa using h)
    (Nat.le_refl _)
  have alone := (Gives.topLevel (n := s.rest.length) (c := false)) s.unmuted [] .refl (Nat.le_refl _)
  rcases hr : topLevel s.unmuted with ⟨_ | d, u⟩ <;> rw [hr] at run alone
  · obtain ⟨st', v, more, told⟩ := alone
    refine ⟨_, _, declItem_failed hk hr, ?_, .inr ⟨rfl, ?_⟩⟩
    · obtain ⟨k, heq⟩ := u.resumed_eq s.rest (declResync 0)
      rw [heq]
      simpa using h.mend k more told
    · exact State.length_resumed (s := s.unmuted) hk (told.rest ▸ more.moves.suffix) (declResync 0)
  · exact ⟨_, _, declItem_read hk hr, run.1.unmute, .inr ⟨rfl, run.2⟩⟩

/-- The files that are closed and the declarations of the open one. -/
abbrev soFar (r : FilesSoFar) : List Item := r.1.map .file ++ r.2.map .decl

theorem fileOf {decls : List Decl} (next : List Decl)
    (h : Steps .mending s₀ (st ++ decls.map .decl ++ next.map .decl) s.unmuted) :
    ∃ f u, fileOf decls s = (some f, u) ∧ Steps .mending s₀ (st ++ [.file f] ++ next.map .decl) u.unmuted ∧
      u.rest = s.rest :=
  ⟨_, _, rfl, h.file next rfl, rfl⟩

theorem fileStep {r : FilesSoFar} (h : Steps .mending s₀ (soFar r) s.unmuted) : ∃ r' u,
    fileStep r s = (some r', u) ∧ Steps .mending s₀ (soFar (r'.getD r)) u.unmuted ∧
      (r' = none ∧ u = s ∧ s.kind = .eof ∨ r'.isSome ∧ u.rest.length < s.rest.length) := by
  obtain ⟨item, u, hitem, steps, hlast⟩ := declItem h
  rw [Parser.fileStep, bind_apply, hitem]
  rcases item with _ | _ | d
  · obtain ⟨-, rfl, hk⟩ | ⟨hsome, -⟩ := hlast
    · exact ⟨_, _, rfl, h, .inl ⟨rfl, rfl, hk⟩⟩
    · cases hsome
  all_goals obtain ⟨hnone, -⟩ | ⟨-, fewer⟩ := hlast
  · cases hnone
  · exact ⟨_, _, rfl, by simpa using steps, .inr ⟨rfl, fewer⟩⟩
  · cases hnone
  · obtain ⟨closed, decls⟩ := r
    dsimp only
    split
    · obtain ⟨f, v, hf, steps, hrest⟩ := fileOf [d] steps
      rw [bind_apply, hf]
      exact ⟨_, _, rfl, by simpa [soFar] using steps, .inr ⟨rfl, hrest ▸ fewer⟩⟩
    · exact ⟨_, _, rfl, by simpa [soFar] using steps, .inr ⟨rfl, fewer⟩⟩

theorem files (s : State) : ∃ fs u, files s = (some fs, u) ∧ fs ≠ [] ∧
    Steps .mending s.unmuted (fs.map .file) u.unmuted ∧ u.kind = .eof := by
  have rounds : ∀ (fuel : Fuel) (r : FilesSoFar) (t : State), Steps .mending s.unmuted (soFar r) t.unmuted →
      t.rest.length < fuel.length → ∃ r' u, extendWithin .fileStep fuel r t = (some r', u) ∧
        Steps .mending s.unmuted (soFar r') u.unmuted ∧ u.kind = .eof := by
    intro fuel
    induction fuel with
    | nil => exact fun _ _ _ enough => absurd enough (Nat.not_lt_zero _)
    | cons _ fuel ih =>
      intro r t steps enough
      rw [length_cons] at enough
      obtain ⟨r', u, hstep, steps', ⟨rfl, rfl, hk⟩ | ⟨hsome, fewer⟩⟩ := fileStep steps
      · rw [extendWithin, bind_apply, hstep]
        exact ⟨r, u, rfl, steps, hk⟩
      · obtain ⟨next, rfl⟩ := Option.isSome_iff_exists.mp hsome
        rw [extendWithin, bind_apply, hstep]
        exact ih next u steps' (by omega)
  obtain ⟨⟨closed, decls⟩, u, hall, steps, hk⟩ :=
    rounds (s.peek :: s.rest) ([], []) s .refl (Nat.lt_succ_self _)
  have hrun : extend .fileStep ([], []) s = (some (closed, decls), u) := hall
  rw [Parser.files, bind_apply, hrun]
  dsimp only
  split
  · obtain ⟨f, v, hf, steps, hrest⟩ := fileOf [] (by simpa using steps)
    rw [bind_apply, hf]
    exact ⟨_, _, rfl, append_ne_nil_of_right_ne_nil _ (cons_ne_nil _ _), by simpa using steps,
      State.kind_congr hrest ▸ hk⟩
  · rename_i hnone
    simp only [Bool.or_eq_true, not_or, Bool.not_eq_true, Bool.not_eq_false', List.isEmpty_iff] at hnone
    obtain ⟨rfl, hclosed⟩ := hnone
    exact ⟨_, _, rfl, hclosed, by simpa [soFar] using steps, hk⟩

end Steps

end Quill.Parser
