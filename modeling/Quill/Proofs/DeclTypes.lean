import Quill.Proofs.TypingWalk

/-!
# Types of declarations

The type that is recorded for a declaration is the one of its symbol.
-/
namespace Quill

/-- The types recorded for declarations are those of their symbols. -/
def Checking.Owned (table : PackageTable) (st : Checking) : Prop :=
  ∀ p file d name t, table.sourceOf? p = some file → d ∈ file.decls → d.name? = some name →
    st.facts.types.get? d.id = some t →
    ∃ s, (st.globals.scope p).symbol? name = some s ∧ s.StandsFor d ∧ t = s.kind.own

theorem Checking.Owned.of_settled {table : PackageTable} {st st' : Checking} (h : st.Owned table)
    (htypes : st'.facts.types = st.facts.types) (hglobals : st.globals.Settled st'.globals) :
    st'.Owned table := by
  intro p file d name t source hd hname ht
  rw [htypes] at ht
  obtain ⟨s, hs, stands⟩ := h p file d name t source hd hname ht
  exact ⟨s, (hglobals.symbol? p name).trans hs, stands⟩

section Resolve

variable {table : PackageTable} {files : List File} (holds : table.Holds files)
  (nodup : ∀ f ∈ files, (f.declIds .node).Nodup)

include holds nodup

def ownLaw (package : PackageId) : TypingLaw package where
  Sound _ st := st.Owned table
  Good _ _ := True
  Node i := ∀ p file d, table.sourceOf? p = some file → d ∈ file.decls → i ≠ d.id
  Own d := ∃ file, table.sourceOf? package = some file ∧ d ∈ file.decls
  Ref _ := True
  mono _ _ := trivial
  scalar _ _ := trivial
  pointer := Iff.rfl
  mutPointer := Iff.rfl
  array := Iff.rfl
  function := @TypingLaw.function_of_all
  field _ _ _ := trivial
  symbol _ _ _ _ := trivial
  resolve := @fun scopes st t hs =>
    ⟨hs.of_settled rfl (Survey.resolveType_later package none t st.toSurvey).onward.toSettled,
      fun _ _ => trivial⟩
  report _ _ hs := hs.of_settled rfl (.refl _)
  type := @fun scopes st node t hs hnode _ p file d name u source hd hname hu => by
    rw [show (Check.setType node t st).2.facts.types = st.facts.types.insert node t from rfl,
      Table.get?_insert, if_neg (hnode p file d source hd).symm] at hu
    exact hs p file d name u source hd hname hu
  written hs _ _ := hs.of_settled rfl (.refl _)
  own := @fun st d name s hs hown hname hsymbol stands _ p file d' name' u source hd' hname' hu => by
    rw [show (Check.setType d.id s.kind.own st).2.facts.types =
      st.facts.types.insert d.id s.kind.own from rfl, Table.get?_insert] at hu
    split at hu
    · rename_i heq
      obtain ⟨file', source', hd⟩ := hown
      obtain ⟨rfl, rfl⟩ := holds.decl_eq nodup source hd' source' hd d'.id_mem_ids
        (heq ▸ d.id_mem_ids)
      obtain rfl := Option.some.inj (hname.symm.trans hname')
      exact ⟨s, hsymbol, stands, (Option.some.inj hu).symm⟩
    · exact hs p file d' name' u source hd' hname' hu
  near hs _ _ := ⟨fun _ _ => trivial, hs.of_settled rfl (.refl _)⟩
  far hs _ _ _ _ := hs.of_settled rfl (.refl _)
  opened hs := hs.of_settled rfl (.refl _)
  closed hs := hs.of_settled rfl (.refl _)
  declared := @fun scope scopes st l o hs _ => by
    rcases Check.declareLocal_cases l st with ⟨-, h⟩ | ⟨own, outer, hlocals, ⟨-, h⟩ | ⟨-, h⟩⟩
    · rwa [h]
    · rw [h]
      exact hs.of_settled rfl (.refl _)
    · rw [h]
      exact hs.of_settled rfl (.refl _)

theorem inner_ne {p p' : PackageId} {file file' : File} {d d' : Decl}
    (source : table.sourceOf? p = some file) (hd : d ∈ file.decls)
    (source' : table.sourceOf? p' = some file') (hd' : d' ∈ file'.decls) {i : Nat} {ids : List Nat}
    (hids : d.ids .node = ids ++ [d.id]) (hi : i ∈ ids) : i ≠ d'.id := by
  intro heq
  have here : i ∈ d.ids .node := hids ▸ List.mem_append_left _ hi
  obtain ⟨-, rfl⟩ := holds.decl_eq nodup source hd source' hd' here (heq ▸ d'.id_mem_ids)
  have apart := (List.nodup_flatMap.mp (nodup file (holds.among p file source))).1 d hd
  rw [hids, List.nodup_append] at apart
  exact apart.2.2 i hi d.id (List.mem_singleton_self _) heq

theorem resolve_owned (order : List PackageId) (nodes : Nat) {p : PackageId} {file : File}
    (source : table.sourceOf? p = some file) {d : Decl} (hd : d ∈ file.decls) {name : String}
    (hname : d.name? = some name) {t : Ty}
    (ht : (resolve table order nodes).1.typeOf? d.id = some t) :
    ∃ s, ((resolve table order nodes).1.globals.scope p).symbol? name = some s ∧
      s.StandsFor d ∧ t = s.kind.own := by
  let start : Checking := { Survey.ofPackages table order with facts := .ofSize nodes }
  have started : start.Owned table := by
    intro p file d name t _ _ _ ht
    rw [show start.facts.types = .ofSize nodes from rfl, Table.get?_ofSize] at ht
    cases ht
  have admitted : ∀ p ∈ order, ∀ file, table.sourceOf? p = some file → ∀ d ∈ file.decls,
      (ownLaw holds nodup p).AdmitsDecl start.globals d := by
    intro p _ file source d hd
    have own : ∃ file, table.sourceOf? p = some file ∧ d ∈ file.decls := ⟨file, source, hd⟩
    cases d with
    | function info sig body =>
      refine fun _ _ _ _ _ _ => ⟨own, fun i hi p' file' d' source' hd' => ?_, fun _ _ => trivial⟩
      exact inner_ne holds nodup source hd source' hd' rfl
        (List.mem_append_right _ (List.mem_append_left _ hi))
    | var info decl =>
      refine ⟨own, fun i hi p' file' d' source' hd' => ?_, fun _ _ => trivial⟩
      exact inner_ne holds nodup source hd source' hd' rfl (List.mem_append_right _ hi)
    | _ => exact own
  exact (TypingLaw.packages_sound (ownLaw holds nodup) (fun _ _ => Iff.rfl) started admitted).1
    p file d name t source hd hname ht

end Resolve

end Quill
