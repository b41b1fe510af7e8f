import Mathlib.Data.List.MinMax
import Quill.Proofs.CanonicalType
import Quill.Proofs.ClosedScope

/-!
# Structs that contain themselves

A struct with arguments stores others inline, and may come back to itself by way of them. The search
finds every cycle that meets each generic struct with one list of arguments only: seen from the
lightest struct on the cycle, what is stored never comes out of an argument.
-/
namespace Quill

open List Ty

/-- A struct with arguments in place of its parameters. -/
abbrev StructUse := StructId × List Ty

variable {unopened : List StructId} {way : List StructUse} {as : List Ty} {owner : Nat}
  {f : String × Ty} {id target : StructId} {a b : StructUse} {type : Ty}

namespace Ty

/-- The struct that a value of this type stores inline, whatever the versions in its arguments. -/
def inline? (t : Ty) : Option StructUse := t.stored?.map fun use => (use.1, eraseAll use.2)

theorem eraseAll_eq_map (ts : List Ty) : eraseAll ts = ts.map erase := by
  induction ts with
  | nil => rfl
  | cons t ts ih => rw [eraseAll, ih, map_cons]

mutual

theorem erase_erase (t : Ty) : t.erase.erase = t.erase := by
  match t with
  | void | scalar _ | struct _ | abstract _ _ _ | package _ | generic _ _ _ => rfl
  | pointer t | mutPointer t | array t _ => simp only [erase, erase_erase t]
  | function ps r => simp only [erase, eraseAll_eraseAll ps, erase_erase r]
  | .instance _ as _ => simp only [erase, eraseAll_eraseAll as]

theorem eraseAll_eraseAll (ts : List Ty) : eraseAll (eraseAll ts) = eraseAll ts := by
  match ts with
  | [] => rfl
  | t :: ts => simp only [eraseAll, erase_erase t, eraseAll_eraseAll ts]

end

mutual

theorem weight_erase (t : Ty) : t.erase.weight = t.weight := by
  match t with
  | void | scalar _ | struct _ | abstract _ _ _ | package _ | generic _ _ _ => rfl
  | pointer t | mutPointer t | array t _ => simp only [erase, weight, weight_erase t]
  | function ps r => simp only [erase, weight, weightAll_eraseAll ps, weight_erase r]
  | .instance _ as _ => simp only [erase, weight, weightAll_eraseAll as]

theorem weightAll_eraseAll (ts : List Ty) : weightAll (eraseAll ts) = weightAll ts := by
  match ts with
  | [] => rfl
  | t :: ts => simp only [eraseAll, weightAll, weight_erase t, weightAll_eraseAll ts]

end

mutual

theorem Formed.erase {structs : StructTable} {t : Ty} (h : t.Formed structs) :
    t.erase.Formed structs := by
  match t with
  | void | scalar _ | abstract _ _ _ | package _ | generic _ _ _ => trivial
  | struct _ => exact h
  | pointer t | mutPointer t | array t _ => exact .erase (t := t) h
  | function ps r => exact ⟨h.1.eraseAll, h.2.erase⟩
  | .instance _ as _ =>
    refine ⟨h.1, h.2.1, ?_, h.2.2.2.eraseAll⟩
    rw [eraseAll_eq_map, length_map]
    exact h.2.2.1

theorem AllFormed.eraseAll {structs : StructTable} {l : List Ty} (h : AllFormed structs l) :
    AllFormed structs (eraseAll l) := by
  match l with
  | [] => trivial
  | t :: l => exact ⟨h.1.erase, h.2.eraseAll⟩

end

mutual

theorem erase_substitute (owner : Nat) (as : List Ty) (t : Ty) :
    (t.substitute owner (eraseAll as)).erase = (t.substitute owner as).erase := by
  match t with
  | void | scalar _ | struct _ | abstract _ _ _ | package _ => rfl
  | pointer t | mutPointer t | array t _ =>
    simp only [substitute, erase, erase_substitute owner as t]
  | function ps r =>
    simp only [substitute, erase, eraseAll_substituteAll owner as ps, erase_substitute owner as r]
  | .instance _ bs _ => simp only [substitute, erase, eraseAll_substituteAll owner as bs]
  | generic name index o =>
    rw [substitute, substitute]
    split
    · rw [eraseAll_eq_map, getElem?_map]
      cases as[index]? with
      | none => rfl
      | some a => exact erase_erase a
    · rfl

theorem eraseAll_substituteAll (owner : Nat) (as ts : List Ty) :
    eraseAll (substituteAll owner (eraseAll as) ts) = eraseAll (substituteAll owner as ts) := by
  match ts with
  | [] => rfl
  | t :: ts =>
    simp only [substituteAll, eraseAll, erase_substitute owner as t,
      eraseAll_substituteAll owner as ts]

end

theorem inline?_erase (t : Ty) : t.erase.inline? = t.inline? := by
  match t with
  | void | scalar _ | struct _ | abstract _ _ _ | package _ | generic _ _ _ => rfl
  | pointer _ | mutPointer _ | function _ _ => rfl
  | array t _ => exact inline?_erase t
  | .instance id as _ =>
    show some (id, eraseAll (eraseAll as)) = some (id, eraseAll as)
    rw [eraseAll_eraseAll]

theorem inline?_substitute (owner : Nat) (as : List Ty) (t : Ty) :
    (t.substitute owner (eraseAll as)).inline? = (t.substitute owner as).inline? := by
  rw [← inline?_erase, erase_substitute, inline?_erase]

theorem weight_le_of_mem {a : Ty} (h : a ∈ as) : a.weight ≤ weightAll as := by
  induction as with
  | nil => cases h
  | cons b as ih =>
    rw [weightAll]
    rcases mem_cons.mp h with rfl | h
    · exact Nat.le_add_right _ _
    · exact Nat.le_trans (ih h) (Nat.le_add_left _ _)

theorem weight_of_stored {t : Ty} {use : StructUse} (h : t.stored? = some use) :
    weightAll use.2 < t.weight := by
  match t with
  | array t _ =>
    have inner := weight_of_stored (t := t) h
    rw [weight]
    omega
  | struct id =>
    cases h
    exact Nat.one_pos
  | .instance id as v =>
    cases h
    exact Nat.lt_succ_self _

theorem stored_of_substitute {owner : Nat} {arguments : List Ty} {t : Ty} {use : StructUse}
    (h : (t.substitute owner arguments).stored? = some use) :
    (∃ as, t.stored? = some (use.1, as) ∧ use.2 = substituteAll owner arguments as) ∨
      weightAll use.2 < weightAll arguments := by
  match t with
  | array t _ => exact stored_of_substitute (t := t) h
  | struct id =>
    cases h
    exact .inl ⟨[], rfl, rfl⟩
  | .instance id as v =>
    cases h
    exact .inl ⟨as, rfl, rfl⟩
  | .generic name index o =>
    rw [substitute] at h
    split at h
    · cases hmem : arguments[index]? with
      | none =>
        rw [hmem] at h
        cases h
      | some a =>
        rw [hmem] at h
        have lighter := weight_of_stored h
        have part := weight_le_of_mem (mem_of_getElem? hmem)
        exact .inr (Nat.lt_of_lt_of_le lighter part)
    · cases h

theorem inline_of_substitute {arguments : List Ty} {t : Ty} {use : StructUse}
    (h : (t.substitute owner arguments).inline? = some use) :
    (∃ as, t.stored? = some (use.1, as) ∧ use.2 = eraseAll (substituteAll owner arguments as)) ∨
      weightAll use.2 < weightAll arguments := by
  obtain ⟨⟨id, bs⟩, hstored, rfl⟩ := Option.map_eq_some_iff.mp h
  rcases stored_of_substitute hstored with ⟨as, hpattern, heq⟩ | lighter
  · exact .inl ⟨as, hpattern, congrArg eraseAll heq⟩
  · rw [weightAll_eraseAll]
    exact .inr lighter

theorem Formed.stored {structs : StructTable} {t : Ty} (hf : t.Formed structs) {use : StructUse}
    (h : t.stored? = some use) : use.1 < structs.size ∧
      use.2.length = (structs.get use.1).generics.length ∧ AllFormed structs use.2 := by
  match t with
  | array t _ => exact Formed.stored (t := t) hf h
  | struct id =>
    cases h
    exact ⟨hf.1, (congrArg List.length hf.plain).symm, trivial⟩
  | .instance id as v =>
    cases h
    exact ⟨hf.1, hf.2.2⟩

theorem Within.stored {owner count : Nat} {t : Ty} (hw : t.Within owner count) {use : StructUse}
    (h : t.stored? = some use) : ∀ a ∈ use.2, a.Within owner count := by
  match t with
  | array t _ => exact .stored (t := t) hw h
  | struct id =>
    cases h
    exact fun a ha => absurd ha not_mem_nil
  | .instance id as v =>
    cases h
    exact allWithin_iff.mp hw

end Ty

namespace StructTable

variable {t : StructTable}

/-- A value of the first struct has a field that stores a value of the second inline. -/
def Stores (t : StructTable) (a b : StructUse) : Prop :=
  ∃ f ∈ t.fieldsWith a.1 a.2, f.2.inline? = some b

/-- The way from a struct to another by those between, each of which stores the next. -/
inductive Route (t : StructTable) : StructUse → List StructUse → StructUse → Prop
  | one {a b : StructUse} (h : t.Stores a b) : Route t a [] b
  | cons {a b c : StructUse} {way : List StructUse} (h : t.Stores a b) (rest : Route t b way c) :
    Route t a (b :: way) c

instance (a b : StructUse) : Decidable (t.Stores a b) :=
  inferInstanceAs (Decidable (∃ f ∈ t.fieldsWith a.1 a.2, f.2.inline? = some b))

instance decidableRoute : (a : StructUse) → (way : List StructUse) → (b : StructUse) →
    Decidable (t.Route a way b)
  | a, [], b => decidable_of_iff (t.Stores a b) ⟨.one, fun | .one h => h⟩
  | a, c :: way, b =>
    have := decidableRoute c way b
    decidable_of_iff (t.Stores a c ∧ t.Route c way b)
      ⟨fun h => .cons h.1 h.2, fun | .cons h rest => ⟨h, rest⟩⟩

/-- The struct is in the table and has a well-formed argument for each of its parameters. -/
structure Applied (t : StructTable) (use : StructUse) : Prop where
  inside : use.1 < t.size
  arity : use.2.length = (t.get use.1).generics.length
  formed : AllFormed t use.2

namespace Route

variable {a b c : StructUse} {way before behind : List StructUse}

theorem append (h : t.Route a before b) (h' : t.Route b behind c) :
    t.Route a (before ++ b :: behind) c := by
  induction h with
  | one h => exact .cons h h'
  | cons h _ ih => exact .cons h (ih h')

theorem split (h : t.Route a (before ++ b :: behind) c) :
    t.Route a before b ∧ t.Route b behind c := by
  induction before generalizing a with
  | nil =>
    cases h with
    | cons h rest => exact ⟨.one h, rest⟩
  | cons d before ih =>
    cases h with
    | cons h rest =>
      obtain ⟨first, second⟩ := ih rest
      exact ⟨.cons h first, second⟩

theorem rotate {m : StructUse} (route : t.Route a way a)
    (hm : m ∈ a :: way) : ∃ way', t.Route m way' m ∧ ∀ x, x ∈ m :: way' ↔ x ∈ a :: way := by
  rcases mem_cons.mp hm with rfl | hm
  · exact ⟨way, route, fun _ => Iff.rfl⟩
  · obtain ⟨before, behind, rfl⟩ := append_of_mem hm
    refine ⟨behind ++ a :: before, route.split.2.append route.split.1, fun x => ?_⟩
    simp only [mem_cons, mem_append]
    tauto

theorem shorten (h : t.Route a way c)
    (single : ∀ x ∈ way, ∀ y ∈ way, x.1 = y.1 → x = y) :
    ∃ way', t.Route a way' c ∧ way' ⊆ way ∧ (way'.map Prod.fst).Nodup := by
  induction h with
  | one h => exact ⟨[], .one h, List.Subset.refl _, nodup_nil⟩
  | @cons a b c way h rest ih =>
    obtain ⟨way', route, sub, distinct⟩ := ih fun x hx y hy =>
      single x (mem_cons_of_mem b hx) y (mem_cons_of_mem b hy)
    by_cases again : b.1 ∈ way'.map Prod.fst
    · -- The way comes back to `b` and may go on from there at once.
      obtain ⟨x, hx, heq⟩ := mem_map.mp again
      obtain rfl := single x (mem_cons_of_mem b (sub hx)) b mem_cons_self heq
      obtain ⟨before, behind, rfl⟩ := append_of_mem hx
      refine ⟨x :: behind, .cons h route.split.2, ?_, ?_⟩
      · exact fun y hy => mem_cons_of_mem x (sub (mem_append_right before hy))
      · rw [map_append] at distinct
        exact (nodup_append.mp distinct).2.1
    · refine ⟨b :: way', .cons h route, cons_subset_cons b sub, ?_⟩
      exact nodup_cons.mpr ⟨again, distinct⟩

end Route

theorem fieldsWith_mem (h : f ∈ t.fieldsWith id as) :
    ∃ g ∈ (t.get id).fields, f.2 = g.2.substitute (t.get id).node as := by
  obtain ⟨g, hg, rfl⟩ := mem_map.mp h
  exact ⟨g, hg, rfl⟩

theorem mem_fieldsWith (h : f ∈ (t.get id).fields) (arguments : List Ty) :
    (f.1, f.2.substitute (t.get id).node arguments) ∈ t.fieldsWith id arguments :=
  mem_map.mpr ⟨f, h, rfl⟩

theorem applied_of_inline {type : Ty} (hf : type.Formed t) {use : StructUse}
    (h : type.inline? = some use) : t.Applied use := by
  obtain ⟨⟨id, as⟩, hstored, rfl⟩ := Option.map_eq_some_iff.mp h
  obtain ⟨inside, arity, formed⟩ := hf.stored hstored
  refine ⟨inside, ?_, formed.eraseAll⟩
  rw [eraseAll_eq_map, length_map]
  exact arity

theorem embeds_of_stored (h : type.stored? = some (target, as)) :
    t.embeds target unopened type = true := by
  rw [embeds, h]
  exact if_pos rfl

theorem embeds_of_field (h : type.stored? = some (id, as)) (hopen : id ∈ unopened)
    (hf : f ∈ t.fieldsWith id as) (hin : t.embeds target (unopened.erase id) f.2 = true) :
    t.embeds target unopened type = true := by
  rw [embeds, h]
  dsimp only
  rw [if_pos hopen]
  split
  · rfl
  · exact any_eq_true.mpr ⟨f, hf, hin⟩

section Search

variable (held : ∀ id, ∀ f ∈ (t.get id).fields, t.Holds id f.2)

include held

theorem Applied.stores (ha : t.Applied a) (h : t.Stores a b) : t.Applied b := by
  obtain ⟨f, hf, hstored⟩ := h
  obtain ⟨g, hg, heq⟩ := fieldsWith_mem hf
  rw [heq] at hstored
  exact applied_of_inline ((held a.1 g hg).1.substitute ha.formed) hstored

theorem Applied.route (ha : t.Applied a) (h : t.Route a way b) : ∀ x ∈ way, t.Applied x := by
  induction h with
  | one => exact fun x hx => absurd hx not_mem_nil
  | cons h _ ih => exact forall_mem_cons.mpr ⟨ha.stores held h, ih (ha.stores held h)⟩

/-- What a struct stores with arguments in place is seen in its pattern, if it is no lighter than
the arguments. -/
theorem pattern_stores (formed : type.Formed t) (within : type.Within owner as.length)
    {c : StructUse} (stored : (type.substitute owner as).inline? = some b)
    (heavy : weightAll as ≤ weightAll b.2) (h : t.Stores b c) :
    ∃ bs, type.stored? = some (b.1, bs) ∧ ∃ f ∈ t.fieldsWith b.1 bs, f.2.Formed t ∧
      f.2.Within owner as.length ∧ (f.2.substitute owner as).inline? = some c := by
  rcases inline_of_substitute stored with ⟨bs, hpattern, heq⟩ | lighter
  · refine ⟨bs, hpattern, ?_⟩
    obtain ⟨-, arity, formedArguments⟩ := formed.stored hpattern
    have withinArguments := within.stored hpattern
    obtain ⟨f, hf, hstored⟩ := h
    obtain ⟨g, hg, hfield⟩ := fieldsWith_mem hf
    obtain ⟨formedField, withinField⟩ := held b.1 g hg
    rw [← arity] at withinField
    refine ⟨_, mem_fieldsWith hg bs, formedField.substitute formedArguments,
      withinField.through withinArguments, ?_⟩
    rw [substitute_substitute withinField, ← inline?_substitute, ← heq, ← hfield]
    exact hstored
  · omega

/-- A type that stores `b` with the arguments `as` is found to embed `target` if a way leads there
from `b`, through structs that are all unopened and no lighter than `as`. -/
theorem embeds_of_route {c : StructUse} (route : t.Route b way c) (htarget : c.1 = target)
    (heavy : ∀ x ∈ c :: b :: way, weightAll as ≤ weightAll x.2)
    (distinct : ((b :: way).map Prod.fst).Nodup) (hopen : ∀ x ∈ b :: way, x.1 ∈ unopened)
    (formed : type.Formed t) (within : type.Within owner as.length)
    (stored : (type.substitute owner as).inline? = some b) :
    t.embeds target unopened type = true := by
  induction route generalizing unopened type with
  | @one b c h =>
    obtain ⟨bs, hpattern, f, hf, -, -, hstored⟩ := pattern_stores held formed within stored
      (heavy b (mem_cons_of_mem c mem_cons_self)) h
    refine embeds_of_field hpattern (hopen b mem_cons_self) hf ?_
    rcases inline_of_substitute hstored with ⟨cs, hfield, -⟩ | lighter
    · exact embeds_of_stored (htarget ▸ hfield)
    · have := heavy c mem_cons_self
      omega
  | @cons b d c way h rest ih =>
    obtain ⟨bs, hpattern, f, hf, formedField, withinField, hstored⟩ := pattern_stores held formed
      within stored (heavy b (mem_cons_of_mem c mem_cons_self)) h
    obtain ⟨new, distinctRest⟩ := nodup_cons.mp distinct
    refine embeds_of_field hpattern (hopen b mem_cons_self) hf
      (ih htarget (fun x hx => heavy x ?_) distinctRest (fun x hx => ?_) formedField withinField
        hstored)
    · rcases mem_cons.mp hx with rfl | hx
      · exact mem_cons_self
      · exact mem_cons_of_mem c (mem_cons_of_mem b hx)
    · have hne : x.1 ≠ b.1 := fun heq => new (heq ▸ mem_map_of_mem hx)
      exact (mem_erase_of_ne hne).mpr (hopen x (mem_cons_of_mem b hx))

/-- A struct that comes back to itself over others, none lighter than it and each with one list of
arguments, is found to embed itself by one of its fields. -/
theorem embeds_self_of_route (ha : t.Applied a) (route : t.Route a way a)
    (heavy : ∀ x ∈ way, weightAll a.2 ≤ weightAll x.2)
    (single : ∀ x ∈ a :: way, ∀ y ∈ a :: way, x.1 = y.1 → x = y) :
    ∃ f ∈ (t.get a.1).fields, t.embeds a.1 (List.range t.size) f.2 = true := by
  obtain ⟨way', short, sub, distinct⟩ := route.shorten fun x hx y hy =>
    single x (mem_cons_of_mem a hx) y (mem_cons_of_mem a hy)
  have opened : ∀ x ∈ way', x.1 ∈ List.range t.size := fun x hx =>
    mem_range.mpr (ha.route held route x (sub hx)).inside
  cases short with
  | one h =>
    obtain ⟨f, hf, hstored⟩ := h
    obtain ⟨g, hg, heq⟩ := fieldsWith_mem hf
    rw [heq] at hstored
    refine ⟨g, hg, ?_⟩
    rcases inline_of_substitute hstored with ⟨as, hfield, -⟩ | lighter
    · exact embeds_of_stored hfield
    · omega
  | @cons _ b _ way' h rest =>
    obtain ⟨f, hf, hstored⟩ := h
    obtain ⟨g, hg, heq⟩ := fieldsWith_mem hf
    obtain ⟨formed, within⟩ := held a.1 g hg
    rw [← ha.arity] at within
    rw [heq] at hstored
    refine ⟨g, hg, embeds_of_route held rest rfl (fun x hx => ?_) distinct opened formed within
      hstored⟩
    rcases mem_cons.mp hx with rfl | hx
    · exact Nat.le_refl _
    · exact heavy x (sub hx)

/-- Where no struct is found to embed itself by a field, every way from a struct back to itself
meets some struct with two different lists of arguments. -/
theorem route_meets_twice (ha : t.Applied a) (route : t.Route a way a)
    (clean : ∀ x ∈ a :: way, ∀ f ∈ (t.get x.1).fields,
      t.embeds x.1 (List.range t.size) f.2 = false) :
    ∃ x ∈ a :: way, ∃ y ∈ a :: way, x.1 = y.1 ∧ x.2 ≠ y.2 := by
  by_contra! none
  have single : ∀ x ∈ a :: way, ∀ y ∈ a :: way, x.1 = y.1 → x = y :=
    fun x hx y hy heq => Prod.ext heq (none x hx y hy heq)
  -- The lightest struct of the way finds itself.
  obtain ⟨m, hm⟩ := Option.ne_none_iff_exists'.mp fun h : (a :: way).argmin
    (fun x => weightAll x.2) = Option.none => cons_ne_nil a way (argmin_eq_none.mp h)
  obtain ⟨way', around, same⟩ := route.rotate (argmin_mem hm)
  have applied : t.Applied m := by
    rcases mem_cons.mp (argmin_mem hm) with rfl | mem
    · exact ha
    · exact ha.route held route m mem
  obtain ⟨f, hf, hembeds⟩ := embeds_self_of_route held applied around
    (fun x hx => le_of_mem_argmin (f := fun x : StructUse => weightAll x.2)
      ((same x).mp (mem_cons_of_mem m hx)) hm)
    (fun x hx y hy => single x ((same x).mp hx) y ((same y).mp hy))
  rw [clean m (argmin_mem hm) f hf] at hembeds
  cases hembeds

end Search

/-- The structs of a table stand unchanged in another one. -/
structure Extends (t t' : StructTable) : Prop where
  size : t.size ≤ t'.size
  get : ∀ id < t.size, t'.get id = t.get id

theorem Extends.embeds {t' : StructTable} (h : t.Extends t')
    (held : ∀ id, ∀ f ∈ (t.get id).fields, t.Holds id f.2) {unopened' : List StructId}
    (distinct : unopened.Nodup) (distinct' : unopened'.Nodup)
    (same : ∀ id < t.size, id ∈ unopened' ↔ id ∈ unopened) (formed : type.Formed t) :
    t'.embeds target unopened' type = t.embeds target unopened type := by
  fun_induction t.embeds target unopened type generalizing unopened' with
  | case1 unopened type none => rw [StructTable.embeds, none]
  | case2 unopened type as hstored =>
    exact embeds_of_stored hstored
  | case3 unopened type id as hstored hne hopen ih =>
    obtain ⟨inside, arity, formedArguments⟩ := formed.stored hstored
    rw [StructTable.embeds, hstored]
    dsimp only
    rw [if_neg hne, if_pos ((same id inside).mpr hopen)]
    have fields : t'.fieldsWith id as = t.fieldsWith id as := by
      rw [fieldsWith, h.get id inside, fieldsWith]
    rw [fields]
    have each : ∀ f ∈ t.fieldsWith id as, t'.embeds target (unopened'.erase id) f.2 =
        t.embeds target (unopened.erase id) f.2 := by
      intro f hf
      obtain ⟨g, hg, heq⟩ := fieldsWith_mem hf
      refine ih f.2 (distinct.erase id) (distinct'.erase id) (fun other hother => ?_) ?_
      · rw [distinct'.mem_erase_iff, distinct.mem_erase_iff, same other hother]
      · rw [heq]
        exact (held id g hg).1.substitute formedArguments
    rw [Bool.eq_iff_iff, any_eq_true, any_eq_true]
    exact exists_congr fun f => and_congr_right fun hf => by rw [each f hf]
  | case4 unopened type id as hstored hne hclosed =>
    rw [StructTable.embeds, hstored]
    dsimp only
    rw [if_neg hne, if_neg (fun hopen => hclosed ((same id (formed.stored hstored).1).mp hopen))]

end StructTable
end Quill
