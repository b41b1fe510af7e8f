import Mathlib.Data.List.Chain
import Mathlib.Data.List.Nodup
import Mathlib.Data.List.Perm.Subperm
import Mathlib.Logic.Relation
import Quill.Graph

/-!
# Dependencies first

Ordering finishes each vertex that can be reached from the given ones once, behind all it depends
on, or it finds a cycle among them. Those on the way from the start are different from each other
and not finished, so a dependency that is on the way closes a cycle.
-/
namespace Quill.Graph

open List Nat
open Relation (ReflTransGen TransGen)

variable {g : Graph} {calls : List (Nat × Nat)} {due order path vertices : List Nat} {d n v : Nat}

def Needs (g : Graph) (v d : Nat) : Prop := d ∈ g.dependencies v

def ReachableFrom (g : Graph) (vertices : List Nat) (v : Nat) : Prop :=
  ∃ u ∈ vertices, ReflTransGen g.Needs u v

/-- Some vertex that can be reached depends on itself. -/
def CyclicFrom (g : Graph) (vertices : List Nat) : Prop :=
  ∃ v, g.ReachableFrom vertices v ∧ TransGen g.Needs v v

/-- Different vertices, each of which depends on the next and the last on the first. -/
structure IsCycle (g : Graph) (cycle : List Nat) : Prop where
  nonempty : cycle ≠ []
  nodup : cycle.Nodup
  leads : cycle.IsChain g.Needs
  closes : ∀ last ∈ cycle.getLast?, ∀ first ∈ cycle.head?, g.Needs last first

/-- Vertices that are finished: each once and behind all it depends on. -/
structure Finished (g : Graph) (vertices order : List Nat) : Prop where
  nodup : order.Nodup
  behind : ∀ v ∈ order, ∀ d, g.Needs v d → d ∈ order ∧ order.idxOf d < order.idxOf v
  reached : ∀ v ∈ order, g.ReachableFrom vertices v

/-- The way from a start to the vertex that is being visited. -/
structure Way (g : Graph) (vertices path : List Nat) : Prop where
  nodup : path.Nodup
  leads : path.IsChain g.Needs
  reached : ∀ v ∈ path, g.ReachableFrom vertices v

section

variable {g : Graph} {vertices : List Nat}

theorem ReachableFrom.of_mem (h : v ∈ vertices) : g.ReachableFrom vertices v :=
  ⟨v, h, .refl⟩

theorem ReachableFrom.tail (h : g.ReachableFrom vertices v) (hd : g.Needs v d) :
    g.ReachableFrom vertices d := by
  obtain ⟨u, hu, hv⟩ := h
  exact ⟨u, hu, hv.tail hd⟩

theorem lt_size_of_needs (h : g.Needs v d) : v < g.size := by
  refine Nat.lt_of_not_le fun hle => ?_
  rw [Needs, dependencies, Array.getElem?_eq_none hle] at h
  exact not_mem_nil h

theorem Finished.nil : g.Finished vertices [] := ⟨.nil, nofun, nofun⟩

section

variable (h : g.Finished vertices order)

include h

theorem Finished.snoc (hv : v ∉ order) (hneeds : ∀ d, g.Needs v d → d ∈ order)
    (hr : g.ReachableFrom vertices v) :
    g.Finished vertices (order ++ [v]) where
  nodup := concat_eq_append ▸ h.nodup.concat hv
  behind := by
    intro u hu d hd
    rcases mem_append.mp hu with hu | hu
    · have hbehind := h.behind u hu d hd
      rw [idxOf_append_of_mem hbehind.1, idxOf_append_of_mem hu]
      exact ⟨mem_append_left _ hbehind.1, hbehind.2⟩
    · rw [mem_singleton.mp hu] at hd ⊢
      have hmem := hneeds d hd
      rw [idxOf_append_of_mem hmem, idxOf_append_of_notMem hv]
      exact ⟨mem_append_left _ hmem, Nat.lt_add_right _ (idxOf_lt_length_of_mem hmem)⟩
  reached := by
    intro u hu
    rcases mem_append.mp hu with hu | hu
    · exact h.reached u hu
    · exact mem_singleton.mp hu ▸ hr

theorem Finished.of_transGen (hv : v ∈ order) (hd : TransGen g.Needs v d) :
    d ∈ order ∧ order.idxOf d < order.idxOf v := by
  induction hd with
  | single hd => exact h.behind v hv _ hd
  | tail _ hd ih =>
    have hbehind := h.behind _ ih.1 _ hd
    exact ⟨hbehind.1, hbehind.2.trans ih.2⟩

theorem Finished.mem_of_reachable (hall : vertices ⊆ order) (hv : g.ReachableFrom vertices v) :
    v ∈ order := by
  obtain ⟨u, hu, huv⟩ := hv
  rcases Relation.reflTransGen_iff_eq_or_transGen.mp huv with rfl | huv
  · exact hall hu
  · exact (h.of_transGen (hall hu) huv).1

theorem Finished.not_cyclicFrom (hall : vertices ⊆ order) : ¬ g.CyclicFrom vertices := by
  rintro ⟨v, hv, hloop⟩
  exact lt_irrefl _ (h.of_transGen (h.mem_of_reachable hall hv) hloop).2

end

theorem IsCycle.transGen {cycle : List Nat} (h : g.IsCycle cycle) :
    TransGen g.Needs (cycle.head h.nonempty) (cycle.head h.nonempty) := by
  have hround := relationReflTransGen_of_exists_isChain cycle h.leads h.nonempty
  exact .tail' hround (h.closes _ (getLast_mem_getLast? h.nonempty) _
    (head_mem_head? h.nonempty))

theorem Way.singleton (h : g.ReachableFrom vertices v) : g.Way vertices [v] where
  nodup := nodup_singleton v
  leads := .singleton v
  reached := by
    intro u hu
    exact mem_singleton.mp hu ▸ h

theorem Way.snoc (h : g.Way vertices (path ++ [v])) (hd : g.Needs v d) (hnew : d ∉ path ++ [v]) :
    g.Way vertices (path ++ [v] ++ [d]) where
  nodup := concat_eq_append ▸ h.nodup.concat hnew
  leads := by
    refine h.leads.append (.singleton d) fun last hlast first hfirst => ?_
    rw [getLast?_concat, Option.mem_some] at hlast
    rw [head?_singleton, Option.mem_some] at hfirst
    exact hlast ▸ hfirst ▸ hd
  reached := by
    intro u hu
    rcases mem_append.mp hu with hu | hu
    · exact h.reached u hu
    · have hv := h.reached v (mem_append_right _ mem_cons_self)
      exact mem_singleton.mp hu ▸ hv.tail hd

theorem Way.length_le (h : g.Way vertices (path ++ [v])) : path.length ≤ g.size := by
  have hneeds : ∀ (l : List Nat), (l ++ [v]).IsChain g.Needs → ∀ u ∈ l, ∃ d, g.Needs u d := by
    intro l
    induction l with
    | nil => exact fun _ => nofun
    | cons a l ih =>
      intro hchain u hu
      rcases mem_cons.mp hu with rfl | hu
      · cases l with
        | nil => exact ⟨v, (isChain_cons_cons.mp hchain).1⟩
        | cons b l => exact ⟨b, (isChain_cons_cons.mp hchain).1⟩
      · exact ih hchain.tail u hu
  have hrange : path ⊆ List.range g.size := by
    intro u hu
    obtain ⟨d, hd⟩ := hneeds path h.leads u hu
    exact mem_range.mpr (lt_size_of_needs hd)
  have hnodup : path.Nodup := (nodup_append.mp h.nodup).1
  simpa using (hnodup.subperm hrange).length_le

theorem Way.isCycle (h : g.Way vertices (path ++ [v])) (hd : g.Needs v d) (hon : d ∈ path ++ [v]) :
    g.IsCycle ((path ++ [v]).dropWhile (· != d)) ∧
      ∀ u ∈ (path ++ [v]).dropWhile (· != d), g.ReachableFrom vertices u := by
  obtain ⟨before, after, hsplit⟩ := append_of_mem hon
  have hnodup := h.nodup
  rw [hsplit, nodup_append] at hnodup
  have hdrop : (path ++ [v]).dropWhile (· != d) = d :: after := by
    rw [hsplit, dropWhile_append_of_pos]
    · simp
    · intro a ha
      simpa using hnodup.2.2 a ha d mem_cons_self
  rw [hdrop]
  refine ⟨⟨cons_ne_nil _ _, hnodup.2.1, ?_, ?_⟩, ?_⟩
  · exact h.leads.suffix (hsplit ▸ suffix_append before (d :: after))
  · intro last hlast first hfirst
    have hend : (d :: after).getLast? = some v := by
      rw [← getLast?_append_of_ne_nil before (cons_ne_nil d after), ← hsplit,
        getLast?_concat]
    rw [hend, Option.mem_some] at hlast
    rw [head?_cons, Option.mem_some] at hfirst
    exact hlast ▸ hfirst ▸ hd
  · intro u hu
    exact h.reached u (hsplit ▸ mem_append_right before hu)

/-- What a walk comes to that started with `order` finished and `path` on the way: more is finished,
`due` with it, or there is a cycle. -/
def Ends (g : Graph) (vertices order path due : List Nat) :
    Except (List Nat) (List Nat) → Prop
  | .ok out => g.Finished vertices out ∧ order ⊆ out ∧ due ⊆ out ∧ ∀ v ∈ path, v ∉ out
  | .error cycle => g.IsCycle cycle ∧ ∀ v ∈ cycle, g.ReachableFrom vertices v

theorem Ends.refl (h : g.Finished vertices order) (hpath : ∀ v ∈ path, v ∉ order)
    (hdue : due ⊆ order) : g.Ends vertices order path due (.ok order) :=
  ⟨h, List.Subset.refl order, hdue, hpath⟩

theorem Ends.bind {path' due' : List Nat} {x : Except (List Nat) (List Nat)}
    {f : List Nat → Except (List Nat) (List Nat)} (hx : g.Ends vertices order path due x)
    (hf : ∀ next, g.Ends vertices order path due (.ok next) →
      g.Ends vertices order path' due' (f next)) : g.Ends vertices order path' due' (x >>= f) := by
  cases x with
  | error cycle => exact hx
  | ok next => exact hf next hx

theorem Ends.weaken {order' due' : List Nat} {x : Except (List Nat) (List Nat)}
    (h : g.Ends vertices order path due x) (horder : order' ⊆ order)
    (hdue : ∀ out, order ⊆ out → due ⊆ out → due' ⊆ out) : g.Ends vertices order' path due' x := by
  cases x with
  | error cycle => exact h
  | ok out => exact ⟨h.1, List.Subset.trans horder h.2.1, hdue out h.2.1 h.2.2.1, h.2.2.2⟩

theorem Ends.foldlM {f : List Nat → Nat → Except (List Nat) (List Nat)}
    (hf : ∀ v ∈ due, ∀ {order}, g.Finished vertices order → (∀ u ∈ path, u ∉ order) →
      g.Ends vertices order path [v] (f order v)) :
    ∀ {order : List Nat}, g.Finished vertices order → (∀ u ∈ path, u ∉ order) →
      g.Ends vertices order path due (due.foldlM f order) := by
  induction due with
  | nil => exact fun h hpath => .refl h hpath (nil_subset _)
  | cons v due ih =>
    intro order h hpath
    rw [foldlM_cons]
    refine (hf v mem_cons_self h hpath).bind fun next ⟨hnext, hkept, hmem, hfree⟩ => ?_
    refine (ih (fun u hu => hf u (mem_cons_of_mem v hu)) hnext hfree).weaken hkept ?_
    intro out hnext hdue
    exact cons_subset.mpr ⟨hnext (hmem mem_cons_self), hdue⟩

theorem follow_ends {fuel : Nat} (hway : g.Way vertices (path ++ [v])) (hd : g.Needs v d)
    (h : g.Finished vertices order) (hpath : ∀ u ∈ path ++ [v], u ∉ order)
    (hvisit : d ∉ path ++ [v] → d ∉ order →
      g.Ends vertices order (path ++ [v]) [d] (g.visit fuel (path ++ [v]) order d)) :
    g.Ends vertices order (path ++ [v]) [d]
      (if (path ++ [v]).contains d then .error ((path ++ [v]).dropWhile (· != d))
      else if order.contains d then .ok order else g.visit fuel (path ++ [v]) order d) := by
  split
  · rename_i hon
    exact hway.isCycle hd (contains_iff_mem.mp hon)
  split
  · rename_i hdone
    have hmem := contains_iff_mem.mp hdone
    exact .refl h hpath (cons_subset.mpr ⟨hmem, nil_subset _⟩)
  · rename_i hon hdone
    exact hvisit (fun hmem => hon (contains_iff_mem.mpr hmem))
      fun hmem => hdone (contains_iff_mem.mpr hmem)

/-- A visit finishes a vertex or finds a cycle. Vertices on the way are never finished in between,
and the way cannot become longer than the fuel lasts. -/
theorem visit_ends : ∀ {fuel : Nat} {path order : List Nat} {v : Nat},
    g.size + 1 ≤ path.length + fuel → g.Way vertices (path ++ [v]) →
    g.Finished vertices order → (∀ u ∈ path ++ [v], u ∉ order) →
    g.Ends vertices order path [v] (g.visit fuel path order v) := by
  intro fuel
  induction fuel with
  | zero =>
    intro path order v hfuel hway
    exact absurd hway.length_le (by omega)
  | succ fuel ih =>
    intro path order v hfuel hway h hpath
    have hself : v ∈ path ++ [v] := mem_append_right _ mem_cons_self
    have hlength : (path ++ [v]).length = path.length + 1 := length_append
    rw [visit]
    refine (Ends.foldlM (fun d hd order h hpath => follow_ends hway hd h hpath ?_) h hpath).bind
      fun out ⟨hout, hkept, hmem, hfree⟩ => ?_
    · intro hon hdone
      refine ih (by omega) (hway.snoc hd hon) h fun u hu => ?_
      rcases mem_append.mp hu with hu | hu
      · exact hpath u hu
      · exact mem_singleton.mp hu ▸ hdone
    · refine ⟨hout.snoc (hfree v hself) (fun d hd => hmem hd) (hway.reached v hself),
        List.Subset.trans hkept (subset_append_left _ _), subset_append_right _ _, ?_⟩
      intro u hu hin
      rcases mem_append.mp hin with hin | hin
      · exact hfree u (mem_append_left _ hu) hin
      · have hdiff := (nodup_append.mp hway.nodup).2.2 u hu v mem_cons_self
        exact hdiff (mem_singleton.mp hin)

end

theorem order_ends (g : Graph) (vertices : List Nat) :
    g.Ends vertices [] [] vertices (g.order vertices) := by
  refine .foldlM (fun v hv order h _ => ?_) .nil nofun
  split
  · rename_i hdone
    exact .refl h nofun (cons_subset.mpr ⟨contains_iff_mem.mp hdone, nil_subset _⟩)
  · rename_i hdone
    refine visit_ends (le_add_left _ _) (.singleton (.of_mem hv)) h fun u hu => ?_
    rw [mem_singleton.mp hu]
    exact fun hmem => hdone (contains_iff_mem.mpr hmem)

theorem finished_of_order (h : g.order vertices = .ok order) :
    g.Finished vertices order ∧ vertices ⊆ order := by
  have hends := g.order_ends vertices
  rw [h] at hends
  exact ⟨hends.1, hends.2.2.1⟩

theorem mem_order (h : g.order vertices = .ok order) : ∀ v ∈ vertices, v ∈ order :=
  (finished_of_order h).2

theorem isCycle_of_order {cycle : List Nat} (h : g.order vertices = .error cycle) :
    g.IsCycle cycle ∧ ∀ v ∈ cycle, g.ReachableFrom vertices v := by
  have hends := g.order_ends vertices
  rw [h] at hends
  exact hends

theorem order_eq_ok_iff : (∃ order, g.order vertices = .ok order) ↔ ¬ g.CyclicFrom vertices := by
  constructor
  · rintro ⟨order, h⟩
    obtain ⟨hfinished, hall⟩ := finished_of_order h
    exact hfinished.not_cyclicFrom hall
  · intro hacyclic
    cases h : g.order vertices with
    | ok order => exact ⟨order, rfl⟩
    | error cycle =>
      obtain ⟨hcycle, hreached⟩ := isCycle_of_order h
      exact absurd ⟨_, hreached _ (head_mem hcycle.nonempty), hcycle.transGen⟩ hacyclic

/-- The graph that calls of `addEdge` make of one with `n` vertices. -/
def built (n : Nat) (calls : List (Nat × Nat)) : Graph :=
  calls.foldl (fun g call => g.addEdge call.1 call.2) (ofSize n)

/-- How many vertices a walk from the given ones has to tell apart: those of the graph and all up
to the largest given one. -/
def extent (g : Graph) (vertices : List Nat) : Nat :=
  vertices.foldr (fun v n => max (v + 1) n) g.size

theorem size_addEdge (g : Graph) (a b : Nat) :
    (g.addEdge a b).size = max g.size (max a b + 1) := by
  simp [addEdge, grow, size]
  omega

theorem needs_addEdge {a b : Nat} : (g.addEdge a b).Needs v d ↔ g.Needs v d ∨ v = a ∧ d = b := by
  have hgrow : ∀ u, ((g.grow (max a b + 1)).edges[u]?).getD [] = g.dependencies u := by
    intro u
    simp only [grow, dependencies, Array.getElem?_append, Array.getElem?_replicate, size]
    split
    · rfl
    · rw [Array.getElem?_eq_none (by omega)]
      split <;> rfl
  have hroom : a < (g.grow (max a b + 1)).edges.size := by
    simp [grow, size]
    omega
  unfold Needs
  rw [← hgrow v]
  simp only [addEdge, dependencies, Array.getElem?_modify]
  by_cases hv : a = v
  · subst hv
    obtain ⟨ds, hds⟩ : ∃ ds, (g.grow (max a b + 1)).edges[a]? = some ds :=
      ⟨_, Array.getElem?_eq_getElem hroom⟩
    rw [if_pos rfl, hds]
    simp only [Option.map_some, Option.getD_some, true_and]
    split
    · rename_i hin
      refine ⟨.inl, fun h => h.elim id ?_⟩
      rintro rfl
      exact contains_iff_mem.mp hin
    · rw [mem_append, mem_singleton]
  · rw [if_neg hv]
    exact ⟨.inl, fun h => h.elim id fun h => absurd h.1.symm hv⟩

theorem needs_ofSize : ¬ (ofSize n).Needs v d := by
  simp [ofSize, Needs, dependencies, Array.getElem?_replicate]
  split <;> simp

theorem needs_foldl_addEdge :
    (calls.foldl (fun g call => g.addEdge call.1 call.2) g).Needs v d ↔
      g.Needs v d ∨ (v, d) ∈ calls := by
  induction calls generalizing g with
  | nil => simp
  | cons call calls ih =>
    rw [foldl_cons, ih, needs_addEdge, mem_cons, or_assoc, Prod.ext_iff]

theorem size_le_foldl_addEdge (calls : List (Nat × Nat)) (g : Graph) :
    g.size ≤ (calls.foldl (fun g call => g.addEdge call.1 call.2) g).size ∧
      ∀ call ∈ calls,
        call.2 < (calls.foldl (fun g call => g.addEdge call.1 call.2) g).size := by
  induction calls generalizing g with
  | nil => exact ⟨le_refl _, nofun⟩
  | cons call calls ih =>
    rw [foldl_cons]
    obtain ⟨hgrown, hends⟩ := ih (g.addEdge call.1 call.2)
    rw [size_addEdge] at hgrown
    refine ⟨by omega, forall_mem_cons.mpr ⟨by omega, hends⟩⟩

theorem needs_built : (built n calls).Needs v d ↔ (v, d) ∈ calls :=
  needs_foldl_addEdge.trans (or_iff_right needs_ofSize)

theorem lt_extent (h : v < g.size ∨ v ∈ vertices) : v < g.extent vertices := by
  induction vertices with
  | nil => exact h.elim id nofun
  | cons u vertices ih =>
    rw [extent, foldr_cons]
    rw [mem_cons] at h
    rcases h with h | rfl | h
    · exact lt_of_lt_of_le (ih (.inl h)) (le_max_right _ _)
    · exact lt_of_lt_of_le (lt_succ_self v) (le_max_left _ _)
    · exact lt_of_lt_of_le (ih (.inr h)) (le_max_right _ _)

theorem lt_extent_of_reachable (h : (built n calls).ReachableFrom vertices v) :
    v < (built n calls).extent vertices := by
  obtain ⟨u, hu, huv⟩ := h
  rcases Relation.ReflTransGen.cases_tail huv with rfl | ⟨w, -, hw⟩
  · exact lt_extent (.inr hu)
  · exact lt_extent (.inl ((size_le_foldl_addEdge calls _).2 _ (needs_built.mp hw)))

/-- Ordering a graph that was built. Its edges are those asked for, and a walk stays within its
extent. There is an order exactly if nothing that can be reached depends on itself, and it has
exactly the vertices that can be reached, each once and behind all it depends on; otherwise there is
a cycle of such vertices. -/
theorem order_built (n : Nat) (calls : List (Nat × Nat)) (vertices : List Nat) :
    (∀ v d, (built n calls).Needs v d ↔ (v, d) ∈ calls) ∧
    (∀ v, (built n calls).ReachableFrom vertices v → v < (built n calls).extent vertices) ∧
    ((∃ order, (built n calls).order vertices = .ok order) ↔
      ¬ (built n calls).CyclicFrom vertices) ∧
    (∀ order, (built n calls).order vertices = .ok order →
      order.Nodup ∧ (∀ v, v ∈ order ↔ (built n calls).ReachableFrom vertices v) ∧
      ∀ v ∈ order, ∀ d, (built n calls).Needs v d →
        d ∈ order ∧ order.idxOf d < order.idxOf v) ∧
    (∀ cycle, (built n calls).order vertices = .error cycle →
      (built n calls).IsCycle cycle ∧
        ∀ v ∈ cycle, (built n calls).ReachableFrom vertices v) := by
  refine ⟨fun v d => needs_built, fun v => lt_extent_of_reachable, order_eq_ok_iff, ?_,
    fun cycle => isCycle_of_order⟩
  intro order h
  obtain ⟨hfinished, hall⟩ := finished_of_order h
  exact ⟨hfinished.nodup,
    fun v => ⟨hfinished.reached v, hfinished.mem_of_reachable hall⟩, hfinished.behind⟩

end Quill.Graph
