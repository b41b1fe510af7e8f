import Mathlib.Data.List.TakeWhile
import Quill.Proofs.GraphOrder

/-!
# Ordering by marks

It is enough to mark each vertex as it is met and as it is finished. The marks tell which vertices
are on the way and which are in the order, so both searches take the same turns.
-/
namespace Quill.Graph

open List
open Relation (TransGen)

inductive Mark where
  | fresh | active | done
  deriving DecidableEq, Repr

/-- The marks of all vertices and the vertices finished so far. -/
structure Marking where
  marks : Nat → Mark := fun _ => .fresh
  order : List Nat := []

namespace Marking

def mark (m : Marking) (v : Nat) (k : Mark) : Marking :=
  { m with marks := fun u => if u = v then k else m.marks u }

def finish (m : Marking) (v : Nat) : Marking :=
  { m.mark v .done with order := m.order ++ [v] }

end Marking

/-- Finishes `v` behind what it depends on. A vertex that is met again before it is finished is the
error. -/
def search (g : Graph) : (fuel : Nat) → Marking → (v : Nat) → Except Nat Marking
  | 0, m, _ => .ok m
  | fuel + 1, m, v =>
    match m.marks v with
    | .done => .ok m
    | .active => .error v
    | .fresh => do
      let m ← (g.dependencies v).foldlM (g.search fuel) (m.mark v .active)
      return m.finish v

/-- All vertices of the graph in order, or one that is met again. A way has at most one vertex more
than the graph, and its end is looked at once more. -/
def sort (g : Graph) : Except Nat (List Nat) :=
  ((List.range g.size).foldlM (g.search (g.size + 2)) {}).map (·.order)

/-- The marks tell the vertices on the way from the finished ones. -/
structure Marking.Shows (m : Marking) (path order : List Nat) : Prop where
  order_eq : m.order = order
  marks_eq : ∀ u, m.marks u =
    if u ∈ path then .active else if u ∈ order then .done else .fresh

def Agree (path : List Nat) : Except (List Nat) (List Nat) → Except Nat Marking → Prop
  | .ok order, .ok m => m.Shows path order
  | .error cycle, .error v => cycle.head? = some v
  | _, _ => False

namespace Marking.Shows

variable {m : Marking} {path order : List Nat} {v : Nat}

theorem empty : ({} : Marking).Shows [] [] := ⟨rfl, fun _ => rfl⟩

theorem mark_active (h : m.Shows path order) : (m.mark v .active).Shows (path ++ [v]) order where
  order_eq := h.order_eq
  marks_eq u := by
    simp only [Marking.mark, h.marks_eq, mem_append, mem_singleton]
    by_cases hu : u = v <;> simp [hu]

theorem finish (h : m.Shows (path ++ [v]) order) (hv : v ∉ path) :
    (m.finish v).Shows path (order ++ [v]) where
  order_eq := congrArg (· ++ [v]) h.order_eq
  marks_eq u := by
    simp only [Marking.finish, Marking.mark, h.marks_eq, mem_append, mem_singleton]
    by_cases hu : u = v
    · subst hu
      simp [hv]
    · simp [hu]

end Marking.Shows

section

variable {g : Graph} {vertices : List Nat}

theorem Agree.bind {path path' : List Nat} {x : Except (List Nat) (List Nat)}
    {y : Except Nat Marking} {f : List Nat → Except (List Nat) (List Nat)}
    {f' : Marking → Except Nat Marking} (h : Agree path x y)
    (hf : ∀ order m, x = .ok order → m.Shows path order → Agree path' (f order) (f' m)) :
    Agree path' (x >>= f) (y >>= f') := by
  cases x with
  | error cycle =>
    cases y with
    | error v => exact h
    | ok m => exact h.elim
  | ok order =>
    cases y with
    | error v => exact h.elim
    | ok m => exact hf order m rfl h

theorem Agree.foldlM {path due : List Nat} {f : List Nat → Nat → Except (List Nat) (List Nat)}
    {f' : Marking → Nat → Except Nat Marking}
    (hf : ∀ d ∈ due, ∀ {order m}, g.Finished vertices order → (∀ u ∈ path, u ∉ order) →
      m.Shows path order →
        g.Ends vertices order path [d] (f order d) ∧ Agree path (f order d) (f' m d)) :
    ∀ {order : List Nat} {m : Marking}, g.Finished vertices order → (∀ u ∈ path, u ∉ order) →
      m.Shows path order → Agree path (due.foldlM f order) (due.foldlM f' m) := by
  induction due with
  | nil => exact fun _ _ hm => hm
  | cons d due ih =>
    intro order m h hpath hm
    obtain ⟨hends, hagree⟩ := hf d mem_cons_self h hpath hm
    rw [foldlM_cons, foldlM_cons]
    refine hagree.bind fun next marking heq hmarking => ?_
    rw [heq] at hends
    exact ih (fun u hu => hf u (mem_cons_of_mem d hu)) hends.1 hends.2.2.2 hmarking

theorem follow_agree {fuel : Nat} {path order : List Nat} {d : Nat} {m : Marking}
    (hm : m.Shows path order)
    (hvisit : d ∉ path → d ∉ order →
      Agree path (g.visit fuel path order d) (g.search (fuel + 1) m d)) :
    Agree path
      (if path.contains d then .error (path.dropWhile (· != d))
      else if order.contains d then .ok order else g.visit fuel path order d)
      (g.search (fuel + 1) m d) := by
  by_cases hon : d ∈ path
  · have hmark : m.marks d = .active := by rw [hm.marks_eq, if_pos hon]
    rw [if_pos (contains_iff_mem.mpr hon), search, hmark]
    have hrest : path.dropWhile (· != d) ≠ [] := fun hnil => by
      simpa using dropWhile_eq_nil_iff.mp hnil d hon
    have hhead : (path.dropWhile (· != d)).head hrest = d := by
      simpa using head_dropWhile_not (· != d) hrest
    exact (head?_eq_some_head hrest).trans (congrArg some hhead)
  rw [if_neg fun hmem => hon (contains_iff_mem.mp hmem)]
  by_cases hdone : d ∈ order
  · have hmark : m.marks d = .done := by rw [hm.marks_eq, if_neg hon, if_pos hdone]
    rw [if_pos (contains_iff_mem.mpr hdone), search, hmark]
    exact hm
  · rw [if_neg fun hmem => hdone (contains_iff_mem.mp hmem)]
    exact hvisit hon hdone

theorem visit_agree : ∀ {fuel : Nat} {path order : List Nat} {v : Nat} {m : Marking},
    g.size + 1 ≤ path.length + fuel → g.Way vertices (path ++ [v]) →
    g.Finished vertices order → (∀ u ∈ path ++ [v], u ∉ order) → m.Shows path order →
    Agree path (g.visit fuel path order v) (g.search (fuel + 1) m v) := by
  intro fuel
  induction fuel with
  | zero =>
    intro path order v m hfuel hway
    exact absurd hway.length_le (by omega)
  | succ fuel ih =>
    intro path order v m hfuel hway h hpath hm
    have hself : v ∈ path ++ [v] := mem_append_right _ mem_cons_self
    have hlength : (path ++ [v]).length = path.length + 1 := length_append
    have hoff : v ∉ path := fun hmem =>
      (nodup_append.mp hway.nodup).2.2 v hmem v mem_cons_self rfl
    have hmark : m.marks v = .fresh := by rw [hm.marks_eq, if_neg hoff, if_neg (hpath v hself)]
    have hdue : Agree (path ++ [v])
        ((g.dependencies v).foldlM
          (fun order d =>
            if (path ++ [v]).contains d then .error ((path ++ [v]).dropWhile (· != d))
            else if order.contains d then .ok order else g.visit fuel (path ++ [v]) order d) order)
        ((g.dependencies v).foldlM (g.search (fuel + 1)) (m.mark v .active)) := by
      refine .foldlM (fun d hd order m h hpath hm => ?_) h hpath hm.mark_active
      have hnext (hon : d ∉ path ++ [v]) (hdone : d ∉ order) :
          g.size + 1 ≤ (path ++ [v]).length + fuel ∧ g.Way vertices (path ++ [v] ++ [d]) ∧
            ∀ u ∈ path ++ [v] ++ [d], u ∉ order := by
        refine ⟨by omega, hway.snoc hd hon, fun u hu => ?_⟩
        rcases mem_append.mp hu with hu | hu
        · exact hpath u hu
        · exact mem_singleton.mp hu ▸ hdone
      constructor
      · refine follow_ends hway hd h hpath fun hon hdone => ?_
        obtain ⟨hfuel, hway, hpath⟩ := hnext hon hdone
        exact visit_ends hfuel hway h hpath
      · refine follow_agree hm fun hon hdone => ?_
        obtain ⟨hfuel, hway, hpath⟩ := hnext hon hdone
        exact ih hfuel hway h hpath hm
    rw [visit, search, hmark]
    exact hdue.bind fun _ _ _ hm => hm.finish hoff

end

theorem sort_agree (g : Graph) :
    Agree [] (g.order (List.range g.size))
      ((List.range g.size).foldlM (g.search (g.size + 2)) {}) := by
  refine @Agree.foldlM g (List.range g.size) _ _ _ _ (fun v hv order m h _ hm => ?_) _ _ .nil
    (fun _ => (absurd · not_mem_nil)) .empty
  have hway : g.Way (List.range g.size) ([] ++ [v]) := .singleton (.of_mem hv)
  have hfree (hdone : v ∉ order) : ∀ u ∈ [] ++ [v], u ∉ order := fun u hu =>
    mem_singleton.mp hu ▸ hdone
  refine ⟨?_, follow_agree hm fun _ hdone =>
    visit_agree (Nat.le_add_left _ _) hway h (hfree hdone) hm⟩
  split
  · rename_i hdone
    exact .refl h (fun _ => (absurd · not_mem_nil))
      (cons_subset.mpr ⟨contains_iff_mem.mp hdone, nil_subset _⟩)
  · rename_i hdone
    exact visit_ends (Nat.le_add_left _ _) hway h
      (hfree fun hmem => hdone (contains_iff_mem.mpr hmem))

theorem sort_cases (g : Graph) :
    (∃ order, g.order (List.range g.size) = .ok order ∧ g.sort = .ok order) ∨
      ∃ cycle v, g.order (List.range g.size) = .error cycle ∧ cycle.head? = some v ∧
        g.sort = .error v := by
  have hagree := g.sort_agree
  rw [sort]
  generalize g.order (List.range g.size) = x at *
  generalize (List.range g.size).foldlM (g.search (g.size + 2)) {} = y at *
  cases x with
  | error cycle =>
    cases y with
    | error v => exact .inr ⟨cycle, v, rfl, hagree, rfl⟩
    | ok m => exact hagree.elim
  | ok order =>
    cases y with
    | error v => exact hagree.elim
    | ok m => exact .inl ⟨order, rfl, congrArg Except.ok hagree.order_eq⟩

theorem sort_eq_ok_iff {g : Graph} {order : List Nat} :
    g.sort = .ok order ↔ g.order (List.range g.size) = .ok order := by
  obtain ⟨out, horder, hsort⟩ | ⟨cycle, v, horder, -, hsort⟩ := g.sort_cases <;>
    simp [horder, hsort]

theorem sort_eq_error_iff {g : Graph} {v : Nat} :
    g.sort = .error v ↔
      ∃ cycle, g.order (List.range g.size) = .error cycle ∧ cycle.head? = some v := by
  obtain ⟨out, horder, hsort⟩ | ⟨cycle, u, horder, hhead, hsort⟩ := g.sort_cases
  · simp [horder, hsort]
  · simp [horder, hsort, hhead]

theorem cyclicFrom_range_iff {g : Graph} :
    g.CyclicFrom (List.range g.size) ↔ ∃ v, TransGen g.Needs v v := by
  refine ⟨fun ⟨v, _, hloop⟩ => ⟨v, hloop⟩, fun ⟨v, hloop⟩ => ⟨v, .of_mem ?_, hloop⟩⟩
  obtain ⟨d, hd, -⟩ := TransGen.head'_iff.mp hloop
  exact mem_range.mpr (lt_size_of_needs hd)

/-- Ordering by marks, where all dependencies are vertices: there is an order just if no vertex
depends on itself, and it is made of all vertices, each behind its dependencies; otherwise the vertex
found depends on itself. It is the order that structs are defined in, or the first vertex of the
cycle that is reported there. -/
theorem sort_correct (needs : List (List Nat))
    (inside : ∀ ds ∈ needs, ∀ d ∈ ds, d < needs.length) :
    let g : Graph := ⟨needs.toArray⟩
    ((∃ order, g.sort = .ok order) ↔ ¬ ∃ v, TransGen g.Needs v v) ∧
    (∀ order, g.sort = .ok order →
      order.Perm (List.range needs.length) ∧
        ∀ v d, g.Needs v d → order.idxOf d < order.idxOf v) ∧
    (∀ v, g.sort = .error v → TransGen g.Needs v v) ∧
    (∀ order, g.sort = .ok order ↔ g.order (List.range needs.length) = .ok order) ∧
    ∀ v, g.sort = .error v ↔
      ∃ cycle, g.order (List.range needs.length) = .error cycle ∧ cycle.head? = some v := by
  intro g
  have hsize : g.size = needs.length := size_toArray
  have hinside {v d : Nat} (hd : g.Needs v d) : d < needs.length := by
    have hv : v < needs.length := hsize ▸ lt_size_of_needs hd
    rw [Needs, dependencies, getElem?_toArray, getElem?_eq_getElem hv] at hd
    exact inside _ (getElem_mem hv) d hd
  rw [← hsize] at *
  refine ⟨?_, fun order hsort => ?_, fun v hsort => ?_, fun _ => sort_eq_ok_iff,
    fun _ => sort_eq_error_iff⟩
  · rw [← cyclicFrom_range_iff, ← order_eq_ok_iff]
    exact exists_congr fun _ => sort_eq_ok_iff
  · obtain ⟨hfinished, hall⟩ := finished_of_order (sort_eq_ok_iff.mp hsort)
    refine ⟨(perm_ext_iff_of_nodup hfinished.nodup nodup_range).mpr fun v =>
      ⟨fun hv => ?_, fun hv => hall hv⟩, fun v d hd => ?_⟩
    · obtain ⟨u, hu, huv⟩ := hfinished.reached v hv
      rcases Relation.ReflTransGen.cases_tail huv with rfl | ⟨w, -, hw⟩
      · exact hu
      · exact mem_range.mpr (hinside hw)
    · exact (hfinished.behind v (hall (mem_range.mpr (lt_size_of_needs hd))) d hd).2
  · obtain ⟨cycle, hcycle, hhead⟩ := sort_eq_error_iff.mp hsort
    obtain ⟨hisCycle, -⟩ := isCycle_of_order hcycle
    have hloop := hisCycle.transGen
    rwa [Option.some.inj ((head?_eq_some_head hisCycle.nonempty).symm.trans hhead)] at hloop

/-- The first vertex leads to a cycle and is not on it. -/
theorem sort_correct_cycle :
    let g : Graph := ⟨#[[2], [2], [1]]⟩
    (∀ ds ∈ [[2], [2], [1]], ∀ d ∈ ds, d < 3) ∧ g.sort = .error 2 ∧ TransGen g.Needs 2 2 :=
  ⟨by decide, rfl, (sort_correct [[2], [2], [1]] (by decide)).2.2.1 2 rfl⟩

end Quill.Graph
