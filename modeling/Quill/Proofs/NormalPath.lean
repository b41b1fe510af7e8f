import Mathlib.Data.List.Basic
import Quill.Command.Path

/-!
# Normal paths

Normalizing a path writes down the place it leads to, and reading that text leads to the same place
again.
-/
namespace Quill.Path

open List Place

variable {absolute : Bool} {names : List (List Char)} {p : Place}

/-- No slash in it, and not made of dots alone. -/
def IsName (name : List Char) : Prop := '/' ∉ name ∧ ∃ c ∈ name, c ≠ '.'

/-- A slash, or `./`, or one or more `../`, and then names with single slashes between them. -/
def IsNormal (absolute : Bool) (text : String) : Prop :=
  ∃ (start : String) (names : List String), text = start ++ "/".intercalate names ∧
    (∀ name ∈ names, IsName name.toList) ∧
    if absolute then start = "/"
    else start = "./" ∨ ∃ ups, start = String.join (List.replicate (ups + 1) "../")

/-! ## Segments -/

theorem segments_ne_nil (text : List Char) : segments text ≠ [] := by
  cases text with
  | nil => exact cons_ne_nil _ _
  | cons c cs =>
    rw [segments]
    split
    · exact cons_ne_nil _ _
    · split <;> exact cons_ne_nil _ _

theorem segments_slash (text : List Char) : segments ('/' :: text) = [] :: segments text := by
  rw [segments]
  split
  · exact absurd ‹_› (segments_ne_nil text)
  · rename_i h
    rw [if_pos rfl, h]

theorem segments_append_slash (a b : List Char) :
    segments (a ++ '/' :: b) = segments a ++ segments b := by
  induction a with
  | nil => exact segments_slash b
  | cons c a ih =>
    obtain ⟨s, ss, hs⟩ := exists_cons_of_ne_nil (segments_ne_nil a)
    simp only [cons_append, segments, ih, hs]
    split <;> rfl

theorem segments_of_notMem {text : List Char} (h : '/' ∉ text) : segments text = [text] := by
  induction text with
  | nil => rfl
  | cons c cs ih =>
    rw [mem_cons, not_or] at h
    simp only [segments, ih h.2, if_neg (Ne.symm h.1)]

theorem notMem_of_mem_segments {text s : List Char} (h : s ∈ segments text) : '/' ∉ s := by
  induction text generalizing s with
  | nil => rw [mem_singleton.mp h]; exact not_mem_nil
  | cons c cs ih =>
    rw [segments] at h
    split at h
    · exact absurd ‹_› (segments_ne_nil cs)
    · rename_i first rest hsegments
      rw [hsegments] at ih
      split at h
      · rcases mem_cons.mp h with rfl | h
        · exact not_mem_nil
        · exact ih h
      · rename_i hc
        rcases mem_cons.mp h with rfl | h
        · exact not_mem_cons_of_ne_of_not_mem (Ne.symm hc) (ih mem_cons_self)
        · exact ih (mem_cons_of_mem _ h)

theorem segments_intercalate {name : List Char} (h : ∀ n ∈ name :: names, '/' ∉ n) :
    segments (['/'].intercalate (name :: names)) = name :: names := by
  induction names generalizing name with
  | nil => simpa using segments_of_notMem (h name mem_cons_self)
  | cons next names ih =>
    rw [intercalate_cons_cons, append_assoc, singleton_append,
      segments_append_slash, segments_of_notMem (h name mem_cons_self),
      ih fun n hn => h n (mem_cons_of_mem _ hn), singleton_append]

/-! ## Places -/

namespace Place

/-- A place that a path can lead to: nothing is above the root, and it goes down by names. -/
structure Sound (p : Place) : Prop where
  rooted : p.absolute → p.ups = 0
  named : ∀ name ∈ p.names, IsName name

theorem Sound.climb (h : p.Sound) : p.climb.Sound ∧ p.climb.absolute = p.absolute := by
  rw [Place.climb]
  split
  · rename_i names hnames
    refine ⟨⟨h.rooted, fun name hname => h.named name ?_⟩, rfl⟩
    exact hnames ▸ mem_cons_of_mem _ hname
  · split
    · exact ⟨h, rfl⟩
    · exact ⟨⟨fun habsolute => absurd habsolute ‹_›, h.named⟩, rfl⟩

theorem Sound.climbBy (h : p.Sound) (n : Nat) :
    (p.climbBy n).Sound ∧ (p.climbBy n).absolute = p.absolute := by
  induction n generalizing p with
  | zero => exact ⟨h, rfl⟩
  | succ n ih =>
    obtain ⟨hsound, habsolute⟩ := ih h.climb.1
    exact ⟨hsound, habsolute.trans h.climb.2⟩

theorem Sound.enter (h : p.Sound) {segment : List Char} (hs : '/' ∉ segment) :
    (p.enter segment).Sound ∧ (p.enter segment).absolute = p.absolute := by
  rw [Place.enter]
  split
  · exact ⟨h, rfl⟩
  · split
    · exact h.climbBy _
    · rename_i hdots
      simp only [all_eq_true, beq_iff_eq, not_forall] at hdots
      obtain ⟨c, hc, hne⟩ := hdots
      exact ⟨⟨h.rooted, forall_mem_cons.mpr ⟨⟨hs, c, hc, hne⟩, h.named⟩⟩, rfl⟩

theorem Sound.enterAll (h : p.Sound) {segments : List (List Char)} (hs : ∀ s ∈ segments, '/' ∉ s) :
    (segments.foldl .enter p).Sound ∧
      (segments.foldl .enter p).absolute = p.absolute := by
  induction segments generalizing p with
  | nil => exact ⟨h, rfl⟩
  | cons s segments ih =>
    obtain ⟨hsound, habsolute⟩ := h.enter (hs s mem_cons_self)
    obtain ⟨hall, hkept⟩ := ih hsound fun t ht => hs t (mem_cons_of_mem _ ht)
    exact ⟨hall, hkept.trans habsolute⟩

theorem enter_name (p : Place) {name : List Char} (h : IsName name) :
    p.enter name = { p with names := name :: p.names } := by
  obtain ⟨-, c, hc, hne⟩ := h
  rw [enter, if_neg, if_neg]
  · simp only [all_eq_true, beq_iff_eq]
    exact fun hall => hne (hall c hc)
  · rintro (rfl | rfl)
    · exact not_mem_nil hc
    · exact hne (mem_singleton.mp hc)

theorem enter_names (p : Place) (h : ∀ name ∈ names, IsName name) :
    names.foldl enter p = { p with names := names.reverse ++ p.names } := by
  induction names generalizing p with
  | nil => rfl
  | cons name names ih =>
    rw [foldl_cons, enter_name p (h name mem_cons_self),
      ih _ fun n hn => h n (mem_cons_of_mem _ hn)]
    simp

theorem enter_written (p : Place) (h : ∀ name ∈ names, IsName name) :
    (segments (['/'].intercalate names)).foldl enter p =
      { p with names := names.reverse ++ p.names } := by
  cases names with
  | nil => rfl
  | cons name names => rw [segments_intercalate fun n hn => (h n hn).1, enter_names p h]

theorem enter_ups (ups above : Nat) (text : List Char) :
    (segments ((List.replicate ups ['.', '.', '/']).flatten ++ text)).foldl enter
        { absolute := false, ups := above } =
      (segments text).foldl enter { absolute := false, ups := above + ups } := by
  induction ups generalizing above with
  | zero => rfl
  | succ ups ih =>
    have hsplit : (List.replicate (ups + 1) ['.', '.', '/']).flatten ++ text =
        ['.', '.'] ++ '/' :: ((List.replicate ups ['.', '.', '/']).flatten ++ text) := rfl
    have hup : enter { absolute := false, ups := above } ['.', '.'] =
        { absolute := false, ups := above + 1 } := rfl
    rw [hsplit, segments_append_slash, segments_of_notMem (by decide), singleton_append,
      foldl_cons, hup, ih, Nat.add_right_comm, Nat.add_assoc]

theorem render_ne_nil (p : Place) : p.render ≠ [] := by
  rw [render, start]
  split
  · simp
  · split
    · simp
    · rename_i hups
      obtain ⟨ups, h⟩ := Nat.exists_eq_succ_of_ne_zero hups
      simp [h, replicate_succ]

end Place

/-! ## Reading a text again -/

theorem place_sound (text : List Char) :
    (place text).Sound ∧ (place text).absolute = isAbsolute text :=
  Place.Sound.enterAll ⟨fun _ => rfl, fun _ => (absurd · not_mem_nil)⟩
    fun _ => notMem_of_mem_segments

theorem place_append_slash {a : List Char} (h : a ≠ []) (b : List Char) :
    place (a ++ '/' :: b) = (segments b).foldl .enter (place a) := by
  have habsolute : isAbsolute (a ++ '/' :: b) = isAbsolute a := by
    rw [isAbsolute, isAbsolute, head?_append_of_ne_nil a h]
  rw [place, place, habsolute, segments_append_slash, foldl_append]

theorem place_render (h : p.Sound) : place p.render = p := by
  obtain ⟨absolute, ups, names⟩ := p
  have hnames : ∀ name ∈ names.reverse, IsName name := fun name hname =>
    h.named name (mem_reverse.mp hname)
  rw [render, start]
  cases absolute with
  | true =>
    obtain rfl : ups = 0 := h.rooted rfl
    have hread := enter_written { absolute := true } hnames
    rw [if_pos rfl, place, singleton_append, segments_slash]
    rwa [reverse_reverse, append_nil] at hread
  | false =>
    have hread := enter_written { absolute := false, ups } hnames
    cases ups with
    | zero =>
      have hdot : (['.', '/'] : List Char) ++ ['/'].intercalate names.reverse =
          ['.'] ++ '/' :: ['/'].intercalate names.reverse := rfl
      rw [if_neg Bool.false_ne_true, if_pos rfl, hdot,
        place_append_slash (cons_ne_nil _ _)]
      rwa [reverse_reverse, append_nil] at hread
    | succ ups =>
      have hrelative : isAbsolute ((List.replicate (ups + 1) ['.', '.', '/']).flatten ++
          ['/'].intercalate names.reverse) = false := rfl
      rw [if_neg Bool.false_ne_true, if_neg (Nat.succ_ne_zero ups), place, hrelative,
        enter_ups, Nat.zero_add]
      rwa [reverse_reverse, append_nil] at hread

theorem normalize_append_slash {a : String} (h : a ≠ "") (b : String) :
    normalize (a ++ "/" ++ b) = normalize (normalize a ++ "/" ++ b) := by
  have ha : a.toList ≠ [] := by simpa using h
  have hslash (s : String) : (s ++ "/" ++ b).toList = s.toList ++ '/' :: b.toList := by simp
  rw [normalize, normalize, hslash, hslash, place_append_slash ha, normalize, String.toList_ofList,
    place_append_slash (render_ne_nil _), place_render (place_sound a.toList).1]

/-! ## Normal texts -/

theorem start_eq_iff {start : String} :
    (if absolute then start = "/"
      else start = "./" ∨ ∃ ups, start = String.join (List.replicate (ups + 1) "../")) ↔
      ∃ ups, (absolute → ups = 0) ∧ start.toList = Place.start { absolute, ups } := by
  have hups (n : Nat) : (String.join (List.replicate n "../")).toList =
      (List.replicate n ['.', '.', '/']).flatten := by
    rw [String.toList_join, List.flatMap, map_replicate]
    rfl
  cases absolute with
  | true => simp [Place.start, ← String.toList_inj]
  | false =>
    simp only [Place.start, Bool.false_eq_true, if_false, false_implies, true_and,
      ← String.toList_inj, hups]
    constructor
    · rintro (h | ⟨ups, h⟩)
      · exact ⟨0, h⟩
      · exact ⟨ups + 1, h⟩
    · rintro ⟨_ | ups, h⟩
      · exact .inl h
      · exact .inr ⟨ups, h⟩

theorem isNormal_iff {text : String} :
    IsNormal absolute text ↔
      ∃ p : Place, p.Sound ∧ p.absolute = absolute ∧ text = String.ofList p.render := by
  have hwritten (start : String) (names : List String) :
      (start ++ "/".intercalate names).toList =
        start.toList ++ ['/'].intercalate (names.map String.toList) := by
    rw [String.toList_append, String.toList_intercalate]
    rfl
  constructor
  · rintro ⟨start, names, rfl, hnames, hstart⟩
    obtain ⟨ups, hrooted, hups⟩ := start_eq_iff.mp hstart
    refine ⟨⟨absolute, ups, (names.map String.toList).reverse⟩, ⟨hrooted, ?_⟩, rfl, ?_⟩
    · simpa using hnames
    · rw [← String.toList_inj, hwritten, hups, String.toList_ofList, render,
        reverse_reverse]
      rfl
  · rintro ⟨p, hp, rfl, rfl⟩
    refine ⟨String.ofList p.start, p.names.reverse.map String.ofList, ?_, ?_, ?_⟩
    · rw [← String.toList_inj, hwritten, String.toList_ofList, String.toList_ofList, render,
        map_map]
      simp [Function.comp_def]
    · simpa using hp.named
    · exact start_eq_iff.mpr ⟨p.ups, hp.rooted, String.toList_ofList⟩

theorem normalize_isNormal (path : String) :
    IsNormal (isAbsolute path.toList) (normalize path) := by
  obtain ⟨hsound, habsolute⟩ := place_sound path.toList
  exact isNormal_iff.mpr ⟨_, hsound, habsolute, rfl⟩

theorem normalize_of_isNormal {text : String} (h : IsNormal absolute text) :
    normalize text = text := by
  obtain ⟨p, hp, -, rfl⟩ := isNormal_iff.mp h
  rw [normalize, String.toList_ofList, place_render hp]

/-- The part of a path in front of a slash can be normalized first. What normalizing gives is
normal, and it leaves normal paths alone. -/
theorem normalize_congruence (a b : String) (ha : a ≠ "") :
    normalize (a ++ "/" ++ b) = normalize (normalize a ++ "/" ++ b) ∧
    (∀ path, IsNormal (isAbsolute path.toList) (normalize path)) ∧
    (∀ path, normalize (normalize path) = normalize path) ∧
    ∀ absolute text, IsNormal absolute text → normalize text = text :=
  ⟨normalize_append_slash ha b, normalize_isNormal,
    fun path => normalize_of_isNormal (normalize_isNormal path),
    fun _ _ => normalize_of_isNormal⟩

/-- Climbing out of `x/y` by three dots and then once more. -/
theorem normalize_congruence_climbing :
    normalize "x/y/..../../z" = normalize (normalize "x/y/...." ++ "/" ++ "../z") ∧
      normalize "x/y/...." = "../" :=
  ⟨(normalize_congruence "x/y/...." "../z" (by decide)).1, by decide⟩

end Quill.Path
