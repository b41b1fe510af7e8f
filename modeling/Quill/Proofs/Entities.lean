import Quill.Proofs.Arranged
import Quill.Proofs.LocalWords
import Quill.Proofs.StructDefinitions

/-!
# Entities and their C names

C names of what packages declare are put together from parts. Where the parts can be told from the
name, no two entities have the same name.
-/
namespace Quill

open List

variable {p : PackageId} {name : String}

/-- What has a C name of its own: something that a package declares, or a generic struct of a package
with arguments. -/
inductive Entity where
  | declared (kind : EntityKind) (package : PackageId) (name : String)
  | applied (package : PackageId) (name : String) (arguments : List Ty)
  deriving DecidableEq, Repr

namespace Entity

def kind : Entity → EntityKind
  | declared kind _ _ => kind
  | applied _ _ _ => .struct

end Entity

namespace Symbol

section

variable (structs : StructTable) (s : Symbol)

include structs s

/-- The kind of entity that a symbol stands for. Other names of types, types of C itself and structs
with parameters are no entities. -/
def entityKind? : Option EntityKind :=
  if s.foreign then none
  else
    match s.kind with
    | .function _ _ => some .function
    | .var _ _ => some .global
    | .struct id => if (structs.get id).generics.isEmpty then some .struct else none
    | .typedef (.abstract name owner false) =>
      if name = s.name ∧ owner = s.package then some .unknown else none
    | .typedef _ => none

def isGeneric : Bool :=
  match s.kind with
  | .struct id => !(structs.get id).generics.isEmpty
  | _ => false

/-- Whether C names are made of the name of the symbol. -/
def tells : Bool :=
  (s.entityKind? structs).isSome || s.isGeneric structs

def fields : List (String × Ty) :=
  match s.kind with
  | .struct id => (structs.get id).fields
  | _ => []

end

/-- The name can be told from C names that it is part of, and fields from one another. -/
structure Apart (structs : StructTable) (s : Symbol) : Prop where
  plain : underscored s.name.toList = false
  ends : s.isGeneric structs = true → s.name.toList.getLast? ≠ some '_'
  fields : ∀ f ∈ s.fields structs, Speakable f.1 ∧
    ∀ g ∈ s.fields structs, f.1 ∈ cReserved → g.1 ≠ f.1 ++ "_"

instance (structs : StructTable) (s : Symbol) : Decidable (s.Apart structs) :=
  decidable_of_iff (underscored s.name.toList = false ∧
      (s.isGeneric structs = true → s.name.toList.getLast? ≠ some '_') ∧
      ∀ f ∈ s.fields structs, Speakable f.1 ∧
        ∀ g ∈ s.fields structs, f.1 ∈ cReserved → g.1 ≠ f.1 ++ "_")
    ⟨fun h => ⟨h.1, h.2.1, h.2.2⟩, fun h => ⟨h.plain, h.ends, h.fields⟩⟩

end Symbol

/-- The segments can be told from C names that begin with them, and a C name can begin with them. -/
structure PackagePath.Apart (p : PackagePath) : Prop where
  plain : ∀ segment ∈ p.segments,
    underscored segment.toList = false ∧ segment.toList.getLast? ≠ some '_'
  starts : ∀ segment ∈ p.segments.head?, ∀ c ∈ segment.toList.head?, Lexer.isDigit c = false

instance (p : PackagePath) : Decidable p.Apart :=
  decidable_of_iff ((∀ segment ∈ p.segments,
        underscored segment.toList = false ∧ segment.toList.getLast? ≠ some '_') ∧
      ∀ segment ∈ p.segments.head?, segment.toList.head?.any Lexer.isDigit = false)
    ⟨fun h => ⟨h.1, fun segment hs => (Option.any_eq_false _ _).mp (h.2 segment hs)⟩,
      fun h => ⟨h.plain, fun segment hs => (Option.any_eq_false _ _).mpr (h.starts segment hs)⟩⟩

namespace Checked

/-- The entities of a program with their C names, those of instances by their last versions. -/
inductive Names (cx : Checked) (last : Instances) : Entity → String → Prop
  | declared {p : PackageId} {name : String} {s : Symbol} {kind : EntityKind}
    (symbol : (cx.resolution.globals.scope p).symbol? name = some s)
    (stands : s.entityKind? cx.structs = some kind) :
    Names cx last (.declared kind p name) (cx.mangle p name)
  | applied {id : StructId} {as : List Ty} {v : Nat} (inside : id < cx.structs.size)
    (generic : (cx.structs.get id).generics ≠ []) (version : last.version? id as = some v) :
    Names cx last (.applied (cx.structs.get id).package (cx.structs.get id).name as)
      (cx.instanceText id v)

def speakers (cx : Checked) : List PackageId :=
  cx.table.ids.filter fun p => (cx.resolution.globals.scope p).symbols.any (·.tells cx.structs)

def ownFiles (cx : Checked) : List File :=
  cx.table.ids.filterMap fun p =>
    (cx.table.get? p).bind fun package => if package.isForeign then none else package.source

/-- C names can be taken apart, and all names that C code declares are identifiers. -/
structure NamesApart (cx : Checked) : Prop where
  paths : ∀ p ∈ cx.speakers, (cx.table.pathOf p).Apart
  anonymous : ∀ p ∈ cx.speakers, ∀ q ∈ cx.speakers, (cx.table.pathOf p).isAnonymous = true →
    (cx.table.pathOf q).segments ≠ ["main"]
  symbols : ∀ p ∈ cx.speakers, ∀ s ∈ (cx.resolution.globals.scope p).symbols,
    s.tells cx.structs = true → s.Apart cx.structs
  locals : ∀ file ∈ cx.ownFiles, ∀ d ∈ file.decls, ∀ x ∈ d.locals, Speakable x

instance (cx : Checked) : Decidable cx.NamesApart :=
  decidable_of_iff ((∀ p ∈ cx.speakers, (cx.table.pathOf p).Apart) ∧
      (∀ p ∈ cx.speakers, ∀ q ∈ cx.speakers, (cx.table.pathOf p).isAnonymous = true →
        (cx.table.pathOf q).segments ≠ ["main"]) ∧
      (∀ p ∈ cx.speakers, ∀ s ∈ (cx.resolution.globals.scope p).symbols,
        s.tells cx.structs = true → s.Apart cx.structs) ∧
      ∀ file ∈ cx.ownFiles, ∀ d ∈ file.decls, ∀ x ∈ d.locals, Speakable x)
    ⟨fun h => ⟨h.1, h.2.1, h.2.2.1, h.2.2.2⟩, fun h => ⟨h.paths, h.anonymous, h.symbols, h.locals⟩⟩

/-- C names are made of the name and the path of the package, and can be taken apart. -/
structure Spoken (cx : Checked) (p : PackageId) (name : String) : Prop where
  speaks : p ∈ cx.speakers
  segments : ∀ segment ∈ (cx.table.pathOf p).segments, IsWord segment
  path : (cx.table.pathOf p).Apart
  word : IsWord name
  plain : underscored name.toList = false

def lead (cx : Checked) (p : PackageId) : List (List Char) :=
  (cx.table.pathOf p).parts.map String.toList

end Checked

theorem underscored_of_not_mem {cs : List Char} (h : '_' ∉ cs) : underscored cs = false := by
  induction cs with
  | nil => rfl
  | cons c cs ih =>
    obtain ⟨hc, hcs⟩ := not_or.mp (mem_cons.not.mp h)
    unfold underscored
    split
    · rename_i heq
      cases heq
      exact absurd rfl hc
    · rename_i heq
      cases heq
      exact ih hcs
    · rfl

theorem underscored_toString (v : Nat) : underscored (toString v).toList = false :=
  underscored_of_not_mem fun h => absurd (isDigit_of_mem_toString h) (by decide)

theorem IsWord.ne_toString (h : IsWord name) (v : Nat) : name ≠ toString v := by
  rintro rfl
  obtain ⟨c, hc, hstart⟩ := h.starts
  simp [isWordStart_of_isDigit (isDigit_of_mem_toString hc)] at hstart

namespace PackageTable

theorem WellFormed.pathOf_inj {t : PackageTable} (h : t.WellFormed) {q : PackageId} (hp : p ∈ t.ids)
    (hq : q ∈ t.ids) (heq : t.pathOf p = t.pathOf q) : p = q := by
  have inside {i : PackageId} (hi : i ∈ t.ids) : i < t.paths.length :=
    t.length_paths ▸ mem_range.mp hi
  rw [t.pathOf_eq (inside hp), t.pathOf_eq (inside hq)] at heq
  exact (List.Nodup.getElem_inj_iff h.distinct).mp heq

end PackageTable

namespace Checked

theorem toList_mangle (cx : Checked) (p : PackageId) (name : String) :
    (cx.mangle p name).toList = joined (cx.lead p ++ [name.toList]) := by
  rw [Checked.mangle, PackagePath.toList_mangle, map_append]
  rfl

theorem toList_instanceText (cx : Checked) (id : StructId) (v : Nat) :
    (cx.instanceText id v).toList = joined (cx.lead (cx.structs.get id).package ++
      [(cx.structs.get id).name.toList, (toString v).toList]) := by
  rw [instanceText, structName, String.toList_append, String.toList_append, toList_mangle,
    ← singleton_append (l := [(toString v).toList]), ← append_assoc,
    joined_append_singleton (append_ne_nil_of_right_ne_nil _ (cons_ne_nil _ _)),
    append_assoc]
  rfl

end Checked

namespace Checked.Spoken

variable {cx : Checked} {p q : PackageId} {name other : String}

section

variable (h : cx.Spoken p name)

include h

theorem lead_apart : ∀ part ∈ cx.lead p, underscored part = false ∧ part.getLast? ≠ some '_' := by
  refine forall_mem_map.mpr fun segment hsegment => ?_
  unfold PackagePath.parts at hsegment
  split at hsegment
  · rw [mem_singleton.mp hsegment]
    decide
  · exact h.path.plain segment hsegment

theorem parts : Parts (cx.lead p ++ [name.toList]) :=
  .append h.lead_apart (.last h.plain)

theorem versionParts (ends : name.toList.getLast? ≠ some '_') (v : Nat) :
    Parts (cx.lead p ++ [name.toList, (toString v).toList]) :=
  .append h.lead_apart (.cons h.plain ends (.last (underscored_toString v)))

theorem lead_cases : ∃ first rest, cx.lead p = first :: rest ∧
    (∀ part ∈ first :: rest, ∀ c ∈ part, Lexer.isWordPart c) ∧
    ∃ c ∈ first.head?, Lexer.isWordStart c := by
  unfold lead PackagePath.parts
  split
  · refine ⟨"main".toList, [], rfl, ?_, 'm', rfl, by decide⟩
    exact forall_mem_singleton.mpr (all_eq_true.mp (by decide))
  · rename_i hnamed
    cases hsegments : (cx.table.pathOf p).segments with
    | nil => simp [PackagePath.isAnonymous, hsegments] at hnamed
    | cons segment segments =>
      refine ⟨segment.toList, segments.map String.toList, rfl, ?_, ?_⟩
      · rw [← map_cons]
        exact forall_mem_map.mpr fun other hother =>
          (h.segments other (hsegments ▸ hother)).chars
      · have word := h.segments segment (hsegments ▸ mem_cons_self)
        exact word.exists_start (h.path.starts segment (by rw [hsegments]; rfl))

theorem isIdentifier {parts : List (List Char)} (more : parts ≠ [])
    (chars : ∀ part ∈ parts, ∀ c ∈ part, Lexer.isWordPart c) {text : String}
    (htext : text.toList = joined (cx.lead p ++ parts)) : IsIdentifier text := by
  obtain ⟨first, rest, hlead, hchars, starts⟩ := h.lead_cases
  rw [hlead] at htext
  refine .of_joined htext (append_ne_nil_of_right_ne_nil rest more) ?_ starts
  exact forall_mem_append.mpr ⟨hchars, chars⟩

end

theorem path_eq (apart : cx.NamesApart) (hp : cx.Spoken p name) (hq : cx.Spoken q other)
    (h : cx.lead p = cx.lead q) : cx.table.pathOf p = cx.table.pathOf q := by
  have parts := map_injective_iff.mpr (fun _ _ => String.toList_inj.mp) h
  have segments : (cx.table.pathOf p).segments = (cx.table.pathOf q).segments := by
    unfold PackagePath.parts at parts
    split at parts <;> split at parts
    · rename_i hnone hnone'
      rw [isEmpty_iff.mp hnone, isEmpty_iff.mp hnone']
    · rename_i hnone _
      exact absurd parts.symm (apart.anonymous p hp.speaks q hq.speaks hnone)
    · rename_i hnone
      exact absurd parts (apart.anonymous q hq.speaks p hp.speaks hnone)
    · exact parts
  exact congrArg PackagePath.mk segments

theorem eq_of_parts (apart : cx.NamesApart) (wellFormed : cx.table.WellFormed)
    (hp : cx.Spoken p name) (hq : cx.Spoken q other) {rest rest' : List (List Char)}
    (h : cx.lead p ++ name.toList :: rest = cx.lead q ++ other.toList :: rest')
    (length : rest.length = rest'.length) :
    p = q ∧ name = other ∧ rest = rest' := by
  obtain ⟨leads, parts⟩ := append_inj' h (congrArg (· + 1) length)
  have inside {i : PackageId} (hi : i ∈ cx.speakers) : i ∈ cx.table.ids := (mem_filter.mp hi).1
  exact ⟨wellFormed.pathOf_inj (inside hp.speaks) (inside hq.speaks) (path_eq apart hp hq leads),
    String.toList_inj.mp (List.cons.inj parts).1, (List.cons.inj parts).2⟩

theorem parts_ne_versionParts (h : cx.Spoken p name) (q : PackageId) (other : String) (v : Nat) :
    cx.lead p ++ [name.toList] ≠ cx.lead q ++ [other.toList, (toString v).toList] := by
  intro heq
  have last := congrArg List.getLast? heq
  simp only [getLast?_append, getLast?_singleton, getLast?_cons_cons,
    Option.some_or, Option.some.injEq] at last
  exact h.word.ne_toString v (String.toList_inj.mp last)

end Checked.Spoken

namespace Checked

/-- A program with names that can be taken apart, all of them words, in which structs are told by
package and name. -/
structure Legible (cx : Checked) : Prop extends NamesApart cx where
  wellFormed : cx.table.WellFormed
  titled : cx.resolution.globals.Titled cx.table
  spoken : ∀ p name s, (cx.resolution.globals.scope p).symbol? name = some s →
    s.tells cx.structs = true → cx.Spoken p name ∧ s.Apart cx.structs

namespace Legible

variable {cx : Checked}

theorem declared_spoken (h : cx.Legible) {s : Symbol} {kind : EntityKind}
    (symbol : (cx.resolution.globals.scope p).symbol? name = some s)
    (stands : s.entityKind? cx.structs = some kind) : cx.Spoken p name := by
  refine (h.spoken p name s symbol ?_).1
  rw [Symbol.tells, stands]
  rfl

theorem generic_spoken (h : cx.Legible) {id : StructId} (inside : id < cx.structs.size)
    (generic : (cx.structs.get id).generics ≠ []) :
    cx.Spoken (cx.structs.get id).package (cx.structs.get id).name ∧
      (cx.structs.get id).name.toList.getLast? ≠ some '_' := by
  obtain ⟨s, symbol, kind, -⟩ := h.titled.structs id inside
  have isGeneric : s.isGeneric cx.structs = true := by
    rw [Symbol.isGeneric, kind]
    simpa using generic
  obtain ⟨spoken, plain⟩ := h.spoken _ _ s symbol (Bool.or_eq_true_iff.mpr (.inr isGeneric))
  exact ⟨spoken, Scope.name_of_symbol? symbol ▸ plain.ends isGeneric⟩

theorem mangle_ne_instanceText (h : cx.Legible) (spoken : cx.Spoken p name) {id : StructId}
    (inside : id < cx.structs.size) (generic : (cx.structs.get id).generics ≠ []) (v : Nat) :
    cx.mangle p name ≠ cx.instanceText id v := by
  intro heq
  obtain ⟨spoken', ends⟩ := h.generic_spoken inside generic
  have parts := congrArg String.toList heq
  rw [toList_mangle, toList_instanceText] at parts
  exact spoken.parts_ne_versionParts _ _ _ (joined_inj spoken.parts (spoken'.versionParts ends v) parts)

variable {last : Instances} {e e' : Entity} {n n' : String}

theorem names_iff (h : cx.Legible) (regular : last.Regular) (hn : cx.Names last e n)
    (hn' : cx.Names last e' n') : e = e' ↔ n = n' := by
  cases hn with
  | declared symbol stands =>
    have spoken := h.declared_spoken symbol stands
    cases hn' with
    | declared symbol' stands' =>
      have spoken' := h.declared_spoken symbol' stands'
      refine ⟨fun heq => ?_, fun heq => ?_⟩
      · cases heq
        rfl
      · have parts := congrArg String.toList heq
        rw [toList_mangle, toList_mangle] at parts
        obtain ⟨rfl, rfl, -⟩ := spoken.eq_of_parts h.toNamesApart h.wellFormed spoken'
          (joined_inj spoken.parts spoken'.parts parts) rfl
        cases symbol.symm.trans symbol'
        cases stands.symm.trans stands'
        rfl
    | applied inside generic version =>
      exact ⟨nofun, fun heq => absurd heq (h.mangle_ne_instanceText spoken inside generic _)⟩
  | applied inside generic version =>
    cases hn' with
    | declared symbol' stands' =>
      have spoken' := h.declared_spoken symbol' stands'
      exact ⟨nofun, fun heq => absurd heq.symm (h.mangle_ne_instanceText spoken' inside generic _)⟩
    | applied inside' generic' version' =>
      obtain ⟨spoken, ends⟩ := h.generic_spoken inside generic
      obtain ⟨spoken', ends'⟩ := h.generic_spoken inside' generic'
      refine ⟨fun heq => ?_, fun heq => ?_⟩
      · injection heq with package name arguments
        obtain rfl := h.titled.eq_of_name inside inside' package name
        subst arguments
        rw [Option.some.inj (version.symm.trans version')]
      · have parts := congrArg String.toList heq
        rw [toList_instanceText, toList_instanceText] at parts
        obtain ⟨package, name, numbers⟩ := spoken.eq_of_parts h.toNamesApart h.wellFormed spoken'
          (joined_inj (spoken.versionParts ends _) (spoken'.versionParts ends' _) parts) rfl
        obtain rfl := h.titled.eq_of_name inside inside' package name
        obtain rfl := Lower.toString_inj (String.toList_inj.mp (List.cons.inj numbers).1)
        rw [regular.arguments_eq version version']

theorem names_isIdentifier (h : cx.Legible) (hn : cx.Names last e n) : IsIdentifier n := by
  cases hn with
  | declared symbol stands =>
    have spoken := h.declared_spoken symbol stands
    refine spoken.isIdentifier (cons_ne_nil _ _) ?_ (toList_mangle ..)
    exact forall_mem_singleton.mpr spoken.word.chars
  | applied inside generic version =>
    obtain ⟨spoken, -⟩ := h.generic_spoken inside generic
    refine spoken.isIdentifier (cons_ne_nil _ _) ?_ (toList_instanceText ..)
    refine forall_mem_cons.mpr ⟨spoken.word.chars, forall_mem_singleton.mpr fun c hc => ?_⟩
    simp [Lexer.isWordPart, isDigit_of_mem_toString hc]

end Legible

end Checked

section Accepted

variable {sources : Sources} {options : Options} {order : List PackageId}

theorem Accepted.isWord (h : Accepted sources options order) {file : File}
    (source : (sources.table options).sourceOf? p = some file) {d : Decl} (hd : d ∈ file.decls)
    (hname : (Node.decl d).Mentions name) : IsWord name := by
  obtain ⟨n, hn, hname⟩ := hname.part (n := .file file) (mem_map_of_mem hd)
  exact parse_isWord _ file (h.holds.among p file source) n hn name hname

theorem Decl.mentions_name? {d : Decl} (h : d.name? = some name) : (Node.decl d).Mentions name := by
  refine .self ?_
  cases d <;> cases h <;> exact mem_cons_self

section

variable (h : Accepted sources options order)

include h

theorem Accepted.segments_isWord {file : File}
    (source : (sources.table options).sourceOf? p = some file) :
    ∀ segment ∈ ((sources.table options).pathOf p).segments, IsWord segment := by
  intro segment hsegment
  obtain ⟨package, hget, hsource⟩ := Option.bind_eq_some_iff.mp source
  have path : (sources.table options).pathOf p = file.path := by
    rw [PackageTable.pathOf, hget]
    exact (sources.arranged options).path p package hget file hsource
  rw [path] at hsegment
  cases hfound : file.packagePath? with
  | none => simp [File.path, hfound] at hsegment
  | some written =>
    replace hsegment : segment ∈ written := by simpa [File.path, hfound] using hsegment
    obtain ⟨d, hd, hwritten⟩ := exists_of_findSome?_eq_some hfound
    refine h.isWord source hd (.self ?_)
    cases d <;> cases hwritten
    exact hsegment

theorem Accepted.spoken (apart : (sources.checked options order).NamesApart) {s : Symbol}
    (symbol : ((sources.resolved options order).1.globals.scope p).symbol? name = some s)
    (tells : s.tells (sources.checked options order).structs = true) :
    (sources.checked options order).Spoken p name ∧
      s.Apart (sources.checked options order).structs := by
  obtain ⟨-, path, file, isEntry, header, hget, ⟨d, hd, made⟩, -⟩ := h.sourced p name s symbol
  obtain rfl := Scope.name_of_symbol? symbol
  have source : (sources.table options).sourceOf? p = some file := by
    rw [PackageTable.sourceOf?, hget]
    rfl
  have among := mem_of_find?_eq_some symbol
  have speaks : p ∈ (sources.checked options order).speakers :=
    mem_filter.mpr ⟨mem_range.mpr (PackageTable.lt_size_of_sourceOf? source),
      any_eq_true.mpr ⟨s, among, tells⟩⟩
  have plain := apart.symbols p speaks s among tells
  exact ⟨⟨speaks, h.segments_isWord source, apart.paths p speaks,
    h.isWord source hd (Decl.mentions_name? made.name), plain.plain⟩, plain⟩

theorem Accepted.legible (apart : (sources.checked options order).NamesApart) :
    (sources.checked options order).Legible :=
  ⟨apart, (sources.arranged options).toWellFormed, h.titled, fun _ _ _ symbol tells => h.spoken apart symbol tells⟩

end

end Accepted

end Quill
