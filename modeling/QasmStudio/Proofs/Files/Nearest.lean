import Mathlib.Data.List.Infix
import QasmStudio.Proofs.Text.Cut
import QasmStudio.Settings

/-!
# The nearest settings file

The directories from a start up to the top are looked at one after the other, the deepest first, and the
walk ends at the first that has a settings file (`find_nearest`). It depends on nothing but what is at
these directories and at the settings files in them.
-/

namespace QasmStudio

open Text List

/-! ### Directories above -/

namespace Path
variable {p d : Path}

theorem parent_concat (hne : p ≠ []) (last : String) :
    parent (p ++ [last]) = p ∧ parent (p ++ [last]) ≠ p ++ [last] := by
  have hlength : ¬ (p ++ [last]).length ≤ 1 := by
    have := length_pos_iff.2 hne
    simp only [length_append, length_singleton]
    omega
  rw [parent, if_neg hlength, dropLast_concat]
  exact ⟨rfl, by simp⟩

/-- A part of a path is no mark for a directory and is not cut. -/
structure IsPart (part : String) : Prop where
  mark : part ∉ ["", ".", ".."]
  slash : '/' ∉ part.toList

/-- The path goes from the top, by names only. -/
def IsAbsolute (p : Path) : Prop := ∃ names, p = "" :: names ∧ ∀ part ∈ names, IsPart part

theorem IsAbsolute.of_isPrefix (h : p.IsAbsolute) (hd : d <+: p) (hne : d ≠ []) : d.IsAbsolute := by
  obtain ⟨names, rfl, hnames⟩ := h
  rcases prefix_cons_iff.1 hd with rfl | ⟨front, rfl, hfront⟩
  · exact absurd rfl hne
  · exact ⟨front, rfl, fun part hpart => hnames part (hfront.subset hpart)⟩

/-! ### Paths in writing -/

theorem toList_render (p : Path) : p.render.toList = List.intercalate ['/'] (p.map String.toList) := by
  rw [render, String.toList_intercalate]
  rfl

theorem split_intercalate {first : List Char} {others : List (List Char)} (h : ∀ cs ∈ first :: others, '/' ∉ cs) :
    split '/' (List.intercalate ['/'] (first :: others)) = first :: others := by
  induction others generalizing first with
  | nil =>
    rw [intercalate_singleton]
    exact split_of_not_mem (h first mem_cons_self)
  | cons second others ih =>
    obtain ⟨hfirst, hothers⟩ := forall_mem_cons.1 h
    rw [intercalate_cons_cons, append_assoc, singleton_append, split_append hfirst, ih hothers]

theorem parts_render {names : List String} (h : ∀ part ∈ names, IsPart part) :
    parts (render ("" :: names)) = names := by
  have hslash : ∀ cs ∈ "".toList :: names.map String.toList, '/' ∉ cs := by
    refine forall_mem_cons.2 ⟨by decide, fun cs hcs => ?_⟩
    obtain ⟨part, hpart, rfl⟩ := mem_map.1 hcs
    exact (h part hpart).slash
  have hnames : (names.map String.toList).map String.ofList = names := by simp
  rw [parts, toList_render, map_cons, split_intercalate hslash, map_cons, hnames,
    filter_cons_of_neg (by decide), filter_eq_self]
  intro part hpart
  have hmark := (h part hpart).mark
  simp only [mem_cons, not_or] at hmark
  simp [hmark]

theorem origin_render (base : Path) (name : String) (names : List String) :
    origin base (render ("" :: name :: names)) = [""] := by
  rw [origin, toList_render, map_cons, map_cons, intercalate_cons_cons]
  rfl

end Path

/-! ### What is at a path -/

namespace FileTree
variable {t t' : FileTree} {p q : Path} {parts : List String}

theorem directory_congr (h : t'.entry? p = t.entry? p) : t'.directory p = t.directory p := by
  rw [directory, directory, h]

theorem eq_of_directory (h : t.directory p = .ok q) : q = p := by
  unfold directory at h
  split at h
  · cases h
  · cases h
  · cases h
    rfl

theorem walk_cons {part : String} (hpart : part ≠ "..") : t.walk p (part :: parts) =
    (t.directory p >>= fun _ => if Path.maxPart < part.utf8ByteSize then .error .tooLong
      else t.walk (p ++ [part]) parts) := by
  rw [walk]
  unfold directory
  split
  · rfl
  · rfl
  · show (if _ then _ else t.walk (if part = ".." then _ else _) parts) = _
    rw [if_neg hpart]
    rfl

theorem eq_of_walk (hup : ".." ∉ parts) (h : t.walk p parts = .ok q) : q = p ++ parts := by
  induction parts generalizing p with
  | nil =>
    cases h
    exact (append_nil _).symm
  | cons part parts ih =>
    rw [mem_cons, not_or] at hup
    rw [walk_cons (Ne.symm hup.1)] at h
    cases hdir : t.directory p with
    | error e =>
      rw [hdir] at h
      cases h
    | ok _ =>
      rw [hdir] at h
      change (if _ then _ else t.walk (p ++ [part]) parts) = _ at h
      split at h
      · cases h
      · rw [ih hup.2 h, append_assoc, singleton_append]

theorem walk_congr (hup : ".." ∉ parts) (h : ∀ d, p <+: d → d <+: p ++ parts → t'.entry? d = t.entry? d) :
    t'.walk p parts = t.walk p parts := by
  induction parts generalizing p with
  | nil => rfl
  | cons part parts ih =>
    rw [mem_cons, not_or] at hup
    rw [walk_cons (Ne.symm hup.1), walk_cons (Ne.symm hup.1),
      directory_congr (h p (prefix_refl p) (prefix_append _ _)), ih hup.2 fun d hd hle => ?_]
    exact h d ((prefix_append p [part]).trans hd) (by simpa using hle)

end FileTree

/-! ### The settings file in a directory -/

namespace Settings
variable {reader : Reader} {t t' : FileTree} {dir d : Path}

theorem isPart_fileName : Path.IsPart fileName := ⟨by decide, by decide⟩

theorem parts_pathIn {names : List String} (h : ∀ part ∈ names, Path.IsPart part) :
    Path.parts (pathIn ("" :: names)) = names ++ [fileName] :=
  Path.parts_render <| forall_mem_append.2 ⟨h, forall_mem_singleton.2 isPart_fileName⟩

theorem origin_pathIn (base : Path) (h : dir.IsAbsolute) : Path.origin base (pathIn dir) = [""] := by
  obtain ⟨names, rfl, -⟩ := h
  cases names with
  | nil => exact Path.origin_render base _ _
  | cons name names => exact Path.origin_render base _ _

/-- Where the program is does not matter for a path from the top. -/
theorem resolve_pathIn (base : Path) (h : dir.IsAbsolute) :
    t.resolve base (pathIn dir) = t.resolve [] (pathIn dir) := by
  rw [FileTree.resolve, FileTree.resolve, origin_pathIn base h, origin_pathIn [] h]

theorem load_pathIn (base : Path) (h : dir.IsAbsolute) :
    load reader t base (pathIn dir) = load reader t [] (pathIn dir) := by
  rw [load, load, FileTree.read, FileTree.read, resolve_pathIn base h]

/-- The two trees have the same at the directories down to `dir`, and at the settings files in them. -/
def Alike (t t' : FileTree) (dir : Path) : Prop :=
  ∀ d, d <+: dir → d ≠ [] → t'.entry? d = t.entry? d ∧ t'.entry? (d ++ [fileName]) = t.entry? (d ++ [fileName])

theorem Alike.resolve (h : Alike t t' dir) (hdir : dir.IsAbsolute) :
    t'.resolve [] (pathIn dir) = t.resolve [] (pathIn dir) ∧
      ∀ p, t.resolve [] (pathIn dir) = .ok p → t'.entry? p = t.entry? p := by
  have horigin := origin_pathIn [] hdir
  obtain ⟨names, rfl, hnames⟩ := hdir
  have hfile : t'.entry? ([""] ++ (names ++ [fileName])) = t.entry? ([""] ++ (names ++ [fileName])) :=
    (h _ (prefix_refl _) (cons_ne_nil _ _)).2
  have hup : ".." ∉ names ++ [fileName] := by
    intro hmem
    rcases mem_append.1 hmem with hmem | hmem
    · exact (hnames _ hmem).mark (by decide)
    · exact isPart_fileName.mark (mem_singleton.1 hmem ▸ by decide)
  have hwalk : t'.walk [""] (names ++ [fileName]) = t.walk [""] (names ++ [fileName]) := by
    refine FileTree.walk_congr hup fun d hd hle => ?_
    rcases prefix_concat_iff.1 (show d <+: ("" :: names) ++ [fileName] from hle) with rfl | hle
    · exact hfile
    · exact (h d hle (hd.ne_nil (cons_ne_nil _ _))).1
  unfold FileTree.resolve
  rw [horigin, parts_pathIn hnames, hwalk]
  cases Path.check (pathIn ("" :: names)) with
  | error e => exact ⟨rfl, fun p hp => by cases hp⟩
  | ok _ =>
    cases hw : t.walk [""] (names ++ [fileName]) with
    | error e => exact ⟨rfl, fun p hp => by cases hp⟩
    | ok q =>
      obtain rfl := FileTree.eq_of_walk hup hw
      dsimp only [bind, Except.bind]
      rw [FileTree.directory_congr hfile]
      refine ⟨rfl, fun p hp => ?_⟩
      split at hp
      · rw [FileTree.eq_of_directory hp]
        exact hfile
      · cases hp
        exact hfile

theorem Alike.isIn (h : Alike t t' dir) (hdir : dir.IsAbsolute) : isIn t' dir = isIn t dir := by
  obtain ⟨hresolve, hentry⟩ := h.resolve hdir
  unfold Settings.isIn FileTree.contains
  rw [hresolve]
  cases hp : t.resolve [] (pathIn dir) with
  | error e => rfl
  | ok p => exact congrArg Option.isSome (hentry p hp)

theorem Alike.load (h : Alike t t' dir) (hdir : dir.IsAbsolute) :
    load reader t' [] (pathIn dir) = load reader t [] (pathIn dir) := by
  obtain ⟨hresolve, hentry⟩ := h.resolve hdir
  unfold Settings.load FileTree.read
  rw [hresolve]
  cases hp : t.resolve [] (pathIn dir) with
  | error e => rfl
  | ok p =>
    show ofFile reader _ (t'.readAt p) = ofFile reader _ (t.readAt p)
    rw [FileTree.readAt, FileTree.readAt, hentry p hp]

/-! ### The walk up -/

theorem find_concat (dir : Path) (last : String) : find reader t (dir ++ [last]) =
    if isIn t (dir ++ [last]) then some <$> load reader t [] (pathIn (dir ++ [last]))
    else if dir = [] then .ok none else find reader t dir := by
  rw [find]
  by_cases hdir : dir = []
  · rw [hdir, if_pos rfl, if_pos (show Path.parent ([] ++ [last]) = [] ++ [last] from rfl)]
  · obtain ⟨hparent, hno⟩ := Path.parent_concat hdir last
    rw [if_neg hdir, if_neg hno, hparent]

/-- The deepest directory with a settings file counts. -/
theorem find_eq_load (hd : d <+: dir) (hne : d ≠ []) (hin : isIn t d = true)
    (hdeepest : ∀ d', d' <+: dir → d.length < d'.length → isIn t d' = false) :
    find reader t dir = some <$> load reader t [] (pathIn d) := by
  induction dir using List.reverseRecOn with
  | nil => exact absurd (prefix_nil.1 hd) hne
  | append_singleton dir last ih =>
    rw [find_concat]
    rcases prefix_concat_iff.1 hd with rfl | hd
    · exact if_pos hin
    · have hlt : d.length < (dir ++ [last]).length := by
        have := hd.length_le
        simp only [length_append, length_singleton]
        omega
      rw [hdeepest _ (prefix_refl _) hlt, if_neg (by decide), if_neg (hd.ne_nil hne)]
      exact ih hd fun d' hd' => hdeepest d' (hd'.trans (prefix_append _ _))

theorem find_eq_none_iff (hdir : dir ≠ []) :
    find reader t dir = .ok none ↔ ∀ d, d <+: dir → d ≠ [] → isIn t d = false := by
  induction dir using List.reverseRecOn with
  | nil => exact absurd rfl hdir
  | append_singleton dir last ih =>
    rw [find_concat]
    cases hin : isIn t (dir ++ [last]) with
    | true =>
      refine ⟨fun h => ?_, fun h => absurd (hin.symm.trans (h _ (prefix_refl _) hdir)) (by decide)⟩
      rw [if_pos rfl] at h
      cases hload : load reader t [] (pathIn (dir ++ [last])) with
      | error e => rw [hload] at h; cases h
      | ok s => rw [hload] at h; cases h
    | false =>
      have hup : (if dir = [] then .ok none else find reader t dir) = .ok none ↔
          ∀ d, d <+: dir → d ≠ [] → isIn t d = false := by
        split
        · rename_i hnil
          exact ⟨fun _ d hd hne => absurd (prefix_nil.1 (hnil ▸ hd)) hne, fun _ => rfl⟩
        · exact ih (by assumption)
      rw [if_neg (by decide), hup]
      refine ⟨fun h d hd hne => ?_, fun h d hd => h d (hd.trans (prefix_append _ _))⟩
      rcases prefix_concat_iff.1 hd with rfl | hd
      · exact hin
      · exact h d hd hne

theorem Alike.find (h : Alike t t' dir) (hdir : dir.IsAbsolute) : find reader t' dir = find reader t dir := by
  induction dir using List.reverseRecOn with
  | nil => obtain ⟨_, hnil, -⟩ := hdir; cases hnil
  | append_singleton dir last ih =>
    rw [find_concat, find_concat, h.isIn hdir, h.load hdir]
    split
    · rfl
    split
    · rfl
    · have hup := prefix_append dir [last]
      exact ih (fun d hd => h d (hd.trans hup)) (hdir.of_isPrefix hup (by assumption))

/-- The settings are those of the deepest directory, from the start up to the top, that has a settings
file, and there are none exactly if no such directory has one. What is elsewhere does not matter. -/
theorem find_nearest (reader : Reader) (t : FileTree) (base : Path) {dir : Path} (hdir : dir.IsAbsolute) :
    (∀ d, d <+: dir → d ≠ [] → isIn t d = true → (∀ d', d' <+: dir → d.length < d'.length → isIn t d' = false) →
      find reader t dir = some <$> load reader t base (pathIn d)) ∧
    (find reader t dir = .ok none ↔ ∀ d, d <+: dir → d ≠ [] → isIn t d = false) ∧
    ∀ t', Alike t t' dir → find reader t' dir = find reader t dir := by
  refine ⟨fun d hd hne hin hdeepest => ?_, find_eq_none_iff ?_, fun _ h => h.find hdir⟩
  · rw [load_pathIn base (hdir.of_isPrefix hd hne)]
    exact find_eq_load hd hne hin hdeepest
  · obtain ⟨names, rfl, -⟩ := hdir
    exact List.cons_ne_nil _ _

/-- A settings file above a start that has none is found, whatever is beside. -/
theorem find_above :
    find toml ⟨[(["", "work", "autoqasm.toml"], .file (.text "")), (["", "work", "jobs"], .directory),
        (["", "work", "old", "autoqasm.toml"], .directory)]⟩ ["", "work", "jobs"] =
      .ok (some { path := "/work/autoqasm.toml" }) := by
  have habsolute : Path.IsAbsolute ["", "work", "jobs"] :=
    ⟨["work", "jobs"], rfl, fun part hpart => by
      rcases List.mem_pair.1 hpart with rfl | rfl
      · exact ⟨by decide, by decide⟩
      · exact ⟨by decide, by decide⟩⟩
  refine ((find_nearest toml _ [] habsolute).1 ["", "work"] (by decide) (by decide) (by decide)
    fun d hd hlt => ?_).trans ?_
  · have hle : (["", "work", "jobs"] : Path).length ≤ d.length := hlt
    rw [hd.eq_of_length_le hle]
    decide
  · decide

end Settings

end QasmStudio
