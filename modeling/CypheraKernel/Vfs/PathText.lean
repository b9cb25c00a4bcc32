import Mathlib.Tactic

/-!
# Path names

The text of a path as `kernel/src/vfs/path.rs` reads it.  Empty pieces and `.` are dropped when a
path is split, so what is left are names and `..`.

`normalizeText`: the function of the source on text.  On rendered names it is `normalize`, and a
rendered path parses to its names (`parse_render`), so canonical paths are kept as lists of names
everywhere else.
-/

namespace CypheraKernel.Vfs

open List

/-- A piece of a path that can be looked up. -/
def IsName (w : List Char) : Prop := w ≠ [] ∧ '/' ∉ w ∧ w ≠ ['.'] ∧ w ≠ ['.', '.']
  deriving Decidable

/-- A name in a directory. -/
structure Name where
  text : List Char
  isName : IsName text
  deriving DecidableEq

inductive Component
  | up
  | name (n : Name)
  deriving DecidableEq

/-- A parsed path. -/
structure Path where
  absolute : Bool
  components : List Component
  deriving DecidableEq

/-- What a piece between slashes stands for. -/
def component? (w : List Char) : Option Component :=
  if h : IsName w then some (.name ⟨w, h⟩) else if w = ['.', '.'] then some .up else none

def Path.parse (s : List Char) : Path :=
  ⟨s.head? = some '/', (s.splitOn '/').filterMap component?⟩

/-- The path that leads from the root along names. -/
def Path.ofNames (c : List Name) : Path := ⟨true, c.map .name⟩

/-- The text of a canonical path. -/
def render (c : List Name) : List Char :=
  if c = [] then ['/'] else c.flatMap fun n => '/' :: n.text

/-- `parts` after one more component. -/
def push (parts : List Name) : Component → List Name
  | .up => parts.dropLast
  | .name n => parts ++ [n]

/-- `normalize`, the directory given by its names. -/
def normalize (cwd : List Name) (target : Path) : List Name :=
  target.components.foldl push (if target.absolute then [] else cwd)

/-! ### On text -/

/-- The place of the last slash, `rfind('/')`. -/
def rfindSlash (s : List Char) : Option ℕ :=
  match s.reverse.dropWhile (· ≠ '/') with
  | [] => none
  | _ :: rest => some rest.length

/-- `parts` after one more piece of text, which is not empty. -/
def pushText (parts : List (List Char)) (w : List Char) : List (List Char) :=
  if w = ['.'] then parts else if w = ['.', '.'] then parts.dropLast else parts ++ [w]

/-- `normalize` on text. -/
def normalizeText (cwd target : List Char) : List Char :=
  let pieces := fun (s : List Char) => (s.splitOn '/').filter (· ≠ [])
  let parts := if target.head? = some '/' then [] else (pieces cwd).foldl pushText []
  let parts := (pieces target).foldl pushText parts
  if parts = [] then ['/'] else parts.flatMap fun p => '/' :: p

/-! ### Pieces -/

/-- The pieces of a text contain no slash. -/
theorem slash_notMem_of_mem_splitOn {s w : List Char} (h : w ∈ s.splitOn '/') : '/' ∉ w := by
  induction s generalizing w with
  | nil =>
    rw [splitOn_nil, mem_singleton] at h
    rw [h]
    exact not_mem_nil
  | cons ch s ih =>
    rw [splitOn_cons_eq_if_modifyHead] at h
    split_ifs at h with hslash
    · grind
    cases hsplit : s.splitOn '/' with
    | nil =>
      rw [hsplit] at h
      cases h
    | cons v vs =>
      rw [hsplit, modifyHead_cons] at h
      rcases mem_cons.1 h with rfl | h
      · grind
      · exact ih (hsplit ▸ mem_cons_of_mem v h)

theorem intercalate_cons (w : List Char) (ws : List (List Char)) :
    ['/'].intercalate (w :: ws) = w ++ ws.flatMap fun v => '/' :: v := by
  induction ws generalizing w with
  | nil => simp
  | cons v ws ih =>
    have hstep : ['/'].intercalate (w :: v :: ws) = w ++ '/' :: ['/'].intercalate (v :: ws) := by
      simp [intercalate]
    rw [hstep, ih]
    simp

/-! ### Names and their text -/

variable {c : List Name} {n : Name}

@[simp] theorem component?_text (n : Name) : component? n.text = some (.name n) := by
  rw [component?, dif_pos n.isName]

theorem render_of_ne_nil (hc : c ≠ []) : render c = c.flatMap fun n => '/' :: n.text := if_neg hc

theorem splitOn_render (hc : c ≠ []) : (render c).splitOn '/' = [] :: c.map Name.text := by
  have htext : render c = ['/'].intercalate ([] :: c.map Name.text) := by
    rw [intercalate_cons, render_of_ne_nil hc, flatMap_map, nil_append]
  rw [htext]
  refine splitOn_intercalate '/' ?_ (cons_ne_nil _ _)
  intro w hw
  rcases mem_cons.1 hw with rfl | hw
  · exact not_mem_nil
  · obtain ⟨n, -, rfl⟩ := mem_map.1 hw
    exact n.isName.2.1

theorem head?_render (c : List Name) : (render c).head? = some '/' := by
  cases c with
  | nil | cons => rfl

/-- **A canonical path** is read back as its names. -/
theorem parse_render (c : List Name) : Path.parse (render c) = .ofNames c := by
  have hcomps : ((render c).splitOn '/').filterMap component? = c.map .name := by
    by_cases hc : c = []
    · subst hc
      rfl
    · have hnil : component? [] = none := rfl
      simp_all [splitOn_render]
  rw [Path.parse, hcomps, head?_render]
  rfl

/-- The loop of `normalize` over the pieces of a text. -/
theorem foldl_pushText (ws : List (List Char)) (hws : ∀ w ∈ ws, '/' ∉ w) (parts : List Name) :
    (ws.filter (· ≠ [])).foldl pushText (parts.map Name.text) =
      ((ws.filterMap component?).foldl push parts).map Name.text := by
  induction ws generalizing parts with
  | nil => rfl
  | cons w ws ih =>
    have ih := fun parts => ih (fun v hv => hws v (mem_cons_of_mem w hv)) parts
    by_cases hname : IsName w
    · have hcomp : component? w = some (.name ⟨w, hname⟩) := dif_pos hname
      rw [filterMap_cons_some hcomp, filter_cons_of_pos (by simpa using hname.1)]
      rw [foldl_cons, foldl_cons, ← ih]
      simp [pushText, push, hname.2.2.1, hname.2.2.2]
    by_cases hup : w = ['.', '.']
    · grind [component?, pushText, push]
    have hcomp : component? w = none := by rw [component?, dif_neg hname, if_neg hup]
    rw [filterMap_cons_none hcomp, ← ih]
    have hnone : w = [] ∨ w = ['.'] := by
      by_contra hnot
      rw [not_or] at hnot
      exact hname ⟨hnot.1, hws w mem_cons_self, hnot.2, hup⟩
    rcases hnone with rfl | rfl
    · rfl
    · rfl

theorem foldl_push_names (parts names : List Name) :
    (names.map Component.name).foldl push parts = parts ++ names := by
  induction names generalizing parts with
  | nil => simp
  | cons n names ih => rw [map_cons, foldl_cons, push, ih, append_assoc]; rfl

/-- `normalize` on names, the directory being any text. -/
theorem normalizeText_eq (cwd target : List Char) :
    normalizeText cwd target =
      render (normalize ((Path.parse cwd).components.foldl push []) (.parse target)) := by
  have hpieces : ∀ (s : List Char) (parts : List Name),
      ((s.splitOn '/').filter (· ≠ [])).foldl pushText (parts.map Name.text) =
        ((Path.parse s).components.foldl push parts).map Name.text := fun s parts =>
    foldl_pushText _ (fun _ hw => slash_notMem_of_mem_splitOn hw) parts
  have hcwd := hpieces cwd []
  have hstart : (if target.head? = some '/' then []
      else ((cwd.splitOn '/').filter (· ≠ [])).foldl pushText []) =
        (if (Path.parse target).absolute then []
          else (Path.parse cwd).components.foldl push []).map Name.text := by
    by_cases habs : target.head? = some '/'
    · simp [Path.parse, habs]
    · simpa [Path.parse, habs] using hcwd
  grind [normalizeText, normalize, render, flatMap_map, map_eq_nil_iff]

theorem foldl_push_ofNames (c : List Name) : (Path.ofNames c).components.foldl push [] = c := by
  rw [Path.ofNames, foldl_push_names, nil_append]

theorem normalizeText_render (cwd : List Name) (target : List Char) :
    normalizeText (render cwd) target = render (normalize cwd (.parse target)) := by
  rw [normalizeText_eq, parse_render, foldl_push_ofNames]

/-- **Paths compose.**  A normalised path stays as it is in any directory, and `b` from there leads
where the joined path leads, or where `b` leads if it is absolute or `a` is empty. -/
theorem normalizeText_normalizeText (cwd dir a b : List Char) :
    normalizeText dir (normalizeText cwd a) = normalizeText cwd a ∧
      normalizeText (normalizeText cwd a) b =
        normalizeText cwd (if b.head? = some '/' ∨ a = [] then b else a ++ '/' :: b) := by
  simp only [normalizeText_eq, parse_render, foldl_push_ofNames]
  constructor
  · exact congrArg render (foldl_push_ofNames _)
  · congr 1
    split_ifs with hb
    · rcases hb with hb | rfl
      · simp [normalize, Path.parse, hb]
      · simp [normalize, Path.parse, component?, IsName]
    · rw [not_or] at hb
      obtain ⟨ch, a, rfl⟩ := exists_cons_of_ne_nil hb.2
      simp only [normalize, Path.parse, splitOn_append_cons_self]
      simp [hb.1]

end CypheraKernel.Vfs
