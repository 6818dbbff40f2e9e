import PluginWorkshop.Proofs.Text.Splitting
import PluginWorkshop.Report.Format
import Mathlib.Data.List.TakeWhile

/-!
# A line for every leaf

The text format is for scripts, which read it line by line. What they count on is one line for each
leaf of the report (`Json.leaves`), in document order: the keys that lead to the leaf with dots
between them, a colon, a space, and what stands there (`Json.Leaf.line`).

The leaves are printed one after the other (`leafLines_eq_map`), as they are. A line feed in a key or
in a text is printed too, so that the leaf takes up more than one line
(`length_linesOf_render_text_eq_iff`), and empty keys at the front of a path are left out
(`line_printed_eq_iff`). The lines are the expected ones exactly where neither is the case
(`linesOf_render_text_iff`).
-/

namespace PluginWorkshop

open Text

namespace Json

/-- A scalar, an empty list or an empty object in a value, and the keys and indices that lead to it. -/
structure Leaf where
  keys : List String
  value : Json

namespace Leaf

/-- The leaf, seen from above a key. -/
def below (key : String) (leaf : Leaf) : Leaf := { leaf with keys := key :: leaf.keys }

/-- What stands at the leaf; a string stands there without quotes. -/
def text (leaf : Leaf) : String :=
  match leaf.value with
  | .string text => text
  | value => value.compact

/-- The line of the leaf. A leaf at the root has no path. -/
def line (leaf : Leaf) : String :=
  if leaf.keys = [] then leaf.text else ".".intercalate leaf.keys ++ ": " ++ leaf.text

/-- The leaf as it is printed: the empty keys that its path starts with are left out. -/
def printed (leaf : Leaf) : Leaf := { leaf with keys := leaf.keys.dropWhile (· == "") }

@[simp] theorem text_printed (leaf : Leaf) : leaf.printed.text = leaf.text := rfl

/-- Nothing in the leaf breaks its line. -/
def IsUnbroken (leaf : Leaf) : Prop :=
  '\n' ∉ leaf.text.toList ∧ ∀ key ∈ leaf.keys, '\n' ∉ key.toList

end Leaf

mutual

/-- The leaves of a value, in document order. -/
def leaves : Json → List Leaf
  | .object [] => [⟨[], .object []⟩]
  | .array [] => [⟨[], .array []⟩]
  | .object members => memberLeaves members
  | .array items => itemLeaves 0 items
  | scalar => [⟨[], scalar⟩]

def memberLeaves : List (String × Json) → List Leaf
  | [] => []
  | (key, item) :: members => item.leaves.map (Leaf.below key) ++ memberLeaves members

def itemLeaves (index : Nat) : List Json → List Leaf
  | [] => []
  | item :: items => item.leaves.map (Leaf.below (toString index)) ++ itemLeaves (index + 1) items

end

theorem leaves_ne_nil : ∀ json : Json, json.leaves ≠ []
  | .null | .bool _ | .number _ | .string _ | .array [] | .object [] => List.cons_ne_nil _ _
  | .array (item :: items) => by
    have hitem := leaves_ne_nil item
    simp [leaves, itemLeaves, hitem]
  | .object ((key, item) :: members) => by
    have hitem := leaves_ne_nil item
    simp [leaves, memberLeaves, hitem]

end Json

namespace Report

open Json (Leaf)

variable {path key : String} {leaf : Leaf}

/-! ## Leaves one after the other -/

/-- What is printed for a leaf below a path. -/
def printedLine (path : String) (leaf : Leaf) : String :=
  leafLine (leaf.keys.foldl childPath path) leaf.text

theorem printedLine_below (path key : String) :
    printedLine path ∘ Leaf.below key = printedLine (childPath path key) := rfl

mutual

/-- The leaves are printed in document order, each for itself. -/
theorem leafLines_eq_map (path : String) :
    ∀ json : Json, leafLines path json = json.leaves.map (printedLine path)
  | .null | .bool _ | .number _ | .string _ | .array [] | .object [] => rfl
  | .array (item :: items) => by
    rw [leafLines, Json.leaves, itemLines_eq_map path 0 (item :: items)]
    all_goals simp
  | .object (member :: members) => by
    rw [leafLines, Json.leaves, memberLines_eq_map path (member :: members)]
    all_goals simp

theorem memberLines_eq_map (path : String) : ∀ members : List (String × Json),
    memberLines path members = (Json.memberLeaves members).map (printedLine path)
  | [] => rfl
  | (key, item) :: members => by
    rw [memberLines, Json.memberLeaves, leafLines_eq_map (childPath path key) item,
      memberLines_eq_map path members, List.map_append, List.map_map, printedLine_below]

theorem itemLines_eq_map (path : String) (index : Nat) : ∀ items : List Json,
    itemLines path index items = (Json.itemLeaves index items).map (printedLine path)
  | [] => rfl
  | item :: items => by
    rw [itemLines, Json.itemLeaves, leafLines_eq_map (childPath path (toString index)) item,
      itemLines_eq_map path (index + 1) items, List.map_append, List.map_map, printedLine_below]

end

/-! ## The path of a leaf -/

/-- Below a path that is not empty, all keys count. -/
theorem foldl_childPath_of_ne_empty (hpath : path ≠ "") (keys : List String) :
    keys.foldl childPath path = ".".intercalate (path :: keys) := by
  induction keys generalizing path with
  | nil => simp
  | cons key keys ih =>
    have hchild : childPath path key = path ++ "." ++ key := by simp [childPath, hpath]
    rw [List.foldl_cons, hchild, ih (by simp), String.intercalate_cons_cons]
    cases keys with
    | nil => simp
    | cons next keys => simp [String.intercalate_cons_cons, String.append_assoc]

theorem foldl_childPath (keys : List String) :
    keys.foldl childPath "" = ".".intercalate (keys.dropWhile (· == "")) := by
  induction keys with
  | nil => rfl
  | cons key keys ih =>
    by_cases hkey : key = ""
    · rw [List.dropWhile_cons_of_pos (by simp [hkey]), hkey]
      exact ih
    · rw [List.dropWhile_cons_of_neg (by simp [hkey])]
      exact foldl_childPath_of_ne_empty hkey keys

theorem intercalate_cons_ne_empty (hkey : key ≠ "") (keys : List String) :
    ".".intercalate (key :: keys) ≠ "" := by
  cases keys with
  | nil => simpa using hkey
  | cons next keys => simp [String.intercalate_cons_cons]

theorem printedLine_eq_line (leaf : Leaf) : printedLine "" leaf = leaf.printed.line := by
  rw [printedLine, foldl_childPath, Leaf.line, Leaf.text_printed, Leaf.printed]
  have hhead := List.head?_dropWhile_not (· == "") leaf.keys
  cases hkeys : leaf.keys.dropWhile (· == "") with
  | nil => simp [leafLine]
  | cons key keys =>
    have hkey : key ≠ "" := by simpa [hkeys] using hhead
    simp [leafLine, intercalate_cons_ne_empty hkey keys]

theorem length_intercalate_dropWhile_le (keys : List String) :
    (".".intercalate (keys.dropWhile (· == ""))).length ≤ (".".intercalate keys).length := by
  induction keys with
  | nil => simp
  | cons key keys ih =>
    by_cases hkey : key = ""
    · rw [List.dropWhile_cons_of_pos (by simp [hkey])]
      refine ih.trans ?_
      cases keys with
      | nil => simp
      | cons next keys =>
        rw [String.intercalate_cons_cons, String.length_append]
        omega
    · rw [List.dropWhile_cons_of_neg (by simp [hkey])]

/-- A path that starts with an empty key is printed shorter than it is. -/
theorem length_line_printed_lt (h : leaf.keys.head? = some "") :
    leaf.printed.line.length < leaf.line.length := by
  obtain ⟨rest, hkeys⟩ := List.head?_eq_some_iff.mp h
  have hcolon : ": ".length = 2 := by decide
  have hdot : ".".length = 1 := by decide
  have hline : leaf.line = ".".intercalate ("" :: rest) ++ ": " ++ leaf.text := by
    simp [Leaf.line, hkeys]
  have hprinted : leaf.printed.keys = rest.dropWhile (· == "") := by
    rw [Leaf.printed, hkeys, List.dropWhile_cons_of_pos (by simp)]
  have hle := length_intercalate_dropWhile_le rest
  rw [hline, Leaf.line, hprinted, Leaf.text_printed]
  split_ifs with hempty
  · simp only [String.length_append]
    omega
  · obtain ⟨next, rest, rfl⟩ : ∃ next tail, rest = next :: tail :=
      List.exists_cons_of_ne_nil (by rintro rfl; exact hempty rfl)
    rw [String.intercalate_cons_cons]
    simp only [String.length_append]
    omega

theorem line_printed_eq_iff : leaf.printed.line = leaf.line ↔ leaf.keys.head? ≠ some "" := by
  refine ⟨fun heq hhead => ?_, fun hhead => ?_⟩
  · have hlt := length_line_printed_lt hhead
    rw [heq] at hlt
    exact Nat.lt_irrefl _ hlt
  · have hkeys : leaf.printed = leaf := by
      obtain ⟨keys, value⟩ := leaf
      cases keys with
      | nil => rfl
      | cons key keys => simp_all [Leaf.printed]
    rw [hkeys]

/-! ## Line feeds -/

theorem lineFeed_mem_line_iff (leaf : Leaf) : '\n' ∈ leaf.line.toList ↔
    '\n' ∈ leaf.text.toList ∨ ∃ key ∈ leaf.keys, '\n' ∈ key.toList := by
  rw [Leaf.line]
  split_ifs with hkeys
  · simp [hkeys]
  · rw [String.toList_append, String.toList_append, List.mem_append, List.mem_append,
      mem_intercalate (by decide)]
    simp [or_comm]

/-- Empty keys have no line feed, so it is all one whether they are printed. -/
theorem lineFeed_notMem_printed_iff (leaf : Leaf) :
    '\n' ∉ leaf.printed.line.toList ↔ leaf.IsUnbroken := by
  have hkeys : (∃ key ∈ leaf.printed.keys, '\n' ∈ key.toList) ↔
      ∃ key ∈ leaf.keys, '\n' ∈ key.toList := by
    refine ⟨fun ⟨key, hkey, hbreak⟩ => ⟨key, (List.dropWhile_sublist _).subset hkey, hbreak⟩, ?_⟩
    rintro ⟨key, hkey, hbreak⟩
    rw [← List.takeWhile_append_dropWhile (p := (· == "")) (l := leaf.keys), List.mem_append] at hkey
    refine ⟨key, hkey.resolve_left fun hempty => ?_, hbreak⟩
    obtain rfl : key = "" := by simpa using List.mem_takeWhile_imp hempty
    simp at hbreak
  rw [lineFeed_mem_line_iff, hkeys, Leaf.IsUnbroken, Leaf.text_printed]
  simp

/-! ## The lines of a report -/

/-- The lines of a text. -/
def linesOf (text : String) : List String := (splitOn '\n' text.toList).map String.ofList

/-- What is printed for a report, in terms of its leaves. -/
theorem render_text_eq (coloured : Bool) (report : Json) : render .text coloured report =
    "\n".intercalate (report.leaves.map fun leaf => leaf.printed.line) := by
  rw [render, leafLines_eq_map, funext printedLine_eq_line]

theorem linesOf_render_text (coloured : Bool) (report : Json) :
    linesOf (render .text coloured report) =
      (report.leaves.flatMap fun leaf => splitOn '\n' leaf.printed.line.toList).map
        String.ofList := by
  have hne : (report.leaves.map fun leaf => leaf.printed.line).map String.toList ≠ [] := by
    simp [Json.leaves_ne_nil report]
  have hsep : "\n".toList = ['\n'] := rfl
  rw [linesOf, render_text_eq, String.toList_intercalate, hsep, ← join_eq_intercalate,
    splitOn_join_eq_flatMap hne, List.map_map, List.flatMap_map]
  rfl

/-- A leaf takes up more than one line exactly if there is a line feed in it. -/
theorem length_linesOf_render_text_eq_iff (coloured : Bool) (report : Json) :
    (linesOf (render .text coloured report)).length = report.leaves.length ↔
      ∀ leaf ∈ report.leaves, leaf.IsUnbroken := by
  have hpieces := length_flatMap_splitOn_eq_iff '\n'
    (report.leaves.map fun leaf => leaf.printed.line.toList)
  rw [List.flatMap_map, List.length_map, List.forall_mem_map] at hpieces
  rw [linesOf_render_text, List.length_map, hpieces]
  exact forall₂_congr fun leaf _ => lineFeed_notMem_printed_iff leaf

theorem linesOf_render_text_of_forall (coloured : Bool) {report : Json}
    (h : ∀ leaf ∈ report.leaves, leaf.IsUnbroken) :
    linesOf (render .text coloured report) = report.leaves.map fun leaf => leaf.printed.line := by
  have hsplit : ∀ leaf ∈ report.leaves,
      splitOn '\n' leaf.printed.line.toList = [leaf.printed.line.toList] :=
    fun leaf hleaf => splitOn_of_notMem ((lineFeed_notMem_printed_iff leaf).mpr (h leaf hleaf))
  rw [linesOf_render_text, List.flatMap_congr hsplit, ← List.map_eq_flatMap, List.map_map]
  exact List.map_congr_left fun leaf _ => String.ofList_toList

/-- Of a report, the leaves are printed in document order, each as its line without the empty keys
at the front of its path. There is one line for each of them exactly if no line feed stands in a key
or a text, and the lines are the ones of the leaves exactly if, besides, no path starts with an
empty key. -/
theorem linesOf_render_text_iff (coloured : Bool) (report : Json) :
    render .text coloured report =
        "\n".intercalate (report.leaves.map fun leaf => leaf.printed.line) ∧
      ((linesOf (render .text coloured report)).length = report.leaves.length ↔
        ∀ leaf ∈ report.leaves, leaf.IsUnbroken) ∧
      (linesOf (render .text coloured report) = report.leaves.map Leaf.line ↔
        ∀ leaf ∈ report.leaves, leaf.IsUnbroken ∧ leaf.keys.head? ≠ some "") := by
  have hlength := length_linesOf_render_text_eq_iff coloured report
  refine ⟨render_text_eq coloured report, hlength, fun hlines => ?_, fun h => ?_⟩
  · have hunbroken := hlength.mp (by rw [hlines, List.length_map])
    rw [linesOf_render_text_of_forall coloured hunbroken, List.map_inj_left] at hlines
    exact fun leaf hleaf => ⟨hunbroken leaf hleaf, line_printed_eq_iff.mp (hlines leaf hleaf)⟩
  · rw [linesOf_render_text_of_forall coloured fun leaf hleaf => (h leaf hleaf).1,
      List.map_inj_left]
    exact fun leaf hleaf => line_printed_eq_iff.mpr (h leaf hleaf).2

/-- A name with a line feed in it passes for a name and a slug. -/
theorem not_linesOf_render_text_of_lineFeed :
    let report : Json := .object [("name", .string "Books\nslug: books")]
    report.leaves.length = 1 ∧
      linesOf (render .text false report) = ["name: Books", "slug: books"] ∧
      linesOf (render .text false report) ≠ report.leaves.map Leaf.line := by
  decide

/-- Of an empty key at the front nothing is printed, not even the dot behind it. -/
example : render .text false (.object [("", .object [("name", .string "Books")])]) =
    "name: Books" := by
  decide

end Report

end PluginWorkshop
