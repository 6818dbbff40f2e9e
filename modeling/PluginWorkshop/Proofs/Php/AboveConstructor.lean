import PluginWorkshop.Proofs.Php.LiveAnchors
import PluginWorkshop.Proofs.Php.MethodEnds

/-!
# What stands above the constructor

The place of a property is above the comments and attributes that end right above the constructor.
The lines between this place and the constructor make up blocks of either kind (`IsCommentBlock`,
`IsAttributeBlock`), and no block ends right above the place (`exists_constructorHead`).

Attributes are groups in brackets (`IsAttributes`, `IsBalanced`). They are read backwards, over line
ends: what has been read closes as many brackets as are still to be opened, and attributes follow
behind the last of them (`Unopened`). Each character that is read keeps to this
(`sound_scanAttributes`), hence each line (`isAttributes_of_attributeLines`), and the way up goes from
block to block (`exists_blocks_of_climb`).
-/

namespace PluginWorkshop.Php

open Text

/-! ## Attributes -/

/-- Text in which each bracket that is opened is closed, and no other one. -/
inductive IsBalanced : List Char → Prop where
  | nil : IsBalanced []
  | other {c : Char} {s : List Char} (hopen : c ≠ '[') (hclose : c ≠ ']') (hs : IsBalanced s) :
      IsBalanced (c :: s)
  | group {a b : List Char} (ha : IsBalanced a) (hb : IsBalanced b) :
      IsBalanced ('[' :: a ++ ']' :: b)

/-- Groups in brackets, each opened by `#[`, and blanks. -/
inductive IsAttributes : List Char → Prop where
  | nil : IsAttributes []
  | blank {c : Char} {s : List Char} (hc : isBlank c = true) (hs : IsAttributes s) :
      IsAttributes (c :: s)
  | attribute {a s : List Char} (ha : IsBalanced a) (hs : IsAttributes s) :
      IsAttributes ('#' :: '[' :: a ++ ']' :: s)

/-- Text that closes `depth` brackets which stand in front of it, and goes on with attributes behind
the last one. -/
inductive Unopened : Nat → List Char → Prop where
  | attributes {s : List Char} (hs : IsAttributes s) : Unopened 0 s
  | closes {depth : Nat} {a s : List Char} (ha : IsBalanced a) (hs : Unopened depth s) :
      Unopened (depth + 1) (a ++ ']' :: s)

section Scan

variable {depth : Nat} {s right : List Char} {c : Char}

theorem IsAttributes.append_blanks (h : IsAttributes right) (hs : s.all isBlank = true) :
    IsAttributes (s ++ right) := by
  induction s with
  | nil => exact h
  | cons c s ih =>
    rw [List.all_cons, Bool.and_eq_true] at hs
    exact .blank hs.1 (ih hs.2)

namespace Unopened

/-- In front of it anything may stand inside brackets, and a blank outside them. -/
theorem cons (h : Unopened depth s) (hopen : c ≠ '[') (hclose : c ≠ ']')
    (hblank : depth = 0 → isBlank c = true) : Unopened depth (c :: s) := by
  cases h with
  | attributes hs => exact .attributes (.blank (hblank rfl) hs)
  | closes ha hs => exact .closes (.other hopen hclose ha) hs

theorem cons_close (h : Unopened depth s) : Unopened (depth + 1) (']' :: s) := .closes .nil h

/-- A bracket inside brackets opens a group among what stands there. -/
theorem cons_open (h : Unopened (depth + 2) s) : Unopened (depth + 1) ('[' :: s) := by
  obtain _ | @⟨_, a, _, ha, _ | @⟨_, b, s, hb, hs⟩⟩ := h
  have hsplit : '[' :: (a ++ ']' :: (b ++ ']' :: s)) = ('[' :: a ++ ']' :: b) ++ ']' :: s := by simp
  rw [hsplit]
  exact .closes (.group ha hb) hs

/-- The last bracket opens an attribute. -/
theorem cons_attribute (h : Unopened 1 s) : IsAttributes ('#' :: '[' :: s) := by
  obtain _ | ⟨ha, _ | _⟩ := h
  next hs => exact .attribute ha hs

end Unopened

/-- What the text is once a line in front of it is read up. -/
def AttributeScan.Sound : AttributeScan → List Char → Prop
  | opened, text => IsAttributes text
  | pending depth, text => Unopened depth text
  | rejected, _ => True

/-- Reading a line backwards keeps count of the brackets. -/
theorem sound_scanAttributes (h : Unopened depth right) :
    (scanAttributes depth s).Sound (s.reverse ++ right) := by
  fun_induction scanAttributes depth s generalizing right with
  | case1 => exact h
  | case2 depth rest ih =>
    rw [List.reverse_cons, List.append_assoc]
    exact ih h.cons_close
  | case3 c rest hclose hblank ih =>
    have hopen : c ≠ '[' := by
      rintro rfl
      cases hblank
    rw [List.reverse_cons, List.append_assoc]
    exact ih (h.cons hopen hclose fun _ => hblank)
  | case4 => trivial
  | case5 rest hnone =>
    have hblanks : rest.reverse.all isBlank = true := by
      rw [List.all_reverse, List.all_eq_true]
      exact List.dropWhile_eq_nil_iff.mp hnone
    rw [List.reverse_cons, List.reverse_cons, List.append_assoc, List.append_assoc]
    exact h.cons_attribute.append_blanks hblanks
  | case6 rest _ _ ih =>
    rw [List.reverse_cons, List.reverse_cons, List.append_assoc, List.append_assoc]
    exact ih (.attributes h.cons_attribute)
  | case7 => trivial
  | case8 => trivial
  | case9 depth rest ih =>
    rw [List.reverse_cons, List.append_assoc]
    exact ih h.cons_open
  | case10 depth c rest hclose _ hone hmore ih =>
    have hopen : c ≠ '[' := fun hc => by
      cases depth with
      | zero => exact hone rfl hc
      | succ depth => exact hmore depth rfl hc
    rw [List.reverse_cons, List.append_assoc]
    exact ih (h.cons hopen hclose fun hzero => absurd hzero (Nat.succ_ne_zero _))

/-- The bracket that opens an attribute is code. -/
theorem bracket_mem_of_opened (h : scanAttributes depth s = .opened) : '[' ∈ s := by
  fun_induction scanAttributes depth s with
  | case1 | case4 | case7 | case8 => cases h
  | case5 | case9 => exact List.mem_cons_self
  | case2 _ _ ih | case3 _ _ _ _ ih | case10 _ _ _ _ _ _ _ ih =>
    exact List.mem_cons_of_mem _ (ih h)
  | case6 => exact List.mem_cons_self

end Scan

/-! ## Blocks -/

/-- The code of the lines, each with its line feed. -/
def codeText (block : List Row) : List Char := block.flatMap fun row => row.code ++ ['\n']

/-- Lines that bear no code and are not blank, the first of which opens a comment. -/
structure IsCommentBlock (block : List Row) : Prop where
  codeless : ∀ row ∈ block, isAllBlank row.code = true ∧ isAllBlank row.text = false
  opens : ∃ first ∈ block.head?, ∃ opener ∈ ["/*", "//", "#"],
    opener.toList <+: dropBlanks first.text

/-- Lines whose code is attributes and blanks; its first and its last line bear some. -/
structure IsAttributeBlock (block : List Row) : Prop where
  attributes : IsAttributes (codeText block)
  opens : ∃ first ∈ block.head?, isAllBlank first.code = false
  closes : ∃ last ∈ block.getLast?, isAllBlank last.code = false

/-- No block ends right above the line at `index`. -/
def IsBoundary (rows : List Row) (index : Nat) : Prop :=
  index = 0 ∨ ∃ row, rows[index - 1]? = some row ∧
    (isAllBlank row.text = true ∨
      isAllBlank row.code = false ∧ (trim row.code).getLast? ≠ some ']')

/-- The lines from `first` up to the line of the constructor belong to it. -/
structure ConstructorHead (lines : List Line) (first constructor : Nat) : Prop where
  /-- The marker stands on one line only. -/
  marked_iff : ∀ i, (∃ code, (mask lines)[i]? = some code ∧ constructorMarker <:+: code) ↔
    i = constructor
  le : first ≤ constructor
  blocks : ∃ blocks : List (List Row), ((rows lines).take constructor).drop first = blocks.flatten ∧
    ∀ block ∈ blocks, IsCommentBlock block ∨ IsAttributeBlock block
  boundary : IsBoundary (rows lines) first

section Blocks

variable {row : Row} {above rows : List Row} {last depth count anchor : Nat} {right : List Char}

theorem opensComment_iff {line : Line} : opensComment line = true ↔
    ∃ opener ∈ ["/*", "//", "#"], opener.toList <+: dropBlanks line := by
  simp [opensComment, List.isPrefixOf_iff_prefix, or_assoc]

theorem codeText_append (a b : List Row) : codeText (a ++ b) = codeText a ++ codeText b :=
  List.flatMap_append

theorem head?_reverse_take {α : Type} {l : List α} {x : α} (hcount : 0 < count)
    (h : l[count - 1]? = some x) : (l.take count).reverse.head? = some x := by
  rw [List.head?_reverse, List.getLast?_take, if_neg (by omega), h]
  rfl

/-- The lines that attributes take hold nothing else, and the attributes open on the last one that is
reached. -/
theorem isAttributes_of_attributeLines (h : attributeLines last depth above = .ok count)
    (hright : Unopened depth right) :
    IsAttributes (codeText (above.take count).reverse ++ right) ∧
      ∃ first, above[count - 1]? = some first ∧ isAllBlank first.code = false := by
  induction above generalizing depth count right with
  | nil => cases h
  | cons row above ih =>
    have hline : Unopened depth ('\n' :: right) :=
      hright.cons (by decide) (by decide) fun _ => rfl
    have hsound := sound_scanAttributes (s := row.code.reverse) hline
    rw [List.reverse_reverse] at hsound
    rcases attributeLines_cons.mp h with ⟨hopened, rfl⟩ | ⟨depth', n, hpending, hrest, rfl⟩
    · have hbracket : '[' ∈ row.code := List.mem_reverse.mp (bracket_mem_of_opened hopened)
      rw [hopened, AttributeScan.Sound] at hsound
      refine ⟨by simpa [codeText] using hsound, row, rfl, ?_⟩
      exact List.all_eq_false.mpr ⟨'[', hbracket, by decide⟩
    · rw [hpending] at hsound
      obtain ⟨hattributes, first, hfirst, hcode⟩ := ih hrest hsound
      have hn := attributeLines_pos hrest
      refine ⟨?_, first, ?_, hcode⟩
      · rw [List.take_succ_cons, List.reverse_cons, codeText_append, List.append_assoc]
        simpa [codeText] using hattributes
      · obtain ⟨k, rfl⟩ : ∃ k, n = k + 1 := ⟨n - 1, by omega⟩
        exact hfirst

/-- The lines that a block takes are a block. -/
theorem isBlock_of_blockLines (h : blockLines above = .ok (some count)) :
    IsCommentBlock (above.take count).reverse ∨ IsAttributeBlock (above.take count).reverse := by
  have hpos := blockLines_pos h
  cases above with
  | nil => cases h
  | cons row above =>
    rcases blockLines_cons.mp h with ⟨-, hcount, first, hfirst, hopens⟩ | ⟨hcode, -, hlines⟩
    · refine Or.inl ⟨fun r hr => ?_, first, head?_reverse_take hpos hfirst,
        opensComment_iff.mp hopens⟩
      have htake : (row :: above).take count = (row :: above).takeWhile Row.isCommentOnly := by
        rw [hcount, ← List.prefix_iff_eq_take.mp ( List.takeWhile_prefix _)]
      rw [htake, List.mem_reverse] at hr
      simpa [Row.isCommentOnly, Row.isCodeless] using List.mem_takeWhile_imp hr
    · obtain ⟨hattributes, first, hfirst, hopens⟩ :=
        isAttributes_of_attributeLines hlines (.attributes .nil)
      rw [List.append_nil] at hattributes
      refine Or.inr ⟨hattributes, ⟨first, head?_reverse_take hpos hfirst, hopens⟩, row, ?_, hcode⟩
      obtain ⟨k, rfl⟩ : ∃ k, count = k + 1 := ⟨count - 1, by omega⟩
      simp

/-- The way up passes block after block. -/
theorem exists_blocks_of_climb (h : climb above = .found anchor) :
    ∃ blocks : List (List Row), (above.take (above.length - anchor)).reverse = blocks.flatten ∧
      ∀ block ∈ blocks, IsCommentBlock block ∨ IsAttributeBlock block := by
  induction hlength : above.length using Nat.strong_induction_on generalizing above with
  | _ length ih =>
    subst hlength
    rcases climb_eq_found.mp h with ⟨-, rfl⟩ | ⟨count, hblock, hclimb⟩
    · exact ⟨[], by simp, by simp⟩
    · have hpos := blockLines_pos hblock
      have htaken := blockLines_le hblock
      have hreach := climb_le hclimb
      rw [List.length_drop] at hreach
      obtain ⟨blocks, hblocks, hkinds⟩ :=
        ih (above.drop count).length (by rw [List.length_drop]; omega) hclimb rfl
      refine ⟨blocks ++ [(above.take count).reverse], ?_, ?_⟩
      · have hsplit : above.length - anchor = count + ((above.drop count).length - anchor) := by
          rw [List.length_drop]
          omega
        rw [hsplit, List.take_add, List.reverse_append, hblocks, List.flatten_append]
        simp
      · intro block hmem
        rcases List.mem_append.mp hmem with hmem | hmem
        · exact hkinds block hmem
        · obtain rfl := List.mem_singleton.mp hmem
          exact isBlock_of_blockLines hblock

/-- The way up ends below a boundary. -/
theorem isBoundary_of_propertyAnchor (h : propertyAnchor rows = .found anchor) :
    IsBoundary rows anchor := by
  cases anchor with
  | zero => exact Or.inl rfl
  | succ index =>
    obtain ⟨row, hrow, hcomment, hend⟩ := exists_above_propertyAnchor h
    refine Or.inr ⟨row, hrow, ?_⟩
    cases hcode : isAllBlank row.code with
    | true => exact Or.inl (by simpa [Row.isCommentOnly, Row.isCodeless, hcode] using hcomment)
    | false => exact Or.inr ⟨rfl, fun hlast => hend ⟨hcode, hlast⟩⟩

end Blocks

/-- The place of a property is the first line of what belongs to the constructor. -/
theorem exists_constructorHead {lines : List Line} {anchor : Nat}
    (h : Anchor.beforeConstructor.locate lines = .found anchor) :
    ∃ constructor, ConstructorHead lines anchor constructor := by
  obtain ⟨marker, hmarker, hclimb⟩ := propertyAnchor_eq_found.mp h
  obtain ⟨row, hrow, -⟩ := containsText_of_uniqueMarker hmarker
  have hlength : ((rows lines).take marker).length = marker :=
    List.length_take_of_le (List.getElem?_eq_some_iff.mp hrow).1.le
  obtain ⟨blocks, hblocks, hkinds⟩ := exists_blocks_of_climb hclimb
  have hle := climb_le hclimb
  rw [List.length_reverse, hlength] at hblocks hle
  refine ⟨marker, fun i => ?_, hle, ⟨blocks, ?_, hkinds⟩, isBoundary_of_propertyAnchor h⟩
  · rw [← map_code_rows, ← mem_markerLines, uniqueMarker_eq_ok.mp hmarker, List.mem_singleton]
  · rw [← hblocks, List.take_reverse, List.reverse_reverse, hlength, Nat.sub_sub_self hle]

/-- A constructor with comments of each kind, an attribute that goes over a blank line and has brackets
in brackets and in a string, and two attributes on one line. -/
def describedConstructor : List Line := [
  "class Plugin \x7b".toList,
  "    public $options = [];".toList,
  "    // The constructor".toList,
  "    /* of the".toList,
  "     * plugin. */".toList,
  "    #[Wired([1, [2]], [".toList,
  "".toList,
  "        ']'])]".toList,
  "    # Called once.".toList,
  "    #[Pure] #[Final]".toList,
  "    public function __construct($plugin)".toList,
  "    \x7b".toList,
  "    \x7d".toList,
  "\x7d".toList]

/-- All of this belongs to it. -/
theorem exists_constructorHead_describedConstructor :
    Anchor.beforeConstructor.locate describedConstructor = .found 2 ∧
      ∃ constructor, ConstructorHead describedConstructor 2 constructor := by
  have hfound : Anchor.beforeConstructor.locate describedConstructor = .found 2 := by
    decide +kernel
  exact ⟨hfound, exists_constructorHead hfound⟩

end PluginWorkshop.Php
