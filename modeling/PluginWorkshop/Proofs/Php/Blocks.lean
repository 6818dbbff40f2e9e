import PluginWorkshop.Proofs.Php.Wiring

/-!
# Blocks of the code

A point of the code is given by the code in front of it; its depth is the number of braces opened
there less the number of those closed. Two points lie in the same innermost block if the depth is the
same at both and nowhere lower in between (`SameBlock`), which is the case exactly if it is the same
at both and no block opens in between beside the one around them (`sameBlock_iff`).

Wiring a class asks that each of the two markers stands on one line, and not that both stand in one
block: the property may be declared in another class than the one whose method assigns it
(`not_sameBlock_of_plan`).
-/

namespace PluginWorkshop.Php

open Text

variable {a b p r : List Char} {d : Int}

/-! ## Depth -/

theorem braceBalance_append (a b : List Char) :
    braceBalance (a ++ b) = braceBalance a + braceBalance b := by
  simp only [braceBalance, List.count_append, Int.natCast_add]
  omega

/-- Code that comes back to a depth that it fell below opens a block at the depth right below it. -/
theorem exists_opening (hlow : braceBalance p < d) (hback : braceBalance (p ++ r) = d) :
    ∃ s rest, r = s ++ '\x7b' :: rest ∧ braceBalance (p ++ s) + 1 = d := by
  induction r generalizing p with
  | nil =>
    rw [List.append_nil] at hback
    omega
  | cons c r ih =>
    have hstep : braceBalance (p ++ [c]) = braceBalance p + braceBalance [c] :=
      braceBalance_append p [c]
    by_cases hopens : c = '\x7b' ∧ braceBalance p + 1 = d
    · obtain ⟨rfl, hdepth⟩ := hopens
      exact ⟨[], r, rfl, by rwa [List.append_nil]⟩
    · have hbrace : braceBalance [c] ≤ if c = '\x7b' then 1 else 0 := by
        simp only [braceBalance, List.count_singleton]
        split_ifs <;> simp_all
      have hlow' : braceBalance (p ++ [c]) < d := by
        split_ifs at hbrace with hc
        · have : braceBalance p + 1 ≠ d := fun hdepth => hopens ⟨hc, hdepth⟩
          omega
        · omega
      obtain ⟨s, rest, rfl, hdepth⟩ := ih hlow' (by simpa using hback)
      exact ⟨c :: s, rest, rfl, by simpa using hdepth⟩

/-! ## Points in one block -/

/-- The point behind `p` lies between the points behind `a` and `b`, whichever of these comes first. -/
def Between (a b p : List Char) : Prop := a <+: p ∧ p <+: b ∨ b <+: p ∧ p <+: a

/-- The points behind `a` and `b` lie in the same innermost block: the depth is the same at both and
nowhere lower in between. -/
def SameBlock (a b : List Char) : Prop :=
  braceBalance a = braceBalance b ∧ ∀ p, Between a b p → braceBalance a ≤ braceBalance p

/-- Between the points behind `a` and `b` a block opens beside the one around the point behind `a`. -/
def OpensBeside (a b : List Char) : Prop :=
  ∃ p, Between a b p ∧ Between a b (p ++ ['\x7b']) ∧ braceBalance p + 1 = braceBalance a

/-- A block that is left before the end of some code is followed by another one beside it. -/
theorem exists_opens_of_low (ha : a <+: p) (hb : p <+: b) (hlow : braceBalance p < d)
    (hback : braceBalance b = d) :
    ∃ q, a <+: q ∧ q ++ ['\x7b'] <+: b ∧ braceBalance q + 1 = d := by
  obtain ⟨r, rfl⟩ := hb
  obtain ⟨s, rest, rfl, hdepth⟩ := exists_opening hlow hback
  exact ⟨p ++ s, ha.trans (List.prefix_append p s), ⟨rest, by simp⟩, hdepth⟩

/-- Two points lie in the same block exactly if they are equally deep and no other block opens beside
theirs in between. -/
theorem sameBlock_iff :
    SameBlock a b ↔ braceBalance a = braceBalance b ∧ ¬ OpensBeside a b := by
  refine and_congr_right fun hends => ⟨?_, fun hnone p hbetween => ?_⟩
  · rintro hdepth ⟨p, hbetween, -, hopens⟩
    have := hdepth p hbetween
    omega
  · by_contra hlow
    rw [Int.not_le] at hlow
    rcases hbetween with ⟨hfirst, hlast⟩ | ⟨hfirst, hlast⟩
    · obtain ⟨q, hq, hq', hopens⟩ := exists_opens_of_low hfirst hlast hlow hends.symm
      have hstep := List.prefix_append q ['\x7b']
      exact hnone ⟨q, Or.inl ⟨hq, hstep.trans hq'⟩, Or.inl ⟨hq.trans hstep, hq'⟩, hopens⟩
    · obtain ⟨q, hq, hq', hopens⟩ := exists_opens_of_low hfirst hlast hlow rfl
      have hstep := List.prefix_append q ['\x7b']
      exact hnone ⟨q, Or.inr ⟨hq, hstep.trans hq'⟩, Or.inr ⟨hq.trans hstep, hq'⟩, hopens⟩

theorem sameBlock_of_prefix (h : a <+: b) (hends : braceBalance a = braceBalance b)
    (hdepth : ∀ p, a <+: p → p <+: b → braceBalance a ≤ braceBalance p) : SameBlock a b := by
  refine ⟨hends, fun p hbetween => ?_⟩
  rcases hbetween with ⟨hfirst, hlast⟩ | ⟨hfirst, hlast⟩
  · exact hdepth p hfirst hlast
  · exact hdepth p (h.trans hfirst) (hlast.trans h)

section Files

variable {rows : List Row} {marker : Line} {line closing : Nat}

/-! ## Points of a file -/

/-- The code in front of a line. -/
def lineStart (rows : List Row) (index : Nat) : List Char := (rows.take index).flatMap Row.code

/-- The code in front of a marker that stands on one line only. -/
def codeUpTo (marker : Line) (rows : List Row) : Option (List Char) :=
  match uniqueMarker marker rows with
  | .error _ => none
  | .ok line => do
    let row ← rows[line]?
    let fromMarker ← suffixFrom? marker row.code
    return lineStart rows line ++ row.code.take (row.code.length - fromMarker.length)

theorem lineStart_add (rows : List Row) (i j : Nat) :
    lineStart rows (i + j) = lineStart rows i ++ ((rows.drop i).take j).flatMap Row.code := by
  rw [lineStart, lineStart, List.take_add, List.flatMap_append]

theorem isPrefix_lineStart (rows : List Row) (index : Nat) :
    lineStart rows index <+: rows.flatMap Row.code := by
  conv_rhs => rw [← List.take_append_drop index rows, List.flatMap_append]
  exact List.prefix_append _ _

/-- The marker and the rest of its line stand behind the code in front of it. -/
theorem codeUpTo_eq {row : Row} {rest : List Char} (hmarker : uniqueMarker marker rows = .ok line)
    (hrow : rows[line]? = some row) (hsuffix : suffixFrom? marker row.code = some rest) :
    ∃ front, codeUpTo marker rows = some front ∧ lineStart rows (line + 1) = front ++ rest := by
  obtain ⟨x, -, hcode, -⟩ := suffixFrom?_eq_some hsuffix
  obtain ⟨hlt, rfl⟩ := List.getElem?_eq_some_iff.mp hrow
  refine ⟨lineStart rows line ++ x, ?_, ?_⟩
  · have hfront : rows[line].code.take (rows[line].code.length - rest.length) = x := by
      rw [hcode, List.length_append, Nat.add_sub_cancel, List.take_left]
    simp only [codeUpTo, hmarker, hrow, hsuffix, hfront, bind, Option.bind_some, pure]
  · rw [lineStart_add, List.take_one, List.head?_drop, hrow]
    simp [hcode]

theorem exists_codeUpTo (hmarker : uniqueMarker marker rows = .ok line) :
    ∃ front, codeUpTo marker rows = some front ∧ front ++ marker <+: rows.flatMap Row.code := by
  obtain ⟨row, hrow, hcontains⟩ := containsText_of_uniqueMarker hmarker
  obtain ⟨rest, hsuffix⟩ := Option.isSome_iff_exists.mp hcontains
  obtain ⟨-, b, -, rfl⟩ := suffixFrom?_eq_some hsuffix
  obtain ⟨front, hfront, hline⟩ := codeUpTo_eq hmarker hrow hsuffix
  refine ⟨front, hfront, List.IsPrefix.trans ⟨b, ?_⟩ (isPrefix_lineStart rows (line + 1))⟩
  rw [hline, List.append_assoc]

/-! ## The block of the initialization method -/

/-- A character of the code stands on the first line or below it. -/
theorem placedFrom_cons_eq {start : Nat} {first : Line} {lines : List Line}
    {front rest : List (Nat × Char)} {c : Char}
    (h : placedFrom start (first :: lines) = front ++ (line, c) :: rest) :
    (line = start ∧ ∃ x y, first = x ++ c :: y ∧ front = x.map (start, ·)) ∨
      ∃ below, front = first.map (start, ·) ++ below ∧
        placedFrom (start + 1) lines = below ++ (line, c) :: rest := by
  rw [placedFrom_cons] at h
  rcases List.append_eq_append_iff.mp h with ⟨below, hfront, hlines⟩ | ⟨z, hfirst, hlines⟩
  · exact Or.inr ⟨below, hfront, hlines⟩
  · cases z with
    | nil => exact Or.inr ⟨[], by rw [hfirst, List.append_nil, List.append_nil], hlines.symm⟩
    | cons p z =>
      obtain ⟨rfl, -⟩ := List.cons.inj hlines
      obtain ⟨x, y, rfl, rfl, hy⟩ := List.map_eq_append_iff.mp hfirst
      obtain ⟨d, y, rfl, hd, -⟩ := List.map_eq_cons_iff.mp hy
      obtain ⟨rfl, rfl⟩ := Prod.mk.inj hd
      exact Or.inl ⟨rfl, x, y, rfl, rfl⟩

/-- It stands behind the lines above its own. -/
theorem exists_line_of_placedFrom {start : Nat} {lines : List Line} {front rest : List (Nat × Char)}
    {c : Char} (h : placedFrom start lines = front ++ (line, c) :: rest) :
    ∃ k x y, line = start + k ∧ lines[k]? = some (x ++ c :: y) ∧
      front.map Prod.snd = (lines.take k).flatten ++ x := by
  induction lines generalizing start front with
  | nil => simp [placedFrom] at h
  | cons first lines ih =>
    rcases placedFrom_cons_eq h with ⟨rfl, x, y, rfl, rfl⟩ | ⟨below, rfl, hbelow⟩
    · exact ⟨0, x, y, rfl, rfl, by simp [Function.comp_def]⟩
    · obtain ⟨k, x, y, rfl, hget, hfront⟩ := ih hbelow
      refine ⟨k + 1, x, y, by omega, hget, ?_⟩
      rw [List.map_append, hfront]
      simp [Function.comp_def]

/-- Code that closes so many blocks more than it opens, and nowhere on the way more than that. -/
structure Closes (depth : Int) (code : List Char) : Prop where
  balance_eq : braceBalance code = -depth
  le_balance : ∀ p, p <+: code → -depth ≤ braceBalance p

theorem Closes.cons {c : Char} {code : List Char} {depth : Int} {depth' : Nat}
    (h : Closes depth code) (hdepth : depth = depth' + braceBalance [c]) :
    Closes depth' (c :: code) := by
  have hstep : ∀ p, braceBalance (c :: p) = braceBalance [c] + braceBalance p :=
    braceBalance_append [c]
  constructor
  · rw [hstep, h.balance_eq]
    omega
  · intro p hp
    rcases List.prefix_cons_iff.mp hp with rfl | ⟨p, rfl, hp⟩
    · simp [braceBalance]
    · have := h.le_balance p (List.cons_prefix_cons.mp hp).2
      rw [hstep]
      omega

/-- In front of the brace that closes a block stands code that closes what it opens. -/
theorem findClosing_split {depth : Nat} {placed : List (Nat × Char)}
    (h : findClosing depth placed = some line) :
    ∃ inside rest, placed = inside ++ (line, '\x7d') :: rest ∧
      Closes depth (inside.map Prod.snd) := by
  induction placed generalizing depth with
  | nil => cases h
  | cons q placed ih =>
    rw [findClosing_cons] at h
    split_ifs at h with hopen hclose
    · obtain ⟨inside, rest, rfl, hinside⟩ := ih h
      exact ⟨q :: inside, rest, rfl, hinside.cons (by rw [hopen]; rfl)⟩
    · cases depth with
      | zero =>
        obtain rfl := Option.some.inj h
        refine ⟨[], placed, by rw [← hclose]; rfl, rfl, fun p hp => ?_⟩
        rw [List.prefix_nil.mp hp]
        exact Int.le_refl 0
      | succ depth =>
        obtain ⟨inside, rest, rfl, hinside⟩ := ih h
        refine ⟨q :: inside, rest, rfl, hinside.cons ?_⟩
        have hbalance : braceBalance ['\x7d'] = -1 := rfl
        rw [hclose, hbalance]
        omega
    · obtain ⟨inside, rest, rfl, hinside⟩ := ih h
      exact ⟨q :: inside, rest, rfl, hinside.cons (by simp [braceBalance, hopen, hclose])⟩

theorem braceBalance_of_notMem {code : List Char} (hopen : '\x7b' ∉ code) (hclose : '\x7d' ∉ code) :
    braceBalance code = 0 := by
  rw [braceBalance, List.count_eq_zero_of_not_mem hopen, List.count_eq_zero_of_not_mem hclose]
  rfl

/-- The point behind an opening brace lies in one block with the point in front of the brace that
closes it, code without braces apart. -/
theorem sameBlock_of_closes {front inside start blanks : List Char} (hinside : Closes 0 inside)
    (hsplit : front ++ ['\x7b'] ++ inside = start ++ blanks) (hopen : '\x7b' ∉ blanks)
    (hclose : '\x7d' ∉ blanks) :
    front ++ ['\x7b'] <+: start ∧ SameBlock (front ++ ['\x7b']) start := by
  have hstarts : front ++ ['\x7b'] <+: start := by
    rcases List.prefix_or_prefix_of_prefix (⟨inside, hsplit⟩ : _ <+: start ++ blanks)
      (List.prefix_append start blanks) with hle | ⟨z, hz⟩
    · exact hle
    · -- The brace would stand among the code without braces.
      rw [← hz, List.append_assoc, List.append_cancel_left_eq] at hsplit
      rcases List.eq_nil_or_concat z with rfl | ⟨z, c, rfl⟩
      · rw [← hz, List.append_nil]
      · rw [List.concat_eq_append, ← List.append_assoc] at hz
        obtain ⟨-, hc⟩ := List.append_inj' hz rfl
        rw [← List.singleton_inj.mp hc.symm, List.concat_eq_append] at hsplit
        exact absurd (by simp [← hsplit]) hopen
  obtain ⟨between, rfl⟩ := hstarts
  rw [List.append_assoc _ between, List.append_cancel_left_eq] at hsplit
  have hbalance : braceBalance between = 0 := by
    have := braceBalance_append between blanks
    rw [← hsplit, hinside.balance_eq, braceBalance_of_notMem hopen hclose] at this
    omega
  have hstarts := List.prefix_append (front ++ ['\x7b']) between
  refine ⟨hstarts, sameBlock_of_prefix hstarts ?_ ?_⟩
  · rw [braceBalance_append _ between, hbalance, Int.add_zero]
  · rintro p ⟨q, rfl⟩ hp
    have hq : q <+: inside := ((List.prefix_append_right_inj _).mp hp).trans ⟨blanks, hsplit.symm⟩
    have := hinside.le_balance q hq
    rw [braceBalance_append _ q]
    omega

theorem count_dropBlanks {c : Char} (hc : isBlank c = false) (s : List Char) :
    (dropBlanks s).count c = s.count c := by
  have hblanks : (s.takeWhile isBlank).count c = 0 :=
    List.count_eq_zero.mpr fun hmem => by simp [List.mem_takeWhile_imp hmem] at hc
  conv_rhs => rw [← List.takeWhile_append_dropWhile (p := isBlank) (l := s), List.count_append, hblanks]
  rw [Nat.zero_add]
  rfl

/-- Trimming leaves all characters but blanks. -/
theorem count_trim {c : Char} (hc : isBlank c = false) (s : List Char) :
    (trim s).count c = s.count c := by
  have hright : (dropBlanksRight (dropBlanks s)).count c = (dropBlanks s).count c := by
    rw [dropBlanksRight, List.count_reverse]
    exact (count_dropBlanks hc _).trans List.count_reverse
  rw [trim, hright, count_dropBlanks hc]

/-- In front of a brace that stands alone on its line there are no braces. -/
theorem notMem_of_trim_eq {x y : Line} (h : trim (x ++ '\x7d' :: y) = ['\x7d']) :
    '\x7b' ∉ x ∧ '\x7d' ∉ x := by
  have hcount : ∀ c, isBlank c = false → (x ++ '\x7d' :: y).count c = ['\x7d'].count c :=
    fun c hc => (count_trim hc _).symm.trans (by rw [h])
  have hopen := hcount '\x7b' (by decide)
  have hclose := hcount '\x7d' (by decide)
  simp only [List.count_append, List.count_cons, List.count_nil] at hopen hclose
  simp only [← List.count_eq_zero]
  exact ⟨by simp at hopen; omega, by simp at hclose; omega⟩

/-- The last line of the initialization method starts in the block of the method, which the first
opening brace behind the marker opens. -/
theorem Body.sameBlock_lineStart {opening : Nat} {initializer : List Char}
    (h : Body rows line opening closing)
    (hinitializer : codeUpTo initializerMarker rows = some initializer) :
    ∃ head, '\x7b' ∉ head ∧ initializer ++ head ++ ['\x7b'] <+: lineStart rows closing ∧
      SameBlock (initializer ++ head ++ ['\x7b']) (lineStart rows closing) := by
  obtain ⟨declaration, fromMarker, body, hline, hsuffix, hopening, hclosing⟩ :=
    methodBody_eq_some.mp h.body_eq
  obtain ⟨row, hrow, rfl⟩ : ∃ row, rows[line]? = some row ∧ row.code = declaration := by
    simpa using hline
  obtain ⟨front, hfront, hstart⟩ := codeUpTo_eq h.marker_eq hrow hsuffix
  obtain rfl : front = initializer := Option.some.inj (hfront.symm.trans hinitializer)
  obtain ⟨head, hplaced, hhead⟩ := findOpening_split hopening
  obtain ⟨inside, rest, rfl, hinside⟩ := findClosing_split hclosing
  rw [← List.cons_append, ← List.append_assoc] at hplaced
  obtain ⟨k, x, y, hk, hget, hbefore⟩ := exists_line_of_placedFrom hplaced
  -- The closing brace stands below the line of the marker.
  have hmarker := (le_of_methodBody h.body_eq).1
  have hlt := h.opening_lt
  obtain ⟨j, rfl⟩ : ∃ j, k = j + 1 := ⟨k - 1, by omega⟩
  rw [List.getElem?_cons_succ, List.getElem?_drop, show line + 1 + j = closing by omega] at hget
  have halone := h.alone
  rw [hget, Option.map_some, Option.some.injEq] at halone
  obtain ⟨hopen, hclose⟩ := notMem_of_trim_eq halone
  have hsplit : front ++ head.map Prod.snd ++ ['\x7b'] ++ inside.map Prod.snd =
      lineStart rows closing ++ x := by
    rw [show closing = line + 1 + j by omega, lineStart_add, hstart]
    simp only [List.take_succ_cons, List.flatten_cons, List.map_append, List.map_cons] at hbefore
    simp only [List.append_assoc, List.singleton_append, hbefore]
    simp [List.flatMap_def, List.map_take, List.map_drop]
  refine ⟨head.map Prod.snd, ?_, sameBlock_of_closes (by simpa using hinside) hsplit hopen hclose⟩
  rw [List.mem_map]
  rintro ⟨p, hp, heq⟩
  exact hhead p hp heq

end Files

/-! ## The classes of a wiring -/

section Wiring

variable {path : Path} {text property statement : String} {outcome : PatchOutcome}

/-- A class is wired in where each of the two markers stands on one line. The statement goes to the
block of the initialization method, right above the brace that closes it; and the method lies in the
block of the constructor exactly if the two markers are equally deep and no block opens between them
beside the one around the constructor, such as that of another class. -/
theorem sameBlock_markers_iff
    (h : plan path text (.wireClass property statement) = .ok outcome) :
    ∃ constructor initializer head assignAt,
      codeUpTo constructorMarker (rows (SourceText.parse text).lines) = some constructor ∧
      codeUpTo initializerMarker (rows (SourceText.parse text).lines) = some initializer ∧
      Anchor.endOfInitializer.locate (SourceText.parse text).lines = .found assignAt ∧
      '\x7b' ∉ head ∧
      SameBlock (initializer ++ head ++ ['\x7b'])
        (lineStart (rows (SourceText.parse text).lines) assignAt) ∧
      (SameBlock constructor initializer ↔
        braceBalance constructor = braceBalance initializer ∧
          ¬ OpensBeside constructor initializer) := by
  obtain ⟨insertions, hinsertions, -⟩ := plan_wireClass_eq_ok.mp h
  obtain ⟨declareAt, assignAt, hdeclare, hassign⟩ := exists_places_of_wiringInsertions hinsertions
  obtain ⟨marker, hmarker, -⟩ := propertyAnchor_eq_found.mp hdeclare
  obtain ⟨constructor, hconstructor, -⟩ := exists_codeUpTo hmarker
  obtain ⟨marker', opening, hbody⟩ := initializerEnd_eq_found.mp hassign
  obtain ⟨initializer, hinitializer, -⟩ := exists_codeUpTo hbody.marker_eq
  obtain ⟨head, hhead, -, hsame⟩ := hbody.sameBlock_lineStart hinitializer
  exact ⟨constructor, initializer, head, assignAt, hconstructor, hinitializer, hassign, hhead, hsame,
    sameBlock_iff⟩

/-- A file with the constructor in one class and the initialization method in another. -/
def twoClasses : String := "<?php
class Settings \x7b
    function __construct() \x7b
    \x7d
\x7d
class P \x7b
    function instantiate() \x7b
    \x7d
\x7d
"

/-- An edit that wires the model `P\Foo`. -/
def fooEdit : BootstrapEdit :=
  .wireClass "public $Foo;" "$this->Foo = new \\P\\Foo($this->plugin);"

set_option maxRecDepth 4000 in
/-- The property goes to the first class, and the statement to the second. -/
theorem plan_twoClasses : plan "p.php" twoClasses fooEdit = .ok
    ⟨"<?php
class Settings \x7b
    public $Foo;
    function __construct() \x7b
    \x7d
\x7d
class P \x7b
    function instantiate() \x7b
        $this->Foo = new \\P\\Foo($this->plugin);
    \x7d
\x7d
", [⟨3, .inserted, "    public $Foo;"⟩,
      ⟨9, .inserted, "        $this->Foo = new \\P\\Foo($this->plugin);"⟩]⟩ := by
  have hparse : SourceText.parse twoClasses = _ := SourceText.parse_of_eq_ofList rfl
  unfold plan
  rw [hparse]
  decide +kernel

/-- Its markers are compared. -/
theorem sameBlock_markers_iff_twoClasses : ∃ outcome, plan "p.php" twoClasses fooEdit = .ok outcome ∧
    ∃ constructor initializer head assignAt,
      codeUpTo constructorMarker (rows (SourceText.parse twoClasses).lines) = some constructor ∧
      codeUpTo initializerMarker (rows (SourceText.parse twoClasses).lines) = some initializer ∧
      Anchor.endOfInitializer.locate (SourceText.parse twoClasses).lines = .found assignAt ∧
      '\x7b' ∉ head ∧
      SameBlock (initializer ++ head ++ ['\x7b'])
        (lineStart (rows (SourceText.parse twoClasses).lines) assignAt) ∧
      (SameBlock constructor initializer ↔ braceBalance constructor = braceBalance initializer ∧
        ¬ OpensBeside constructor initializer) :=
  ⟨_, plan_twoClasses, sameBlock_markers_iff plan_twoClasses⟩

/-- The code of the file up to its constructor. -/
def settingsCode : List Char := "<?phpclass Settings \x7b    ".toList

/-- The code from there on up to the end of the class. -/
def settingsRest : List Char := "function __construct() \x7b    \x7d\x7d".toList

/-- A class may be wired into two classes. -/
theorem not_sameBlock_of_plan : ¬ ∀ (path : Path) (text property statement : String)
    (outcome : PatchOutcome), plan path text (.wireClass property statement) = .ok outcome →
      ∀ constructor initializer,
        codeUpTo constructorMarker (rows (SourceText.parse text).lines) = some constructor →
        codeUpTo initializerMarker (rows (SourceText.parse text).lines) = some initializer →
        SameBlock constructor initializer := by
  intro h
  have hconstructor : codeUpTo constructorMarker (rows (SourceText.parse twoClasses).lines) =
      some settingsCode := by
    decide +kernel
  have hinitializer : codeUpTo initializerMarker (rows (SourceText.parse twoClasses).lines) =
      some (settingsCode ++ settingsRest ++ "class P \x7b    ".toList) := by
    decide +kernel
  have hsame := h "p.php" twoClasses _ _ _ plan_twoClasses _ _ hconstructor hinitializer
  -- Behind the first class the depth is lower than at either marker.
  have hdepth := hsame.2 (settingsCode ++ settingsRest)
    (Or.inl ⟨List.prefix_append _ _, List.prefix_append _ _⟩)
  exact absurd hdepth (by decide)

end Wiring

end PluginWorkshop.Php
