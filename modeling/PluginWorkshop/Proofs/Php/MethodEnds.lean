import Mathlib.Data.List.Sort
import PluginWorkshop.Proofs.Php.Blocks

/-!
# The end of the initialization method

Where the initialization method ends is said here without a search (`MethodEnd`): by the points of
the code at which the marker, the first opening brace behind it and the matching closing brace stand
(`StandsAt`). A closing brace matches if the braces balance there and nowhere before
(`FirstBalances`). The search comes to exactly what is said (`locate_endOfInitializer_iff`): one lemma
for each of its passes relates it to the points (`findOpening_eq_some`, `findOpening_eq_none`,
`findClosing_eq_some`), and `standsAt_iff_placedFrom` relates the points to the numbered characters
that the passes go through.
-/

namespace PluginWorkshop.Php

open Text

variable {code above below : List Line} {x rest head inside front : List Char} {c : Char}
  {line marker opening closing depth : Nat} {placed body : List (Nat × Char)}

/-! ## Points and lines -/

/-- Behind the code `front` stands the character `c`, on the line `line`. -/
def StandsAt (code : List Line) (front : List Char) (line : Nat) (c : Char) : Prop :=
  ∃ x y, code[line]? = some (x ++ c :: y) ∧ front = (code.take line).flatten ++ x

/-- What stands behind a point stands in the code from there on. -/
theorem standsAt_append_iff :
    StandsAt (above ++ (x ++ rest) :: below) (above.flatten ++ x ++ head) line c ↔
      ∃ k, line = above.length + k ∧ StandsAt (rest :: below) head k c := by
  constructor
  · rintro ⟨u, y, hline, hfront⟩
    rcases Nat.lt_or_ge line above.length with hlt | hge
    · -- Above the point there is less code than in front of it.
      rw [List.getElem?_append_left hlt] at hline
      rw [List.take_append_of_le_length hlt.le] at hfront
      have habove : above.flatten.length = (above.take line).flatten.length +
          (u ++ c :: y).length + (above.drop (line + 1)).flatten.length := by
        obtain ⟨hlt, hget⟩ := List.getElem?_eq_some_iff.mp hline
        conv_lhs => rw [← List.take_append_drop line above, List.drop_eq_getElem_cons hlt, hget]
        simp only [List.flatten_append, List.flatten_cons, List.length_append]
        omega
      have hlength := congrArg List.length hfront
      simp only [List.length_append, List.length_cons] at habove hlength
      omega
    · obtain ⟨k, rfl⟩ := Nat.exists_eq_add_of_le hge
      refine ⟨k, rfl, ?_⟩
      rw [List.getElem?_append_right (Nat.le_add_right _ _), Nat.add_sub_cancel_left] at hline
      rw [List.take_length_add_append, List.flatten_append, List.append_assoc, List.append_assoc,
        List.append_cancel_left_eq] at hfront
      cases k with
      | zero =>
        obtain rfl : x ++ head = u := by simpa using hfront
        exact ⟨head, y, by simpa using hline, by simp⟩
      | succ k =>
        refine ⟨u, y, hline, ?_⟩
        simpa [List.append_assoc] using hfront
  · rintro ⟨k, rfl, u, y, hline, rfl⟩
    cases k with
    | zero =>
      obtain rfl : rest = u ++ c :: y := by simpa using hline
      exact ⟨x ++ u, y, by simp, by simp⟩
    | succ k =>
      refine ⟨u, y, ?_, by simp [List.take_length_add_append]⟩
      rwa [List.getElem?_append_right (Nat.le_add_right _ _), Nat.add_sub_cancel_left]

/-- The numbered characters are those that stand at the points of the code. -/
theorem standsAt_iff_placedFrom (start : Nat) : StandsAt code head line c ↔
    ∃ p q, placedFrom start code = p ++ (start + line, c) :: q ∧ p.map Prod.snd = head := by
  constructor
  · rintro ⟨u, y, hline, rfl⟩
    induction code generalizing start line with
    | nil => simp at hline
    | cons first code ih =>
      rw [placedFrom_cons]
      cases line with
      | zero =>
        obtain rfl : first = u ++ c :: y := by simpa using hline
        exact ⟨u.map (start, ·), y.map (start, ·) ++ placedFrom (start + 1) code,
          by simp, by simp [Function.comp_def]⟩
      | succ line =>
        obtain ⟨p, q, hplaced, hp⟩ := ih (start + 1) hline
        refine ⟨first.map (start, ·) ++ p, q, ?_, ?_⟩
        · rw [hplaced, List.append_assoc, show start + (line + 1) = start + 1 + line by omega]
        · rw [List.map_append, hp]
          simp [Function.comp_def]
  · rintro ⟨p, q, hplaced, rfl⟩
    obtain ⟨k, u, y, hk, hline, hfront⟩ := exists_line_of_placedFrom hplaced
    obtain rfl : line = k := by omega
    exact ⟨u, y, hline, hfront⟩

/-- What stands behind a point, among the numbered characters from there on. -/
theorem standsAt_iff_of_point (hline : code[marker]? = some (x ++ rest)) :
    StandsAt code ((code.take marker).flatten ++ x ++ head) line c ↔
      ∃ p q, placedFrom marker (rest :: code.drop (marker + 1)) = p ++ (line, c) :: q ∧
        p.map Prod.snd = head := by
  obtain ⟨hlt, hget⟩ := List.getElem?_eq_some_iff.mp hline
  have hcode : code = code.take marker ++ (x ++ rest) :: code.drop (marker + 1) := by
    rw [← hget, ← List.drop_eq_getElem_cons hlt, List.take_append_drop]
  have hpoint : StandsAt (code.take marker ++ (x ++ rest) :: code.drop (marker + 1))
      ((code.take marker).flatten ++ x ++ head) line c ↔
        ∃ k, line = (code.take marker).length + k ∧
          StandsAt (rest :: code.drop (marker + 1)) head k c :=
    standsAt_append_iff
  rw [← hcode, List.length_take_of_le hlt.le] at hpoint
  rw [hpoint]
  constructor
  · rintro ⟨k, rfl, hstands⟩
    exact (standsAt_iff_placedFrom marker).mp hstands
  · rintro ⟨p, q, hplaced, hp⟩
    have hmem : (line, c) ∈ placedFrom marker (rest :: code.drop (marker + 1)) := by
      simp [hplaced]
    obtain ⟨k, rfl⟩ : ∃ k, line = marker + k :=
      Nat.exists_eq_add_of_le (le_of_mem_placedFrom hmem)
    exact ⟨k, rfl, (standsAt_iff_placedFrom marker).mpr ⟨p, q, hplaced, hp⟩⟩

/-! ## The opening brace -/

theorem findOpening_eq_some : findOpening placed = some (line, body) ↔
    ∃ front, placed = front ++ (line, '\x7b') :: body ∧
      ∀ p ∈ front, p.2 ≠ ';' ∧ p.2 ≠ '\x7b' := by
  induction placed with
  | nil => simp [findOpening]
  | cons p placed ih =>
    rw [findOpening]
    constructor
    · intro h
      split_ifs at h with hsemicolon hbrace
      · obtain ⟨rfl, rfl⟩ : p.1 = line ∧ placed = body := by simpa using h
        exact ⟨[], by rw [← hbrace]; rfl, by simp⟩
      · obtain ⟨front, rfl, hfront⟩ := ih.mp h
        exact ⟨p :: front, rfl, List.forall_mem_cons.mpr ⟨⟨hsemicolon, hbrace⟩, hfront⟩⟩
    · rintro ⟨front, hplaced, hfront⟩
      cases front with
      | nil =>
        obtain ⟨rfl, rfl⟩ := List.cons.inj hplaced
        rfl
      | cons q front =>
        obtain ⟨rfl, rfl⟩ := List.cons.inj hplaced
        obtain ⟨⟨hsemicolon, hbrace⟩, hfront⟩ := List.forall_mem_cons.mp hfront
        rw [if_neg hsemicolon, if_neg hbrace]
        exact ih.mpr ⟨front, rfl, hfront⟩

theorem findOpening_eq_none : findOpening placed = none ↔
    (∃ front line rest, placed = front ++ (line, ';') :: rest ∧ ∀ p ∈ front, p.2 ≠ '\x7b') ∨
      ∀ p ∈ placed, p.2 ≠ '\x7b' := by
  constructor
  · intro h
    induction placed with
    | nil => exact Or.inr (by simp)
    | cons p placed ih =>
      rw [findOpening] at h
      split_ifs at h with hsemicolon hbrace
      · exact Or.inl ⟨[], p.1, placed, by rw [← hsemicolon]; rfl, by simp⟩
      · rcases ih h with ⟨front, line, rest, rfl, hfront⟩ | hnone
        · exact Or.inl ⟨p :: front, line, rest, rfl, List.forall_mem_cons.mpr ⟨hbrace, hfront⟩⟩
        · exact Or.inr (List.forall_mem_cons.mpr ⟨hbrace, hnone⟩)
  · intro h
    rw [Option.eq_none_iff_forall_ne_some]
    rintro ⟨line, body⟩ hfound
    obtain ⟨front, rfl, hfront⟩ := findOpening_eq_some.mp hfound
    rcases h with ⟨front', line', rest, hplaced, hfront'⟩ | hnone
    · -- The semicolon stands behind the brace or in front of it.
      rcases List.append_eq_append_iff.mp hplaced with ⟨z, rfl, hz⟩ | ⟨z, rfl, hz⟩
      · cases z with
        | nil => simp at hz
        | cons q z =>
          obtain ⟨rfl, -⟩ := List.cons.inj hz
          exact hfront' (line, '\x7b') (by simp) rfl
      · cases z with
        | nil => simp at hz
        | cons q z =>
          obtain ⟨rfl, -⟩ := List.cons.inj hz
          exact (hfront (line', ';') (by simp)).1 rfl
    · exact hnone (line, '\x7b') (by simp) rfl

/-! ## The closing brace -/

/-- Code whose braces balance at its end and at no point before, its start apart. -/
structure FirstBalances (code : List Char) : Prop where
  balance_eq : braceBalance code = 0
  balance_ne : ∀ p, p <+: code → p ≠ [] → p ≠ code → braceBalance p ≠ 0

theorem Closes.of_cons {c : Char} {code : List Char} {d d' : Int} (h : Closes d (c :: code))
    (hdepth : d' = d + braceBalance [c]) : Closes d' code := by
  have hstep : ∀ p, braceBalance (c :: p) = braceBalance [c] + braceBalance p :=
    braceBalance_append [c]
  constructor
  · have := h.balance_eq
    rw [hstep] at this
    omega
  · intro p hp
    have := h.le_balance (c :: p) (List.cons_prefix_cons.mpr ⟨rfl, hp⟩)
    rw [hstep] at this
    omega

theorem findClosing_eq_some : findClosing depth placed = some line ↔
    ∃ inside rest, placed = inside ++ (line, '\x7d') :: rest ∧
      Closes depth (inside.map Prod.snd) := by
  refine ⟨findClosing_split, ?_⟩
  rintro ⟨inside, rest, rfl, hcloses⟩
  induction inside generalizing depth with
  | nil =>
    have hbalance := hcloses.balance_eq
    obtain rfl : depth = 0 := by
      simp only [List.map_nil, braceBalance, List.count_nil] at hbalance
      omega
    rfl
  | cons p inside ih =>
    rw [List.map_cons] at hcloses
    rw [List.cons_append, findClosing_cons]
    split_ifs with hopen hclose
    · exact ih (hcloses.of_cons (by rw [hopen]; rfl))
    · cases depth with
      | zero =>
        have hbelow := hcloses.le_balance [p.2] ⟨_, rfl⟩
        rw [hclose] at hbelow
        exact absurd hbelow (by decide)
      | succ depth =>
        refine ih (hcloses.of_cons ?_)
        have hbalance : braceBalance ['\x7d'] = -1 := rfl
        rw [hclose, hbalance]
        omega
    · exact ih (hcloses.of_cons (by simp [braceBalance, hopen, hclose]))

/-- Until the braces first balance, no more are closed than were opened behind the first. -/
theorem FirstBalances.balance_nonneg (h : FirstBalances ('\x7b' :: inside ++ ['\x7d'])) :
    ∀ p, p <+: inside → 0 ≤ braceBalance p := by
  intro p hp
  induction p using List.reverseRecOn with
  | nil => exact Int.le_refl 0
  | append_singleton p c ih =>
    have hbefore := ih ((List.prefix_append p [c]).trans hp)
    have hstep : -1 ≤ braceBalance [c] := by
      simp only [braceBalance, List.count_singleton]
      split_ifs <;> simp
    have hne := h.balance_ne ('\x7b' :: (p ++ [c]))
      (List.cons_prefix_cons.mpr ⟨rfl, hp.trans (List.prefix_append _ _)⟩) (by simp) (by
        intro heq
        have hlength : (p ++ [c]).length = (inside ++ ['\x7d']).length :=
          congrArg List.length (List.cons.inj heq).2
        have := hp.length_le
        rw [hlength, List.length_append, List.length_singleton] at this
        omega)
    rw [show braceBalance ('\x7b' :: (p ++ [c])) = 1 + braceBalance (p ++ [c]) from
      braceBalance_append ['\x7b'] _, braceBalance_append] at hne
    rw [braceBalance_append]
    omega

/-- Behind an opening brace, the braces first balance at a closing brace exactly if the code between
the two closes what it opens and no more. -/
theorem firstBalances_iff :
    FirstBalances ('\x7b' :: inside ++ ['\x7d']) ↔ Closes 0 inside := by
  have hopen : ∀ p, braceBalance ('\x7b' :: p) = 1 + braceBalance p := braceBalance_append ['\x7b']
  have hclose : braceBalance ('\x7b' :: inside ++ ['\x7d']) = braceBalance inside := by
    rw [braceBalance_append, hopen, show braceBalance ['\x7d'] = -1 from rfl]
    omega
  constructor
  · intro h
    exact ⟨by rw [← hclose, h.balance_eq]; rfl, by simpa using h.balance_nonneg⟩
  · intro h
    refine ⟨by rw [hclose, h.balance_eq]; rfl, ?_⟩
    intro p hp hne hwhole
    rcases List.prefix_concat_iff.mp hp with rfl | hp
    · exact absurd rfl hwhole
    · obtain ⟨p, rfl, hinside⟩ := (List.prefix_cons_iff.mp hp).resolve_left hne
      have := h.le_balance p hinside
      rw [hopen]
      omega

/-! ## The marker -/

/-- The marker stands on one line of the code only, and there for the first time behind the code
`front`. -/
structure MarkedOnce (pattern : Line) (code : List Line) (marker : Nat) (front : List Char) :
    Prop where
  marked_iff : ∀ i, (∃ line, code[i]? = some line ∧ pattern <:+: line) ↔ i = marker
  first : ∃ x y, code[marker]? = some (x ++ pattern ++ y) ∧
    front = (code.take marker).flatten ++ x ∧
    ∀ x' y', x ++ pattern ++ y = x' ++ pattern ++ y' → x.length ≤ x'.length

section Rows

variable {rows : List Row} {pattern : Line}

theorem mem_markerLines {i : Nat} : i ∈ markerLines pattern rows ↔
    ∃ line, (rows.map Row.code)[i]? = some line ∧ pattern <:+: line := by
  simp only [markerLines, List.mem_map, List.mem_filter, Prod.exists, exists_eq_right,
    List.mk_mem_zipIdx_iff_getElem?, containsText_iff, List.getElem?_map,
    Option.map_eq_some_iff]
  constructor
  · rintro ⟨row, hrow, hpattern⟩
    exact ⟨row.code, ⟨row, hrow, rfl⟩, hpattern⟩
  · rintro ⟨-, ⟨row, hrow, rfl⟩, hpattern⟩
    exact ⟨row, hrow, hpattern⟩

theorem pairwise_markerLines (pattern : Line) (rows : List Row) :
    (markerLines pattern rows).Pairwise (· < ·) := by
  have hall : (rows.zipIdx.map Prod.snd).Pairwise (· < ·) := by
    rw [List.zipIdx_map_snd]
    exact List.pairwise_lt_range'
  exact hall.sublist (List.filter_sublist.map Prod.snd)

/-- The marker is found on a line, and from there on the code behind its first occurrence. -/
theorem markedOnce_iff {front : List Char} : MarkedOnce pattern (rows.map Row.code) marker front ↔
    uniqueMarker pattern rows = .ok marker ∧ ∃ x rest,
      (rows.map Row.code)[marker]? = some (x ++ rest) ∧
      suffixFrom? pattern (x ++ rest) = some rest ∧
      front = ((rows.map Row.code).take marker).flatten ++ x := by
  constructor
  · rintro ⟨hmarked, x, y, hline, hfront, hfirst⟩
    refine ⟨?_, x, pattern ++ y, ?_, ?_, hfront⟩
    · have hmem : ∀ i, i ∈ markerLines pattern rows ↔ i ∈ [marker] := fun i => by
        rw [mem_markerLines, hmarked, List.mem_singleton]
      exact uniqueMarker_eq_ok.mpr
        (List.Pairwise.eq_of_mem_iff (pairwise_markerLines pattern rows) (by simp) hmem)
    · rw [hline, List.append_assoc]
    · exact suffixFrom?_eq_some_iff.mpr ⟨x, y, by simp, rfl, by simpa using hfirst⟩
  · rintro ⟨hunique, x, rest, hline, hsuffix, hfront⟩
    obtain ⟨x', y, hsplit, rfl, hfirst⟩ := suffixFrom?_eq_some_iff.mp hsuffix
    obtain rfl : x = x' := by simpa using hsplit
    refine ⟨fun i => ?_, x, y, by simpa using hline, hfront, by simpa using hfirst⟩
    rw [← mem_markerLines, uniqueMarker_eq_ok.mp hunique, List.mem_singleton]

end Rows

/-! ## The end of the method -/

/-- The first opening brace behind the code `front` stands on the line `opening`, behind the further
code `head`, in which there is no semicolon either. -/
structure Opens (code : List Line) (front head : List Char) (opening : Nat) : Prop where
  stands : StandsAt code (front ++ head) opening '\x7b'
  brace_notMem : '\x7b' ∉ head
  semicolon_notMem : ';' ∉ head

/-- The brace that matches the one behind the code `front` stands on the line `closing`, behind the
further code `inside`. -/
structure Matches (code : List Line) (front inside : List Char) (closing : Nat) : Prop where
  stands : StandsAt code (front ++ '\x7b' :: inside) closing '\x7d'
  balances : FirstBalances ('\x7b' :: inside ++ ['\x7d'])

/-- What is said of the end of the initialization method in masked code. -/
inductive MethodEnd (code : List Line) : AnchorLookup → Prop where
  /-- No line bears the marker. -/
  | unmarked (h : ∀ line ∈ code, ¬ initializerMarker <:+: line) : MethodEnd code .notFound
  /-- Several lines bear the marker. -/
  | repeated {lines : List Nat} (hordered : lines.Pairwise (· < ·))
      (hlines : ∀ i, i ∈ lines ↔ ∃ line, code[i]? = some line ∧ initializerMarker <:+: line)
      (hseveral : 2 ≤ lines.length) :
      MethodEnd code (.ambiguous (lines.map (· + 1))
        ("'" ++ String.ofList initializerMarker ++ "' appears more than once"))
  /-- A semicolon stands in front of the first opening brace. -/
  | bodyless {marker line : Nat} {front head : List Char}
      (hmarker : MarkedOnce initializerMarker code marker front)
      (hsemicolon : StandsAt code (front ++ head) line ';') (hhead : '\x7b' ∉ head) :
      MethodEnd code .notFound
  /-- The file ends in front of an opening brace. -/
  | unopened {marker : Nat} {front : List Char}
      (hmarker : MarkedOnce initializerMarker code marker front)
      (hnone : ∀ head line, ¬ StandsAt code (front ++ head) line '\x7b') :
      MethodEnd code .notFound
  /-- No brace matches the opening brace. -/
  | unclosed {marker opening : Nat} {front head : List Char}
      (hmarker : MarkedOnce initializerMarker code marker front)
      (hopens : Opens code front head opening)
      (hnone : ∀ inside closing, ¬ Matches code (front ++ head) inside closing) :
      MethodEnd code .notFound
  /-- The matching brace stands on the line of the opening brace. -/
  | oneLine {marker opening : Nat} {front head inside : List Char}
      (hmarker : MarkedOnce initializerMarker code marker front)
      (hopens : Opens code front head opening)
      (hmatches : Matches code (front ++ head) inside opening) :
      MethodEnd code (.ambiguous [opening + 1] oneLineReason)
  /-- The matching brace stands on another line, which bears other code. -/
  | shared {marker opening closing : Nat} {front head inside line : List Char}
      (hmarker : MarkedOnce initializerMarker code marker front)
      (hopens : Opens code front head opening)
      (hmatches : Matches code (front ++ head) inside closing) (hne : closing ≠ opening)
      (hline : code[closing]? = some line) (hshared : trim line ≠ ['\x7d']) :
      MethodEnd code (.ambiguous [closing + 1] sharedBraceReason)
  /-- The matching brace stands alone on another line. -/
  | found {marker opening closing : Nat} {front head inside line : List Char}
      (hmarker : MarkedOnce initializerMarker code marker front)
      (hopens : Opens code front head opening)
      (hmatches : Matches code (front ++ head) inside closing) (hne : closing ≠ opening)
      (hline : code[closing]? = some line) (halone : trim line = ['\x7d']) :
      MethodEnd code (.found closing)

section Point

variable (hline : code[marker]? = some (x ++ rest))

include hline

/-- Behind a point the search for an opening brace finds the first one. -/
theorem findOpening_iff_opens : findOpening (placedFrom marker (rest :: code.drop (marker + 1))) =
      some (opening, body) ↔
    ∃ p, placedFrom marker (rest :: code.drop (marker + 1)) = p ++ (opening, '\x7b') :: body ∧
      Opens code ((code.take marker).flatten ++ x) (p.map Prod.snd) opening := by
  rw [findOpening_eq_some]
  refine exists_congr fun p => and_congr_right fun hplaced => ?_
  constructor
  · intro hp
    refine ⟨(standsAt_iff_of_point hline).mpr ⟨p, body, hplaced, rfl⟩, fun hmem => ?_, fun hmem => ?_⟩
    · obtain ⟨q, hq, heq⟩ := List.mem_map.mp hmem
      exact (hp q hq).2 heq
    · obtain ⟨q, hq, heq⟩ := List.mem_map.mp hmem
      exact (hp q hq).1 heq
  · intro h q hq
    exact ⟨fun heq => h.semicolon_notMem (List.mem_map.mpr ⟨q, hq, heq⟩),
      fun heq => h.brace_notMem (List.mem_map.mpr ⟨q, hq, heq⟩)⟩

theorem exists_of_opens (h : Opens code ((code.take marker).flatten ++ x) head opening) :
    ∃ p body, p.map Prod.snd = head ∧
      placedFrom marker (rest :: code.drop (marker + 1)) = p ++ (opening, '\x7b') :: body ∧
      findOpening (placedFrom marker (rest :: code.drop (marker + 1))) = some (opening, body) := by
  obtain ⟨p, body, hplaced, rfl⟩ := (standsAt_iff_of_point hline).mp h.stands
  exact ⟨p, body, rfl, hplaced, (findOpening_iff_opens hline).mpr ⟨p, hplaced, h⟩⟩

/-- Nothing is found exactly if a semicolon stands in front of the first opening brace, or there is
no such brace. -/
theorem findOpening_eq_none_iff :
    findOpening (placedFrom marker (rest :: code.drop (marker + 1))) = none ↔
      (∃ head line, StandsAt code ((code.take marker).flatten ++ x ++ head) line ';' ∧
        '\x7b' ∉ head) ∨
      ∀ head line, ¬ StandsAt code ((code.take marker).flatten ++ x ++ head) line '\x7b' := by
  rw [findOpening_eq_none]
  simp only [standsAt_iff_of_point hline]
  refine or_congr ?_ ?_
  · constructor
    · rintro ⟨p, line, q, hplaced, hp⟩
      refine ⟨p.map Prod.snd, line, ⟨p, q, hplaced, rfl⟩, fun hmem => ?_⟩
      obtain ⟨r, hr, heq⟩ := List.mem_map.mp hmem
      exact hp r hr heq
    · rintro ⟨_, line, ⟨p, q, hplaced, rfl⟩, hp⟩
      exact ⟨p, line, q, hplaced, fun r hr heq => hp (List.mem_map.mpr ⟨r, hr, heq⟩)⟩
  · constructor
    · rintro hnone _ line ⟨p, q, hplaced, rfl⟩
      exact hnone (line, '\x7b') (by simp [hplaced]) rfl
    · rintro hnone ⟨line, c⟩ hmem rfl
      obtain ⟨p, q, hplaced⟩ := List.append_of_mem hmem
      exact hnone _ line ⟨p, q, hplaced, rfl⟩

/-- Behind an opening brace the search for a closing brace finds the one that matches. -/
theorem findClosing_iff_matches {p : List (Nat × Char)}
    (hplaced : placedFrom marker (rest :: code.drop (marker + 1)) =
      p ++ (opening, '\x7b') :: body) :
    findClosing 0 body = some closing ↔
      ∃ inside, Matches code ((code.take marker).flatten ++ x ++ p.map Prod.snd) inside closing := by
  have hstands : ∀ inside, StandsAt code
        ((code.take marker).flatten ++ x ++ p.map Prod.snd ++ '\x7b' :: inside) closing '\x7d' ↔
      ∃ q rest, body = q ++ (closing, '\x7d') :: rest ∧ q.map Prod.snd = inside := by
    intro inside
    rw [List.append_assoc _ (p.map Prod.snd), standsAt_iff_of_point hline, hplaced]
    constructor
    · rintro ⟨p', q, hsplit, hp'⟩
      obtain ⟨u, v, rfl, hu, hv⟩ := List.map_eq_append_iff.mp hp'
      obtain ⟨r, q', rfl, hr, rfl⟩ := List.map_eq_cons_iff.mp hv
      obtain ⟨rfl, hrest⟩ := List.append_inj (hsplit.trans (List.append_assoc _ _ _))
        (by simpa using (congrArg List.length hu).symm)
      exact ⟨q', q, (List.cons.inj hrest).2, rfl⟩
    · rintro ⟨q, r, rfl, rfl⟩
      exact ⟨p ++ (opening, '\x7b') :: q, r, by simp, by simp⟩
  rw [findClosing_eq_some]
  constructor
  · rintro ⟨q, r, hbody, hcloses⟩
    exact ⟨_, (hstands _).mpr ⟨q, r, hbody, rfl⟩, firstBalances_iff.mpr (by simpa using hcloses)⟩
  · rintro ⟨inside, hmatches⟩
    obtain ⟨q, r, hbody, rfl⟩ := (hstands inside).mp hmatches.stands
    exact ⟨q, r, hbody, by simpa using firstBalances_iff.mp hmatches.balances⟩

end Point

section Rows

variable {rows : List Row} {lookup : AnchorLookup}

/-- What the search comes to once the lines of the braces are known, if they are. -/
def lookupOf (code : List Line) : Option (Nat × Nat) → AnchorLookup
  | none => .notFound
  | some (opening, closing) =>
    if closing = opening then .ambiguous [opening + 1] oneLineReason
    else if (code[closing]?).map trim = some ['\x7d'] then .found closing
    else .ambiguous [closing + 1] sharedBraceReason

/-- Behind the marker the search goes on in two passes. -/
theorem initializerEnd_of_marked
    (h : MarkedOnce initializerMarker (rows.map Row.code) marker front) :
    ∃ x rest, (rows.map Row.code)[marker]? = some (x ++ rest) ∧
      front = ((rows.map Row.code).take marker).flatten ++ x ∧
      initializerEnd rows = lookupOf (rows.map Row.code)
        ((findOpening (placedFrom marker (rest :: (rows.map Row.code).drop (marker + 1)))).bind
          fun (opening, body) => (findClosing 0 body).map (opening, ·)) := by
  obtain ⟨hmarker, x, rest, hline, hsuffix, rfl⟩ := markedOnce_iff.mp h
  refine ⟨x, rest, hline, rfl, ?_⟩
  have hbody : methodBody initializerMarker marker (rows.map Row.code) =
      (findOpening (placedFrom marker (rest :: (rows.map Row.code).drop (marker + 1)))).bind
        fun (opening, body) => (findClosing 0 body).map (opening, ·) := by
    simp only [methodBody, hline, hsuffix, bind, Option.bind_some, pure, Option.map_eq_bind]
    rfl
  rw [← hbody, initializerEnd, hmarker]
  dsimp only
  cases methodBody initializerMarker marker (rows.map Row.code) <;> rfl

theorem initializerEnd_of_matches
    (hmarker : MarkedOnce initializerMarker (rows.map Row.code) marker front)
    (hopens : Opens (rows.map Row.code) front head opening)
    (hmatches : Matches (rows.map Row.code) (front ++ head) inside closing) :
    initializerEnd rows = lookupOf (rows.map Row.code) (some (opening, closing)) := by
  obtain ⟨x, rest, hline, rfl, hlookup⟩ := initializerEnd_of_marked hmarker
  obtain ⟨p, body, rfl, hplaced, hopening⟩ := exists_of_opens hline hopens
  have hclosing := (findClosing_iff_matches hline hplaced).mpr ⟨_, hmatches⟩
  simp only [hlookup, hopening, Option.bind_some, hclosing, Option.map_some]

/-- Without one line for the marker, the search ends at once. -/
theorem methodEnd_of_uniqueMarker {lookup : AnchorLookup}
    (h : uniqueMarker initializerMarker rows = .error lookup) :
    MethodEnd (rows.map Row.code) lookup := by
  rw [uniqueMarker] at h
  split at h
  · next hnone =>
    obtain rfl := Except.error.inj h
    refine .unmarked fun line hline hpattern => ?_
    obtain ⟨i, hi⟩ := List.mem_iff_getElem?.mp hline
    have hmem := mem_markerLines.mpr ⟨line, hi, hpattern⟩
    simp [hnone] at hmem
  · simp at h
  · next hempty hsingle =>
    obtain rfl := Except.error.inj h
    refine .repeated (pairwise_markerLines _ rows) (fun i => mem_markerLines) ?_
    rcases hfound : markerLines initializerMarker rows with _ | ⟨first, _ | ⟨second, later⟩⟩
    · exact absurd hfound hempty
    · exact absurd hfound (hsingle first)
    · simp

/-- A line with the marker from its first occurrence on. -/
theorem exists_markedOnce (h : uniqueMarker initializerMarker rows = .ok marker) :
    ∃ front, MarkedOnce initializerMarker (rows.map Row.code) marker front := by
  obtain ⟨row, hrow, hcontains⟩ := containsText_of_uniqueMarker h
  obtain ⟨rest, hsuffix⟩ := Option.isSome_iff_exists.mp hcontains
  obtain ⟨x, -, hcode, -⟩ := suffixFrom?_eq_some hsuffix
  rw [hcode] at hsuffix
  exact ⟨_, markedOnce_iff.mpr ⟨h, x, rest, by simp [hrow, hcode], hsuffix, rfl⟩⟩

/-- A closing brace is alone on its line, or it is not. -/
theorem methodEnd_of_matches
    (hmarker : MarkedOnce initializerMarker (rows.map Row.code) marker front)
    (hopens : Opens (rows.map Row.code) front head opening)
    (hmatches : Matches (rows.map Row.code) (front ++ head) inside closing) :
    MethodEnd (rows.map Row.code) (lookupOf (rows.map Row.code) (some (opening, closing))) := by
  obtain ⟨u, v, hbrace, -⟩ := hmatches.stands
  rw [lookupOf, hbrace, Option.map_some]
  split_ifs with hsame halone
  · exact .oneLine hmarker hopens (hsame ▸ hmatches)
  · exact .found hmarker hopens hmatches hsame hbrace (Option.some.inj halone)
  · exact .shared hmarker hopens hmatches hsame hbrace fun heq => halone (congrArg some heq)

/-- What the search comes to is so. -/
theorem methodEnd_initializerEnd (rows : List Row) :
    MethodEnd (rows.map Row.code) (initializerEnd rows) := by
  cases hmarker : uniqueMarker initializerMarker rows with
  | error lookup =>
    rw [show initializerEnd rows = lookup by rw [initializerEnd, hmarker]]
    exact methodEnd_of_uniqueMarker hmarker
  | ok marker =>
    obtain ⟨front, hmarked⟩ := exists_markedOnce hmarker
    obtain ⟨x, rest, hline, rfl, hlookup⟩ := initializerEnd_of_marked hmarked
    rw [hlookup]
    cases hopening : findOpening (placedFrom marker (rest :: (rows.map Row.code).drop (marker + 1)))
      with
    | none =>
      rcases (findOpening_eq_none_iff hline).mp hopening with ⟨head, line, hstands, hhead⟩ | hnone
      · exact .bodyless hmarked hstands hhead
      · exact .unopened hmarked hnone
    | some found =>
      obtain ⟨opening, body⟩ := found
      obtain ⟨p, hplaced, hopens⟩ := (findOpening_iff_opens hline).mp hopening
      rw [Option.bind_some]
      dsimp only
      cases hclosing : findClosing 0 body with
      | none =>
        refine .unclosed hmarked hopens fun inside closing hmatches => ?_
        have := (findClosing_iff_matches hline hplaced).mpr ⟨inside, hmatches⟩
        simp [hclosing] at this
      | some closing =>
        obtain ⟨inside, hmatches⟩ := (findClosing_iff_matches hline hplaced).mp hclosing
        rw [Option.map_some]
        exact methodEnd_of_matches hmarked hopens hmatches

/-- What is so is what the search comes to. -/
theorem initializerEnd_of_methodEnd (h : MethodEnd (rows.map Row.code) lookup) :
    initializerEnd rows = lookup := by
  cases h with
  | unmarked h =>
    have hnone : markerLines initializerMarker rows = [] := by
      refine List.eq_nil_iff_forall_not_mem.mpr fun i hi => ?_
      obtain ⟨line, hline, hpattern⟩ := mem_markerLines.mp hi
      exact h line (List.mem_of_getElem? hline) hpattern
    simp only [initializerEnd, uniqueMarker, hnone]
  | @repeated lines hordered hlines hseveral =>
    have hfound : markerLines initializerMarker rows = lines :=
      (pairwise_markerLines _ rows).eq_of_mem_iff hordered fun i =>
        mem_markerLines.trans (hlines i).symm
    rcases lines with _ | ⟨first, _ | ⟨second, later⟩⟩
    · simp at hseveral
    · simp at hseveral
    · simp only [initializerEnd, uniqueMarker, hfound]
  | bodyless hmarker hsemicolon hhead =>
    obtain ⟨x, rest, hline, rfl, hlookup⟩ := initializerEnd_of_marked hmarker
    rw [hlookup, (findOpening_eq_none_iff hline).mpr (Or.inl ⟨_, _, hsemicolon, hhead⟩)]
    rfl
  | unopened hmarker hnone =>
    obtain ⟨x, rest, hline, rfl, hlookup⟩ := initializerEnd_of_marked hmarker
    rw [hlookup, (findOpening_eq_none_iff hline).mpr (Or.inr hnone)]
    rfl
  | unclosed hmarker hopens hnone =>
    obtain ⟨x, rest, hline, rfl, hlookup⟩ := initializerEnd_of_marked hmarker
    obtain ⟨p, body, rfl, hplaced, hopening⟩ := exists_of_opens hline hopens
    have hclosing : findClosing 0 body = none := by
      refine Option.eq_none_iff_forall_ne_some.mpr fun closing hclosing => ?_
      obtain ⟨inside, hmatches⟩ := (findClosing_iff_matches hline hplaced).mp hclosing
      exact hnone inside closing hmatches
    simp only [hlookup, hopening, Option.bind_some, hclosing, Option.map_none, lookupOf]
  | oneLine hmarker hopens hmatches =>
    rw [initializerEnd_of_matches hmarker hopens hmatches, lookupOf, if_pos rfl]
  | shared hmarker hopens hmatches hne hbrace hshared =>
    rw [initializerEnd_of_matches hmarker hopens hmatches, lookupOf, if_neg hne, hbrace,
      Option.map_some, if_neg fun heq => hshared (Option.some.inj heq)]
  | found hmarker hopens hmatches hne hbrace halone =>
    rw [initializerEnd_of_matches hmarker hopens hmatches, lookupOf, if_neg hne, hbrace,
      Option.map_some, if_pos (congrArg some halone)]

/-- The opening brace stands at the marker or below it, and the matching brace at the opening brace or
below that. -/
theorem le_of_matches {code : List Line} {front head inside : List Char}
    (hmarker : MarkedOnce initializerMarker code marker front)
    (hopens : Opens code front head opening)
    (hmatches : Matches code (front ++ head) inside closing) :
    marker ≤ opening ∧ opening ≤ closing := by
  obtain ⟨-, x, y, hline, rfl, -⟩ := hmarker
  rw [List.append_assoc] at hline
  obtain ⟨p, body, rfl, hplaced, -⟩ := exists_of_opens hline hopens
  obtain ⟨c, hc⟩ := mem_of_findClosing ((findClosing_iff_matches hline hplaced).mpr ⟨_, hmatches⟩)
  have hsorted := pairwise_placedFrom marker ((initializerMarker ++ y) :: code.drop (marker + 1))
  have hmem : (opening, '\x7b') ∈
      placedFrom marker ((initializerMarker ++ y) :: code.drop (marker + 1)) := by
    simp [hplaced]
  rw [hplaced, List.pairwise_append, List.pairwise_cons] at hsorted
  exact ⟨le_of_mem_placedFrom hmem, hsorted.2.1.1 _ hc⟩

end Rows

theorem map_code_rows (lines : List Line) : (rows lines).map Row.code = mask lines := by
  have hrows : ∀ state, (rowsFrom state lines).map Row.code = maskFrom state lines := by
    induction lines with
    | nil => exact fun _ => rfl
    | cons line lines ih => exact fun state => congrArg ((maskLine state line).1 :: ·) (ih _)
  exact hrows .code

/-- The lookup of the end of the initialization method comes to exactly what is said of the masked
lines. Where a line is found, the opening brace stands at the marker or below it, and the matching
brace on a line below that. -/
theorem locate_endOfInitializer_iff (lines : List Line) :
    (∀ lookup, Anchor.endOfInitializer.locate lines = lookup ↔ MethodEnd (mask lines) lookup) ∧
      ∀ closing, Anchor.endOfInitializer.locate lines = .found closing →
        ∃ marker opening front head inside,
          MarkedOnce initializerMarker (mask lines) marker front ∧
          Opens (mask lines) front head opening ∧
          Matches (mask lines) (front ++ head) inside closing ∧
          marker ≤ opening ∧ opening < closing := by
  have hiff : ∀ lookup,
      Anchor.endOfInitializer.locate lines = lookup ↔ MethodEnd (mask lines) lookup := by
    intro lookup
    rw [← map_code_rows]
    refine ⟨?_, initializerEnd_of_methodEnd⟩
    rintro rfl
    exact methodEnd_initializerEnd (rows lines)
  refine ⟨hiff, fun closing hfound => ?_⟩
  cases (hiff _).mp hfound with
  | found hmarker hopens hmatches hne =>
    obtain ⟨hmarker_le, hopening_le⟩ := le_of_matches hmarker hopens hmatches
    exact ⟨_, _, _, _, _, hmarker, hopens, hmatches, hmarker_le,
      Nat.lt_of_le_of_ne hopening_le hne.symm⟩

/-- A method whose marker stands behind a brace and a letter of two bytes, and whose body holds a
block and a brace in a comment. -/
def nestedMethod : List Line :=
  ["class \u00c9 \x7b function instantiate() \x7b".toList, "    if (true) \x7b".toList,
    "        // \x7d".toList, "    \x7d".toList, "\x7d".toList, "\x7d".toList]

/-- Its end is the brace behind the block. -/
theorem locate_endOfInitializer_iff_nestedMethod :
    Anchor.endOfInitializer.locate nestedMethod = .found 4 ∧
      MethodEnd (mask nestedMethod) (.found 4) := by
  have hfound : Anchor.endOfInitializer.locate nestedMethod = .found 4 := by decide
  exact ⟨hfound, ((locate_endOfInitializer_iff nestedMethod).1 _).mp hfound⟩

end PluginWorkshop.Php
