import PluginWorkshop.Machine.Path
import PluginWorkshop.Proofs.Text.Splitting
import Mathlib.Data.List.TakeWhile

/-!
# Parents of paths

The parent of a path is the path up to one of its slashes (`exists_append_of_parent?`), so the
pieces of the parent come first among the pieces of the path, and there are enough pieces to bound
the number of parents (`parentsUpTo_prefix`).
-/

namespace PluginWorkshop

namespace Path

open Text

theorem pieces_append (a b : String) : pieces (a ++ "/" ++ b) = pieces a ++ pieces b := by
  have h : (a ++ "/" ++ b).toList = a.toList ++ '/' :: b.toList := by simp
  rw [pieces, h, splitOn_append_cons, List.map_append]
  rfl

theorem intercalate_pieces (path : Path) : "/".intercalate (pieces path) = path := by
  rw [← String.toList_inj, String.toList_intercalate, pieces, List.map_map]
  have hmap : (splitOn '/' path.toList).map (String.toList ∘ String.ofList) =
      splitOn '/' path.toList := by
    simp [Function.comp_def]
  rw [hmap]
  exact (join_eq_intercalate _ _).symm.trans (join_splitOn '/' path.toList)

theorem exists_pieces_of_isAbsolute {path : Path} (h : isAbsolute path = true) :
    ∃ rest, pieces path = "" :: rest := by
  rw [isAbsolute, beq_iff_eq] at h
  rw [pieces]
  cases hpath : path.toList with
  | nil => simp [hpath] at h
  | cons c tail =>
    obtain rfl : c = '/' := by simpa [hpath] using h
    exact ⟨(splitOn '/' tail).map String.ofList, by simp [splitOn, splitWhere]⟩

/-- What is dropped up to the last element that counts, and below it, stands at the end. -/
theorem exists_append_of_dropWhile {α : Type} {p q : α → Bool} {l before : List α} {last : α}
    (h : l.reverse.dropWhile p = last :: before) :
    ∃ dropped, dropped ≠ [] ∧ l = (before.dropWhile q).reverse ++ dropped := by
  refine ⟨(before.takeWhile q).reverse ++ last :: (l.reverse.takeWhile p).reverse, by simp, ?_⟩
  calc l = (l.reverse.takeWhile p ++ l.reverse.dropWhile p).reverse := by
        rw [List.takeWhile_append_dropWhile, List.reverse_reverse]
    _ = before.reverse ++ last :: (l.reverse.takeWhile p).reverse := by simp [h]
    _ = (before.takeWhile q ++ before.dropWhile q).reverse ++
          last :: (l.reverse.takeWhile p).reverse := by rw [List.takeWhile_append_dropWhile]
    _ = _ := by rw [List.reverse_append, List.append_assoc]

/-- A path goes on after its parent with a slash. -/
theorem exists_append_of_parent? {path parent : Path} (h : parent? path = some parent)
    (hparent : parent ≠ "") :
    (∃ rest, path = parent ++ "/" ++ rest) ∨ parent = "/" ∧ ∃ rest, path = "/" ++ rest := by
  obtain ⟨start, rest, hpieces⟩ : ∃ start rest, pieces path = start :: rest :=
    List.exists_cons_of_ne_nil (by simp [pieces, splitOn, splitWhere_ne_nil])
  rw [parent?, backwards, hpieces, List.headD_cons, List.drop_one, List.tail_cons] at h
  cases hback : rest.reverse.dropWhile isInert with
  | nil =>
    rw [hback] at h
    dsimp only at h
    split_ifs at h
    exact absurd (Option.some.inj h).symm hparent
  | cons last before =>
    rw [hback] at h
    dsimp only at h
    -- What the parent drops ends with the last component, so it is not empty.
    obtain ⟨dropped, hdropped, hrest⟩ := exists_append_of_dropWhile (q := isInert) hback
    generalize (before.dropWhile isInert).reverse = kept at h hrest
    have hpath := intercalate_pieces path
    rw [hpieces, hrest] at hpath
    split_ifs at h with habsolute
    · obtain ⟨_, hstart⟩ := exists_pieces_of_isAbsolute habsolute
      obtain rfl : start = "" := (List.cons.inj (hpieces.symm.trans hstart)).1
      obtain rfl := Option.some.inj h
      cases kept with
      | nil =>
        refine Or.inr ⟨by simp, "/".intercalate dropped, ?_⟩
        rw [← hpath, List.nil_append, String.intercalate_cons_of_ne_nil hdropped]
        simp
      | cons piece kept =>
        refine Or.inl ⟨"/".intercalate dropped, ?_⟩
        rw [← hpath, ← List.cons_append,
          String.intercalate_append_of_ne_nil (List.cons_ne_nil _ _) hdropped]
        simp
    · obtain rfl := Option.some.inj h
      refine Or.inl ⟨"/".intercalate dropped, ?_⟩
      rw [← hpath, ← List.cons_append,
        String.intercalate_append_of_ne_nil (List.cons_ne_nil _ _) hdropped]

/-! ## All the parents -/

attribute [local simp] parentsUpTo

theorem parent?_root : parent? "/" = none := by decide

theorem parentsUpTo_root (n : Nat) : parentsUpTo n "/" = [] := by
  cases n <;> simp [parent?_root]

theorem parent?_empty : parent? "" = none := by decide

theorem parentsUpTo_empty (n : Nat) : parentsUpTo n "" = [] := by
  cases n <;> simp [parent?_empty]

/-- What passes on from each path to its parent holds of all its parents that have a name. -/
theorem of_mem_parentsUpTo {p : Path → Prop} {path d : Path}
    (hparent : ∀ {path parent}, parent? path = some parent → parent ≠ "" → p path → p parent)
    (n : Nat) (h : p path) (hd : d ∈ parentsUpTo n path) : d = "" ∨ p d := by
  induction n generalizing path with
  | zero => simp at hd
  | succ n ih =>
    rw [parentsUpTo] at hd
    cases habove : parent? path with
    | none => simp [habove] at hd
    | some parent =>
      rw [habove] at hd
      dsimp only at hd
      by_cases hempty : parent = ""
      · rw [hempty, parentsUpTo_empty] at hd
        exact Or.inl (by simpa using hd)
      · have hp := hparent habove hempty h
        rcases List.mem_cons.mp hd with rfl | hd
        · exact Or.inr hp
        · exact ih hp hd

theorem parentsUpTo_prefix (path : Path) :
    ∀ {n m : Nat}, n ≤ m → parentsUpTo n path <+: parentsUpTo m path := by
  intro n
  induction n generalizing path with
  | zero => simp
  | succ n ih =>
    intro m hm
    obtain ⟨m, rfl⟩ : ∃ k, m = k + 1 := ⟨m - 1, by omega⟩
    rw [parentsUpTo, parentsUpTo]
    cases parent? path with
    | none => exact List.prefix_refl _
    | some parent => exact List.cons_prefix_cons.mpr ⟨rfl, ih parent (by omega)⟩

/-- The parents of the parent are among the parents of the path. -/
theorem cons_parents_prefix {path parent : Path} (h : parent? path = some parent) :
    parent :: parents parent <+: parents path := by
  obtain ⟨n, hn⟩ : ∃ n, (pieces path).length = n + 1 := by
    cases hpieces : pieces path with
    | nil => simp [pieces, splitOn, splitWhere_ne_nil] at hpieces
    | cons piece rest => exact ⟨rest.length, rfl⟩
  have hpath : parents path = parent :: parentsUpTo n parent := by
    rw [parents, hn, parentsUpTo, h]
  rw [hpath]
  refine List.cons_prefix_cons.mpr ⟨rfl, ?_⟩
  by_cases hempty : parent = ""
  · rw [hempty, parents, parentsUpTo_empty]
    exact List.nil_prefix
  rcases exists_append_of_parent? h hempty with ⟨rest, rfl⟩ | ⟨rfl, -⟩
  · refine parentsUpTo_prefix parent ?_
    have hrest : 0 < (pieces rest).length :=
      List.length_pos_iff.mpr (by simp [pieces, splitOn, splitWhere_ne_nil])
    rw [pieces_append, List.length_append] at hn
    omega
  · rw [parents, parentsUpTo_root]
    exact List.nil_prefix

end Path

end PluginWorkshop
