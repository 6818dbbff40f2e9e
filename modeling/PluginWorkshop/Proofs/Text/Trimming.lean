import PluginWorkshop.Text.Blank
import Mathlib.Data.List.TakeWhile

/-!
# Trimmed text

Trimming takes away the blanks at both ends of a text (`trim_eq_iff`), and no other character
(`mem_trim_of_mem`).
-/

namespace PluginWorkshop.Text

variable {s core : List Char}

/-! ## Dropping blanks -/

theorem dropBlanks_append {blanks : List Char} (h : ∀ c ∈ blanks, isBlank c = true)
    (s : List Char) : dropBlanks (blanks ++ s) = dropBlanks s :=
  List.dropWhile_append_of_pos h

theorem dropBlanks_eq_self_iff : dropBlanks s = s ↔ ∀ c ∈ s.head?, isBlank c = false := by
  cases s with
  | nil => simp [dropBlanks]
  | cons c s =>
    cases hc : isBlank c with
    | false => simp [dropBlanks, hc]
    | true =>
      rw [dropBlanks, List.dropWhile_cons_of_pos hc]
      refine iff_of_false (fun heq => ?_) (by simp [hc])
      have hlength := (List.dropWhile_sublist isBlank (l := s)).length_le
      rw [heq, List.length_cons] at hlength
      omega

theorem dropBlanks_sublist (s : List Char) : (dropBlanks s).Sublist s := List.dropWhile_sublist _

theorem dropBlanksRight_sublist (s : List Char) : (dropBlanksRight s).Sublist s := by
  rw [dropBlanksRight, ← List.reverse_sublist, List.reverse_reverse]
  exact List.dropWhile_sublist _

theorem trim_sublist (s : List Char) : (trim s).Sublist s :=
  (dropBlanksRight_sublist _).trans (dropBlanks_sublist s)

theorem mem_dropBlanks_of_mem {s : List Char} {d : Char} (hd : d ∈ s) (hblank : isBlank d = false) :
    d ∈ dropBlanks s := by
  rw [← List.takeWhile_append_dropWhile (p := isBlank) (l := s), List.mem_append] at hd
  refine hd.resolve_left fun hmem => ?_
  have := List.mem_takeWhile_imp hmem
  simp [hblank] at this

/-- Trimming drops blanks only. -/
theorem mem_trim_of_mem {s : List Char} {d : Char} (hd : d ∈ s) (hblank : isBlank d = false) :
    d ∈ trim s := by
  have hreverse := mem_dropBlanks_of_mem (List.mem_reverse.mpr (mem_dropBlanks_of_mem hd hblank)) hblank
  exact List.mem_reverse.mpr hreverse

/-! ## The core of a text -/

/-- The text is its core with blanks around it, and the core neither starts nor ends with one. -/
def Strips (s core : List Char) : Prop :=
  ∃ before after, s = before ++ core ++ after ∧ (∀ c ∈ before ++ after, isBlank c = true) ∧
    (∀ c ∈ core.head?, isBlank c = false) ∧ ∀ c ∈ core.getLast?, isBlank c = false

theorem Strips.cons_blank {c : Char} (h : Strips s core) (hc : isBlank c = true) :
    Strips (c :: s) core := by
  obtain ⟨before, after, rfl, hblank, hends⟩ := h
  exact ⟨c :: before, after, rfl, by simpa [hc] using hblank, hends⟩

/-- What is stripped already is its own core. -/
theorem Strips.self (h : Strips s core) : Strips core core := by
  obtain ⟨before, after, -, -, hends⟩ := h
  exact ⟨[], [], by simp, by simp, hends⟩

theorem isBlank_head?_dropBlanks (s : List Char) :
    ∀ c ∈ (dropBlanks s).head?, isBlank c = false := by
  intro c hc
  have hhead := List.head?_dropWhile_not isBlank s
  rw [Option.mem_def, dropBlanks] at hc
  simpa [hc] using hhead

theorem strips_trim (s : List Char) : Strips s (trim s) := by
  have hright : dropBlanks s = trim s ++ ((dropBlanks s).reverse.takeWhile isBlank).reverse := by
    rw [trim, dropBlanksRight, ← List.reverse_append, List.takeWhile_append_dropWhile,
      List.reverse_reverse]
  have hlast := isBlank_head?_dropBlanks (dropBlanks s).reverse
  refine ⟨s.takeWhile isBlank, ((dropBlanks s).reverse.takeWhile isBlank).reverse, ?_, ?_, ?_, ?_⟩
  · rw [List.append_assoc, ← hright, dropBlanks, List.takeWhile_append_dropWhile]
  · intro c hc
    rw [List.mem_append, List.mem_reverse] at hc
    exact hc.elim List.mem_takeWhile_imp List.mem_takeWhile_imp
  · intro c hc
    refine isBlank_head?_dropBlanks s c ?_
    rw [hright, List.head?_append]
    exact Option.or_eq_some_iff.mpr (Or.inl hc)
  · rwa [trim, dropBlanksRight, List.getLast?_reverse]

theorem Strips.trim_eq (h : Strips s core) : trim s = core := by
  obtain ⟨before, after, rfl, hblank, hhead, hlast⟩ := h
  rw [List.forall_mem_append] at hblank
  rw [trim, List.append_assoc, dropBlanks_append hblank.1]
  cases hcore : core with
  | nil =>
    rw [List.nil_append, dropBlanks, List.dropWhile_eq_nil_iff.mpr hblank.2]
    rfl
  | cons c rest =>
    rw [← hcore]
    have hleft : dropBlanks (core ++ after) = core ++ after := by
      rw [dropBlanks_eq_self_iff]
      simpa [hcore] using hhead
    have hright : dropBlanks core.reverse = core.reverse := by
      rw [dropBlanks_eq_self_iff, List.head?_reverse]
      exact hlast
    have hafter : ∀ c ∈ after.reverse, isBlank c = true := by simpa using hblank.2
    rw [hleft, dropBlanksRight, List.reverse_append]
    exact (congrArg List.reverse ((dropBlanks_append hafter _).trans hright)).trans
      (List.reverse_reverse core)

/-- Trimming leaves the core of a text. -/
theorem trim_eq_iff : trim s = core ↔ Strips s core :=
  ⟨fun h => h ▸ strips_trim s, Strips.trim_eq⟩

end PluginWorkshop.Text
