import PluginWorkshop.Proofs.Json.Printing
import Mathlib.Data.List.Perm.Subperm

namespace PluginWorkshop.Json

attribute [local simp] same sameItems sameMembers

theorem sameItems_iff : ∀ {xs ys : List Json},
    sameItems xs ys = true ↔ List.Forall₂ (fun x y => same x y = true) xs ys
  | [], [] => by simp
  | [], _ :: _ => by simp
  | _ :: _, [] => by simp
  | x :: xs, y :: ys => by simp [sameItems_iff]

theorem sameMembers_iff : ∀ {xs : List (String × Json)} {ys : Members},
    sameMembers xs ys = true ↔
      ∀ m ∈ xs, ∃ w, Members.get? m.1 ys = some w ∧ same m.2 w = true
  | [], ys => by simp
  | (k, v) :: xs, ys => by
    cases hk : Members.get? k ys <;> simp [sameMembers_iff, hk]

theorem same_array_iff {xs ys : List Json} : same (.array xs) (.array ys) = true ↔
    List.Forall₂ (fun x y => same x y = true) xs ys := by
  rw [same, sameItems_iff]

theorem same_object_iff {xs ys : Members} : same (.object xs) (.object ys) = true ↔
    xs.length = ys.length ∧
      ∀ m ∈ xs, ∃ w, Members.get? m.1 ys = some w ∧ same m.2 w = true := by
  rw [same, Bool.and_eq_true, beq_iff_eq, sameMembers_iff]

theorem same_refl : ∀ {depth : Nat} {v : Json}, Readable depth v → same v v = true := by
  intro depth
  induction depth with
  | zero => 
    intro v hv
    cases v <;> simp_all [Readable]
  | succ depth ih =>
    intro v hv
    cases v with
    | array items => exact same_array_iff.mpr (List.forall₂_same.mpr fun x hx => ih (hv x hx))
    | object members =>
      exact same_object_iff.mpr ⟨rfl, fun m hm => 
        ⟨m.2, Members.get?_of_mem hv.1 hm, ih (hv.2 m hm)⟩⟩
    | _ => simp

theorem forall₂_symm_of_mem {r : Json → Json → Prop} {xs ys : List Json}
    (h : List.Forall₂ r xs ys) (hr : ∀ x ∈ xs, ∀ y ∈ ys, r x y → r y x) : List.Forall₂ r ys xs := by
  induction h with
  | nil => exact .nil
  | cons hxy _ ih =>
    exact .cons (hr _ (by simp) _ (by simp) hxy)
      (ih fun x hx y hy => hr x (by simp [hx]) y (by simp [hy]))

theorem forall₂_trans_of_mem {r : Json → Json → Prop} {xs ys zs : List Json}
    (h : List.Forall₂ r xs ys) (h' : List.Forall₂ r ys zs)
    (hr : ∀ x ∈ xs, ∀ y z, r x y → r y z → r x z) : List.Forall₂ r xs zs := by
  induction h generalizing zs with
  | nil => exact h'
  | cons hxy _ ih =>
    cases h' with
    | cons hyz h' => exact .cons (hr _ (by simp) _ _ hxy hyz) (ih h' fun x hx => hr x (by simp [hx]))

/-- With different keys on both sides, every key of the second object is one of the first. -/
theorem keys_subset_of_same {xs ys : Members} (hxs : (Members.keys xs).Nodup)
    (h : same (.object xs) (.object ys) = true) : Members.keys ys ⊆ Members.keys xs := by
  obtain ⟨hlen, h⟩ := same_object_iff.mp h
  have hsub : Members.keys xs ⊆ Members.keys ys := by
    intro k hk
    obtain ⟨m, hm, rfl⟩ := List.mem_map.mp hk
    obtain ⟨w, hw, -⟩ := h m hm
    exact Members.mem_keys_of_mem (Members.mem_of_get? hw)
  have hperm := (List.subperm_of_subset hxs hsub).perm_of_length_le
    (by simp [Members.keys, hlen])
  exact hperm.symm.subset

/-- With different keys on both sides, two objects are the same if they have the same values under
every key. -/
theorem same_object_iff_get? {xs ys : Members} (hxs : (Members.keys xs).Nodup)
    (hys : (Members.keys ys).Nodup) : same (.object xs) (.object ys) = true ↔
      ∀ key, Option.Rel (fun v w => same v w = true) (Members.get? key xs)
        (Members.get? key ys) := by
  constructor
  · intro h key
    have hsub := keys_subset_of_same hxs h
    cases hx : Members.get? key xs with
    | none =>
      have hy : Members.get? key ys = none :=
        Members.get?_eq_none_iff.mpr fun hkey => Members.get?_eq_none_iff.mp hx (hsub hkey)
      rw [hy]
      exact .none
    | some v =>
      obtain ⟨w, hw, hsame⟩ := (same_object_iff.mp h).2 _ (Members.mem_of_get? hx)
      rw [hw]
      exact .some hsame
  · intro h
    have hkeys : ∀ key, key ∈ Members.keys xs ↔ key ∈ Members.keys ys := by
      intro key
      rw [← not_iff_not, ← Members.get?_eq_none_iff, ← Members.get?_eq_none_iff]
      have hrel := h key
      generalize Members.get? key xs = x, Members.get? key ys = y at hrel
      cases hrel <;> simp
    refine same_object_iff.mpr ⟨?_, fun m hm => ?_⟩
    · simpa [Members.keys] using ((List.perm_ext_iff_of_nodup hxs hys).mpr hkeys).length_eq
    · have hrel := h m.1
      rw [Members.get?_of_mem hxs hm] at hrel
      generalize hw : Members.get? m.1 ys = found at hrel
      cases hrel with
      | some hsame => exact ⟨_, rfl, hsame⟩

theorem same_symm : ∀ {depth : Nat} {v w : Json}, Readable depth v → Readable depth w →
    same v w = true → same w v = true := by
  intro depth
  induction depth with
  | zero =>
    intro v w hv hw h
    cases v <;> cases w <;> simp_all [Readable]
  | succ depth ih =>
    intro v w hv hw h
    cases v <;> cases w <;> try (simp at h; done)
    case array.array xs ys =>
      exact same_array_iff.mpr (forall₂_symm_of_mem (same_array_iff.mp h)
        fun x hx y hy => ih (hv x hx) (hw y hy))
    case object.object xs ys =>
      have hsub := keys_subset_of_same hv.1 h
      obtain ⟨hlen, h⟩ := same_object_iff.mp h
      refine same_object_iff.mpr ⟨hlen.symm, fun m hm => ?_⟩
      obtain ⟨m', hm', hkey⟩ := List.mem_map.mp (hsub (Members.mem_keys_of_mem hm))
      obtain ⟨w, hw', hsame⟩ := h m' hm'
      rw [hkey, Members.get?_of_mem hw.1 hm, Option.some.injEq] at hw'
      refine ⟨m'.2, ?_, ih (hv.2 m' hm') (hw.2 m hm) (hw' ▸ hsame)⟩
      rw [← hkey]
      exact Members.get?_of_mem hv.1 hm'
    all_goals simp_all

theorem same_trans : ∀ {depth : Nat} {u v w : Json}, Readable depth u →
    same u v = true → same v w = true → same u w = true := by
  intro depth
  induction depth with
  | zero =>
    intro u v w hu h h'
    cases u <;> cases v <;> cases w <;> simp_all [Readable]
  | succ depth ih =>
    intro u v w hu h h'
    cases u <;> cases v <;> cases w <;> try (simp at h h'; done)
    case array.array.array xs ys zs =>
      exact same_array_iff.mpr (forall₂_trans_of_mem (same_array_iff.mp h) (same_array_iff.mp h')
        fun x hx y z => ih (hu x hx))
    case object.object.object xs ys zs =>
      obtain ⟨hlen, h⟩ := same_object_iff.mp h
      obtain ⟨hlen', h'⟩ := same_object_iff.mp h'
      refine same_object_iff.mpr ⟨hlen.trans hlen', fun m hm => ?_⟩
      obtain ⟨y, hy, hmy⟩ := h m hm
      obtain ⟨z, hz, hyz⟩ := h' _ (Members.mem_of_get? hy)
      exact ⟨z, hz, ih (hu.2 m hm) hmy hyz⟩
    all_goals simp_all

end PluginWorkshop.Json
