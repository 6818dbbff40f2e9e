import PluginWorkshop.Json.Value
import Mathlib.Data.List.Nodup

namespace PluginWorkshop

namespace Members

attribute [local simp] get? put

/-- The keys, in order. -/
def keys (members : Members) : List String := members.map Prod.fst

@[simp] theorem keys_nil : keys [] = [] := rfl

@[simp] theorem keys_cons (m : String × Json) (members : Members) :
    keys (m :: members) = m.1 :: keys members := rfl

@[simp] theorem keys_append (a b : Members) : keys (a ++ b) = keys a ++ keys b :=
  List.map_append

theorem mem_keys_of_mem {key : String} {v : Json} {members : Members} (h : (key, v) ∈ members) :
    key ∈ members.keys :=
  List.mem_map.mpr ⟨_, h, rfl⟩

theorem mem_of_get? {key : String} {v : Json} :
    ∀ {members : Members}, get? key members = some v → (key, v) ∈ members
  | [], h => by simp at h
  | (k, w) :: members, h => by
    rw [get?] at h
    split at h
    · next hk => simp_all
    · exact List.mem_cons_of_mem _ (mem_of_get? h)

theorem get?_of_mem {key : String} {v : Json} :
    ∀ {members : Members}, members.keys.Nodup → (key, v) ∈ members → get? key members = some v
  | (k, w) :: members, hnodup, h => by
    rw [keys_cons, List.nodup_cons] at hnodup
    rcases List.mem_cons.mp h with h | h
    · simp_all
    · have hne : k ≠ key := fun hk => hnodup.1 (hk ▸ mem_keys_of_mem h)
      rw [get?, if_neg hne]
      exact get?_of_mem hnodup.2 h

theorem get?_eq_none_iff {key : String} :
    ∀ {members : Members}, get? key members = none ↔ key ∉ members.keys
  | [] => by simp
  | (k, w) :: members => by
    rw [get?]
    split
    · next hk => simp [hk]
    · next hk =>
      have hne : key ≠ k := fun h => hk h.symm
      simp [@get?_eq_none_iff key members, hne]

theorem put_of_notMem {key : String} (v : Json) :
    ∀ {members : Members}, key ∉ members.keys → put key v members = members ++ [(key, v)]
  | [], _ => rfl
  | (k, w) :: members, h => by
    have hne : k ≠ key := fun hk => h (by simp [hk])
    rw [put, if_neg hne, put_of_notMem v fun hm => h (by simp [hm])]
    rfl

theorem keys_put_of_mem {key : String} (v : Json) :
    ∀ {members : Members}, key ∈ members.keys → (put key v members).keys = members.keys
  | (k, w) :: members, h => by
    rw [put]
    split
    · next hk => simp [hk]
    · next hk =>
      have : key ∈ keys members := by
        rcases List.mem_cons.mp h with h | h
        · exact absurd h.symm hk
        · exact h
      simp [keys_put_of_mem v this]

theorem put_of_get? {key : String} {v : Json} :
    ∀ {members : Members}, get? key members = some v → put key v members = members
  | [], h => by simp at h
  | (k, w) :: members, h => by
    rw [get?] at h
    rw [put]
    split_ifs at h ⊢ with hk
    · rw [Option.some.inj h]
    · rw [put_of_get? h]

theorem mem_put {m : String × Json} {key : String} {v : Json} :
    ∀ {members : Members}, m ∈ put key v members → m = (key, v) ∨ m ∈ members
  | [], h => Or.inl (by simpa using h)
  | (k, w) :: members, h => by
    rw [put] at h
    split at h
    · next hk =>
      rcases List.mem_cons.mp h with h | h
      · exact Or.inl (by rw [h, hk])
      · exact Or.inr (List.mem_cons_of_mem _ h)
    · rcases List.mem_cons.mp h with h | h
      · exact Or.inr (by simp [h])
      · exact (mem_put h).imp_right (List.mem_cons_of_mem _)

theorem nodup_put {key : String} (v : Json) {members : Members} (h : members.keys.Nodup) :
    (put key v members).keys.Nodup := by
  by_cases hk : key ∈ members.keys
  · rwa [keys_put_of_mem v hk]
  · rw [put_of_notMem v hk, keys_append]
    exact List.nodup_append.mpr ⟨h, by simp, by rintro a ha b hb rfl; simp_all⟩

theorem get?_put (key key' : String) (v : Json) :
    ∀ members : Members,
      get? key' (put key v members) = if key = key' then some v else get? key' members
  | [] => by simp
  | (k, w) :: members => by
    have ih := get?_put key key' v members
    rw [put]
    split <;> simp only [get?] <;> split_ifs <;> simp_all

theorem get?_remove (key key' : String) :
    ∀ members : Members,
      get? key' (remove key members) = if key = key' then none else get? key' members
  | [] => by simp [remove]
  | (k, w) :: members => by
    have ih := get?_remove key key' members
    rw [remove] at ih ⊢
    by_cases hk : k = key
    · subst hk
      rw [List.filter_cons_of_neg (by simp), ih]
      split_ifs with hkey
      · rfl
      · rw [get?, if_neg hkey]
    · rw [List.filter_cons_of_pos (by simpa using hk)]
      simp only [get?, ih]
      split_ifs <;> simp_all

theorem remove_of_notMem {key : String} {members : Members} (h : key ∉ members.keys) :
    remove key members = members := by
  refine List.filter_eq_self.mpr fun m hm => ?_
  have : m.1 ≠ key := by rintro rfl; exact h (mem_keys_of_mem hm)
  simpa using this

theorem remove_put (key : String) (v : Json) :
    ∀ members : Members, remove key (put key v members) = remove key members
  | [] => by simp [remove]
  | (k, w) :: members => by
    have ih := remove_put key v members
    rw [remove, remove] at ih
    by_cases hk : k = key
    · simp [remove, hk]
    · simp [remove, hk, ih]

theorem put_put (key : String) (v w : Json) :
    ∀ members : Members, put key v (put key w members) = put key v members
  | [] => by simp
  | (k, u) :: members => by
    by_cases hk : k = key
    · simp [hk]
    · simp [hk, put_put key v w members]

/-- Members are told by their keys and by what stands under each. -/
theorem ext_get? : ∀ {a b : Members}, a.keys = b.keys → a.keys.Nodup →
    (∀ key, get? key a = get? key b) → a = b
  | [], b, hkeys, _, _ => (List.map_eq_nil_iff.mp hkeys.symm).symm
  | (k, v) :: a, [], hkeys, _, _ => by simp at hkeys
  | (k, v) :: a, (l, w) :: b, hkeys, hnodup, h => by
    obtain ⟨rfl, hrest⟩ : k = l ∧ keys a = keys b := by simpa using hkeys
    obtain ⟨hk, hnodup⟩ := List.nodup_cons.mp hnodup
    have hv : v = w := by simpa using h k
    have htail : a = b := by
      refine ext_get? hrest hnodup fun key => ?_
      by_cases hkey : k = key
      · subst hkey
        rw [get?_eq_none_iff.mpr hk, get?_eq_none_iff.mpr (hrest ▸ hk)]
      · simpa [hkey] using h key
    rw [hv, htail]

theorem nodup_remove (key : String) {members : Members} (h : members.keys.Nodup) :
    (remove key members).keys.Nodup :=
  List.Nodup.sublist (List.Sublist.map Prod.fst List.filter_sublist) h

theorem foldl_put_of_nodup :
    ∀ (members acc : Members), (acc ++ members).keys.Nodup →
      members.foldl (fun object (k, v) => put k v object) acc = acc ++ members
  | [], acc, _ => by simp
  | (k, v) :: members, acc, h => by
    have hk : k ∉ acc.keys := by
      simp only [keys_append, keys_cons, List.nodup_append] at h
      exact fun hm => h.2.2 k hm k (by simp) rfl
    rw [List.foldl_cons]
    dsimp only
    rw [put_of_notMem v hk, foldl_put_of_nodup members _ (by simpa using h)]
    simp

/-- Members with different keys come out as they went in. -/
theorem ofList_of_nodup {members : Members} (h : members.keys.Nodup) :
    ofList members = members :=
  foldl_put_of_nodup members [] (by simpa using h)

theorem foldl_put_spec (p : String × Json → Prop) :
    ∀ (members acc : Members), acc.keys.Nodup → (∀ m ∈ acc, p m) → (∀ m ∈ members, p m) →
      let object := members.foldl (fun object (k, v) => put k v object) acc
      object.keys.Nodup ∧ ∀ m ∈ object, p m
  | [], acc, hnodup, hacc, _ => ⟨hnodup, hacc⟩
  | (k, v) :: members, acc, hnodup, hacc, h => by
    refine foldl_put_spec p members (put k v acc) (nodup_put v hnodup) (fun m hm => ?_)
      fun m hm => h m (List.mem_cons_of_mem _ hm)
    rcases mem_put hm with rfl | hm
    · exact h _ (by simp)
    · exact hacc m hm

theorem nodup_ofList (members : List (String × Json)) : (ofList members).keys.Nodup :=
  (foldl_put_spec (fun _ => True) members [] (by simp) (by simp) (by simp)).1

theorem get?_foldl_put (key : String) :
    ∀ members acc : Members, get? key (members.foldl (fun object (k, v) => put k v object) acc) =
      (members.reverse.lookup key).or (get? key acc)
  | [], acc => by simp
  | (k, v) :: members, acc => by
    rw [List.foldl_cons, get?_foldl_put key members, get?_put, List.reverse_cons,
      List.lookup_append]
    by_cases hk : k = key
    · subst hk
      cases members.reverse.lookup k <;> simp
    · have hne : (key == k) = false := by simpa using fun h => hk h.symm
      cases members.reverse.lookup key <;> simp [List.lookup_cons, hk, hne]

/-- Of repeated keys the last one counts. -/
theorem get?_ofList (key : String) (members : List (String × Json)) :
    get? key (ofList members) = members.reverse.lookup key := by
  rw [ofList, get?_foldl_put]
  cases members.reverse.lookup key <;> rfl

theorem lookup_map (f : α → β) (key : String) (members : List (String × α)) :
    (members.map fun m => (m.1, f m.2)).lookup key = (members.lookup key).map f := by
  induction members with
  | nil => rfl
  | cons m members ih =>
    rw [List.map_cons, List.lookup_cons, List.lookup_cons]
    cases key == m.1
    · exact ih
    · rfl

/-- With different keys, every member is found, in whatever order they are searched. -/
theorem lookup_reverse_of_mem {members : List (String × α)} (hnodup : (members.map Prod.fst).Nodup)
    {m : String × α} (h : m ∈ members) : members.reverse.lookup m.1 = some m.2 := by
  obtain ⟨front, back, rfl⟩ := List.append_of_mem h
  refine List.lookup_eq_some_iff.mpr ⟨back.reverse, front.reverse, by simp, fun p hp => ?_⟩
  rw [List.map_append, List.map_cons, List.nodup_append, List.nodup_cons] at hnodup
  have hne : m.1 ≠ p.1 := fun heq =>
    hnodup.2.1.1 (heq ▸ List.mem_map_of_mem (List.mem_reverse.mp hp))
  simpa using hne

theorem mem_of_mem_ofList {m : String × Json} {members : List (String × Json)}
    (h : m ∈ ofList members) : m ∈ members :=
  (foldl_put_spec (· ∈ members) members [] (by simp) (by simp) fun _ hm => hm).2 m h

end Members

end PluginWorkshop
