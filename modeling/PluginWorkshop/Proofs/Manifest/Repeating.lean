import PluginWorkshop.Proofs.Manifest.Rewriting

/-!
# Rounds one after the other

Nothing in a manifest stops a package from being added and removed (`exists_round`), and a round
leaves a manifest from which the next one can start (`Round.exists_round_after`). What makes a
manifest that of a project holds in the middle of the round and after it: other packages are still
required (`Round.hasDependency_saved`, `Round.hasDependency_after`), and the namespace is mapped as
before (`Round.namespaceMapping_saved`, `Round.namespaceMapping_after`).
-/

namespace PluginWorkshop

open Text

namespace Members

theorem mem_keys_put {key key' : String} (v : Json) {members : Members} (h : key ∈ members.keys) :
    key ∈ (put key' v members).keys := by
  by_cases hk : key' ∈ members.keys
  · rwa [keys_put_of_mem v hk]
  · rw [put_of_notMem v hk, keys_append]
    exact List.mem_append_left _ h

/-- A search that passes over a key does not see what is put there. -/
theorem find?_put (p : String → Bool) {key : String} (hp : p key = false) (v : Json) :
    ∀ members : Members, (put key v members).find? (fun m => p m.1) = members.find? fun m => p m.1
  | [] => by simp [put, hp]
  | (k, w) :: members => by
    rw [put]
    split
    · next hk => simp [hk, hp]
    · rw [List.find?_cons, List.find?_cons, find?_put p hp v members]

theorem find?_remove (p : String → Bool) {key : String} (hp : p key = false) (members : Members) :
    (remove key members).find? (fun m => p m.1) = members.find? fun m => p m.1 := by
  rw [remove, List.find?_filter]
  refine congrArg (List.find? · members) (funext fun m => ?_)
  by_cases hk : m.1 = key
  · simp [hk, hp]
  · simp [hk]

end Members

namespace Manifest

open Json (Readable Same)

variable {file package constraint : String}

/-! ## What makes the manifest of a project -/

theorem hasDependency_iff {manifest : Manifest} {required : Members}
    (hrequired : Members.get? "require" manifest.document = some (.object required)) :
    manifest.hasDependency package = true ↔
      ∃ key ∈ required.keys, equalIgnoringCase key package = true := by
  simp only [hasDependency, dependency?, hrequired, Json.members?, Option.bind_eq_bind,
    Option.bind_some, List.find?_isSome]
  constructor
  · rintro ⟨m, hm, hequal⟩
    exact ⟨m.1, Members.mem_keys_of_mem hm, hequal⟩
  · rintro ⟨key, hkey, hequal⟩
    obtain ⟨m, hm, rfl⟩ := List.mem_map.mp hkey
    exact ⟨m, hm, hequal⟩

/-- The namespace map is found by its key alone. -/
theorem namespaceMapping_congr {manifest manifest' : Manifest} {root : Path}
    {mapping : NamespaceMapping} {autoload autoload' : Members}
    (hautoload : Members.get? "autoload" manifest.document = some (.object autoload))
    (hautoload' : Members.get? "autoload" manifest'.document = some (.object autoload'))
    (hfind : autoload'.find? (fun m => equalIgnoringCase m.1 "psr-4") =
      autoload.find? fun m => equalIgnoringCase m.1 "psr-4")
    (h : manifest.namespaceMapping root = .ok mapping) :
    manifest'.namespaceMapping root = .ok mapping := by
  have hmap : manifest'.namespaceMap? = manifest.namespaceMap? := by
    simp [namespaceMap?, hautoload, hautoload', Json.members?, hfind]
  unfold namespaceMapping at h ⊢
  rw [hmap]
  split at h
  · cases h
  · split at h
    · exact h
    · cases h

theorem find?_withoutFile (file : String) (autoload : Members) :
    (withoutFile file autoload).find? (fun m => equalIgnoringCase m.1 "psr-4") =
      autoload.find? fun m => equalIgnoringCase m.1 "psr-4" := by
  have hkey : equalIgnoringCase "files" "psr-4" = false := by decide
  unfold withoutFile
  split
  · split
    · exact Members.find?_remove (equalIgnoringCase · "psr-4") hkey autoload
    · exact Members.find?_put (equalIgnoringCase · "psr-4") hkey _ autoload
  · rfl

/-! ## Rounds that run through -/

theorem exists_addAutoloadFile {manifest : Manifest} {autoload : Members}
    {files? : Option (List Json)} (file : String)
    (hautoload : Members.get? "autoload" manifest.document = some (.object autoload))
    (hfiles : Members.get? "files" autoload = files?.map .array) :
    ∃ wasAdded added, manifest.addAutoloadFile file = .ok (wasAdded, added) := by
  simp only [addAutoloadFile, objectUnder_of_get? hautoload, hfiles, bind, Except.bind, pure,
    Except.pure]
  cases files? with
  | none => exact ⟨_, _, rfl⟩
  | some files =>
    simp only [Option.map_some]
    split <;> exact ⟨_, _, rfl⟩

theorem exists_removeDependency {manifest : Manifest} (h : manifest.hasDependency package = true) :
    ∃ old dropped, manifest.removeDependency? package = some (old, dropped) := by
  obtain ⟨required, hrequired⟩ := exists_required_of_hasDependency h
  obtain ⟨entry, hentry⟩ := Option.isSome_iff_exists.mp h
  refine ⟨entry.2, manifest.withObject "require" (Members.remove entry.1 required), ?_⟩
  simp [removeDependency?, hentry, hrequired, Json.members?]

/-- Nothing in a manifest stops a round: a package that is not required can be added and removed
wherever the two sections are objects and the files are in a list. -/
theorem exists_round {path : Path} {text : String} {before : Manifest} {required autoload : Members}
    {files? : Option (List Json)} (hread : parse path text = .ok before)
    (hrequired : Members.get? "require" before.document = some (.object required))
    (hautoload : Members.get? "autoload" before.document = some (.object autoload))
    (hfiles : Members.get? "files" autoload = files?.map .array)
    (hfresh : before.hasDependency package = false) (constraint file : String) :
    ∃ after, Nonempty (Round package constraint file path before after) := by
  have hinsert := @insertDependency_eq_ok before package constraint required hrequired
  have hautoload' : Members.get? "autoload" (before.withObject "require"
      (Members.put package (.string constraint) required)).document = some (.object autoload) := by
    rw [get?_withObject, if_neg (by decide), hautoload]
  obtain ⟨wasAdded, added, hadd⟩ := exists_addAutoloadFile file hautoload' hfiles
  have hsound := ((sound_of_parse hread).insertDependency hinsert).addAutoloadFile hadd
  obtain ⟨saved, hsaved, hsame, -⟩ := hsound.parse_render path
  have hreadable := (sound_of_parse hsaved).readable
  -- The package is found among the requirements that were saved.
  have hadded : Members.get? "require" added.document =
      some (.object (Members.put package (.string constraint) required)) := by
    obtain ⟨_, -, rfl⟩ := of_addAutoloadFile hautoload' hadd
    rw [get?_withObject, if_neg (by decide), get?_withObject, if_pos rfl]
  obtain ⟨required', hrequired', hsame'⟩ := exists_object_of_rel
    ((Json.same_object_iff_get? hreadable.1 hsound.readable.1).mp hsame "require") hadded
  have hmem : package ∈ Members.keys required' := by
    have hsome := isSome_get?_of_same ((sound_of_parse hsaved).readable_get? hrequired').1
      (hsound.readable_get? hadded).1 hsame' package
    rw [Members.get?_put, if_pos rfl, Option.isSome_some, Option.isSome_iff_exists] at hsome
    obtain ⟨v, hv⟩ := hsome
    exact Members.mem_keys_of_mem (Members.mem_of_get? hv)
  have hself : equalIgnoringCase package package = true := by simp [equalIgnoringCase]
  obtain ⟨old, dropped, hdrop⟩ :=
    exists_removeDependency ((hasDependency_iff hrequired').mpr ⟨package, hmem, hself⟩)
  have hdropped := ((sound_of_parse hsaved).removeDependency hdrop).removeAutoloadFile file
  obtain ⟨after, hafter, -⟩ := hdropped.parse_render path
  exact ⟨after, ⟨⟨text, hread, required, hrequired, autoload, hautoload, hfresh, _, hinsert, wasAdded,
    added, hadd, saved, hsaved, old, dropped, hdrop, hafter⟩⟩⟩

namespace Round

variable {path : Path} {before after : Manifest}
  (round : Round package constraint file path before after)
include round

theorem get?_saved_require : Members.get? "require" round.saved.document =
    some (.object (Members.put package (.string constraint) round.required)) := by
  obtain ⟨files?, -, hget⟩ := round.get?_added
  rw [round.saved_document.1, hget, if_neg (by decide), if_pos rfl]

theorem get?_after_require : Members.get? "require" after.document =
    some (.object round.required) := by
  rw [round.document_after, round.get?_final, if_neg (by decide), round.get?_require]

theorem get?_after_autoload : Members.get? "autoload" after.document =
    some (.object (withoutFile file round.autoload)) := by
  rw [round.document_after, round.get?_final, if_pos rfl]

/-- Packages that were required are required in the middle of the round. -/
theorem hasDependency_saved {other : String} (h : before.hasDependency other = true) :
    round.saved.hasDependency other = true := by
  obtain ⟨key, hkey, hequal⟩ := (hasDependency_iff round.get?_require).mp h
  exact (hasDependency_iff round.get?_saved_require).mpr
    ⟨key, Members.mem_keys_put _ hkey, hequal⟩

/-- The packages that are required after the round are those from before it. -/
theorem hasDependency_after (other : String) :
    after.hasDependency other = before.hasDependency other := by
  rw [Bool.eq_iff_iff, hasDependency_iff round.get?_after_require,
    hasDependency_iff round.get?_require]

/-- The namespace is mapped in the middle of the round as it was before. -/
theorem namespaceMapping_saved {root : Path} {mapping : NamespaceMapping}
    (h : before.namespaceMapping root = .ok mapping) :
    round.saved.namespaceMapping root = .ok mapping := by
  obtain ⟨files?, -, hget⟩ := round.get?_added
  exact namespaceMapping_congr round.get?_autoload
    (by rw [round.saved_document.1, hget, if_pos rfl])
    (Members.find?_put (equalIgnoringCase · "psr-4") (by decide) _ _) h

/-- The namespace is mapped after the round as in the middle of it. -/
theorem namespaceMapping_after {root : Path} {mapping : NamespaceMapping}
    (h : round.saved.namespaceMapping root = .ok mapping) :
    after.namespaceMapping root = .ok mapping := by
  obtain ⟨files?, -, hget⟩ := round.get?_added
  refine namespaceMapping_congr (by rw [round.saved_document.1, hget, if_pos rfl])
    round.get?_after_autoload ?_ h
  rw [find?_withoutFile, Members.find?_put (equalIgnoringCase · "psr-4") (by decide)]

/-- After a round the package can be added and removed again. -/
theorem exists_round_after :
    ∃ again, Nonempty (Round package constraint file path after again) := by
  obtain ⟨files?, hfiles, -⟩ := round.exists_added
  obtain ⟨files', hfiles'⟩ : ∃ files' : Option (List Json),
      Members.get? "files" (withoutFile file round.autoload) = files'.map .array := by
    cases files? with
    | none => exact ⟨none, by simp [withoutFile, hfiles]⟩
    | some files =>
      simp only [withoutFile, hfiles, Option.map_some]
      split
      · exact ⟨none, by rw [Members.get?_remove, if_pos rfl]; rfl⟩
      · exact ⟨some _, by rw [Members.get?_put, if_pos rfl]; rfl⟩
  exact exists_round round.read_after round.get?_after_require round.get?_after_autoload hfiles'
    (by rw [round.hasDependency_after, round.fresh]) constraint file

end Round

end Manifest

end PluginWorkshop
