import PluginWorkshop.Machine.Basic

/-!
# What a run of an operation says

An operation that comes to an end has taken each of its steps: from the end of a run of `x >>= f`
one gets the end of a run of `x` (`bind_eq_ok`, `bind_eq_error`).
-/

namespace PluginWorkshop

variable {ε ε' σ α β : Type}

/-- One attempt after another succeeds if both do. -/
theorem Except.bind_eq_ok {x : Except ε α} {f : α → Except ε β} {b : β} :
    x >>= f = .ok b ↔ ∃ a, x = .ok a ∧ f a = .ok b := by
  cases x with
  | error e => simp [bind, Except.bind]
  | ok a => simp [bind, Except.bind]

theorem bind_eq_ok {x : EStateM ε σ α} {f : α → EStateM ε σ β} {s s' : σ} {b : β} :
    (x >>= f) s = .ok b s' ↔ ∃ a s₁, x s = .ok a s₁ ∧ f a s₁ = .ok b s' := by
  change EStateM.bind x f s = _ ↔ _
  rw [EStateM.bind]
  cases x s with
  | ok a s₁ => exact ⟨fun h => ⟨a, s₁, rfl, h⟩, by rintro ⟨_, _, ⟨⟩, h⟩; exact h⟩
  | error e s₁ => simp

theorem bind_of_ok {x : EStateM ε σ α} {f : α → EStateM ε σ β} {s s' : σ} {a : α}
    (h : x s = .ok a s') : (x >>= f) s = f a s' := by
  change EStateM.bind x f s = _
  rw [EStateM.bind, h]

theorem bind_eq_error {x : EStateM ε σ α} {f : α → EStateM ε σ β} {s s' : σ} {e : ε} :
    (x >>= f) s = .error e s' ↔
      x s = .error e s' ∨ ∃ a s₁, x s = .ok a s₁ ∧ f a s₁ = .error e s' := by
  change EStateM.bind x f s = _ ↔ _
  rw [EStateM.bind]
  cases x s with
  | ok a s₁ =>
    refine ⟨fun h => Or.inr ⟨a, s₁, rfl, h⟩, ?_⟩
    rintro (⟨⟨⟩⟩ | ⟨_, _, ⟨⟩, h⟩)
    exact h
  | error e s₁ => simp

@[simp] theorem pure_eq_ok {a b : α} {s s' : σ} :
    (pure a : EStateM ε σ α) s = .ok b s' ↔ a = b ∧ s = s' := by
  change EStateM.Result.ok a s = _ ↔ _
  simp

@[simp] theorem throw_ne_ok {e : ε} {a : α} {s s' : σ} :
    (throw e : EStateM ε σ α) s ≠ .ok a s' := by
  intro h
  cases h

@[simp] theorem throw_bind_ne_ok {e : ε} {f : α → EStateM ε σ β} {b : β} {s s' : σ} :
    ((throw e : EStateM ε σ α) >>= f) s ≠ .ok b s' := by
  intro h
  cases h

@[simp] theorem get_eq_ok {a s s' : σ} :
    (get : EStateM ε σ σ) s = .ok a s' ↔ s = a ∧ s = s' := by
  change EStateM.Result.ok s s = _ ↔ _
  simp

theorem get_bind (f : σ → EStateM ε σ α) (s : σ) : (get >>= f) s = f s s := rfl

theorem ofExcept_eq_ok {x : Except ε α} {a : α} {s s' : σ} :
    (MonadExcept.ofExcept x : EStateM ε σ α) s = .ok a s' ↔ x = .ok a ∧ s = s' := by
  cases x with
  | ok b =>
    change EStateM.Result.ok b s = _ ↔ _
    simp
  | error e =>
    change EStateM.Result.error e s = _ ↔ _
    simp

theorem tryCatch_apply (x : EStateM ε σ α) (handle : ε → EStateM ε σ α) (s : σ) :
    (tryCatch x handle) s = match x s with
      | .ok a s' => .ok a s'
      | .error e s' => handle e s' := by
  change EStateM.tryCatch x handle s = _
  delta EStateM.tryCatch
  cases x s <;> rfl

theorem adaptExcept_eq_ok {f : ε → ε'} {x : EStateM ε σ α} {s s' : σ} {a : α} :
    EStateM.adaptExcept f x s = .ok a s' ↔ x s = .ok a s' := by
  rw [EStateM.adaptExcept]
  cases x s <;> simp

theorem adaptExcept_eq_error {f : ε → ε'} {x : EStateM ε σ α} {s s' : σ} {e' : ε'} :
    EStateM.adaptExcept f x s = .error e' s' ↔ ∃ e, x s = .error e s' ∧ f e = e' := by
  rw [EStateM.adaptExcept]
  cases x s with
  | ok a s₁ => simp
  | error e s₁ =>
    constructor
    · rintro ⟨⟩
      exact ⟨e, rfl, rfl⟩
    · rintro ⟨_, ⟨⟩, rfl⟩
      rfl

/-- The state that a run leaves behind, with or without an error. -/
def after (operation : EStateM ε σ α) (s : σ) : σ :=
  match operation s with
  | .ok _ s' | .error _ s' => s'

/-- What a run gives or fails with. -/
def outcome (operation : EStateM ε σ α) (s : σ) : Except ε α :=
  match operation s with
  | .ok a _ => .ok a
  | .error e _ => .error e

theorem outcome_of_ok {operation : EStateM ε σ α} {s s' : σ} {a : α} (h : operation s = .ok a s') :
    outcome operation s = .ok a := by
  rw [outcome, h]

theorem outcome_eq_ok {operation : EStateM ε σ α} {s : σ} {a : α} :
    outcome operation s = .ok a ↔ ∃ s', operation s = .ok a s' := by
  rw [outcome]
  cases operation s <;> simp

theorem after_of_ok {operation : EStateM ε σ α} {s s' : σ} {a : α} (h : operation s = .ok a s') :
    after operation s = s' := by
  rw [after, h]

theorem after_of_error {operation : EStateM ε σ α} {s s' : σ} {e : ε}
    (h : operation s = .error e s') : after operation s = s' := by
  rw [after, h]

theorem after_bind_of_ok {x : EStateM ε σ α} {f : α → EStateM ε σ β} {s s' : σ} {a : α}
    (h : x s = .ok a s') : after (x >>= f) s = after (f a) s' := by
  rw [after, after, bind_of_ok h]

theorem after_bind_of_error {x : EStateM ε σ α} {f : α → EStateM ε σ β} {s s' : σ} {e : ε}
    (h : x s = .error e s') : after (x >>= f) s = s' :=
  after_of_error (bind_eq_error.mpr (Or.inl h))

theorem after_bind_pure (x : EStateM ε σ α) (f : α → β) (s : σ) :
    after (x >>= fun a => pure (f a)) s = after x s := by
  cases h : x s with
  | ok a s' =>
    rw [after_bind_of_ok h, after_of_ok h]
    rfl
  | error e s' => rw [after_bind_of_error h, after_of_error h]

theorem after_tryCatch_of_ok {x : EStateM ε σ α} {handle : ε → EStateM ε σ α} {s s' : σ} {a : α}
    (h : x s = .ok a s') : after (tryCatch x handle) s = s' := by
  rw [after, tryCatch_apply, h]

theorem after_tryCatch_of_error {x : EStateM ε σ α} {handle : ε → EStateM ε σ α} {s s' : σ} {e : ε}
    (h : x s = .error e s') : after (tryCatch x handle) s = after (handle e) s' := by
  rw [after, tryCatch_apply, h]
  rfl

/-- An operation that leaves the state as it is, with or without an error. -/
def OnlyLooks (operation : EStateM ε σ α) : Prop := ∀ s, after operation s = s

theorem OnlyLooks.of_error {operation : EStateM ε σ α} (hlooks : OnlyLooks operation) {s s' : σ}
    {e : ε} (h : operation s = .error e s') : s' = s :=
  (after_of_error h).symm.trans (hlooks s)

theorem OnlyLooks.bind {x : EStateM ε σ α} {f : α → EStateM ε σ β} (hx : OnlyLooks x)
    (hf : ∀ a, OnlyLooks (f a)) : OnlyLooks (x >>= f) := by
  intro s
  have hs := hx s
  cases h : x s with
  | ok a s' => rw [after_bind_of_ok h, hf a, ← after_of_ok h, hs]
  | error e s' => rw [after_bind_of_error h, ← after_of_error h, hs]

theorem onlyLooks_pure (a : α) : OnlyLooks (pure a : EStateM ε σ α) := fun _ => rfl

theorem onlyLooks_throw (e : ε) : OnlyLooks (throw e : EStateM ε σ α) := fun _ => rfl

theorem onlyLooks_get : OnlyLooks (get : EStateM ε σ σ) := fun _ => rfl

theorem onlyLooks_ofExcept (x : Except ε α) :
    OnlyLooks (MonadExcept.ofExcept x : EStateM ε σ α) := by
  intro s
  cases x <;> rfl

namespace Os

variable {machine machine' : Machine}

theorem onlyLooks_look (f : Machine → Except OsError α) : OnlyLooks (look f) := by
  intro machine
  rw [after, look]
  cases f machine <;> rfl

theorem after_orFail (operation : Os α) (wrap : OsError → PluginError) (machine : Machine) :
    after (operation.orFail wrap) machine = after operation machine := by
  change after (EStateM.adaptExcept wrap operation) machine = _
  rw [after, after, EStateM.adaptExcept]
  cases operation machine <;> rfl

theorem OnlyLooks.orFail {operation : Os α} (h : OnlyLooks operation)
    (wrap : OsError → PluginError) : OnlyLooks (operation.orFail wrap) :=
  fun machine => (after_orFail operation wrap machine).trans (h machine)

theorem orFail_eq_ok {operation : Os α} {wrap : OsError → PluginError} {a : α} :
    operation.orFail wrap machine = .ok a machine' ↔ operation machine = .ok a machine' :=
  adaptExcept_eq_ok

theorem orFail_eq_error {operation : Os α} {wrap : OsError → PluginError} {e : PluginError} :
    operation.orFail wrap machine = .error e machine' ↔
      ∃ e', operation machine = .error e' machine' ∧ wrap e' = e :=
  adaptExcept_eq_error

theorem look_eq_ok {f : Machine → Except OsError α} {a : α} :
    look f machine = .ok a machine' ↔ f machine = .ok a ∧ machine = machine' := by
  rw [look]
  cases f machine <;> simp

theorem look_bind_of_ok {f : Machine → Except OsError α} {g : α → Os β} {a : α}
    (h : f machine = .ok a) : (look f >>= g) machine = g a machine :=
  bind_of_ok (look_eq_ok.mpr ⟨h, rfl⟩)

theorem look_bind_eq_ok {f : Machine → Except OsError α} {g : α → Os β} {b : β} :
    (look f >>= g) machine = .ok b machine' ↔ ∃ a, f machine = .ok a ∧ g a machine = .ok b machine' := by
  constructor
  · intro h
    obtain ⟨a, _, hlook, h⟩ := bind_eq_ok.mp h
    obtain ⟨ha, rfl⟩ := look_eq_ok.mp hlook
    exact ⟨a, ha, h⟩
  · rintro ⟨a, ha, h⟩
    rw [look_bind_of_ok ha, h]

/-- A writing step that succeeds starts on the same machine, but for the faults to come. -/
theorem writing_eq_ok {operation : Os α} {a : α}
    (h : writing operation machine = .ok a machine') :
    ∃ faults, operation { machine with faults } = .ok a machine' := by
  rw [writing] at h
  split at h
  · next hfaults => exact ⟨machine.faults, h⟩
  · next faults _ => exact ⟨faults, h⟩
  · simp at h

end Os

end PluginWorkshop
