/-!
# Outcomes of stateful computations

Readers of scripts and evaluations on machines are computations that change a state and end with a
result or with a failure. `After x s Q E` says what holds once `x` ran from the state `s` : `Q` of
the result and the state behind it, or `E` of the failure and the state behind it. It is computed
along the text of `x` : `after_bind` for sequences, and one equation for each basic step.
-/

namespace DocScript

variable {ε τ α β : Type}

/-- `x`, run from `s`, ends with a result of which `Q` holds or with a failure of which `E` holds. -/
def After (x : EStateM ε τ α) (s : τ) (Q : α → τ → Prop) (E : ε → τ → Prop) : Prop :=
  match x s with
  | .ok a s => Q a s
  | .error e s => E e s

/-- The state after `x`, whatever came of it. -/
def stateAfter (x : EStateM ε τ α) (s : τ) : τ :=
  match x s with
  | .ok _ s => s
  | .error _ s => s

variable {Q Q' : α → τ → Prop} {E E' : ε → τ → Prop} {s : τ}

theorem after_of_ok {x : EStateM ε τ α} {a : α} {s' : τ} (h : x s = .ok a s') :
    After x s Q E ↔ Q a s' := by
  rw [After, h]

theorem after_of_error {x : EStateM ε τ α} {e : ε} {s' : τ} (h : x s = .error e s') :
    After x s Q E ↔ E e s' := by
  rw [After, h]

instance (x : EStateM ε τ α) [∀ a s, Decidable (Q a s)] [∀ e s, Decidable (E e s)] : Decidable (After x s Q E) :=
  match h : x s with
  | .ok _ _ => decidable_of_iff _ (after_of_ok h).symm
  | .error _ _ => decidable_of_iff _ (after_of_error h).symm

@[simp] theorem after_pure (a : α) : After (pure a : EStateM ε τ α) s Q E ↔ Q a s :=
  Iff.rfl

@[simp] theorem after_throw (e : ε) : After (throw e : EStateM ε τ α) s Q E ↔ E e s :=
  Iff.rfl

@[simp] theorem after_bind (x : EStateM ε τ β) (f : β → EStateM ε τ α) :
    After (x >>= f) s Q E ↔ After x s (fun b s' => After (f b) s' Q E) E := by
  simp only [After, bind, EStateM.bind]
  cases x s <;> rfl

theorem stateAfter_of_ok {x : EStateM ε τ α} {a : α} {s' : τ} (h : x s = .ok a s') :
    stateAfter x s = s' := by
  rw [stateAfter, h]

theorem stateAfter_of_error {x : EStateM ε τ α} {e : ε} {s' : τ} (h : x s = .error e s') :
    stateAfter x s = s' := by
  rw [stateAfter, h]

theorem stateAfter_bind_of_ok {x : EStateM ε τ β} {f : β → EStateM ε τ α} {b : β} {s' : τ}
    (h : x s = .ok b s') : stateAfter (x >>= f) s = stateAfter (f b) s' := by
  simp only [stateAfter, bind, EStateM.bind, h]

theorem stateAfter_bind_of_error {x : EStateM ε τ β} {f : β → EStateM ε τ α} {e : ε} {s' : τ}
    (h : x s = .error e s') : stateAfter (x >>= f) s = s' := by
  simp only [stateAfter, bind, EStateM.bind, h]

/-- What is done with a result does not touch the state. -/
theorem stateAfter_bind_pure (x : EStateM ε τ β) (g : β → α) :
    stateAfter (x >>= fun b => pure (g b)) s = stateAfter x s := by
  simp only [stateAfter, bind, EStateM.bind]
  cases x s <;> rfl

namespace After

variable {x : EStateM ε τ α}

theorem mono (h : After x s Q E) (hQ : ∀ a s', Q a s' → Q' a s') (hE : ∀ e s', E e s' → E' e s') :
    After x s Q' E' := by
  unfold After at h ⊢
  cases hx : x s <;> rw [hx] at h
  · exact hQ _ _ h
  · exact hE _ _ h

theorem and (h : After x s Q E) (h' : After x s Q' E') :
    After x s (fun a s' => Q a s' ∧ Q' a s') (fun e s' => E e s' ∧ E' e s') := by
  unfold After at h h' ⊢
  cases hx : x s <;> rw [hx] at h h' <;> exact ⟨h, h'⟩

theorem stateAfter {P : τ → Prop} (h : After x s (fun _ s' => P s') fun _ s' => P s') :
    P (stateAfter x s) := by
  unfold After at h
  unfold DocScript.stateAfter
  cases hx : x s <;> rw [hx] at h <;> exact h

/-- What cannot fail has a result. -/
theorem exists_ok (h : After x s Q fun _ _ => False) : ∃ a s', x s = .ok a s' ∧ Q a s' := by
  unfold After at h
  cases hx : x s with
  | ok a s' =>
    rw [hx] at h
    exact ⟨a, s', rfl, h⟩
  | error e s' =>
    rw [hx] at h
    exact h.elim

/-- A sequence, with what holds in the middle. -/
theorem bind {y : EStateM ε τ β} {f : β → EStateM ε τ α} {R : β → τ → Prop} (h : After y s R E)
    (hf : ∀ b s', R b s' → After (f b) s' Q E) : After (y >>= f) s Q E :=
  (after_bind y f).2 (h.mono hf fun _ _ => id)

end After

end DocScript
