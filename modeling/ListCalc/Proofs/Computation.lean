import ListCalc.Operator.Extension

/-!
# Proofs — what a computation leaves

A computation goes from one state to the next, and the state that it leaves counts also where it
fails.  `after` is that state; `bind_apply` runs one computation after the other.

* `after_bind`: what holds after the first computation and is kept by the second one holds in the
  end.
* `Leaves P Q m s`: the computation leaves a state with `P`, and its result, if there is one, is
  related to that state by `Q`.
* `onSuccess m s next`: what is to be listed of the second computation; nothing if the first fails.
-/

namespace ListCalc

variable {ε σ α β : Type}

/-! ### Steps -/

@[simp] theorem pure_apply (a : α) (s : σ) : (pure a : EStateM ε σ α) s = .ok a s := rfl

@[simp] theorem bind_apply (m : EStateM ε σ α) (k : α → EStateM ε σ β) (s : σ) :
    (m >>= k) s = match m s with
      | .ok a s'    => k a s'
      | .error e s' => .error e s' := by
  show EStateM.bind m k s = _
  unfold EStateM.bind
  cases m s <;> rfl

/-- After a step that returns, the rest goes on from the state that it leaves. -/
theorem bind_of_ok {m : EStateM ε σ α} {k : α → EStateM ε σ β} {s s' : σ} {a : α}
    (hm : m s = .ok a s') : (m >>= k) s = k a s' := by
  rw [bind_apply, hm]

/-- After a step that fails, nothing follows. -/
theorem bind_of_error {m : EStateM ε σ α} {k : α → EStateM ε σ β} {s s' : σ} {e : ε}
    (hm : m s = .error e s') : (m >>= k) s = .error e s' := by
  rw [bind_apply, hm]

/-- What succeeds in two steps succeeds in each of them. -/
theorem bind_eq_ok {m : EStateM ε σ α} {k : α → EStateM ε σ β} {s s₂ : σ} {b : β}
    (h : (m >>= k) s = .ok b s₂) : ∃ a s₁, m s = .ok a s₁ ∧ k a s₁ = .ok b s₂ := by
  rw [bind_apply] at h
  cases hm : m s with
  | ok a s₁ =>
    rw [hm] at h
    exact ⟨a, s₁, rfl, h⟩
  | error e s₁ =>
    rw [hm] at h
    cases h

@[simp] theorem get_apply (s : σ) : (get : EStateM ε σ σ) s = .ok s s := rfl

@[simp] theorem set_apply (s' s : σ) : (set s' : EStateM ε σ PUnit) s = .ok () s' := rfl

@[simp] theorem modify_apply (f : σ → σ) (s : σ) :
    (modify f : EStateM ε σ PUnit) s = .ok () (f s) := rfl

@[simp] theorem modifyGet_apply (f : σ → α × σ) (s : σ) :
    (modifyGet f : EStateM ε σ α) s = .ok (f s).1 (f s).2 := rfl

/-! ### The state afterwards -/

/-- The state after a computation, whether it succeeds or fails. -/
def after (m : EStateM ε σ α) (s : σ) : σ :=
  match m s with
  | .ok _ s'    => s'
  | .error _ s' => s'

section

variable {m : EStateM ε σ α} {s s' : σ} {a : α} {e : ε}

theorem after_of_ok (hm : m s = .ok a s') : after m s = s' := by
  rw [after, hm]

theorem after_of_error (hm : m s = .error e s') : after m s = s' := by
  rw [after, hm]

/-- After a step that returns, the state is the one that the rest leaves. -/
theorem after_bind_of_ok (hm : m s = .ok a s') (k : α → EStateM ε σ β) :
    after (m >>= k) s = after (k a) s' := by
  rw [after, after, bind_of_ok hm]

/-- After a step that fails, the rest changes nothing. -/
theorem after_bind_of_error (hm : m s = .error e s') (k : α → EStateM ε σ β) :
    after (m >>= k) s = s' := by
  rw [after, bind_of_error hm]

/-- What holds after the first computation and is kept by what follows, holds in the end. -/
theorem after_bind {P : σ → Prop} {k : α → EStateM ε σ β} (hm : P (after m s))
    (hk : ∀ a s', m s = .ok a s' → P s' → P (after (k a) s')) : P (after (m >>= k) s) := by
  cases hs : m s with
  | ok a s' =>
    rw [after_of_ok hs] at hm
    rw [after_bind_of_ok hs]
    exact hk a s' hs hm
  | error e s' =>
    rw [after_of_error hs] at hm
    rw [after_bind_of_error hs]
    exact hm

end

/-! ### States and results -/

/-- The computation leaves a state with `P`, and its result is related to that state by `Q`. -/
structure Leaves (P : σ → Prop) (Q : α → σ → Prop) (m : EStateM ε σ α) (s : σ) : Prop where
  state : P (after m s)
  value : ∀ {a s'}, m s = .ok a s' → Q a s'

namespace Leaves

variable {P : σ → Prop} {Q : α → σ → Prop} {m m' : EStateM ε σ α} {s : σ}

/-- Two computations one after the other, where the second relies on what the first leaves. -/
theorem bind {R : β → σ → Prop} {k : α → EStateM ε σ β} (hm : Leaves P Q m s)
    (hk : ∀ a s', m s = .ok a s' → P s' → Q a s' → Leaves P R (k a) s') :
    Leaves P R (m >>= k) s := by
  refine ⟨?_, fun {b s₂} hb => ?_⟩
  · refine after_bind hm.state fun a s' ha hs' => ?_
    exact (hk a s' ha hs' (hm.value ha)).state
  · obtain ⟨a, s₁, ha, hb⟩ := bind_eq_ok hb
    have hs₁ : P s₁ := after_of_ok ha ▸ hm.state
    exact (hk a s₁ ha hs₁ (hm.value ha)).value hb

/-- Only the one run from `s` counts. -/
theorem of_eq (hm : Leaves P Q m' s) (heq : m s = m' s) : Leaves P Q m s := by
  have hafter : after m s = after m' s := by rw [after, after, heq]
  refine ⟨hafter ▸ hm.state, fun {a s'} ha => ?_⟩
  rw [heq] at ha
  exact hm.value ha

theorem of_ok {a : α} {s' : σ} (heq : m s = .ok a s') (hs : P s') (ha : Q a s') :
    Leaves P Q m s := by
  refine ⟨(after_of_ok heq).symm ▸ hs, fun {b s₂} hb => ?_⟩
  cases heq.symm.trans hb
  exact ha

theorem of_error {e : ε} {s' : σ} (heq : m s = .error e s') (hs : P s') : Leaves P Q m s :=
  ⟨(after_of_error heq).symm ▸ hs, fun {_ _} hb => nomatch heq.symm.trans hb⟩

end Leaves

/-! ### Traces -/

/-- What follows on the success of a computation; nothing if it fails. -/
def onSuccess (m : EStateM ε σ α) (s : σ) (next : α → σ → List β) : List β :=
  match m s with
  | .ok a s'   => next a s'
  | .error _ _ => []

/-- What stands in the trace of the rest is there because the step returned. -/
theorem mem_onSuccess {m : EStateM ε σ α} {s : σ} {next : α → σ → List β} {b : β}
    (h : b ∈ onSuccess m s next) : ∃ a s', m s = .ok a s' ∧ b ∈ next a s' := by
  rw [onSuccess] at h
  cases hm : m s with
  | ok a s' =>
    rw [hm] at h
    exact ⟨a, s', rfl, h⟩
  | error e s' =>
    rw [hm] at h
    cases h

/-! ### Operations on the heap -/

namespace Operation

/-- An attempt that fails leaves the heap as it was. -/
theorem attempt_apply (f : Heap → Except OperatorFault (α × Heap)) (h : Heap) :
    attempt f h = match f h with
      | .ok out      => .ok out.1 out.2
      | .error fault => .error fault h := by
  unfold attempt
  cases f h <;> rfl

/-- A look leaves the heap as it was, whatever comes of it. -/
theorem look_apply (f : Heap → Except OperatorFault α) (h : Heap) :
    look f h = match f h with
      | .ok a        => .ok a h
      | .error fault => .error fault h := by
  rw [look, attempt_apply]
  cases f h <;> rfl

/-- What was looked up is handed on with the heap. -/
theorem look_bind_of_ok {f : Heap → Except OperatorFault α} {h : Heap} {a : α} (ha : f h = .ok a)
    (k : α → Operation β) : (look f >>= k) h = k a h := by
  rw [bind_apply, look_apply, ha]

/-- A failing look is the end of the operation. -/
theorem look_bind_of_error {f : Heap → Except OperatorFault α} {h : Heap} {fault : OperatorFault}
    (hf : f h = .error fault) (k : α → Operation β) :
    (look f >>= k) h = (throw fault : Operation β) h := by
  rw [bind_apply, look_apply, hf]
  rfl

@[simp] theorem after_look (f : Heap → Except OperatorFault α) (h : Heap) :
    after (look f) h = h := by
  rw [after, look_apply]
  cases f h <;> rfl

end Operation

end ListCalc
