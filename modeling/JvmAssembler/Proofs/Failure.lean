import JvmAssembler.Proofs.Success

/-! What all errors of some work have in common is said by `Fails` and `Raises`. Errors of work in
several steps are errors of its steps, so nothing has to be known of the results in between. -/

namespace JvmAssembler

variable {ε ε' σ α β : Type} {E : ε → Prop}

/-- Every error has a property. -/
def Fails (E : ε → Prop) (x : Except ε α) : Prop := ∀ e, x = .error e → E e

namespace Fails

theorem ok (a : α) : Fails E (.ok a) := by
  rintro e ⟨⟩

theorem error {e : ε} (h : E e) : Fails E (.error e : Except ε α) := by
  rintro e' ⟨⟩
  exact h

theorem bind {x : Except ε α} {f : α → Except ε β} (hx : Fails E x) (hf : ∀ a, Fails E (f a)) :
    Fails E (x >>= f) := by
  intro e h
  cases x with
  | error e' =>
      cases h
      exact hx e rfl
  | ok a => exact hf a e h

theorem map {x : Except ε α} (h : Fails E x) (f : α → β) : Fails E (x.map f) := by
  intro e he
  cases x with
  | error e' =>
      cases he
      exact h e rfl
  | ok a => cases he

theorem mapError (x : Except ε' α) {f : ε' → ε} (h : ∀ e, E (f e)) : Fails E (x.mapError f) := by
  intro e he
  cases x with
  | error e' =>
      cases he
      exact h e'
  | ok a => cases he

theorem mapM {f : α → Except ε β} (h : ∀ a, Fails E (f a)) (xs : List α) :
    Fails E (xs.mapM f) := by
  induction xs with
  | nil => exact .ok []
  | cons x xs ih =>
      rw [List.mapM_cons]
      exact .bind (h x) fun y => .bind ih fun ys => .ok (y :: ys)

theorem foldlM {f : β → α → Except ε β} (h : ∀ b a, Fails E (f b a)) (xs : List α) (b : β) :
    Fails E (xs.foldlM f b) := by
  induction xs generalizing b with
  | nil => exact .ok b
  | cons x xs ih =>
      rw [List.foldlM_cons]
      exact .bind (h b x) ih

end Fails

section Bind

variable {x : EStateM ε σ α} {f : α → EStateM ε σ β} {s s' : σ} {e : ε}

theorem bind_eq_of_ok {a : α} (h : x s = .ok a s') : (x >>= f) s = f a s' := by
  simp only [Bind.bind, EStateM.bind, h]

theorem bind_eq_of_error (h : x s = .error e s') : (x >>= f) s = .error e s' := by
  simp only [Bind.bind, EStateM.bind, h]

/-- Work in two steps fails in the first or in the second. -/
theorem cases_of_bind_eq_error (h : (x >>= f) s = .error e s') :
    x s = .error e s' ∨ ∃ a s₁, x s = .ok a s₁ ∧ f a s₁ = .error e s' := by
  cases hx : x s with
  | error e' s₁ =>
      rw [bind_eq_of_error hx] at h
      cases h
      exact .inl rfl
  | ok a s₁ =>
      rw [bind_eq_of_ok hx] at h
      exact .inr ⟨a, s₁, rfl, h⟩

end Bind

/-- Every error has a property, whatever the state. -/
def Raises (E : ε → Prop) (x : EStateM ε σ α) : Prop := ∀ s e s', x s = .error e s' → E e

namespace Raises

theorem pure (a : α) : Raises E (Pure.pure a : EStateM ε σ α) := by
  rintro s e s' ⟨⟩

theorem throw {e : ε} (h : E e) : Raises E (MonadExcept.throw e : EStateM ε σ α) := by
  rintro s e' s' ⟨⟩
  exact h

theorem get : Raises E (MonadState.get : EStateM ε σ σ) := by
  rintro s e s' ⟨⟩

theorem modify (f : σ → σ) :
    Raises E (modifyGet fun s => (PUnit.unit, f s) : EStateM ε σ PUnit) := by
  rintro s e s' ⟨⟩

/-- Later work starts from what earlier work can give. -/
theorem bind_of_yields {P : α → Prop} {x : EStateM ε σ α} {f : α → EStateM ε σ β}
    (hx : Raises E x) (hyields : Yields P x) (hf : ∀ a, P a → Raises E (f a)) :
    Raises E (x >>= f) := by
  intro s e s' h
  rcases cases_of_bind_eq_error h with hfirst | ⟨a, s₁, ha, hrest⟩
  · exact hx s e s' hfirst
  · exact hf a (hyields s a s₁ ha) s₁ e s' hrest

theorem bind {x : EStateM ε σ α} {f : α → EStateM ε σ β} (hx : Raises E x)
    (hf : ∀ a, Raises E (f a)) : Raises E (x >>= f) :=
  bind_of_yields (P := fun _ => True) hx (fun _ _ _ _ => trivial) fun a _ => hf a

theorem lift {E : CompileError → Prop} {x : Except CompileError α} (h : Fails E x) :
    Raises E (liftM x : Assembly σ α) := by
  intro s e s' he
  cases x with
  | error e' =>
      cases he
      exact h e rfl
  | ok a => cases he

theorem mapM {xs : List α} {f : α → EStateM ε σ β} (h : ∀ a ∈ xs, Raises E (f a)) :
    Raises E (xs.mapM f) := by
  induction xs with
  | nil => exact .pure []
  | cons x xs ih =>
      rw [List.mapM_cons]
      refine .bind (h x List.mem_cons_self) fun y => .bind ?_ fun ys => .pure (y :: ys)
      exact ih fun a ha => h a (List.mem_cons_of_mem x ha)

theorem forM {f : α → EStateM ε σ PUnit} (h : ∀ a, Raises E (f a)) (xs : List α) :
    Raises E (xs.forM f) := by
  induction xs with
  | nil => exact .pure _
  | cons x xs ih =>
      have hcons : (x :: xs).forM f = f x >>= fun _ => xs.forM f := rfl
      rw [hcons]
      exact .bind (h x) fun _ => ih

theorem foldlM {f : β → α → EStateM ε σ β} (h : ∀ b a, Raises E (f b a)) (xs : List α) (b : β) :
    Raises E (xs.foldlM f b) := by
  induction xs generalizing b with
  | nil => exact .pure b
  | cons x xs ih =>
      rw [List.foldlM_cons]
      exact .bind (h b x) ih

end Raises

namespace Assembly

/-- Does the work fail with an error and a state that pass a check? -/
def failsWith (check : CompileError → σ → Bool) (x : Assembly σ α) (s : σ) : Bool :=
  match x s with
  | .ok _ _ => false
  | .error e s' => check e s'

theorem exists_of_failsWith {check : CompileError → σ → Bool} {x : Assembly σ α} {s : σ}
    (h : failsWith check x s = true) : ∃ e s', x s = .error e s' ∧ check e s' = true := by
  unfold failsWith at h
  split at h
  · cases h
  · rename_i e s' hx
    exact ⟨e, s', hx, h⟩

end Assembly

end JvmAssembler
