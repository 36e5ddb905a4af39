import JvmAssembler.Error
import Mathlib.Data.List.Forall2

/-! If work in several steps succeeds, each of its steps did. What all results of some work have in
common is said by `Gives` and `Yields`, without a word on the states that it goes through. -/

namespace JvmAssembler

section Inversion

variable {ε σ α β : Type}

theorem exists_of_bind_eq_ok {x : Except ε α} {f : α → Except ε β} {b : β}
    (h : x >>= f = .ok b) : ∃ a, x = .ok a ∧ f a = .ok b := by
  cases x with
  | error e => cases h
  | ok a => exact ⟨a, rfl, h⟩

theorem eq_ok_of_toOption {x : Except ε α} {a : α} (h : x.toOption = some a) : x = .ok a := by
  cases x with
  | error e => cases h
  | ok b =>
      cases h
      rfl

theorem forall₂_of_mapM_eq_ok {f : α → Except ε β} {xs : List α} {ys : List β}
    (h : xs.mapM f = .ok ys) : List.Forall₂ (fun x y => f x = .ok y) xs ys := by
  induction xs generalizing ys with
  | nil =>
      cases h
      exact .nil
  | cons x xs ih =>
      rw [List.mapM_cons] at h
      obtain ⟨y, hy, h⟩ := exists_of_bind_eq_ok h
      obtain ⟨rest, hrest, h⟩ := exists_of_bind_eq_ok h
      cases h
      exact .cons hy (ih hrest)

theorem exists_mapM_eq_ok {f : α → Except ε β} {xs : List α} (h : ∀ x ∈ xs, ∃ y, f x = .ok y) :
    ∃ ys, xs.mapM f = .ok ys := by
  induction xs with
  | nil => exact ⟨[], rfl⟩
  | cons x xs ih =>
      obtain ⟨y, hy⟩ := h x List.mem_cons_self
      obtain ⟨ys, hys⟩ := ih fun x hx => h x (List.mem_cons_of_mem _ hx)
      refine ⟨y :: ys, ?_⟩
      rw [List.mapM_cons, hy, hys]
      rfl

theorem map_eq_of_forall₂ {γ : Type} {R : α → β → Prop} {f : α → γ} {g : β → γ} {xs : List α}
    {ys : List β} (h : List.Forall₂ R xs ys) (hviews : ∀ x y, R x y → f x = g y) :
    xs.map f = ys.map g := by
  induction h with
  | nil => rfl
  | cons hfirst _ ih => rw [List.map_cons, List.map_cons, hviews _ _ hfirst, ih]

theorem exists_of_mem_right {R : α → β → Prop} {xs : List α} {ys : List β}
    (h : List.Forall₂ R xs ys) {y : β} (hy : y ∈ ys) : ∃ x ∈ xs, R x y := by
  induction h with
  | nil => cases hy
  | cons hfirst _ ih =>
      rcases List.mem_cons.mp hy with rfl | hrest
      · exact ⟨_, List.mem_cons_self, hfirst⟩
      · obtain ⟨x, hx, hxy⟩ := ih hrest
        exact ⟨x, List.mem_cons_of_mem _ hx, hxy⟩

theorem eq_ok_of_mapError {ε' : Type} {x : Except ε α} {f : ε → ε'} {a : α}
    (h : x.mapError f = .ok a) : x = .ok a := by
  cases x with
  | error e => cases h
  | ok b =>
      cases h
      rfl

theorem exists_of_bind_eq_result {x : EStateM ε σ α} {f : α → EStateM ε σ β} {s s' : σ} {b : β}
    (h : (x >>= f) s = .ok b s') : ∃ a s₁, x s = .ok a s₁ ∧ f a s₁ = .ok b s' := by
  simp only [bind, EStateM.bind] at h
  split at h
  · rename_i a s₁ hx
    exact ⟨a, s₁, hx, h⟩
  · cases h

theorem exists_of_mapM_eq_result {f : α → EStateM ε σ β} {xs : List α} {ys : List β} {s s' : σ}
    (h : xs.mapM f s = .ok ys s') {x : α} (hx : x ∈ xs) : ∃ t y t', f x t = .ok y t' := by
  induction xs generalizing s s' ys with
  | nil => cases hx
  | cons first rest ih =>
      rw [List.mapM_cons] at h
      obtain ⟨y, t, hfirst, h⟩ := exists_of_bind_eq_result h
      obtain ⟨_, _, hrest, _⟩ := exists_of_bind_eq_result h
      rcases List.mem_cons.mp hx with rfl | hx
      · exact ⟨s, y, t, hfirst⟩
      · exact ih hrest hx

/-- Work on each entry of a list. What a step says of its entry has to hold for later states too,
where states are related by what steps do to them. -/
theorem forall₂_of_mapM_eq_result {f : α → EStateM ε σ β} {R : σ → σ → Prop}
    {P : α → β → σ → Prop} (hrefl : ∀ s, R s s) (htrans : ∀ {s t u}, R s t → R t u → R s u)
    (hkept : ∀ {a b s s'}, P a b s → R s s' → P a b s') {xs : List α} {ys : List β} {s s' : σ}
    (hstep : ∀ a ∈ xs, ∀ {s b s'}, f a s = .ok b s' → R s s' ∧ P a b s')
    (h : xs.mapM f s = .ok ys s') : R s s' ∧ List.Forall₂ (fun a b => P a b s') xs ys := by
  induction xs generalizing s ys with
  | nil =>
      cases h
      exact ⟨hrefl _, .nil⟩
  | cons x xs ih =>
      rw [List.mapM_cons] at h
      obtain ⟨y, s₁, hy, h⟩ := exists_of_bind_eq_result h
      obtain ⟨rest, s₂, hrest, h⟩ := exists_of_bind_eq_result h
      cases h
      obtain ⟨hfirst, hP⟩ := hstep x List.mem_cons_self hy
      obtain ⟨hothers, hall⟩ := ih (fun a ha => hstep a (List.mem_cons_of_mem _ ha)) hrest
      exact ⟨htrans hfirst hothers, .cons (hkept hP hothers) hall⟩

theorem exists_mapM_eq_result {f : α → EStateM ε σ β} {xs : List α}
    (h : ∀ x ∈ xs, ∀ s, ∃ y s', f x s = .ok y s') (s : σ) : ∃ ys s', xs.mapM f s = .ok ys s' := by
  induction xs generalizing s with
  | nil => exact ⟨[], s, rfl⟩
  | cons x xs ih =>
      obtain ⟨y, s₁, hy⟩ := h x List.mem_cons_self s
      obtain ⟨ys, s₂, hys⟩ := ih (fun x' hx' => h x' (List.mem_cons_of_mem x hx')) s₁
      refine ⟨y :: ys, s₂, ?_⟩
      rw [List.mapM_cons]
      simp only [bind, EStateM.bind, hy, hys]
      rfl

theorem lift_eq_result {x : Except CompileError α} {s s' : σ} {a : α}
    (h : (liftM x : Assembly σ α) s = .ok a s') : x = .ok a ∧ s = s' := by
  cases x with
  | error e => cases h
  | ok b =>
      cases h
      exact ⟨rfl, rfl⟩

end Inversion

section Results

variable {ε σ α β : Type} {P : α → Prop} {Q : β → Prop}

/-- Every result has a property. -/
def Gives (P : α → Prop) (x : Except ε α) : Prop := ∀ a, x = .ok a → P a

namespace Gives

theorem pure {a : α} (h : P a) : Gives P (Pure.pure a : Except ε α) := by
  rintro b ⟨⟩
  exact h

theorem throw (e : ε) : Gives P (MonadExcept.throw e : Except ε α) := by
  rintro b ⟨⟩

theorem of_bind {x : Except ε α} {f : α → Except ε β} (hf : ∀ a, Gives Q (f a)) :
    Gives Q (x >>= f) := by
  intro b h
  obtain ⟨a, _, hb⟩ := exists_of_bind_eq_ok h
  exact hf a b hb

end Gives

/-- Every result has a property, whatever the state. -/
def Yields (P : α → Prop) (x : EStateM ε σ α) : Prop := ∀ s a s', x s = .ok a s' → P a

namespace Yields

theorem pure {a : α} (h : P a) : Yields P (Pure.pure a : EStateM ε σ α) := by
  rintro s b s' ⟨⟩
  exact h

theorem of_bind {x : EStateM ε σ α} {f : α → EStateM ε σ β} (hf : ∀ a, Yields Q (f a)) :
    Yields Q (x >>= f) := by
  intro s b s' h
  obtain ⟨a, s₁, _, hb⟩ := exists_of_bind_eq_result h
  exact hf a s₁ b s' hb

theorem bind {x : EStateM ε σ α} {f : α → EStateM ε σ β} (hx : Yields P x)
    (hf : ∀ a, P a → Yields Q (f a)) : Yields Q (x >>= f) := by
  intro s b s' h
  obtain ⟨a, s₁, ha, hb⟩ := exists_of_bind_eq_result h
  exact hf a (hx s a s₁ ha) s₁ b s' hb

theorem lift {x : Except CompileError α} (h : Gives P x) : Yields P (liftM x : Assembly σ α) := by
  intro s a s' ha
  exact h a (lift_eq_result ha).1

end Yields

end Results

namespace Assembly

variable {σ α : Type}

/-- Does the work come to its end with a result that passes a check? -/
def satisfies (check : α → Bool) (x : Assembly σ α) (s : σ) : Bool :=
  match x s with
  | .ok a _ => check a
  | .error _ _ => false

theorem exists_of_satisfies {check : α → Bool} {x : Assembly σ α} {s : σ}
    (h : satisfies check x s = true) : ∃ a s', x s = .ok a s' ∧ check a = true := by
  unfold satisfies at h
  split at h
  · rename_i a s' hx
    exact ⟨a, s', hx, h⟩
  · cases h

end Assembly

end JvmAssembler
