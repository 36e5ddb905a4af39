import JvmAssembler.Proofs.Success

/-! An index can be out of range, a difference below zero, and a number too large for its type.
Checked work has no outcome where one of these happens. Where it agrees with work that checks
nothing, none of them ever does. -/

namespace JvmAssembler

/-- Work on a state, without an outcome where a check fails. -/
def Checked (ε σ α : Type) : Type := σ → Option (EStateM.Result ε σ α)

namespace Checked

/-- Writes an entry at an index in range. -/
def set {α : Type} (xs : Array α) (i : Nat) (a : α) : Option (Array α) :=
  if h : i < xs.size then some (xs.set i a h) else none

/-- A difference that is not below zero. -/
def sub (a b : Nat) : Option Nat := if b ≤ a then some (a - b) else none

/-- A number of 16 bits. -/
def uint16 (n : Nat) : Option UInt16 := if n < 0x10000 then some (UInt16.ofNat n) else none

/-- A signed number of 32 bits. -/
def int32 (n : Int) : Option Int32 :=
  if -2147483648 ≤ n ∧ n ≤ 2147483647 then some (Int32.ofInt n) else none

theorem set_eq {α : Type} {xs : Array α} {i : Nat} (h : i < xs.size) (a : α) :
    set xs i a = some (xs.setIfInBounds i a) := by
  rw [set, dif_pos h, Array.setIfInBounds, dif_pos h]

theorem sub_eq {a b : Nat} (h : b ≤ a) : sub a b = some (a - b) := if_pos h

theorem uint16_eq {n : Nat} (h : n < 0x10000) : uint16 n = some (UInt16.ofNat n) := if_pos h

theorem int32_eq {n : Int} (h : -2147483648 ≤ n ∧ n ≤ 2147483647) :
    int32 n = some (Int32.ofInt n) := if_pos h

theorem exists_int32 {n : Int} (h : -2147483648 ≤ n ∧ n ≤ 2147483647) :
    ∃ found, int32 n = some found ∧ found.toInt = n :=
  ⟨_, int32_eq h, Int32.toInt_ofInt_of_le h.1 (by omega)⟩

section Monad

variable {ε σ α β : Type}

/-- What follows some work with an outcome. -/
def next (f : α → Checked ε σ β) : EStateM.Result ε σ α → Option (EStateM.Result ε σ β)
  | .ok a s => f a s
  | .error e s => some (.error e s)

instance : Monad (Checked ε σ) where
  pure a s := some (.ok a s)
  bind x f s := (x s).bind (next f)

instance : MonadLift (EStateM ε σ) (Checked ε σ) where
  monadLift x s := some (x s)

instance : MonadLift Option (Checked ε σ) where
  monadLift x s := x.map fun a => .ok a s

theorem bind_eq (x : Checked ε σ α) (f : α → Checked ε σ β) (s : σ) :
    (x >>= f) s = (x s).bind (next f) := rfl

instance : LawfulMonad (Checked ε σ) := by
  refine .mk' _ ?_ ?_ ?_
  · intro α x
    funext s
    show (x s).bind (next fun a s => some (.ok a s)) = x s
    cases x s with
    | none => rfl
    | some r => cases r <;> rfl
  · intro α β a f
    rfl
  · intro α β γ x f g
    funext s
    simp only [bind_eq]
    cases x s with
    | none => rfl
    | some r => cases r <;> rfl

/-- Checked work has the same outcome as other work, whatever the state. -/
def Agrees (g : Checked ε σ α) (x : EStateM ε σ α) : Prop := ∀ s, g s = some (x s)

namespace Agrees

variable {x : EStateM ε σ α} {g : Checked ε σ α}

theorem lift (x : EStateM ε σ α) : Agrees (liftM x : Checked ε σ α) x := fun _ => rfl

theorem pure (a : α) : Agrees (Pure.pure a : Checked ε σ α) (Pure.pure a) := fun _ => rfl

theorem bind {f : α → EStateM ε σ β} {h : α → Checked ε σ β} (hx : Agrees g x)
    (hf : ∀ s a s', x s = .ok a s' → Agrees (h a) (f a)) : Agrees (g >>= h) (x >>= f) := by
  intro s
  rw [bind_eq, hx s]
  simp only [Bind.bind, EStateM.bind, Option.bind_some]
  cases hresult : x s with
  | ok a s' => exact hf s a s' hresult s'
  | error e s' => rfl

theorem of_eq_some {o : Option α} {a : α} (h : o = some a) :
    Agrees (liftM o : Checked ε σ α) (Pure.pure a) := by
  intro s
  rw [h]
  rfl

/-- A check that succeeds. -/
theorem check {o : Option α} {a : α} (ho : o = some a) {y : EStateM ε σ β} {h : α → Checked ε σ β}
    (hy : Agrees (h a) y) : Agrees (liftM o >>= h) y := by
  intro s
  rw [ho]
  exact hy s

/-- A step that changes no state. -/
theorem bind_lift {x : Except CompileError α} {f : α → Except CompileError β}
    {g : Checked CompileError σ α} {h : α → Checked CompileError σ β}
    (hx : Agrees g (liftM x : Assembly σ α))
    (hf : ∀ a, x = .ok a → Agrees (h a) (liftM (f a) : Assembly σ β)) :
    Agrees (g >>= h) (liftM (x >>= f) : Assembly σ β) := by
  intro s
  rw [bind_eq, hx s]
  cases hresult : x with
  | error e => rfl
  | ok a => exact hf a hresult s

theorem mapM_lift {f : α → Except CompileError β} {h : α → Checked CompileError σ β} {xs : List α}
    (hf : ∀ a ∈ xs, Agrees (h a) (liftM (f a) : Assembly σ β)) :
    Agrees (xs.mapM h) (liftM (xs.mapM f) : Assembly σ (List β)) := by
  induction xs with
  | nil => exact fun _ => rfl
  | cons a xs ih =>
      rw [List.mapM_cons, List.mapM_cons]
      refine .bind_lift (hf a List.mem_cons_self) fun _ _ => ?_
      exact .bind_lift (ih fun a ha => hf a (List.mem_cons_of_mem _ ha)) fun _ _ _ => rfl

theorem mapM {f : α → EStateM ε σ β} {h : α → Checked ε σ β} {xs : List α}
    (hf : ∀ a ∈ xs, Agrees (h a) (f a)) : Agrees (xs.mapM h) (xs.mapM f) := by
  induction xs with
  | nil => exact .pure []
  | cons a xs ih =>
      rw [List.mapM_cons, List.mapM_cons]
      refine .bind (hf a List.mem_cons_self) fun _ _ _ _ => ?_
      exact .bind (ih fun a ha => hf a (List.mem_cons_of_mem _ ha)) fun _ _ _ _ => .pure _

theorem foldlM {f : β → α → EStateM ε σ β} {h : β → α → Checked ε σ β}
    (hf : ∀ b a, Agrees (h b a) (f b a)) (xs : List α) (b : β) :
    Agrees (xs.foldlM h b) (xs.foldlM f b) := by
  induction xs generalizing b with
  | nil => exact .pure b
  | cons a xs ih =>
      rw [List.foldlM_cons, List.foldlM_cons]
      exact .bind (hf b a) fun _ b' _ _ => ih b'

end Agrees

end Monad

end Checked

end JvmAssembler
