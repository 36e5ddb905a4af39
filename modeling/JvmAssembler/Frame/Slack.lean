import JvmAssembler.Frame.Basic

/-! Joining a frame with others can change it a bounded number of times only: each change uses up
some of its slack. -/

namespace JvmAssembler

/-- How often the values of a list can still be widened. -/
def totalSlack (values : List Value) : Nat := total (fun v => v.type.slack) values

@[simp] theorem totalSlack_nil : totalSlack [] = 0 := rfl

@[simp] theorem totalSlack_cons (v : Value) (values : List Value) :
    totalSlack (v :: values) = v.type.slack + totalSlack values := rfl

@[simp] theorem totalSlack_append (v w : List Value) :
    totalSlack (v ++ w) = totalSlack v + totalSlack w := total_append _ v w

/-- How often the frame can still be widened. -/
def Frame.slack (f : Frame) : Nat := totalSlack f.stack.toList + totalSlack f.locals.toList

/-- Would a join change the first of two values? -/
def Value.widens (mine theirs : Value) : Prop := mine.type.join theirs.type ≠ mine.type

theorem Value.slack_join_le (v w : Value) : (v.join w).type.slack ≤ v.type.slack :=
  v.type.slack_join_le w.type

theorem Value.slack_join_lt {v w : Value} (h : v.widens w) :
    (v.join w).type.slack < v.type.slack :=
  ValueType.slack_join_lt h

theorem totalSlack_zipWith_le (xs ys : List Value) :
    totalSlack (List.zipWith Value.join xs ys) ≤ totalSlack xs := by
  induction xs generalizing ys with
  | nil => simp
  | cons x xs ih =>
      cases ys with
      | nil => simp
      | cons y ys =>
          have hx := Value.slack_join_le x y
          have hxs := ih ys
          simp only [List.zipWith_cons_cons, totalSlack_cons]
          omega

theorem totalSlack_zipWith_lt {xs ys : List Value} {v w : Value} (hmem : (v, w) ∈ xs.zip ys)
    (hw : v.widens w) : totalSlack (List.zipWith Value.join xs ys) < totalSlack xs := by
  induction xs generalizing ys with
  | nil => simp at hmem
  | cons x xs ih =>
      cases ys with
      | nil => simp at hmem
      | cons y ys =>
          simp only [List.zip_cons_cons, List.mem_cons, Prod.mk.injEq] at hmem
          simp only [List.zipWith_cons_cons, totalSlack_cons]
          rcases hmem with ⟨rfl, rfl⟩ | hmem
          · have hx := Value.slack_join_lt hw
            have hxs := totalSlack_zipWith_le xs ys
            omega
          · have hx := Value.slack_join_le x y
            have hxs := ih hmem
            omega

/-- Locals joined slot by slot; slots that the second frame does not reach stay. -/
theorem Frame.toList_join_locals (f g : Frame) :
    (f.join g).locals.toList =
      List.zipWith Value.join f.locals.toList g.locals.toList
        ++ f.locals.toList.drop g.locals.size := by
  obtain ⟨⟨xs⟩, s⟩ := f
  obtain ⟨⟨ys⟩, t⟩ := g
  simp only [Frame.join, Array.toList_mapIdx, List.getElem?_toArray, List.size_toArray]
  induction xs generalizing ys with
  | nil => simp
  | cons x xs ih =>
      cases ys with
      | nil => simp [List.mapIdx_eq_iff]
      | cons y ys =>
          have h := ih ys
          simp only [List.mapIdx_cons, List.getElem?_cons_zero, List.getElem?_cons_succ,
            List.zipWith_cons_cons, List.cons_append, List.length_cons, List.drop_succ_cons, h]

theorem Frame.toList_join_stack (f g : Frame) :
    (f.join g).stack.toList = List.zipWith Value.join f.stack.toList g.stack.toList := by
  simp [Frame.join]

theorem totalSlack_take_add_drop (n : Nat) (values : List Value) :
    totalSlack (values.take n) + totalSlack (values.drop n) = totalSlack values := by
  rw [← totalSlack_append, List.take_append_drop]

theorem zipWith_take_right {α β γ : Type} (f : α → β → γ) (xs : List α) (ys : List β) :
    List.zipWith f (xs.take ys.length) ys = List.zipWith f xs ys := by
  induction xs generalizing ys with
  | nil => simp
  | cons x xs ih => cases ys <;> simp [ih]

theorem zip_take_right {α β : Type} (xs : List α) (ys : List β) :
    (xs.take ys.length).zip ys = xs.zip ys := by
  simpa [List.zip] using zipWith_take_right Prod.mk xs ys

/-- Each change by a join uses up some slack. -/
theorem Frame.slack_join_lt {f g : Frame} (h : f.widens g = true) : (f.join g).slack < f.slack := by
  simp only [Frame.widens, Frame.paired, List.any_eq_true, List.mem_append, bne_iff_ne] at h
  obtain ⟨⟨v, w⟩, hmem, hw⟩ := h
  simp only [Frame.slack, Frame.toList_join_stack, Frame.toList_join_locals, totalSlack_append]
  have hsplit := totalSlack_take_add_drop g.locals.size f.locals.toList
  have hlocals := totalSlack_zipWith_le (f.locals.toList.take g.locals.toList.length) g.locals.toList
  have hstack := totalSlack_zipWith_le f.stack.toList g.stack.toList
  rw [zipWith_take_right] at hlocals
  rw [Array.length_toList] at hlocals
  rcases hmem with hmem | hmem
  · have hlt := totalSlack_zipWith_lt hmem hw
    omega
  · rw [← zip_take_right] at hmem
    have hlt := totalSlack_zipWith_lt hmem hw
    rw [zipWith_take_right, Array.length_toList] at hlt
    omega

end JvmAssembler
