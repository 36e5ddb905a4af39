import JvmAssembler.SlotVec

/-! The offset of an entry is the start of the vector and the widths of the entries before it. An
entry keeps its offset when others are added, and no other entry starts in its slots. -/

namespace JvmAssembler.SlotVec

variable {α : Type} [HasWidth α] {v : SlotVec α} {offset : Nat} {a : α}

@[simp] theorem start_append (v : SlotVec α) (values : List α) :
    (v.append values).start = v.start := by
  induction values generalizing v with
  | nil => rfl
  | cons a values ih => exact ih (v.push a)

@[simp] theorem start_ofList (values : List α) : (ofList values).start = 0 := start_append _ _

theorem length_toList (v : SlotVec α) : v.toList.length = v.size := List.length_reverse

/-- A vector is its start and its entries. -/
theorem eq_of_toList {w : SlotVec α} (hstart : v.start = w.start) (h : v.toList = w.toList) :
    v = w := by
  obtain ⟨start, reversed, next, next_eq⟩ := v
  obtain ⟨start', reversed', next', next_eq'⟩ := w
  obtain rfl : start = start' := hstart
  obtain rfl : reversed = reversed' := List.reverse_inj.mp h
  obtain rfl : next = next' := next_eq.trans next_eq'.symm
  rfl

/-- Every vector is an empty one with entries pushed to it. -/
theorem push_induction {P : SlotVec α → Prop} (hempty : ∀ start, P (startingAt start))
    (hpush : ∀ v a, P v → P (v.push a)) (v : SlotVec α) : P v := by
  have happend : ∀ values : List α, ∀ w, P w → P (w.append values) := by
    intro values
    induction values with
    | nil => exact fun w hw => hw
    | cons a values ih => exact fun w hw => ih (w.push a) (hpush w a hw)
  have heq : (startingAt v.start).append v.toList = v :=
    eq_of_toList (start_append _ _) (toList_append _ _)
  exact heq ▸ happend v.toList _ (hempty v.start)

theorem toList_of_pop? {rest : SlotVec α} (h : v.pop? = some (a, rest)) :
    v.toList = rest.toList ++ [a] ∧ v.start = rest.start := by
  induction v using push_induction with
  | hempty start => cases h
  | hpush v b _ =>
      rw [pop?_push, Option.some.injEq, Prod.mk.injEq] at h
      obtain ⟨rfl, rfl⟩ := h
      exact ⟨toList_push v b, rfl⟩

theorem pop?_of_toList {values : List α} (h : v.toList = values ++ [a]) :
    ∃ rest, v.pop? = some (a, rest) ∧ rest.toList = values ∧ rest.start = v.start := by
  have heq : ((startingAt v.start).append values).push a = v := by
    refine eq_of_toList (start_append _ _) ?_
    rw [toList_push, toList_append, h]
    rfl
  have hpop := pop?_push ((startingAt v.start).append values) a
  rw [heq] at hpop
  exact ⟨_, hpop, toList_append _ _, start_append _ _⟩

/-- Entries that take slots from an offset on. -/
def numbered : Nat → List α → List (Nat × α)
  | _, [] => []
  | offset, a :: values => (offset, a) :: numbered (offset + width a) values

theorem numbered_append (offset : Nat) (values others : List α) :
    numbered offset (values ++ others) =
      numbered offset values ++ numbered (offset + totalWidth values) others := by
  induction values generalizing offset with
  | nil => rfl
  | cons a values ih =>
      rw [List.cons_append, numbered, numbered, ih, totalWidth_cons, Nat.add_assoc, List.cons_append]

theorem placedOnto_eq (start : Nat) (reversed : List α) (after : List (Nat × α)) :
    placedOnto (start + totalWidth reversed) reversed after =
      numbered start reversed.reverse ++ after := by
  induction reversed generalizing after with
  | nil => rfl
  | cons a reversed ih =>
      have hbefore : start + totalWidth (a :: reversed) - width a = start + totalWidth reversed := by
        rw [totalWidth_cons]
        omega
      rw [placedOnto, hbefore, ih, List.reverse_cons, numbered_append, totalWidth_reverse,
        List.append_assoc]
      rfl

theorem placed_eq_numbered (v : SlotVec α) : v.placed = numbered v.start v.toList := by
  rw [placed, v.next_eq, placedOnto_eq, List.append_nil]
  rfl

theorem exists_mem_numbered {values : List α} (h : a ∈ values) (offset : Nat) :
    ∃ p ∈ numbered offset values, p.2 = a := by
  induction values generalizing offset with
  | nil => cases h
  | cons b values ih =>
      rcases List.mem_cons.mp h with rfl | h
      · exact ⟨_, List.mem_cons_self, rfl⟩
      · obtain ⟨p, hp, heq⟩ := ih h (offset + width b)
        exact ⟨p, List.mem_cons_of_mem _ hp, heq⟩

theorem getElem?_numbered (offset : Nat) (values : List α) (i : Nat) :
    (numbered offset values)[i]? =
      values[i]?.map fun a => (offset + totalWidth (values.take i), a) := by
  induction values generalizing offset i with
  | nil => simp [numbered]
  | cons a values ih =>
      cases i with
      | zero => simp [numbered]
      | succ i =>
          rw [numbered, List.getElem?_cons_succ, List.getElem?_cons_succ, List.take_succ_cons, ih,
            totalWidth_cons, Nat.add_assoc]

/-- The offset of each entry is the start and the widths of the entries before. -/
theorem getElem?_placed (v : SlotVec α) (i : Nat) :
    v.placed[i]? = v.toList[i]?.map fun a => (v.start + totalWidth (v.toList.take i), a) := by
  rw [placed_eq_numbered, getElem?_numbered]

/-- Entries keep their offsets when another is added at the end. -/
theorem placed_push (v : SlotVec α) (a : α) : (v.push a).placed = v.placed ++ [(v.next, a)] := by
  rw [placed_eq_numbered, placed_eq_numbered, toList_push, next_eq_toList]
  exact numbered_append v.start v.toList [a]

theorem map_snd_placed (v : SlotVec α) : v.placed.map Prod.snd = v.toList := by
  induction v using push_induction with
  | hempty start => rfl
  | hpush v a ih =>
      rw [placed_push, toList_push, List.map_append, ih]
      rfl

theorem add_width_le_next_of_mem {p : Nat × α} (h : p ∈ v.placed) : p.1 + width p.2 ≤ v.next := by
  induction v using push_induction with
  | hempty start => cases h
  | hpush v a ih =>
      have hnext : (v.push a).next = v.next + width a := rfl
      rw [placed_push, List.mem_append, List.mem_singleton] at h
      rcases h with h | rfl
      · have hle := ih h
        omega
      · exact Nat.le_of_eq hnext.symm

theorem mem_placed_of_get? (h : v.get? offset = some a) : (offset, a) ∈ v.placed := by
  induction v using push_induction with
  | hempty start => cases h
  | hpush v b ih =>
      rw [get?_push] at h
      rw [placed_push, List.mem_append, List.mem_singleton]
      split at h
      · rename_i hnext
        cases h
        exact .inr (hnext ▸ rfl)
      · exact .inl (ih h)

theorem mem_toList_of_get? (h : v.get? offset = some a) : a ∈ v.toList :=
  map_snd_placed v ▸ List.mem_map_of_mem (mem_placed_of_get? h)

/-- All slots of an entry lie before the end. -/
theorem add_width_le_next (h : v.get? offset = some a) : offset + width a ≤ v.next :=
  add_width_le_next_of_mem (mem_placed_of_get? h)

/-- No entry starts at a further slot of another. -/
theorem get?_eq_none_of_inside (hpos : ∀ a : α, 0 < width a) (h : v.get? offset = some a)
    {inside : Nat} (hlt : offset < inside) (hle : inside < offset + width a) :
    v.get? inside = none := by
  induction v using push_induction with
  | hempty start => rfl
  | hpush v b ih =>
      rw [get?_push] at h ⊢
      split at h
      · rename_i hnext
        rw [if_neg (by omega)]
        cases hother : v.get? inside with
        | none => rfl
        | some c =>
            have hbefore := lt_next_of_get?_eq_some hpos hother
            omega
      · have hbefore := add_width_le_next h
        rw [if_neg (by omega)]
        exact ih h

end JvmAssembler.SlotVec
