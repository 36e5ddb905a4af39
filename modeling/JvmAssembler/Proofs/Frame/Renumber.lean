import JvmAssembler.Proofs.Frame.Contents

/-! An instruction sees whether two uninitialized objects were allocated at the same place, but not
what the number of that place is. Where it goes through on a frame, it goes through on the frame
with other numbers for the places, as long as different places keep different numbers, and the
result is renumbered in the same way. -/

namespace JvmAssembler

namespace ValueType

/-- The type with another number for the place of an allocation. -/
def renumber (m : Nat → Nat) : ValueType → ValueType
  | uninitialized owner site => uninitialized owner (m site)
  | t => t

@[simp] theorem width_renumber (m : Nat → Nat) (t : ValueType) : (t.renumber m).width = t.width := by
  cases t <;> rfl

theorem renumber_eq_top {m : Nat → Nat} {t : ValueType} : t.renumber m = top ↔ t = top := by
  cases t <;> simp [renumber]

/-- Types are told apart as before if the places in them are. -/
theorem renumber_inj {m : Nat → Nat} {S : Nat → Prop} {s t : ValueType}
    (hm : ∀ {i j : Nat}, S i → S j → m i = m j → i = j)
    (hs : s.SitesIn fun _ => S) (ht : t.SitesIn fun _ => S) :
    s.renumber m = t.renumber m ↔ s = t := by
  refine ⟨fun h => ?_, fun h => congrArg _ h⟩
  cases s with
  | uninitialized owner i =>
      cases t with
      | uninitialized owner' j =>
          simp only [renumber, uninitialized.injEq] at h
          rw [h.1, hm hs ht h.2]
      | _ => simp [renumber] at h
  | _ => cases t <;> simp_all [renumber]

end ValueType

theorem Expectation.accepts_renumber (e : Expectation) (m : Nat → Nat) (t : ValueType) :
    e.accepts (t.renumber m) = e.accepts t := by
  cases e <;> cases t <;> rfl

/-- The value with other numbers for instructions. -/
def Value.renumber (m : Nat → Nat) (v : Value) : Value := ⟨v.type.renumber m, v.producer.map m⟩

@[simp] theorem Value.width_renumber (m : Nat → Nat) (v : Value) :
    (v.renumber m).width = v.width := v.type.width_renumber m

@[simp] theorem Value.renumber_unusable (m : Nat → Nat) : unusable.renumber m = unusable := rfl

namespace SlotVec

variable {α : Type} [HasWidth α]

theorem ofList_append_singleton (values : List α) (a : α) :
    ofList (values ++ [a]) = (ofList values).push a := by
  simp [ofList, append]

/-- The stack with other numbers for instructions. -/
def renumber (m : Nat → Nat) (stack : SlotVec Value) : SlotVec Value :=
  .ofList (stack.toList.map (Value.renumber m))

theorem renumber_push (m : Nat → Nat) (stack : SlotVec Value) (v : Value) :
    (stack.push v).renumber m = (stack.renumber m).push (v.renumber m) := by
  rw [renumber, toList_push, List.map_append, List.map_singleton, ofList_append_singleton]
  rfl

theorem pop?_renumber {m : Nat → Nat} {stack rest : SlotVec Value} {v : Value}
    (h : stack.pop? = some (v, rest)) :
    (stack.renumber m).pop? = some (v.renumber m, rest.renumber m) := by
  rw [renumber, (toList_of_pop? h).1, List.map_append, List.map_singleton,
    ofList_append_singleton, pop?_push]
  rfl

end SlotVec

namespace Frame

/-- The frame with other numbers for instructions. -/
def renumber (m : Nat → Nat) (f : Frame) : Frame := f.map (Value.renumber m)

@[simp] theorem stack_renumber (m : Nat → Nat) (f : Frame) :
    (f.renumber m).stack = f.stack.renumber m := rfl

theorem getElem?_renumber_locals (m : Nat → Nat) (f : Frame) (i : Nat) :
    (f.renumber m).locals[i]? = f.locals[i]?.map (Value.renumber m) := by
  simp [renumber, map]

theorem renumber_push (m : Nat → Nat) (f : Frame) (v : Value) :
    (f.push v).renumber m = (f.renumber m).push (v.renumber m) := by
  have hstack := SlotVec.renumber_push m f.stack v
  rw [push, renumber, map]
  exact congrArg (Frame.mk _) hstack

theorem renumber_foldl_push (m : Nat → Nat) (values : List Value) (f : Frame) :
    (values.foldl push f).renumber m =
      (values.map (Value.renumber m)).foldl push (f.renumber m) := by
  induction values generalizing f with
  | nil => rfl
  | cons v values ih => rw [List.foldl_cons, ih, renumber_push, List.map_cons, List.foldl_cons]

theorem renumber_setLocal (m : Nat → Nat) (f : Frame) (index : UInt16) (v : Value) :
    (f.setLocal index v).renumber m = (f.renumber m).setLocal index (v.renumber m) := by
  have hsize : (f.renumber m).locals.size = f.locals.size := by simp [renumber, map]
  have hlocals : ((f.setLocal index v).renumber m).locals =
      ((f.renumber m).setLocal index (v.renumber m)).locals := by
    apply Array.ext_getElem?
    intro j
    have hgetD : ((f.renumber m).locals.getD j Value.unusable).width =
        (f.locals.getD j Value.unusable).width := by
      rw [Array.getD_eq_getD_getElem?, Array.getD_eq_getD_getElem?, getElem?_renumber_locals]
      cases f.locals[j]? with
      | none => rfl
      | some w => exact w.width_renumber m
    rw [getElem?_renumber_locals, getElem?_setLocal, getElem?_setLocal, getElem?_renumber_locals,
      hgetD, hsize, Value.width_renumber]
    repeat' split
    all_goals rfl
  exact congrArg (Frame.mk · _) hlocals

/-- The copies of an object are found as before, if the places are told apart as before. -/
theorem renumber_markInitialized {m : Nat → Nat} {S : Nat → Prop} {f : Frame}
    {type : ValueType}
    (hm : ∀ {i j : Nat}, S i → S j → m i = m j → i = j)
    (hf : f.SitesIn fun _ => S) (htype : type.SitesIn fun _ => S) (thisClass : BinaryName) :
    (f.markInitialized type thisClass).renumber m =
      (f.renumber m).markInitialized (type.renumber m) thisClass := by
  have hinit : initializedType? thisClass (type.renumber m) = initializedType? thisClass type := by
    cases type <;> rfl
  rw [markInitialized, markInitialized, hinit]
  cases hcase : initializedType? thisClass type with
  | none => rfl
  | some initialized =>
      have hplain : initialized.renumber m = initialized := by
        cases type <;> cases hcase <;> rfl
      have hvalue : ∀ v : Value, v.type.SitesIn (fun _ => S) →
          (if v.type = type then { v with type := initialized } else v).renumber m =
            if (v.renumber m).type = type.renumber m then
              { v.renumber m with type := initialized }
            else v.renumber m := by
        intro v hv
        have hiff : (v.renumber m).type = type.renumber m ↔ v.type = type :=
          ValueType.renumber_inj hm hv htype
        by_cases heq : v.type = type
        · rw [if_pos heq, if_pos (hiff.mpr heq), Value.renumber, hplain]
          rfl
        · rw [if_neg heq, if_neg (fun h => heq (hiff.mp h))]
      have hlocals : ((f.locals.map fun v : Value =>
          if v.type = type then { v with type := initialized } else v).map (Value.renumber m)) =
            (f.locals.map (Value.renumber m)).map fun v : Value =>
              if v.type = type.renumber m then { v with type := initialized } else v := by
        rw [Array.map_map, Array.map_map]
        refine Array.map_congr_left fun v hv => ?_
        obtain ⟨i, hi⟩ := Array.mem_iff_getElem?.mp hv
        exact hvalue v (hf.locals i v hi)
      have hstack : ((f.stack.toList.map fun v : Value =>
          if v.type = type then { v with type := initialized } else v).map (Value.renumber m)) =
            (f.stack.toList.map (Value.renumber m)).map fun v : Value =>
              if v.type = type.renumber m then { v with type := initialized } else v := by
        rw [List.map_map, List.map_map]
        exact List.map_congr_left fun v hv => hvalue v (hf.stack v hv)
      simp only [renumber, map, SlotVec.toList_ofList, hlocals, hstack]

end Frame

namespace Line

/-- The instruction with another number. -/
def renumber (m : Nat → Nat) (line : Line) : Line := { line with id := m line.id }

variable {m : Nat → Nat} {line : Line}

theorem take_renumber {e : Expectation} {needed : Nat} {taken group : List Value}
    {stack rest : SlotVec Value} (h : line.take e needed taken stack = .ok (group, rest)) :
    (line.renumber m).take e needed (taken.map (Value.renumber m)) (stack.renumber m) =
      .ok (group.map (Value.renumber m), rest.renumber m) := by
  fun_induction Line.take line e needed taken stack with
  | case1 taken stack =>
      cases h
      rw [take, if_pos rfl]
  | case2 => cases h
  | case3 needed taken stack hneeded value below hpop hfits ih =>
      have hfits' : fits e needed (value.renumber m) = true := by
        cases e with
        | slots count => rwa [fits, Value.width_renumber]
        | _ =>
            simp only [fits] at hfits ⊢
            exact (Expectation.accepts_renumber _ m value.type).trans hfits
      rw [take, if_neg hneeded, SlotVec.pop?_renumber hpop]
      simp only [hfits', if_true, Value.width_renumber]
      exact ih h
  | case4 => cases h

theorem takeAll_renumber {pops : List Expectation} {groups : List (List Value)}
    {stack rest : SlotVec Value} (h : line.takeAll pops stack = .ok (groups, rest)) :
    (line.renumber m).takeAll pops (stack.renumber m) =
      .ok (groups.map (List.map (Value.renumber m)), rest.renumber m) := by
  induction pops generalizing stack groups with
  | nil =>
      cases h
      rfl
  | cons e pops ih =>
      obtain ⟨⟨group, stack₁⟩, htake, h⟩ := exists_of_bind_eq_ok h
      obtain ⟨⟨groups₁, stack₂⟩, htakeAll, h⟩ := exists_of_bind_eq_ok h
      cases h
      have htake' := take_renumber (m := m) htake
      rw [List.map_nil] at htake'
      simp only [takeAll, htake', ih htakeAll, bind, Except.bind]
      rfl

theorem getD_map_renumber (groups : List (List Value)) (i : Nat) :
    (groups.map (List.map (Value.renumber m))).getD i [] =
      (groups.getD i []).map (Value.renumber m) := by
  rw [List.getD_eq_getElem?_getD, List.getD_eq_getElem?_getD, List.getElem?_map]
  cases groups[i]? <;> rfl

theorem loadLocal_renumber {f : Frame} {index : UInt16} {expected : Expectation}
    {type : ValueType} (h : line.loadLocal f index expected = .ok type) :
    (line.renumber m).loadLocal (f.renumber m) index expected = .ok (type.renumber m) := by
  obtain ⟨hlocal, haccepts⟩ := loadLocal_eq_ok_iff.mp h
  refine loadLocal_eq_ok_iff.mpr ⟨?_, (expected.accepts_renumber m type).trans haccepts⟩
  rw [Frame.local?, Frame.getElem?_renumber_locals, ← hlocal, Frame.local?]
  cases f.locals[index.toNat]? <;> rfl

theorem push_renumber {groups : List (List Value)} {f f' : Frame} {pushed : Pushed}
    (h : line.push groups f pushed = .ok f') :
    (line.renumber m).push (groups.map (List.map (Value.renumber m))) (f.renumber m) pushed =
      .ok (f'.renumber m) := by
  cases pushed with
  | popped position =>
      cases h
      rw [push, getD_map_renumber, Frame.renumber_foldl_push]
  | fromLocal index expected =>
      obtain ⟨type, hload, h⟩ := exists_of_bind_eq_ok h
      cases h
      rw [push, loadLocal_renumber hload, Frame.renumber_push]
      rfl
  | _ =>
      cases h
      rw [push, Frame.renumber_push]
      rfl

theorem pushAll_renumber {groups : List (List Value)} {f f' : Frame} {pushes : List Pushed}
    (h : pushes.foldlM (line.push groups) f = .ok f') :
    pushes.foldlM ((line.renumber m).push (groups.map (List.map (Value.renumber m))))
      (f.renumber m) = .ok (f'.renumber m) := by
  induction pushes generalizing f with
  | nil =>
      cases h
      rfl
  | cons pushed pushes ih =>
      rw [List.foldlM_cons] at h ⊢
      obtain ⟨f₁, hf₁, h⟩ := exists_of_bind_eq_ok h
      rw [push_renumber hf₁]
      exact ih h

theorem storePopped_renumber (groups : List (List Value)) (index : Option UInt16) (f : Frame) :
    storePopped (groups.map (List.map (Value.renumber m))) index (f.renumber m) =
      (storePopped groups index f).renumber m := by
  cases index with
  | none => rfl
  | some index =>
      simp only [storePopped, getD_map_renumber, List.head?_map]
      cases (groups.getD 0 []).head? with
      | none => rfl
      | some v => exact (Frame.renumber_setLocal m f index v).symm

variable {S : Nat → Prop}

theorem initializeReceiver_renumber
    (hm : ∀ {i j : Nat}, S i → S j → m i = m j → i = j)
    {groups : List (List Value)} {f : Frame} (hf : f.SitesIn fun _ => S)
    (hgroups : ∀ group ∈ groups, ∀ v ∈ group, v.type.SitesIn fun _ => S) (thisClass : BinaryName)
    (position : Option Nat) :
    initializeReceiver thisClass (groups.map (List.map (Value.renumber m))) position
        (f.renumber m) =
      (initializeReceiver thisClass groups position f).renumber m := by
  cases position with
  | none => rfl
  | some i =>
      simp only [initializeReceiver, Option.bind_some, getD_map_renumber, List.head?_map]
      cases hhead : (groups.getD i []).head? with
      | none => rfl
      | some receiver =>
          have hreceiver := forall_getD hgroups i receiver (List.mem_of_head? hhead)
          exact (Frame.renumber_markInitialized hm hf hreceiver thisClass).symm

/-- An instruction does the same to renumbered frames. -/
theorem apply_renumber
    (hm : ∀ {i j : Nat}, S i → S j → m i = m j → i = j)
    {thisClass : BinaryName} {f f' : Frame} (hf : f.SitesIn fun _ => S)
    (h : line.apply thisClass f = .ok f') :
    (line.renumber m).apply thisClass (f.renumber m) = .ok (f'.renumber m) := by
  have heffect : (line.renumber m).instruction.effect = line.instruction.effect := rfl
  rw [apply] at h ⊢
  rw [heffect]
  cases hchange : line.instruction.effect with
  | unchanged =>
      rw [hchange] at h
      cases h
      rfl
  | change c =>
      rw [hchange] at h
      obtain ⟨⟨groups, stack⟩, htake, h⟩ := exists_of_bind_eq_ok h
      obtain ⟨hgroups, hstack⟩ := forall_takeAll hf.stack htake
      have hpopped : Frame.SitesIn (fun _ => S) { f with stack := stack } := ⟨hf.locals, hstack⟩
      have hinit := initializeReceiver_renumber hm hpopped hgroups thisClass c.initializes
      have hpushes := pushAll_renumber (m := m) h
      rw [← storePopped_renumber, ← hinit] at hpushes
      simp only [applyChange, Frame.stack_renumber, takeAll_renumber htake, bind, Except.bind]
      exact hpushes

end Line

end JvmAssembler
