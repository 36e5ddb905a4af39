import JvmAssembler.Proofs.Frame.Contents

/-! In a well-formed frame every long or double in a local is followed by an unusable slot, no stack
entry is unusable, and stack entries stand at the running sums of the widths below them.
Instructions and joins keep this. -/

namespace JvmAssembler

theorem ValueType.width_eq_two_iff (type : ValueType) :
    type.width = 2 ↔ type = .numeric .long ∨ type = .numeric .double := by
  cases type with
  | numeric kind => cases kind <;> decide
  | _ => simp [width]

namespace Frame

structure WellFormed (f : Frame) : Prop where
  /-- A long or double in a local is followed by an unusable slot. -/
  paired : ∀ (i : Nat) (v : Value), f.locals[i]? = some v →
    v.type = .numeric .long ∨ v.type = .numeric .double →
      ∃ w : Value, f.locals[i + 1]? = some w ∧ w.type = .top
  /-- No stack entry is unusable. -/
  usable : ∀ v ∈ f.stack.toList, v.type ≠ .top
  /-- Each stack entry stands at the sum of the widths below it. -/
  offsets : ∀ i : Nat, f.stack.placed[i]? =
    f.stack.toList[i]?.map fun v => (totalWidth (f.stack.toList.take i), v)
  /-- The depth is the sum of all widths. -/
  depth_eq : f.depth = totalWidth f.stack.toList

/-- No entry of the stack is unusable. -/
def UsableStack (f : Frame) : Prop := ∀ v ∈ f.stack.toList, v.type ≠ .top

variable {f f' g : Frame}

theorem depth_eq_totalWidth (h : f.stack.start = 0) : f.depth = totalWidth f.stack.toList := by
  rw [depth, f.stack.next_eq_toList, h, Nat.zero_add]

/-- Running offsets need nothing but a stack that starts at slot 0. -/
theorem wellFormed_iff :
    f.WellFormed ↔ f.Paired ∧ f.UsableStack ∧ f.stack.start = 0 := by
  constructor
  · intro h
    refine ⟨fun i v hv hwidth => ?_, h.usable, ?_⟩
    · exact h.paired i v hv (v.type.width_eq_two_iff.mp hwidth)
    · have hdepth := h.depth_eq
      rw [depth, f.stack.next_eq_toList] at hdepth
      omega
  · rintro ⟨hpaired, husable, hstart⟩
    refine ⟨fun i v hv hwide => ?_, husable, fun i => ?_, depth_eq_totalWidth hstart⟩
    · exact hpaired i v hv (v.type.width_eq_two_iff.mpr hwide)
    · rw [SlotVec.getElem?_placed, hstart]
      simp only [Nat.zero_add]

namespace UsableStack

theorem push {v : Value} (h : f.UsableStack) (hv : v.type ≠ .top) : (f.push v).UsableStack := by
  intro w hw
  rw [Frame.push, SlotVec.toList_push] at hw
  rcases List.mem_append.mp hw with hw | hw
  · exact h w hw
  · rw [List.mem_singleton.mp hw]
    exact hv

theorem foldl_push {values : List Value} (hvalues : ∀ v ∈ values, v.type ≠ .top)
    (h : f.UsableStack) : (values.foldl Frame.push f).UsableStack := by
  induction values generalizing f with
  | nil => exact h
  | cons v values ih =>
      exact ih (fun w hw => hvalues w (List.mem_cons_of_mem _ hw))
        (h.push (hvalues v List.mem_cons_self))

theorem markInitialized (h : f.UsableStack) (type : ValueType) (thisClass : BinaryName) :
    (f.markInitialized type thisClass).UsableStack := by
  unfold Frame.markInitialized
  split
  · exact h
  · rename_i initialized hinit
    have hinitialized : initialized ≠ .top := by
      intro htop
      subst htop
      cases type <;> cases hinit
    intro w hw
    rw [Frame.map, SlotVec.toList_ofList] at hw
    obtain ⟨v, hv, rfl⟩ := List.mem_map.mp hw
    split
    · exact hinitialized
    · exact h v hv

theorem join (h : f.UsableStack) : (f.join g).UsableStack := by
  intro w hw
  rw [toList_join_stack] at hw
  obtain ⟨i, hi⟩ := List.mem_iff_getElem?.mp hw
  rw [List.getElem?_zipWith_eq_some] at hi
  obtain ⟨u, v, hu, _, rfl⟩ := hi
  intro htop
  have hshape := ValueType.sameShape_of_le (u.type.le_join_left v.type)
  rw [ValueType.sameShape_comm, show u.type.join v.type = .top from htop] at hshape
  exact h u (List.mem_of_getElem? hu) (ValueType.eq_top_of_sameShape hshape)

theorem push_of_ok {line : Line} {groups : List (List Value)} {pushed : Pushed}
    (h : f.UsableStack) (hgroups : ∀ group ∈ groups, ∀ v ∈ group, v.type ≠ .top)
    (hpushed : pushed.RejectsTop) (hpush : line.push groups f pushed = .ok f') :
    f'.UsableStack := by
  cases pushed with
  | popped position =>
      cases hpush
      exact foldl_push (Line.forall_getD hgroups position) h
  | fromLocal index expected =>
      obtain ⟨type, hload, hpush⟩ := exists_of_bind_eq_ok hpush
      cases hpush
      refine h.push ?_
      rintro rfl
      have haccepts := (Line.loadLocal_eq_ok_iff.mp hload).2
      rw [hpushed] at haccepts
      cases haccepts
  | _ =>
      cases hpush
      exact h.push (by simp)

/-- What an instruction puts on the stack can be used. -/
theorem apply {line : Line} {thisClass : BinaryName} (h : f.UsableStack)
    (happly : line.apply thisClass f = .ok f') : f'.UsableStack := by
  rcases Line.apply_cases happly with rfl | ⟨c, groups, stack, heffect, htake, hpushes⟩
  · exact h
  · obtain ⟨hgroups, hstack⟩ := Line.forall_takeAll (P := fun v => v.type ≠ .top) h htake
    have hpopped : Frame.UsableStack { f with stack := stack } := hstack
    have hinit : (Line.initializeReceiver thisClass groups c.initializes
        { f with stack := stack }).UsableStack := by
      unfold Line.initializeReceiver
      split
      · exact hpopped.markInitialized _ _
      · exact hpopped
    have hstore : (Line.storePopped groups c.store (Line.initializeReceiver thisClass groups
        c.initializes { f with stack := stack })).UsableStack := by
      unfold Line.storePopped
      split
      · intro v hv
        rw [stack_setLocal] at hv
        exact hinit v hv
      · exact hinit
    refine Line.pushAll_keeps hstore (fun pushed hpushed g g' hg hpush => ?_) hpushes
    refine hg.push_of_ok hgroups (line.instruction.rejectsTop_of_pushes ?_) hpush
    rw [heffect]
    exact hpushed

end UsableStack

namespace WellFormed

theorem apply {line : Line} {thisClass : BinaryName} (h : f.WellFormed)
    (happly : line.apply thisClass f = .ok f') : f'.WellFormed := by
  obtain ⟨hpaired, husable, hstart⟩ := wellFormed_iff.mp h
  obtain ⟨_, _, hrelated, _⟩ := Line.apply_related .le (.refl .le hstart) happly
  exact wellFormed_iff.mpr ⟨hpaired.apply happly, husable.apply happly, hrelated.stack.start_right⟩

theorem join (h : f.WellFormed) : (f.join g).WellFormed := by
  obtain ⟨hpaired, husable, _⟩ := wellFormed_iff.mp h
  exact wellFormed_iff.mpr ⟨hpaired.join, husable.join, SlotVec.start_ofList _⟩

end WellFormed

end Frame

end JvmAssembler
