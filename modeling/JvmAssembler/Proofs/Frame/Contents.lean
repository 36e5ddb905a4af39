import JvmAssembler.Proofs.Frame.Monotone

/-! Two properties of frames that every instruction keeps: the second slot of a value is unusable,
and uninitialized objects were allocated where their type says. -/

namespace JvmAssembler

namespace Line

/-- What an instruction does to a frame, if it goes through. -/
theorem apply_cases {line : Line} {thisClass : BinaryName} {f f' : Frame}
    (h : line.apply thisClass f = .ok f') :
    f' = f ∨ ∃ c groups stack, line.instruction.effect = .change c ∧
      line.takeAll c.pops f.stack = .ok (groups, stack) ∧
      c.pushes.foldlM (line.push groups) (storePopped groups c.store
        (initializeReceiver thisClass groups c.initializes { f with stack := stack })) = .ok f' := by
  rw [apply] at h
  cases heffect : line.instruction.effect with
  | unchanged =>
      rw [heffect] at h
      cases h
      exact .inl rfl
  | change c =>
      rw [heffect] at h
      obtain ⟨⟨groups, stack⟩, htake, hpush⟩ := exists_of_bind_eq_ok h
      exact .inr ⟨c, groups, stack, rfl, htake, hpush⟩

/-- What is kept by each push is kept by all. -/
theorem pushAll_keeps {P : Frame → Prop} {line : Line} {groups : List (List Value)}
    {pushes : List Pushed} {f f' : Frame} (hf : P f)
    (hpush : ∀ pushed ∈ pushes, ∀ {g g' : Frame}, P g → line.push groups g pushed = .ok g' → P g')
    (h : pushes.foldlM (line.push groups) f = .ok f') : P f' := by
  induction pushes generalizing f with
  | nil =>
      cases h
      exact hf
  | cons pushed pushes ih =>
      rw [List.foldlM_cons] at h
      obtain ⟨f₁, hf₁, h⟩ := exists_of_bind_eq_ok h
      exact ih (hpush pushed List.mem_cons_self hf hf₁)
        (fun p hp => hpush p (List.mem_cons_of_mem _ hp)) h

/-- What is true of all values on the stack is true of those that are taken and of those that are
left. -/
theorem forall_take {P : Value → Prop} {line : Line} {e : Expectation} {needed : Nat}
    {taken group : List Value} {stack rest : SlotVec Value} (hstack : ∀ v ∈ stack.toList, P v)
    (htaken : ∀ v ∈ taken, P v) (h : line.take e needed taken stack = .ok (group, rest)) :
    (∀ v ∈ group, P v) ∧ ∀ v ∈ rest.toList, P v := by
  fun_induction Line.take line e needed taken stack with
  | case1 taken stack =>
      cases h
      exact ⟨htaken, hstack⟩
  | case2 => cases h
  | case3 needed taken stack hneeded value below hpop hfits ih =>
      rw [(SlotVec.toList_of_pop? hpop).1] at hstack
      refine ih (fun v hv => hstack v (List.mem_append_left _ hv)) ?_ h
      intro v hv
      rcases List.mem_cons.mp hv with rfl | hv
      · exact hstack v (List.mem_append_right _ List.mem_cons_self)
      · exact htaken v hv
  | case4 => cases h

theorem forall_takeAll {P : Value → Prop} {line : Line} {pops : List Expectation}
    {groups : List (List Value)} {stack rest : SlotVec Value} (hstack : ∀ v ∈ stack.toList, P v)
    (h : line.takeAll pops stack = .ok (groups, rest)) :
    (∀ group ∈ groups, ∀ v ∈ group, P v) ∧ ∀ v ∈ rest.toList, P v := by
  induction pops generalizing stack groups with
  | nil =>
      cases h
      exact ⟨fun _ hgroup => absurd hgroup List.not_mem_nil, hstack⟩
  | cons e pops ih =>
      obtain ⟨⟨group, stack₁⟩, htake, h⟩ := exists_of_bind_eq_ok h
      obtain ⟨⟨groups₁, stack₂⟩, htakeAll, h⟩ := exists_of_bind_eq_ok h
      cases h
      obtain ⟨hgroup, hstack₁⟩ := forall_take hstack (fun _ hv => absurd hv List.not_mem_nil) htake
      obtain ⟨hgroups, hrest⟩ := ih hstack₁ htakeAll
      refine ⟨?_, hrest⟩
      intro g hg
      rcases List.mem_cons.mp hg with rfl | hg
      · exact hgroup
      · exact hgroups g hg

theorem forall_getD {P : Value → Prop} {groups : List (List Value)}
    (h : ∀ group ∈ groups, ∀ v ∈ group, P v) (i : Nat) : ∀ v ∈ groups.getD i [], P v := by
  intro v hv
  rw [List.getD_eq_getElem?_getD] at hv
  cases hgroup : groups[i]? with
  | none =>
      rw [hgroup] at hv
      cases hv
  | some group =>
      rw [hgroup] at hv
      exact h group (List.mem_of_getElem? hgroup) v hv

end Line

/-- A value of two slots is followed by an unusable one. -/
def Frame.Paired (f : Frame) : Prop :=
  ∀ (i : Nat) (v : Value), f.locals[i]? = some v → v.width = 2 →
    ∃ w : Value, f.locals[i + 1]? = some w ∧ w.type = .top

namespace Frame.Paired

theorem setLocal {f : Frame} (h : f.Paired) (index : UInt16) (value : Value) :
    (f.setLocal index value).Paired := by
  intro i v hv hwidth
  rw [getElem?_setLocal] at hv ⊢
  have hunusable : Value.unusable.width ≠ 2 := by decide
  split at hv
  · rename_i hi
    cases hv
    refine ⟨Value.unusable, ?_, rfl⟩
    rw [if_neg (by omega), if_pos ⟨by omega, hwidth⟩]
  · rename_i hi
    split at hv
    · cases hv
      exact absurd hwidth hunusable
    · split at hv
      · cases hv
        exact absurd hwidth hunusable
      · rename_i hsecond hbroken
        split at hv
        · have hbefore : i + 1 ≠ index.toNat := by
            intro heq
            apply hbroken
            rw [Array.getD_eq_getD_getElem?, hv]
            exact ⟨heq, hwidth⟩
          obtain ⟨w, hw, htop⟩ := h i v hv hwidth
          obtain ⟨hlt, _⟩ := Array.getElem?_eq_some_iff.mp hw
          rw [if_neg hbefore]
          split
          · exact ⟨Value.unusable, rfl, rfl⟩
          · split
            · exact ⟨Value.unusable, rfl, rfl⟩
            · exact ⟨w, hw, htop⟩
        · split at hv
          · cases hv
            exact absurd hwidth hunusable
          · cases hv

theorem map {f : Frame} (h : f.Paired) {m : Value → Value} (hwidth : ∀ v, (m v).width = v.width)
    (htop : ∀ v : Value, v.type = .top → (m v).type = .top) : (f.map m).Paired := by
  intro i v hv hv₂
  simp only [Frame.map, Array.getElem?_map, Option.map_eq_some_iff] at hv ⊢
  obtain ⟨u, hu, rfl⟩ := hv
  rw [hwidth] at hv₂
  obtain ⟨w, hw, hunusable⟩ := h i u hu hv₂
  exact ⟨m w, ⟨w, hw, rfl⟩, htop w hunusable⟩

theorem markInitialized {f : Frame} (h : f.Paired) (type : ValueType) (thisClass : BinaryName) :
    (f.markInitialized type thisClass).Paired := by
  unfold Frame.markInitialized
  split
  · exact h
  · rename_i initialized hinit
    have htype : type.width = 1 ∧ initialized.width = 1 ∧ type ≠ .top := by
      cases type <;> cases hinit <;> exact ⟨rfl, rfl, nofun⟩
    refine h.map ?_ ?_
    · intro v
      split
      · rename_i heq
        show initialized.width = v.type.width
        rw [heq, htype.1, htype.2.1]
      · rfl
    · intro v hv
      rw [if_neg fun heq => htype.2.2 (heq.symm.trans hv)]
      exact hv

theorem join {f g : Frame} (h : f.Paired) : (f.join g).Paired := by
  intro i v hv hwidth
  rw [getElem?_join_locals, Option.map_eq_some_iff] at hv
  obtain ⟨u, hu, rfl⟩ := hv
  have hu₂ : u.width = 2 := by
    split at hwidth
    · rename_i w _
      have hle := ValueType.width_eq_of_sameShape
        (ValueType.sameShape_of_le (u.type.le_join_left w.type))
      exact hle.trans hwidth
    · exact hwidth
  obtain ⟨w, hw, htop⟩ := h i u hu hu₂
  rw [getElem?_join_locals, hw]
  refine ⟨_, rfl, ?_⟩
  dsimp only
  split
  · rw [Value.join, htop]
    rfl
  · exact htop

theorem of_locals_eq {f g : Frame} (h : f.Paired) (heq : g.locals = f.locals) : g.Paired := by
  intro i v hv
  rw [heq] at hv ⊢
  exact h i v hv

theorem apply {line : Line} {thisClass : BinaryName} {f f' : Frame} (h : f.Paired)
    (happly : line.apply thisClass f = .ok f') : f'.Paired := by
  rcases Line.apply_cases happly with rfl | ⟨c, groups, stack, _, _, hpushes⟩
  · exact h
  · refine Line.pushAll_keeps ?_
      (fun _ _ _ _ hg hpush => hg.of_locals_eq (Line.locals_of_push hpush)) hpushes
    have hpopped : Frame.Paired { f with stack := stack } := h
    have hinit : (Line.initializeReceiver thisClass groups c.initializes
        { f with stack := stack }).Paired := by
      unfold Line.initializeReceiver
      split
      · exact hpopped.markInitialized _ _
      · exact hpopped
    unfold Line.storePopped
    split
    · exact hinit.setLocal _ _
    · exact hinit

end Frame.Paired

/-- An uninitialized object has an owner and a place that belong together. -/
def ValueType.SitesIn (S : BinaryName → Nat → Prop) : ValueType → Prop
  | uninitialized owner site => S owner site
  | _ => True

/-- All uninitialized objects of a frame have owners and places that belong together. -/
structure Frame.SitesIn (S : BinaryName → Nat → Prop) (f : Frame) : Prop where
  locals : ∀ (i : Nat) (v : Value), f.locals[i]? = some v → v.type.SitesIn S
  stack : ∀ v ∈ f.stack.toList, v.type.SitesIn S

/-- The instruction allocates an object of a class. -/
def Line.Allocates (line : Line) (owner : BinaryName) : Prop :=
  line.instruction = .operation (.classUse .new (.classRef (.object owner)))

section Sites

variable {S : BinaryName → Nat → Prop}

theorem ValueType.sitesIn_join {s t : ValueType} (hs : s.SitesIn S) : (s.join t).SitesIn S := by
  unfold join
  split
  case h_2 a b => split <;> trivial
  case h_5 => exact hs
  all_goals trivial

namespace Frame.SitesIn

theorem push {f : Frame} (h : f.SitesIn S) {v : Value} (hv : v.type.SitesIn S) :
    (f.push v).SitesIn S where
  locals := h.locals
  stack := by
    intro w hw
    rw [Frame.push, SlotVec.toList_push] at hw
    rcases List.mem_append.mp hw with hw | hw
    · exact h.stack w hw
    · rw [List.mem_singleton.mp hw]
      exact hv

theorem foldl_push {values : List Value} (hvalues : ∀ v ∈ values, v.type.SitesIn S) {f : Frame}
    (h : f.SitesIn S) : (values.foldl Frame.push f).SitesIn S := by
  induction values generalizing f with
  | nil => exact h
  | cons v values ih =>
      exact ih (fun w hw => hvalues w (List.mem_cons_of_mem _ hw))
        (h.push (hvalues v List.mem_cons_self))

theorem setLocal {f : Frame} (h : f.SitesIn S) (index : UInt16) {value : Value}
    (hvalue : value.type.SitesIn S) : (f.setLocal index value).SitesIn S where
  stack := h.stack
  locals := by
    intro i v hv
    rw [getElem?_setLocal] at hv
    split at hv
    · cases hv
      exact hvalue
    · split at hv
      · cases hv
        trivial
      · split at hv
        · cases hv
          trivial
        · split at hv
          · exact h.locals i v hv
          · split at hv
            · cases hv
              trivial
            · cases hv

theorem map {f : Frame} (h : f.SitesIn S) {m : Value → Value}
    (hm : ∀ v : Value, v.type.SitesIn S → (m v).type.SitesIn S) : (f.map m).SitesIn S where
  locals := by
    intro i v hv
    simp only [Frame.map, Array.getElem?_map, Option.map_eq_some_iff] at hv
    obtain ⟨u, hu, rfl⟩ := hv
    exact hm u (h.locals i u hu)
  stack := by
    intro v hv
    simp only [Frame.map, SlotVec.toList_ofList] at hv
    obtain ⟨u, hu, rfl⟩ := List.mem_map.mp hv
    exact hm u (h.stack u hu)

theorem markInitialized {f : Frame} (h : f.SitesIn S) (type : ValueType)
    (thisClass : BinaryName) : (f.markInitialized type thisClass).SitesIn S := by
  unfold Frame.markInitialized
  split
  · exact h
  · rename_i initialized hinit
    have hinitialized : initialized.SitesIn S := by
      cases type <;> cases hinit <;> trivial
    refine h.map fun v hv => ?_
    split
    · exact hinitialized
    · exact hv

theorem join {f g : Frame} (h : f.SitesIn S) : (f.join g).SitesIn S where
  locals := by
    intro i v hv
    rw [getElem?_join_locals, Option.map_eq_some_iff] at hv
    obtain ⟨u, hu, rfl⟩ := hv
    have husites := h.locals i u hu
    split
    · exact ValueType.sitesIn_join husites
    · exact husites
  stack := by
    intro v hv
    rw [toList_join_stack] at hv
    obtain ⟨i, hi⟩ := List.mem_iff_getElem?.mp hv
    rw [List.getElem?_zipWith_eq_some] at hi
    obtain ⟨u, w, hu, _, rfl⟩ := hi
    exact ValueType.sitesIn_join (h.stack u (List.mem_of_getElem? hu))

theorem push_of_ok {line : Line} {groups : List (List Value)} {pushed : Pushed} {f f' : Frame}
    (hgroups : ∀ group ∈ groups, ∀ v ∈ group, v.type.SitesIn S)
    (hnew : ∀ owner, pushed = .uninitialized owner → S owner line.id) (h : f.SitesIn S)
    (hpush : line.push groups f pushed = .ok f') : f'.SitesIn S := by
  cases pushed with
  | popped position =>
      cases hpush
      exact foldl_push (Line.forall_getD hgroups position) h
  | fromLocal index expected =>
      obtain ⟨type, hload, hpush⟩ := exists_of_bind_eq_ok hpush
      cases hpush
      refine h.push ?_
      obtain ⟨hlocal, _⟩ := Line.loadLocal_eq_ok_iff.mp hload
      rw [Frame.local?] at hlocal
      cases hv : f.locals[index.toNat]? with
      | none =>
          rw [hv] at hlocal
          rw [← hlocal]
          trivial
      | some v =>
          rw [hv] at hlocal
          rw [← hlocal]
          exact h.locals _ v hv
  | uninitialized owner =>
      cases hpush
      exact h.push (hnew owner rfl)
  | _ =>
      cases hpush
      exact h.push trivial

/-- The only new uninitialized object is the one that an instruction allocates. -/
theorem apply {line : Line} {thisClass : BinaryName} {f f' : Frame} (h : f.SitesIn S)
    (hnew : ∀ owner, line.Allocates owner → S owner line.id)
    (happly : line.apply thisClass f = .ok f') : f'.SitesIn S := by
  rcases Line.apply_cases happly with rfl | ⟨c, groups, stack, heffect, htake, hpushes⟩
  · exact h
  · obtain ⟨hgroups, hstack⟩ := Line.forall_takeAll h.stack htake
    have hpopped : Frame.SitesIn S { f with stack := stack } := ⟨h.locals, hstack⟩
    have hinit : (Line.initializeReceiver thisClass groups c.initializes
        { f with stack := stack }).SitesIn S := by
      unfold Line.initializeReceiver
      split
      · exact hpopped.markInitialized _ _
      · exact hpopped
    have hstore : (Line.storePopped groups c.store (Line.initializeReceiver thisClass groups
        c.initializes { f with stack := stack })).SitesIn S := by
      unfold Line.storePopped
      split
      · rename_i index value _ hvalue
        exact hinit.setLocal _ (Line.forall_getD hgroups 0 value (List.mem_of_head? hvalue))
      · exact hinit
    refine Line.pushAll_keeps hstore (fun pushed hpushed g g' hg hpush => ?_) hpushes
    refine hg.push_of_ok hgroups (fun owner howner => ?_) hpush
    subst howner
    have hmem : Pushed.uninitialized owner ∈ line.instruction.effect.pushes := by
      rw [heffect]
      exact hpushed
    rcases Instruction.pushes_cases hmem with hplain | ⟨owner', hinsn, heq⟩ | ⟨_, _, _, _, heq⟩
    · cases hplain
    · cases heq
      exact hnew owner hinsn
    · cases heq

end Frame.SitesIn

end Sites

end JvmAssembler
