import JvmAssembler.Proofs.Frame.Contents
import JvmAssembler.Proofs.SlotVec

/-! An instruction that goes through changes the depth of the stack by a number of slots that hangs
on the instruction alone. No instruction adds more than two slots. -/

namespace JvmAssembler

theorem totalWidth_append {α : Type} [HasWidth α] (values others : List α) :
    totalWidth (values ++ others) = totalWidth values + totalWidth others :=
  total_append width values others

theorem SlotVec.next_of_pop? {α : Type} [HasWidth α] {v rest : SlotVec α} {a : α}
    (h : v.pop? = some (a, rest)) : rest.next + width a = v.next := by
  obtain ⟨htoList, hstart⟩ := toList_of_pop? h
  have htotal : totalWidth (rest.toList ++ [a]) = totalWidth rest.toList + width a := by
    simp [totalWidth]
  rw [v.next_eq_toList, rest.next_eq_toList, htoList, hstart, htotal, Nat.add_assoc]

/-- A value of an expected type takes the expected slots. -/
theorem Expectation.width_of_accepts {e : Expectation} {type : ValueType}
    (h : e.accepts type = true) : type.width = e.width := by
  cases e with
  | slots count => exact beq_iff_eq.mp h
  | numeric kind =>
      cases type with
      | numeric other =>
          simp only [accepts, ValueType.numeric?, beq_iff_eq, Option.some.injEq] at h
          rw [h]
          rfl
      | _ => cases h
  | _ =>
      cases type with
      | numeric _ => cases h
      | _ => rfl

namespace Line

variable {line : Line} {thisClass : BinaryName}

/-- Several values are taken for an expectation only if it is one of slots. -/
def Divides (e : Expectation) (needed : Nat) : Prop :=
  needed = 0 ∨ needed = e.width ∨ ∃ count, e = .slots count

theorem width_of_fits {e : Expectation} {needed : Nat} {v : Value} (h : fits e needed v = true) :
    (∃ count, e = .slots count) ∧ v.width ≤ needed ∨ v.width = e.width := by
  unfold fits at h
  split at h
  · rename_i count
    exact .inl ⟨⟨count, rfl⟩, of_decide_eq_true h⟩
  · exact .inr (Expectation.width_of_accepts h)

theorem Divides.sub {e : Expectation} {needed : Nat} {v : Value} (h : Divides e needed)
    (hneeded : needed ≠ 0) (hfits : fits e needed v = true) :
    v.width ≤ needed ∧ Divides e (needed - v.width) := by
  rcases h.resolve_left hneeded with hall | ⟨count, rfl⟩
  · rcases width_of_fits hfits with ⟨hslots, hle⟩ | hwidth
    · exact ⟨hle, .inr (.inr hslots)⟩
    · exact ⟨by omega, .inl (by omega)⟩
  · exact ⟨of_decide_eq_true hfits, .inr (.inr ⟨count, rfl⟩)⟩

/-- The values that are taken take as many slots as are needed. -/
theorem width_of_take {e : Expectation} {needed : Nat} {taken group : List Value}
    {stack rest : SlotVec Value} (hdivides : Divides e needed)
    (h : line.take e needed taken stack = .ok (group, rest)) :
    totalWidth group = totalWidth taken + needed ∧ rest.next + needed = stack.next ∧
      rest.start = stack.start := by
  fun_induction Line.take line e needed taken stack with
  | case1 taken stack =>
      cases h
      exact ⟨rfl, rfl, rfl⟩
  | case2 => cases h
  | case3 needed taken stack hneeded value below hpop hfits ih =>
      obtain ⟨hle, hdivides'⟩ := hdivides.sub hneeded hfits
      obtain ⟨hgroup, hrest, hstart⟩ := ih hdivides' h
      have hbelow : below.next + value.width = stack.next := SlotVec.next_of_pop? hpop
      have htaken : totalWidth (value :: taken) = value.width + totalWidth taken := rfl
      exact ⟨by omega, by omega, hstart.trans (SlotVec.toList_of_pop? hpop).2.symm⟩
  | case4 => cases h

theorem width_of_takeAll {pops : List Expectation} {groups : List (List Value)}
    {stack rest : SlotVec Value} (h : line.takeAll pops stack = .ok (groups, rest)) :
    List.Forall₂ (fun e group => totalWidth group = Expectation.width e) pops groups ∧
      rest.next + total Expectation.width pops = stack.next ∧ rest.start = stack.start := by
  induction pops generalizing stack groups with
  | nil =>
      cases h
      exact ⟨.nil, rfl, rfl⟩
  | cons e pops ih =>
      obtain ⟨⟨group, stack₁⟩, htake, h⟩ := exists_of_bind_eq_ok h
      obtain ⟨⟨groups₁, stack₂⟩, htakeAll, h⟩ := exists_of_bind_eq_ok h
      cases h
      obtain ⟨hgroup, hstack, hstart⟩ := width_of_take (.inr (.inl rfl)) htake
      obtain ⟨hgroups, hrest, hstart'⟩ := ih htakeAll
      rw [totalWidth_nil, Nat.zero_add] at hgroup
      rw [total_cons]
      exact ⟨.cons hgroup hgroups, by omega, hstart'.trans hstart⟩

/-- One value is taken for an expectation that is not one of slots. -/
theorem take_one {e : Expectation} (he : ∀ count, e ≠ .slots count) {group : List Value}
    {stack rest : SlotVec Value} (h : line.take e e.width [] stack = .ok (group, rest)) :
    ∃ v : Value, group = [v] ∧ e.accepts v.type = true := by
  have hpos : 0 < e.width := by
    cases e with
    | slots count => exact absurd rfl (he count)
    | numeric kind => cases kind <;> decide
    | _ => exact Nat.one_pos
  rw [take, if_neg (by omega)] at h
  split at h
  · cases h
  · rename_i v below _
    split at h
    · rename_i hfits
      have haccepts : e.accepts v.type = true := by
        cases e with
        | slots count => exact absurd rfl (he count)
        | _ => exact hfits
      have hwidth : v.width = e.width := Expectation.width_of_accepts haccepts
      rw [hwidth, Nat.sub_self, take, if_pos rfl] at h
      cases h
      exact ⟨v, rfl, haccepts⟩
    · cases h

/-- The values that are taken come out in the order of the stack. -/
theorem toList_of_take {e : Expectation} {needed : Nat} {taken group : List Value}
    {stack rest : SlotVec Value} (h : line.take e needed taken stack = .ok (group, rest)) :
    ∃ values, group = values ++ taken ∧ stack.toList = rest.toList ++ values := by
  fun_induction Line.take line e needed taken stack with
  | case1 taken stack =>
      cases h
      exact ⟨[], rfl, (List.append_nil _).symm⟩
  | case2 => cases h
  | case3 needed taken stack hneeded value below hpop hfits ih =>
      obtain ⟨values, rfl, hbelow⟩ := ih h
      refine ⟨values ++ [value], by simp, ?_⟩
      rw [(SlotVec.toList_of_pop? hpop).1, hbelow, List.append_assoc]
  | case4 => cases h

/-- Each group lies below the one taken before it. -/
theorem toList_of_takeAll {pops : List Expectation} {groups : List (List Value)}
    {stack rest : SlotVec Value} (h : line.takeAll pops stack = .ok (groups, rest)) :
    stack.toList = rest.toList ++ groups.reverse.flatten := by
  induction pops generalizing stack groups with
  | nil =>
      cases h
      exact (List.append_nil _).symm
  | cons e pops ih =>
      obtain ⟨⟨group, stack₁⟩, htake, h⟩ := exists_of_bind_eq_ok h
      obtain ⟨⟨groups₁, stack₂⟩, htakeAll, h⟩ := exists_of_bind_eq_ok h
      cases h
      obtain ⟨values, hgroup, hstack⟩ := toList_of_take htake
      rw [List.append_nil] at hgroup
      rw [hstack, ih htakeAll, hgroup, List.reverse_cons, List.flatten_append, List.append_assoc,
        List.flatten_singleton]

theorem toList_foldl_push (values : List Value) (f : Frame) :
    (values.foldl Frame.push f).stack.toList = f.stack.toList ++ values := by
  induction values generalizing f with
  | nil => exact (List.append_nil _).symm
  | cons v values ih => rw [List.foldl_cons, ih, Frame.push, SlotVec.toList_push, List.append_assoc,
      List.singleton_append]

theorem depth_foldl_push (values : List Value) (f : Frame) :
    (values.foldl Frame.push f).depth = f.depth + totalWidth values := by
  induction values generalizing f with
  | nil => rfl
  | cons v values ih =>
      have hpush : (f.push v).depth = f.depth + v.width := rfl
      rw [List.foldl_cons, ih, hpush, totalWidth_cons, Nat.add_assoc]
      rfl

theorem width_getD_of_forall₂ {pops : List Expectation} {groups : List (List Value)}
    (h : List.Forall₂ (fun e group => totalWidth group = Expectation.width e) pops groups)
    (position : Nat) :
    totalWidth (groups.getD position []) = (pops[position]?.map Expectation.width).getD 0 := by
  induction h generalizing position with
  | nil => rfl
  | cons hfirst _ ih =>
      cases position with
      | zero => exact hfirst
      | succ position => simpa using ih position

theorem depth_of_push {pops : List Expectation} {groups : List (List Value)} {f f' : Frame}
    {pushed : Pushed}
    (hgroups : List.Forall₂ (fun e group => totalWidth group = Expectation.width e) pops groups)
    (h : line.push groups f pushed = .ok f') :
    f'.depth = f.depth + Change.pushedWidth pops pushed := by
  cases pushed with
  | popped position =>
      cases h
      rw [depth_foldl_push, width_getD_of_forall₂ hgroups]
      rfl
  | fromLocal index expected =>
      obtain ⟨type, hload, hpush⟩ := exists_of_bind_eq_ok h
      cases hpush
      have hwidth := Expectation.width_of_accepts (loadLocal_eq_ok_iff.mp hload).2
      exact congrArg (f.depth + ·) hwidth
  | _ =>
      cases h
      rfl

theorem depth_of_pushAll {pops : List Expectation} {groups : List (List Value)} {f f' : Frame}
    {pushes : List Pushed}
    (hgroups : List.Forall₂ (fun e group => totalWidth group = Expectation.width e) pops groups)
    (h : pushes.foldlM (line.push groups) f = .ok f') :
    f'.depth = f.depth + total (Change.pushedWidth pops) pushes := by
  induction pushes generalizing f with
  | nil =>
      cases h
      rfl
  | cons pushed pushes ih =>
      rw [List.foldlM_cons] at h
      obtain ⟨f₁, hpush, h⟩ := exists_of_bind_eq_ok h
      rw [ih h, depth_of_push hgroups hpush, total_cons, Nat.add_assoc]

theorem depth_markInitialized {f : Frame} (h : f.stack.start = 0) (type : ValueType) :
    (f.markInitialized type thisClass).depth = f.depth := by
  unfold Frame.markInitialized
  split
  · rfl
  · rename_i initialized hinit
    have hone : type.width = 1 ∧ initialized.width = 1 := by
      cases type <;> cases hinit <;> exact ⟨rfl, rfl⟩
    have hmap : ∀ values : List Value, totalWidth (values.map fun value =>
        if value.type = type then { value with type := initialized } else value) =
          totalWidth values := by
      intro values
      induction values with
      | nil => rfl
      | cons v values ih =>
          rw [List.map_cons, totalWidth_cons, totalWidth_cons, ih]
          by_cases hv : v.type = type
          · have hwidth : v.type.width = initialized.width := by rw [hv, hone.1, hone.2]
            simp only [hv, if_true]
            exact congrArg (· + totalWidth values) hwidth.symm
          · rw [if_neg hv]
    rw [Frame.depth, Frame.depth, SlotVec.next_eq_toList, SlotVec.next_eq_toList, h, Frame.map,
      SlotVec.start_ofList, SlotVec.toList_ofList, hmap]

theorem depth_initializeReceiver {f : Frame} (h : f.stack.start = 0)
    (groups : List (List Value)) (position : Option Nat) :
    (initializeReceiver thisClass groups position f).depth = f.depth := by
  unfold initializeReceiver
  split
  · exact depth_markInitialized h _
  · rfl

theorem depth_storePopped (groups : List (List Value)) (index : Option UInt16) (f : Frame) :
    (storePopped groups index f).depth = f.depth := by
  unfold storePopped
  split <;> rfl

/-- An instruction changes the depth of the stack by its own number of slots. -/
theorem depth_of_apply {f f' : Frame} (hstart : f.stack.start = 0)
    (h : line.apply thisClass f = .ok f') :
    (f'.depth : Int) = f.depth + line.instruction.effect.slotDelta := by
  rw [apply] at h
  cases heffect : line.instruction.effect with
  | unchanged =>
      rw [heffect] at h
      cases h
      exact (Int.add_zero _).symm
  | change c =>
      rw [heffect] at h
      obtain ⟨⟨groups, stack⟩, htake, hpushes⟩ := exists_of_bind_eq_ok h
      obtain ⟨hgroups, hrest, hstart'⟩ := width_of_takeAll htake
      have hafter := depth_of_pushAll hgroups hpushes
      rw [depth_storePopped, depth_initializeReceiver (hstart'.trans hstart)] at hafter
      have hbefore : stack.next + total Expectation.width c.pops = f.depth := hrest
      have hpopped : Frame.depth { f with stack := stack } = stack.next := rfl
      rw [Effect.slotDelta, Change.slotDelta]
      omega

end Line

/-- One value is put on the stack. -/
def Pushed.IsValue : Pushed → Prop
  | popped _ => False
  | fromLocal _ expected => expected.width ≤ 2
  | _ => True

theorem Pushed.isValue_ofField (type : FieldType) : (ofField type).IsValue := by
  cases type <;> trivial

namespace Effect

theorem pushedWidth_le {pops : List Expectation} {pushed : Pushed} (h : pushed.IsValue) :
    Change.pushedWidth pops pushed ≤ 2 := by
  cases pushed with
  | numeric kind => cases kind <;> simp [Change.pushedWidth, NumericKind.width]
  | popped position => exact h.elim
  | fromLocal index expected => exact h
  | _ => exact Nat.le_succ 1

/-- An instruction that puts one value on the stack at most adds two slots at most. -/
theorem slotDelta_exchange_le {pops : List Expectation} {pushes : List Pushed}
    (hlength : pushes.length ≤ 1) (h : ∀ pushed ∈ pushes, pushed.IsValue) :
    (exchange pops pushes).slotDelta ≤ 2 := by
  show (total (Change.pushedWidth pops) pushes : Int) - total Expectation.width pops ≤ 2
  have hpushed : total (Change.pushedWidth pops) pushes ≤ 2 := by
    cases pushes with
    | nil => exact Nat.zero_le 2
    | cons pushed pushes =>
        obtain rfl : pushes = [] := List.eq_nil_of_length_eq_zero (by simpa using hlength)
        exact pushedWidth_le (h pushed List.mem_cons_self)
  omega

/-- A call puts its result on the stack. -/
theorem slotDelta_ofInvoke_le (kind : InvokeKind) (constant : Constant) :
    (ofInvoke kind constant).slotDelta ≤ 2 := by
  cases constant with
  | method method =>
      have hresult : ∀ pops : List Expectation,
          (exchange pops (method.descriptor.returns.toList.map .ofField)).slotDelta ≤ 2 := by
        intro pops
        apply slotDelta_exchange_le
        · rw [List.length_map]
          cases method.descriptor.returns <;> simp
        · intro pushed hpushed
          obtain ⟨type, _, rfl⟩ := List.mem_map.mp hpushed
          exact Pushed.isValue_ofField type
      cases kind with
      | special =>
          rw [ofInvoke]
          split
          · exact hresult _
          · exact hresult _
      | _ => exact hresult _
  | _ => exact Int.zero_le_ofNat 2

end Effect

open Effect in
/-- No instruction adds more than two slots to the stack. -/
theorem Instruction.slotDelta_le (insn : SymbolicInstruction) : insn.effect.slotDelta ≤ 2 := by
  have hone : ∀ {pops : List Expectation} {pushed : Pushed}, pushed.IsValue →
      (exchange pops [pushed]).slotDelta ≤ 2 := fun h =>
    slotDelta_exchange_le (Nat.le_refl 1) (List.forall_mem_singleton.mpr h)
  have hnone : ∀ pops : List Expectation, (exchange pops []).slotDelta ≤ 2 := fun pops =>
    slotDelta_exchange_le (Nat.zero_le 1) fun _ h => absurd h List.not_mem_nil
  have hunchanged : unchanged.slotDelta ≤ 2 := by decide
  cases insn with
  | branch b =>
      cases b with
      | jump op target => cases op <;> first | exact hnone _ | exact hunchanged
      | returns kind => cases kind <;> first | exact hnone _ | exact hunchanged
      | _ => exact hnone _
  | operation op =>
      cases op with
      | nop | increment => exact hunchanged
      | ldc form constant => cases constant <;> exact hone trivial
      | load kind index form =>
          refine hone ?_
          rcases kind with (_ | _ | _ | _) | _ <;> exact Nat.le_of_ble_eq_true rfl
      | store kind index form => exact hnone [movedValue kind]
      | arrayLoad kind => rcases kind with (_ | _) | _ | _ | _ <;> exact hone trivial
      | arrayStore | monitorEnter | monitorExit => exact hnone _
      | stack op => cases op <;> decide
      | field access constant =>
          cases constant with
          | field field =>
              cases access with
              | getStatic | getField => exact hone (Pushed.isValue_ofField _)
              | putStatic | putField => exact hnone _
          | _ => exact hunchanged
      | invoke kind constant => exact slotDelta_ofInvoke_le kind constant
      | classUse action constant =>
          cases action with
          | new =>
              cases constant with
              | classRef type =>
                  cases type with
                  | object owner => exact hone trivial
                  | array element extra => exact hunchanged
              | _ => exact hunchanged
          | _ => cases constant <;> exact hone trivial
      | multiArray constant dimensions => cases constant <;> exact hone trivial
      | _ => exact hone trivial

end JvmAssembler
