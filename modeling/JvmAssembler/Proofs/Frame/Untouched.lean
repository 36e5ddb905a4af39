import JvmAssembler.Proofs.Frame.Balance
import JvmAssembler.Proofs.Frame.LocalAccess
import JvmAssembler.Proofs.Frame.Origin
import JvmAssembler.Proofs.Frame.WellFormed

/-! An instruction takes values off the stack and puts others on it, and what lies below stays. A
store changes the slot that it names, the second slot of its value and a value of two slots that it
breaks, and no other local. A call of a constructor initializes all copies of the object that it is
called on, wherever they are. -/

namespace JvmAssembler

/-- What an effect takes off the stack, top first. -/
def Effect.pops : Effect → List Expectation
  | unchanged => []
  | change c => c.pops

/-- The value in a slot of the locals, where missing ones are unusable. -/
def Frame.localAt (f : Frame) (i : Nat) : Value := f.locals.getD i Value.unusable

/-- What becomes of a value when the constructor of an object, if there is one, was called: all its
copies are initialized. -/
def Value.constructed (thisClass : BinaryName) (object : Option ValueType) (v : Value) : Value :=
  if some v.type = object then
    { v with type := (Frame.initializedType? thisClass v.type).getD v.type }
  else v

namespace Instruction

/-- The object whose constructor an instruction calls. It is the lowest of the values that the call
takes. -/
def constructs? (insn : SymbolicInstruction) (popped : List Value) : Option ValueType :=
  match insn with
  | .operation (.invoke .special (.method method)) =>
    if method.name.isInit then popped.head?.map Value.type else none
  | _ => none

/-- A slot of the locals that an instruction writes: the one that a store names, the second slot of
the value that it stores, and the first slot of a value that it breaks. -/
def Overwrites (insn : SymbolicInstruction) (f : Frame) (i : Nat) : Prop :=
  ∃ kind index form, insn = .operation (.store kind index form) ∧
    (i = index.toNat ∨ (i = index.toNat + 1 ∧ kind.width = 2) ∨
      (i + 1 = index.toNat ∧ (f.localAt i).width = 2))

/-- Only stores write locals and only calls of constructors initialize objects. -/
theorem effect_cases (insn : SymbolicInstruction) :
    (insn.effect = .unchanged ∨ ∃ pops pushes, insn.effect = .exchange pops pushes) ∧
        (∀ popped, insn.constructs? popped = none) ∨
      (∃ kind index form, insn = .operation (.store kind index form)) ∨
      ∃ method, insn = .operation (.invoke .special (.method method)) ∧
        method.name.isInit = true := by
  cases insn with
  | branch b =>
      refine .inl ⟨?_, fun _ => rfl⟩
      cases b with
      | jump op target => cases op <;> first | exact .inl rfl | exact .inr ⟨_, _, rfl⟩
      | returns kind => cases kind <;> first | exact .inl rfl | exact .inr ⟨_, _, rfl⟩
      | _ => exact .inr ⟨_, _, rfl⟩
  | operation op =>
      cases op with
      | store kind index form => exact .inr (.inl ⟨kind, index, form, rfl⟩)
      | invoke kind constant =>
          cases constant with
          | method method =>
              cases kind with
              | special =>
                  cases hinit : method.name.isInit with
                  | true => exact .inr (.inr ⟨method, rfl, hinit⟩)
                  | false =>
                      refine .inl ⟨.inr ⟨_, _, if_neg (Bool.eq_false_iff.mp hinit)⟩, fun _ => ?_⟩
                      exact if_neg (Bool.eq_false_iff.mp hinit)
              | _ => exact .inl ⟨.inr ⟨_, _, rfl⟩, fun _ => rfl⟩
          | _ => cases kind <;> exact .inl ⟨.inl rfl, fun _ => rfl⟩
      | nop | increment => exact .inl ⟨.inl rfl, fun _ => rfl⟩
      | ldc form constant => cases constant <;> exact .inl ⟨.inr ⟨_, _, rfl⟩, fun _ => rfl⟩
      | stack op => cases op <;> exact .inl ⟨.inr ⟨_, _, rfl⟩, fun _ => rfl⟩
      | field access constant =>
          cases constant with
          | field field => cases access <;> exact .inl ⟨.inr ⟨_, _, rfl⟩, fun _ => rfl⟩
          | _ => exact .inl ⟨.inl rfl, fun _ => rfl⟩
      | classUse action constant =>
          cases action with
          | new =>
              cases constant with
              | classRef type =>
                  cases type with
                  | object owner => exact .inl ⟨.inr ⟨_, _, rfl⟩, fun _ => rfl⟩
                  | array element extra => exact .inl ⟨.inl rfl, fun _ => rfl⟩
              | _ => exact .inl ⟨.inl rfl, fun _ => rfl⟩
          | _ => cases constant <;> exact .inl ⟨.inr ⟨_, _, rfl⟩, fun _ => rfl⟩
      | _ => exact .inl ⟨.inr ⟨_, _, rfl⟩, fun _ => rfl⟩

end Instruction

namespace Value

variable (thisClass : BinaryName)

@[simp] theorem constructed_none : constructed thisClass none = id := by
  funext v
  exact if_neg (by simp)

theorem constructed_unusable (object : Option ValueType) :
    unusable.constructed thisClass object = unusable := by
  unfold constructed
  split <;> rfl

/-- An object that has no constructor to be called stays as it is. -/
theorem constructed_of_eq_none {type : ValueType}
    (h : Frame.initializedType? thisClass type = none) :
    constructed thisClass (some type) = id := by
  funext v
  unfold constructed
  split
  · rename_i hv
    rw [Option.some.inj hv, h, Option.getD_none, ← Option.some.inj hv]
    rfl
  · rfl

theorem constructed_of_eq_some {type initialized : ValueType}
    (h : Frame.initializedType? thisClass type = some initialized) :
    constructed thisClass (some type) =
      fun v => if v.type = type then { v with type := initialized } else v := by
  funext v
  by_cases hv : v.type = type
  · rw [constructed, if_pos (congrArg some hv), if_pos hv, hv, h, Option.getD_some]
  · rw [constructed, if_neg (fun heq => hv (Option.some.inj heq)), if_neg hv]

end Value

namespace Frame

theorem toList_markInitialized (f : Frame) (type : ValueType) (thisClass : BinaryName) :
    (f.markInitialized type thisClass).stack.toList =
      f.stack.toList.map (Value.constructed thisClass (some type)) := by
  unfold markInitialized
  split
  · rename_i hnone
    rw [Value.constructed_of_eq_none thisClass hnone, List.map_id]
  · rename_i initialized hsome
    rw [Value.constructed_of_eq_some thisClass hsome, map, SlotVec.toList_ofList]

theorem localAt_markInitialized (f : Frame) (type : ValueType) (thisClass : BinaryName) (i : Nat) :
    (f.markInitialized type thisClass).localAt i =
      (f.localAt i).constructed thisClass (some type) := by
  unfold markInitialized
  split
  · rename_i hnone
    rw [Value.constructed_of_eq_none thisClass hnone]
    rfl
  · rename_i initialized hsome
    rw [← Value.constructed_of_eq_some thisClass hsome, localAt, localAt, map,
      Array.getD_eq_getD_getElem?, Array.getD_eq_getD_getElem?, Array.getElem?_map]
    cases f.locals[i]? with
    | none => exact (Value.constructed_unusable thisClass _).symm
    | some v => rfl

/-- A slot that is none of those written keeps its value, and slots that the locals are extended by
are unusable as before. -/
theorem localAt_setLocal {f : Frame} {index : UInt16} {value : Value} {i : Nat}
    (hslot : i ≠ index.toNat) (hsecond : ¬(i = index.toNat + 1 ∧ value.width = 2))
    (hbroken : ¬(i + 1 = index.toNat ∧ (f.localAt i).width = 2)) :
    (f.setLocal index value).localAt i = f.localAt i := by
  rw [localAt] at hbroken
  rw [localAt, Array.getD_eq_getD_getElem?, getElem?_setLocal, if_neg hslot, if_neg hsecond,
    if_neg hbroken, localAt, Array.getD_eq_getD_getElem?]
  split
  · rfl
  · rename_i hsize
    rw [Array.getElem?_eq_none (Nat.not_lt.mp hsize)]
    split <;> rfl

end Frame

namespace Line

variable {line : Line} {thisClass : BinaryName} {f f' : Frame}

theorem totalWidth_of_takeAll {pops : List Expectation} {groups : List (List Value)}
    {stack rest : SlotVec Value} (h : line.takeAll pops stack = .ok (groups, rest)) :
    totalWidth groups.reverse.flatten = total Expectation.width pops := by
  obtain ⟨_, hnext, hstart⟩ := width_of_takeAll h
  rw [stack.next_eq_toList, rest.next_eq_toList, hstart, toList_of_takeAll h,
    totalWidth_append] at hnext
  omega

/-- Values are put on top of what is there. -/
theorem exists_of_push {groups : List (List Value)} {pushed : Pushed}
    (h : line.push groups f pushed = .ok f') :
    ∃ values, f'.stack.toList = f.stack.toList ++ values := by
  cases pushed with
  | popped position =>
      cases h
      exact ⟨_, toList_foldl_push _ f⟩
  | fromLocal index expected =>
      obtain ⟨type, _, h⟩ := exists_of_bind_eq_ok h
      cases h
      exact ⟨_, SlotVec.toList_push _ _⟩
  | _ =>
      cases h
      exact ⟨_, SlotVec.toList_push _ _⟩

theorem exists_of_pushAll {groups : List (List Value)} {pushes : List Pushed}
    (h : pushes.foldlM (line.push groups) f = .ok f') :
    (∃ values, f'.stack.toList = f.stack.toList ++ values) ∧ f'.locals = f.locals := by
  refine pushAll_keeps (P := fun g => (∃ values, g.stack.toList = f.stack.toList ++ values) ∧
    g.locals = f.locals) ⟨⟨[], (List.append_nil _).symm⟩, rfl⟩ ?_ h
  rintro pushed _ g g' ⟨⟨values, hvalues⟩, hlocals⟩ hpush
  obtain ⟨more, hmore⟩ := exists_of_push hpush
  exact ⟨⟨values ++ more, by rw [hmore, hvalues, List.append_assoc]⟩,
    (locals_of_push hpush).trans hlocals⟩

/-- What is taken last lies below all else that is taken. -/
theorem exists_of_takeAll_concat {pops : List Expectation} {e : Expectation}
    {groups : List (List Value)} {stack rest : SlotVec Value}
    (h : line.takeAll (pops ++ [e]) stack = .ok (groups, rest)) :
    ∃ above group stack', groups = above ++ [group] ∧ above.length = pops.length ∧
      line.take e e.width [] stack' = .ok (group, rest) := by
  induction pops generalizing stack groups with
  | nil =>
      obtain ⟨⟨group, stack'⟩, htake, h⟩ := exists_of_bind_eq_ok h
      cases h
      exact ⟨[], group, stack, rfl, rfl, htake⟩
  | cons first pops ih =>
      obtain ⟨⟨group, stack₁⟩, _, h⟩ := exists_of_bind_eq_ok h
      obtain ⟨⟨groups₁, stack₂⟩, htakeAll, h⟩ := exists_of_bind_eq_ok h
      cases h
      obtain ⟨above, last, stack', rfl, hlength, htake⟩ := ih htakeAll
      exact ⟨group :: above, last, stack', rfl, congrArg (· + 1) hlength, htake⟩

/-- An instruction puts the values `pushed` in the place of the values `popped`. It leaves what is
below them and all locals that it does not write alone, but for copies of an object that it
initializes. -/
structure Replaces (thisClass : BinaryName) (insn : SymbolicInstruction) (f f' : Frame)
    (below popped pushed : List Value) : Prop where
  before : f.stack.toList = below ++ popped
  width_popped : totalWidth popped = total Expectation.width insn.effect.pops
  uninitialized : ∀ object ∈ insn.constructs? popped, object.isUninitialized = true
  after : f'.stack.toList =
    below.map (Value.constructed thisClass (insn.constructs? popped)) ++ pushed
  locals : ∀ i, ¬ insn.Overwrites f i →
    f'.localAt i = (f.localAt i).constructed thisClass (insn.constructs? popped)

/-- Where no object is initialized, all that is left alone is the same. -/
theorem Replaces.of_plain {insn : SymbolicInstruction} {below popped pushed : List Value}
    (hplain : insn.constructs? popped = none) (hbefore : f.stack.toList = below ++ popped)
    (hwidth : totalWidth popped = total Expectation.width insn.effect.pops)
    (hafter : f'.stack.toList = below ++ pushed)
    (hlocals : ∀ i, ¬ insn.Overwrites f i → f'.localAt i = f.localAt i) :
    Replaces thisClass insn f f' below popped pushed where
  before := hbefore
  width_popped := hwidth
  uninitialized := by simp [hplain]
  after := by simpa [hplain] using hafter
  locals := by simpa [hplain] using hlocals

theorem exists_of_apply_change {c : Change} (heffect : line.instruction.effect = .change c)
    (h : line.apply thisClass f = .ok f') :
    ∃ groups stack pushed, line.takeAll c.pops f.stack = .ok (groups, stack) ∧
      f'.stack.toList =
        (initializeReceiver thisClass groups c.initializes { f with stack := stack }).stack.toList ++
          pushed ∧
      f'.locals = (storePopped groups c.store
        (initializeReceiver thisClass groups c.initializes { f with stack := stack })).locals := by
  rw [apply, heffect] at h
  obtain ⟨⟨groups, stack⟩, htake, hpushes⟩ := exists_of_bind_eq_ok h
  obtain ⟨⟨pushed, hstack⟩, hlocals⟩ := exists_of_pushAll hpushes
  rw [stack_storePopped] at hstack
  exact ⟨groups, stack, pushed, htake, hstack, hlocals⟩

theorem replaces_of_exchange {pops : List Expectation} {pushes : List Pushed}
    (heffect : line.instruction.effect = .exchange pops pushes)
    (hplain : ∀ popped, line.instruction.constructs? popped = none)
    (h : line.apply thisClass f = .ok f') :
    ∃ below popped pushed, Replaces thisClass line.instruction f f' below popped pushed := by
  obtain ⟨groups, stack, pushed, htake, hstack, hlocals⟩ := exists_of_apply_change heffect h
  refine ⟨stack.toList, groups.reverse.flatten, pushed,
    .of_plain (hplain _) (toList_of_takeAll htake) ?_ hstack fun i _ => ?_⟩
  · rw [heffect]
    exact totalWidth_of_takeAll htake
  · exact congrArg (·.getD i Value.unusable) hlocals

theorem replaces_of_unchanged (heffect : line.instruction.effect = .unchanged)
    (hplain : ∀ popped, line.instruction.constructs? popped = none)
    (h : line.apply thisClass f = .ok f') :
    ∃ below popped pushed, Replaces thisClass line.instruction f f' below popped pushed := by
  rw [apply, heffect] at h
  cases h
  refine ⟨f.stack.toList, [], [], .of_plain (hplain _) (List.append_nil _).symm ?_
    (List.append_nil _).symm fun _ _ => rfl⟩
  rw [heffect]
  rfl

theorem replaces_of_store {kind : ValueKind} {index : UInt16} {form : LocalForm}
    (hinsn : line.instruction = .operation (.store kind index form))
    (h : line.apply thisClass f = .ok f') :
    ∃ below popped pushed, Replaces thisClass line.instruction f f' below popped pushed := by
  have heffect : line.instruction.effect =
      .change { pops := [Effect.movedValue kind], store := some index } := by
    rw [hinsn]
    rfl
  obtain ⟨groups, stack, pushed, htakeAll, hstack, hlocals⟩ := exists_of_apply_change heffect h
  have honly : line.takeAll ([] ++ [Effect.movedValue kind]) f.stack = .ok (groups, stack) :=
    htakeAll
  obtain ⟨above, group, stack', rfl, hlength, htake⟩ := exists_of_takeAll_concat honly
  obtain rfl : above = [] := List.eq_nil_of_length_eq_zero hlength
  rw [ValueKind.width_movedValue] at htake
  obtain ⟨v, rfl, hwidth⟩ := take_movedValue htake
  have hplain : line.instruction.constructs? [v] = none := by
    rw [hinsn]
    rfl
  refine ⟨stack.toList, [v], pushed,
    .of_plain hplain (toList_of_takeAll htakeAll) ?_ hstack fun i hi => ?_⟩
  · rw [heffect]
    exact totalWidth_of_takeAll htakeAll
  · have hset : f'.localAt i = (Frame.setLocal { f with stack := stack } index v).localAt i :=
      congrArg (·.getD i Value.unusable) hlocals
    rw [hset]
    refine Frame.localAt_setLocal (fun hslot => hi ?_) (fun hsecond => hi ?_) fun hbroken => hi ?_
    · exact ⟨kind, index, form, hinsn, .inl hslot⟩
    · exact ⟨kind, index, form, hinsn, .inr (.inl ⟨hsecond.1, hwidth ▸ hsecond.2⟩)⟩
    · exact ⟨kind, index, form, hinsn, .inr (.inr hbroken)⟩

theorem replaces_of_constructor {method : MethodRef}
    (hinsn : line.instruction = .operation (.invoke .special (.method method)))
    (hinit : method.name.isInit = true) (h : line.apply thisClass f = .ok f') :
    ∃ below popped pushed, Replaces thisClass line.instruction f f' below popped pushed := by
  have heffect : line.instruction.effect = .change {
      pops := (method.descriptor.parameters.map Expectation.ofField).reverse ++ [.uninitialized]
      pushes := method.descriptor.returns.toList.map Pushed.ofField
      initializes := some method.descriptor.parameters.length } := by
    rw [hinsn]
    exact if_pos hinit
  obtain ⟨groups, stack, pushed, htakeAll, hstack, hlocals⟩ := exists_of_apply_change heffect h
  obtain ⟨above, group, stack', rfl, hlength, htake⟩ := exists_of_takeAll_concat htakeAll
  obtain ⟨receiver, rfl, huninitialized⟩ := take_one (fun _ => Expectation.noConfusion) htake
  rw [List.length_reverse, List.length_map] at hlength
  have hreceiver : ∀ g : Frame, initializeReceiver thisClass (above ++ [[receiver]])
      (some method.descriptor.parameters.length) g = g.markInitialized receiver.type thisClass := by
    intro g
    simp [initializeReceiver, ← hlength]
  have hobject : line.instruction.constructs? (above ++ [[receiver]]).reverse.flatten =
      some receiver.type := by
    rw [hinsn, Instruction.constructs?, if_pos hinit, List.reverse_concat]
    rfl
  rw [hreceiver] at hstack hlocals
  refine ⟨stack.toList, (above ++ [[receiver]]).reverse.flatten, pushed,
    toList_of_takeAll htakeAll, ?_, ?_, ?_, ?_⟩
  · rw [heffect]
    exact totalWidth_of_takeAll htakeAll
  · rw [hobject]
    rintro object ⟨⟩
    exact huninitialized
  · rw [hobject, hstack, Frame.toList_markInitialized]
  · intro i _
    have hmark : f'.localAt i =
        (Frame.markInitialized { f with stack := stack } receiver.type thisClass).localAt i :=
      congrArg (·.getD i Value.unusable) hlocals
    rw [hobject, hmark, Frame.localAt_markInitialized]
    rfl

theorem exists_replaces (h : line.apply thisClass f = .ok f') :
    ∃ below popped pushed, Replaces thisClass line.instruction f f' below popped pushed := by
  rcases line.instruction.effect_cases with ⟨heffect, hplain⟩ | ⟨kind, index, form, hinsn⟩ |
    ⟨method, hinsn, hinit⟩
  · rcases heffect with hunchanged | ⟨pops, pushes, hexchange⟩
    · exact replaces_of_unchanged hunchanged hplain h
    · exact replaces_of_exchange hexchange hplain h
  · exact replaces_of_store hinsn h
  · exact replaces_of_constructor hinsn hinit h

/-- An instruction that goes through changes the depth of the stack by its own number of slots,
exchanges the values on top that it takes, and leaves the rest of the frame alone. -/
theorem apply_replaces (hf : f.WellFormed) (h : line.apply thisClass f = .ok f') :
    (f'.depth : Int) = f.depth + line.instruction.effect.slotDelta ∧
      ∃ below popped pushed, Replaces thisClass line.instruction f f' below popped pushed :=
  ⟨depth_of_apply (Frame.wellFormed_iff.mp hf).2.2 h, exists_replaces h⟩

/-- Two copies of a new object under the argument of its constructor, and one in a local. -/
def copiedObject : Frame where
  locals := #[⟨.uninitialized .javaObject 0, some 2⟩, ⟨.numeric .long, none⟩, Value.unusable]
  stack := .ofList [⟨.uninitialized .javaObject 0, some 0⟩, ⟨.uninitialized .javaObject 0, some 1⟩,
    ⟨.numeric .int, some 3⟩]

def constructingLine : Line where
  id := 4
  mnemonic := "invokespecial"
  position := {}
  offset := 6
  block := 0
  instruction := .operation (.invoke .special (.method
    ⟨.object .javaObject, .init, ⟨[.base .int], none⟩, false⟩))

theorem apply_replaces_copiedObject :
    copiedObject.WellFormed ∧
    ∃ f', constructingLine.apply .javaObject copiedObject = .ok f' ∧
      (f'.depth : Int) =
        copiedObject.depth + constructingLine.instruction.effect.slotDelta ∧
      ∃ below popped pushed,
        Replaces .javaObject constructingLine.instruction copiedObject f' below popped pushed := by
  have hf : copiedObject.WellFormed := by
    refine Frame.wellFormed_iff.mpr ⟨?_, by unfold Frame.UsableStack; decide, rfl⟩
    intro i v hv hwidth
    rcases i with _ | _ | _ | i
    · cases hv
      cases hwidth
    · exact ⟨Value.unusable, rfl, rfl⟩
    · cases hv
      cases hwidth
    · simp [copiedObject] at hv
  obtain ⟨f', h⟩ : ∃ f', constructingLine.apply .javaObject copiedObject = .ok f' :=
    ⟨_, by cbv⟩
  exact ⟨hf, f', h, apply_replaces hf h⟩

end Line

end JvmAssembler
