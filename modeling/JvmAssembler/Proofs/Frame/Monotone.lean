import JvmAssembler.Analysis.Step
import JvmAssembler.Proofs.Frame.Order
import JvmAssembler.Proofs.Success

/-! An instruction sees the shapes of values only. Where it goes through on a frame, it also goes
through on every frame whose values are related to those of the first, and the results are related
again. -/

namespace JvmAssembler

variable {r : ValueType → ValueType → Prop}

namespace StackRelated

theorem pop {s t rest : SlotVec Value} {w : Value}
    (h : StackRelated r s t) (hpop : t.pop? = some (w, rest)) :
    ∃ v left, s.pop? = some (v, left) ∧ r v.type w.type ∧ StackRelated r left rest := by
  obtain ⟨hlist, hstart⟩ := SlotVec.toList_of_pop? hpop
  have hvalues := List.forall₂_reverse_iff.mpr h.values
  rw [hlist, List.reverse_append, List.reverse_singleton, List.singleton_append,
    List.forall₂_cons_right_iff] at hvalues
  obtain ⟨v, values, hvw, htail, hreverse⟩ := hvalues
  have htoList : s.toList = values.reverse ++ [v] := by
    rw [← List.reverse_reverse s.toList, hreverse, List.reverse_cons]
  obtain ⟨left, hleft, hleftList, hleftStart⟩ := SlotVec.pop?_of_toList htoList
  refine ⟨v, left, hleft, hvw, hleftStart.trans h.start_left, hstart ▸ h.start_right, ?_⟩
  rw [hleftList, ← List.reverse_reverse rest.toList]
  exact List.rel_reverse htail

theorem push {s t : SlotVec Value} {v w : Value} (h : StackRelated r s t) (hvw : r v.type w.type) :
    StackRelated r (s.push v) (t.push w) where
  start_left := h.start_left
  start_right := h.start_right
  values := by
    rw [SlotVec.toList_push, SlotVec.toList_push]
    exact List.rel_append h.values (.cons hvw .nil)

end StackRelated

namespace Expectation

/-- Whether a value is accepted hangs on its shape alone. -/
theorem accepts_eq_of_sameShape (e : Expectation) {s t : ValueType} (h : s.sameShape t = true) :
    e.accepts s = e.accepts t := by
  rcases ValueType.eq_of_sameShape h with rfl | ⟨hs, ht⟩
  · rfl
  · have hwidth := ValueType.width_eq_of_sameShape h
    cases e with
    | numeric kind => cases s <;> cases hs <;> cases t <;> cases ht <;> rfl
    | object => exact hs.trans ht.symm
    | anyReference => cases s <;> cases hs <;> cases t <;> cases ht <;> rfl
    | uninitialized => cases s <;> cases hs <;> cases t <;> cases ht <;> rfl
    | slots count => rw [accepts, accepts, hwidth]

end Expectation

namespace Line

theorem fits_eq_of_sameShape (e : Expectation) (needed : Nat) {v w : Value}
    (h : v.type.sameShape w.type = true) : fits e needed v = fits e needed w := by
  have hwidth : v.width = w.width := ValueType.width_eq_of_sameShape h
  cases e with
  | slots count => rw [fits, fits, hwidth]
  | _ =>
      simp only [fits]
      exact Expectation.accepts_eq_of_sameShape _ h

theorem take_related (hr : ShapeRelation r) {line : Line} {e : Expectation} {needed : Nat}
    {taken taken' group : List Value} {s t rest : SlotVec Value} (hst : StackRelated r s t)
    (htaken : ValuesRelated r taken' taken)
    (h : line.take e needed taken t = .ok (group, rest)) :
    ∃ group' left, line.take e needed taken' s = .ok (group', left) ∧
      ValuesRelated r group' group ∧ StackRelated r left rest := by
  fun_induction Line.take line e needed taken t generalizing s taken' with
  | case1 taken t =>
      cases h
      exact ⟨taken', s, by rw [take, if_pos rfl], htaken, hst⟩
  | case2 => cases h
  | case3 needed taken t hneeded w below hpop hfits ih =>
      obtain ⟨v, left, hleft, hvw, hbelow⟩ := hst.pop hpop
      have hwidth : v.width = w.width := ValueType.width_eq_of_sameShape (hr.shape hvw)
      obtain ⟨group', left', htake, hgroup, hrest⟩ := ih hbelow (.cons hvw htaken) h
      refine ⟨group', left', ?_, hgroup, hrest⟩
      rw [take, if_neg hneeded, hleft]
      simp only [fits_eq_of_sameShape e needed (hr.shape hvw), hfits, if_true, hwidth, htake]
  | case4 => cases h

theorem takeAll_related (hr : ShapeRelation r) {line : Line} {pops : List Expectation}
    {s t rest : SlotVec Value} {groups : List (List Value)} (hst : StackRelated r s t)
    (h : line.takeAll pops t = .ok (groups, rest)) :
    ∃ groups' left, line.takeAll pops s = .ok (groups', left) ∧
      List.Forall₂ (ValuesRelated r) groups' groups ∧ StackRelated r left rest := by
  induction pops generalizing s t groups rest with
  | nil =>
      cases h
      exact ⟨[], s, rfl, .nil, hst⟩
  | cons e pops ih =>
      obtain ⟨⟨group, t₁⟩, htake, h⟩ := exists_of_bind_eq_ok h
      obtain ⟨⟨groups₁, t₂⟩, htakeAll, h⟩ := exists_of_bind_eq_ok h
      cases h
      obtain ⟨group', s₁, htake', hgroup, hst₁⟩ := take_related hr hst .nil htake
      obtain ⟨groups', s₂, htakeAll', hgroups, hst₂⟩ := ih hst₁ htakeAll
      refine ⟨group' :: groups', s₂, ?_, .cons hgroup hgroups, hst₂⟩
      rw [takeAll, htake']
      simp only [bind, Except.bind, htakeAll']
      rfl

end Line

namespace Frame

theorem size_extendLocals (locals : Array Value) (size : Nat) :
    (extendLocals locals size).size = max locals.size size := by
  rw [extendLocals, Array.size_append, Array.size_replicate]
  omega

theorem getElem?_extendLocals (locals : Array Value) (size j : Nat) :
    (extendLocals locals size)[j]? =
      if j < locals.size then locals[j]? else if j < size then some Value.unusable else none := by
  rw [extendLocals, Array.getElem?_append, Array.getElem?_replicate]
  split
  · rfl
  · by_cases h : j < size
    · rw [if_pos h, if_pos (by omega)]
    · rw [if_neg h, if_neg (by omega)]

theorem getD_extendLocals (locals : Array Value) (size j : Nat) :
    (extendLocals locals size).getD j Value.unusable = locals.getD j Value.unusable := by
  rw [Array.getD_eq_getD_getElem?, Array.getD_eq_getD_getElem?, getElem?_extendLocals]
  split
  · rfl
  · rename_i h
    rw [Array.getElem?_eq_none (by omega : locals.size ≤ j)]
    split <;> rfl

theorem size_setLocal (f : Frame) (index : UInt16) (value : Value) :
    (f.setLocal index value).locals.size = max f.locals.size (index.toNat + value.width) := by
  obtain ⟨locals, stack⟩ := f
  simp only [setLocal, Array.size_setIfInBounds]
  split <;> split <;> simp only [Array.size_setIfInBounds, size_extendLocals]

/-- What each local holds after a value was written into one of them. -/
theorem getElem?_setLocal (f : Frame) (index : UInt16) (value : Value) (j : Nat) :
    (f.setLocal index value).locals[j]? =
      if j = index.toNat then some value
      else if j = index.toNat + 1 ∧ value.width = 2 then some Value.unusable
      else if j + 1 = index.toNat ∧ (f.locals.getD j Value.unusable).width = 2 then
        some Value.unusable
      else if j < f.locals.size then f.locals[j]?
      else if j < index.toNat + value.width then some Value.unusable
      else none := by
  obtain ⟨locals, stack⟩ := f
  have hpos : 0 < value.width := value.type.width_pos
  simp only [setLocal, getD_extendLocals]
  generalize index.toNat = i
  by_cases hi : j = i
  · subst hi
    rw [if_pos rfl, Array.getElem?_setIfInBounds_self_of_lt]
    split <;> split <;> simp only [Array.size_setIfInBounds, size_extendLocals] <;> omega
  rw [if_neg hi, Array.getElem?_setIfInBounds_ne (Ne.symm hi)]
  by_cases hsecond : j = i + 1 ∧ value.width = 2
  · rw [if_pos hsecond.2, if_pos hsecond, hsecond.1, Array.getElem?_setIfInBounds_self_of_lt]
    split <;> simp only [Array.size_setIfInBounds, size_extendLocals] <;> omega
  rw [if_neg hsecond]
  have hskip : ∀ before : Array Value,
      (if value.width = 2 then before.setIfInBounds (i + 1) Value.unusable else before)[j]? =
        before[j]? := by
    intro before
    split
    · exact Array.getElem?_setIfInBounds_ne (by omega)
    · rfl
  rw [hskip]
  by_cases hbroken : j + 1 = i ∧ (locals.getD j Value.unusable).width = 2
  · rw [if_pos hbroken]
    obtain ⟨rfl, hwidth⟩ := hbroken
    rw [Nat.add_sub_cancel, hwidth, if_pos (by simp), Array.getElem?_setIfInBounds_self_of_lt]
    rw [size_extendLocals]
    omega
  · rw [if_neg hbroken, ← getElem?_extendLocals]
    split
    · rename_i hbefore
      simp only [Bool.and_eq_true, decide_eq_true_eq, beq_iff_eq] at hbefore
      refine Array.getElem?_setIfInBounds_ne fun hj => hbroken ⟨by omega, ?_⟩
      rw [← hj]
      exact hbefore.2
    · rfl

theorem stack_setLocal (f : Frame) (index : UInt16) (value : Value) :
    (f.setLocal index value).stack = f.stack := rfl

namespace Related

theorem push {f g : Frame} {v w : Value} (h : f.Related r g) (hvw : r v.type w.type) :
    (f.push v).Related r (g.push w) :=
  ⟨h.stack.push hvw, h.locals⟩

theorem setLocal (hr : ShapeRelation r) {f g : Frame} {v w : Value} (h : f.Related r g)
    (hvw : r v.type w.type) (index : UInt16) :
    (f.setLocal index v).Related r (g.setLocal index w) where
  stack := h.stack
  locals := by
    have hwidth : v.width = w.width := ValueType.width_eq_of_sameShape (hr.shape hvw)
    intro j u hu
    rw [getElem?_setLocal] at hu
    rw [getElem?_setLocal, hwidth]
    split at hu
    · cases hu
      rename_i hj
      exact Or.inr ⟨v, if_pos hj, hvw⟩
    rename_i hj
    rw [if_neg hj]
    split at hu
    · cases hu
      exact Or.inl rfl
    rename_i hsecond
    rw [if_neg hsecond]
    split at hu
    · cases hu
      exact Or.inl rfl
    rename_i hbroken
    split at hu
    · rcases h.locals j u hu with htop | ⟨t, ht, htu⟩
      · exact Or.inl htop
      · have hkeep : ¬(j + 1 = index.toNat ∧ (f.locals.getD j Value.unusable).width = 2) := by
          rintro ⟨hbefore, htwo⟩
          refine hbroken ⟨hbefore, ?_⟩
          rw [Array.getD_eq_getD_getElem?, hu, Option.getD_some]
          rw [Array.getD_eq_getD_getElem?, ht, Option.getD_some] at htwo
          exact (ValueType.width_eq_of_sameShape (hr.shape htu)).symm.trans htwo
        obtain ⟨hlt, _⟩ := Array.getElem?_eq_some_iff.mp ht
        rw [if_neg hkeep, if_pos hlt]
        exact Or.inr ⟨t, ht, htu⟩
    · split at hu
      · cases hu
        exact Or.inl rfl
      · cases hu

theorem map {f g : Frame} {m : Value → Value} (h : f.Related r g)
    (hm : ∀ v w : Value, r v.type w.type → r (m v).type (m w).type)
    (htop : ∀ w : Value, w.type = .top → (m w).type = .top) : (f.map m).Related r (g.map m) where
  stack := by
    refine ⟨SlotVec.start_ofList _, SlotVec.start_ofList _, ?_⟩
    simp only [Frame.map, SlotVec.toList_ofList]
    rw [ValuesRelated, List.forall₂_map_left_iff, List.forall₂_map_right_iff]
    exact h.stack.values.imp hm
  locals := by
    intro i u hu
    simp only [Frame.map, Array.getElem?_map, Option.map_eq_some_iff] at hu ⊢
    obtain ⟨w, hw, rfl⟩ := hu
    rcases h.locals i w hw with hunusable | ⟨v, hv, hvw⟩
    · exact Or.inl (htop w hunusable)
    · exact Or.inr ⟨m v, ⟨v, hv, rfl⟩, hm v w hvw⟩

/-- The object under construction is the same in both frames, and so are its copies. -/
theorem markInitialized (hr : ShapeRelation r) {f g : Frame} {s t : ValueType}
    (h : f.Related r g) (hst : r s t) (thisClass : BinaryName) :
    (f.markInitialized s thisClass).Related r (g.markInitialized t thisClass) := by
  rcases ValueType.eq_of_sameShape (hr.shape hst) with rfl | ⟨hs, ht⟩
  · simp only [Frame.markInitialized]
    cases hinit : initializedType? thisClass s with
    | none => exact h
    | some initialized =>
        have hnot : s.isInitialized = false ∧ s ≠ .top := by
          cases s <;> cases hinit <;> exact ⟨rfl, nofun⟩
        refine h.map ?_ ?_
        · intro v w hvw
          have hiff : v.type = s ↔ w.type = s := by
            rcases ValueType.eq_of_sameShape (hr.shape hvw) with heq | ⟨hv, hw⟩
            · rw [heq]
            · refine ⟨fun heq => ?_, fun heq => ?_⟩
              · rw [heq, hnot.1] at hv
                cases hv
              · rw [heq, hnot.1] at hw
                cases hw
          by_cases hv : v.type = s
          · rw [if_pos hv, if_pos (hiff.mp hv)]
            exact hr.refl _
          · rw [if_neg hv, if_neg fun hw => hv (hiff.mpr hw)]
            exact hvw
        · intro w hw
          rw [if_neg fun heq => hnot.2 (heq.symm.trans hw)]
          exact hw
  · have hnone : ∀ u : ValueType, u.isInitialized = true → initializedType? thisClass u = none := by
      intro u hu
      cases u <;> cases hu <;> rfl
    rw [Frame.markInitialized, Frame.markInitialized, hnone s hs, hnone t ht]
    exact h

end Related

theorem size_markInitialized (f : Frame) (type : ValueType) (thisClass : BinaryName) :
    (f.markInitialized type thisClass).locals.size = f.locals.size := by
  rw [markInitialized]
  split
  · rfl
  · exact Array.size_map

end Frame

/-! ### What is pushed -/

namespace Effect

/-- The values that are put on the stack. -/
def pushes : Effect → List Pushed
  | unchanged => []
  | change c => c.pushes

@[simp] theorem pushes_unchanged : unchanged.pushes = [] := rfl

@[simp] theorem pushes_exchange (pops : List Expectation) (pushed : List Pushed) :
    (exchange pops pushed).pushes = pushed := rfl

end Effect

/-- A value that does not hang on where the instruction stands. -/
def Pushed.IsPlain : Pushed → Prop
  | .uninitialized _ | .fromLocal _ _ => False
  | _ => True

theorem Pushed.isPlain_ofField (type : FieldType) : (Pushed.ofField type).IsPlain := by
  cases type <;> trivial

namespace Effect

variable {pushed : Pushed}

theorem isPlain_ofConstant {constant : Constant} (h : pushed ∈ (ofConstant constant).pushes) :
    pushed.IsPlain := by
  cases constant <;>
    simp only [ofConstant, pushes_exchange, List.mem_singleton] at h <;> subst h <;> trivial

theorem isPlain_ofStackOp {op : StackOp} (h : pushed ∈ (ofStackOp op).pushes) :
    pushed.IsPlain := by
  have hpopped : ∃ position, pushed = .popped position := by
    cases op <;> simp [ofStackOp] at h <;> grind
  obtain ⟨position, rfl⟩ := hpopped
  trivial

theorem isPlain_ofField {access : FieldAccess} {constant : Constant}
    (h : pushed ∈ (ofField access constant).pushes) : pushed.IsPlain := by
  cases constant with
  | field field =>
      cases access <;> simp only [ofField, pushes_exchange, List.mem_singleton, List.not_mem_nil] at h
      · rw [h]
        exact Pushed.isPlain_ofField field.type
      · rw [h]
        exact Pushed.isPlain_ofField field.type
  | _ => cases h

theorem isPlain_ofInvoke {kind : InvokeKind} {constant : Constant}
    (h : pushed ∈ (ofInvoke kind constant).pushes) : pushed.IsPlain := by
  cases constant with
  | method method =>
      have hresult : pushed ∈ method.descriptor.returns.toList.map Pushed.ofField := by
        cases kind with
        | special =>
            simp only [ofInvoke] at h
            split at h <;> exact h
        | _ => exact h
      obtain ⟨type, _, rfl⟩ := List.mem_map.mp hresult
      exact Pushed.isPlain_ofField type
  | _ => cases h

theorem isPlain_ofClassConstant (constant : Constant) : (ofClassConstant constant).IsPlain := by
  cases constant <;> trivial

theorem isPlain_ofClassUse {action : ClassUse} {constant : Constant}
    (h : pushed ∈ (ofClassUse action constant).pushes) :
    pushed.IsPlain ∨ ∃ owner, action = .new ∧ constant = .classRef (.object owner) ∧
      pushed = .uninitialized owner := by
  cases action with
  | new =>
      cases constant with
      | classRef type =>
          cases type with
          | object owner => exact .inr ⟨owner, rfl, rfl, List.mem_singleton.mp h⟩
          | array => cases h
      | _ => cases h
  | newArray =>
      cases constant <;> rw [List.mem_singleton.mp h] <;> exact .inl trivial
  | checkCast =>
      rw [List.mem_singleton.mp h]
      exact .inl (isPlain_ofClassConstant constant)
  | instanceOf =>
      rw [List.mem_singleton.mp h]
      exact .inl trivial

end Effect

/-- Most of what instructions put on the stack hangs on the instruction alone. Only allocations put
uninitialized objects there, and only loads the values of locals. -/
theorem Instruction.pushes_cases {insn : SymbolicInstruction} {pushed : Pushed}
    (h : pushed ∈ insn.effect.pushes) :
    pushed.IsPlain ∨
    (∃ owner, insn = .operation (.classUse .new (.classRef (.object owner))) ∧
      pushed = .uninitialized owner) ∨
    ∃ kind index form, insn = .operation (.load kind index form) ∧
      pushed = .fromLocal index (Effect.movedValue kind) := by
  cases insn with
  | operation op =>
      cases op with
      | ldc _ constant => exact .inl (Effect.isPlain_ofConstant h)
      | stack op => exact .inl (Effect.isPlain_ofStackOp h)
      | field access constant => exact .inl (Effect.isPlain_ofField h)
      | invoke kind constant => exact .inl (Effect.isPlain_ofInvoke h)
      | classUse action constant =>
          rcases Effect.isPlain_ofClassUse h with hplain | ⟨owner, rfl, rfl, hpushed⟩
          · exact .inl hplain
          · exact .inr (.inl ⟨owner, rfl, hpushed⟩)
      | load kind index form => exact .inr (.inr ⟨kind, index, form, rfl, List.mem_singleton.mp h⟩)
      | multiArray constant =>
          rw [List.mem_singleton.mp h]
          exact .inl (Effect.isPlain_ofClassConstant constant)
      | arrayLoad kind =>
          rw [List.mem_singleton.mp h]
          cases Effect.arrayElement kind <;> exact .inl trivial
      | nop | increment | store | arrayStore | monitorEnter | monitorExit => cases h
      | _ =>
          rw [List.mem_singleton.mp h]
          exact .inl trivial
  | branch b =>
      cases b with
      | jump op target => cases op <;> cases h
      | returns kind => cases kind <;> cases h
      | _ => cases h

/-- No unusable local can be loaded. -/
def Pushed.RejectsTop : Pushed → Prop
  | .fromLocal _ expected => expected.accepts .top = false
  | _ => True

/-- Every instruction loads usable locals only. -/
theorem Instruction.rejectsTop_of_pushes {insn : SymbolicInstruction} {pushed : Pushed}
    (h : pushed ∈ insn.effect.pushes) : pushed.RejectsTop := by
  rcases Instruction.pushes_cases h with hplain | ⟨owner, _, rfl⟩ | ⟨kind, index, form, _, rfl⟩
  · cases pushed with
    | fromLocal => cases hplain
    | _ => trivial
  · trivial
  · cases kind <;> rfl

namespace Line

theorem getD_related {groups' groups : List (List Value)}
    (h : List.Forall₂ (ValuesRelated r) groups' groups) (i : Nat) :
    ValuesRelated r (groups'.getD i []) (groups.getD i []) := by
  induction h generalizing i with
  | nil => exact .nil
  | cons hhead _ ih =>
      cases i with
      | zero => exact hhead
      | succ i => exact ih i

theorem head?_related {values' values : List Value} (h : ValuesRelated r values' values) :
    values'.head? = none ∧ values.head? = none ∨
      ∃ v w, values'.head? = some v ∧ values.head? = some w ∧ r v.type w.type := by
  cases h with
  | nil => exact Or.inl ⟨rfl, rfl⟩
  | cons hhead _ => exact Or.inr ⟨_, _, rfl, rfl, hhead⟩

theorem loadLocal_eq_ok_iff {line : Line} {f : Frame} {index : UInt16} {expected : Expectation}
    {type : ValueType} :
    line.loadLocal f index expected = .ok type ↔
      (f.local? index).elim .top Value.type = type ∧ expected.accepts type = true := by
  simp only [loadLocal]
  split
  · rename_i haccepts
    rw [Except.ok.injEq]
    exact ⟨fun h => ⟨h, h ▸ haccepts⟩, fun h => h.1⟩
  · rename_i haccepts
    refine ⟨fun h => (by cases h), fun h => absurd h.2 ?_⟩
    rw [← h.1]
    exact haccepts

theorem loadLocal_related (hr : ShapeRelation r) {line : Line} {f g : Frame} {index : UInt16}
    {expected : Expectation} {type : ValueType} (h : f.Related r g)
    (htop : expected.accepts .top = false) (hload : line.loadLocal g index expected = .ok type) :
    ∃ type', line.loadLocal f index expected = .ok type' ∧ r type' type := by
  obtain ⟨hlocal, haccepts⟩ := loadLocal_eq_ok_iff.mp hload
  have husable : type ≠ .top := by
    rintro rfl
    rw [htop] at haccepts
    cases haccepts
  rw [Frame.local?] at hlocal
  cases hw : g.locals[index.toNat]? with
  | none =>
      rw [hw] at hlocal
      exact absurd hlocal.symm husable
  | some w =>
      rw [hw, Option.elim_some] at hlocal
      subst hlocal
      rcases h.locals _ w hw with hunusable | ⟨v, hv, hvw⟩
      · exact absurd hunusable husable
      · refine ⟨v.type, loadLocal_eq_ok_iff.mpr ⟨?_, ?_⟩, hvw⟩
        · rw [Frame.local?, hv, Option.elim_some]
        · rw [expected.accepts_eq_of_sameShape (hr.shape hvw)]
          exact haccepts

theorem foldl_push_related {values' values : List Value} (h : ValuesRelated r values' values)
    {f g : Frame} (hfg : f.Related r g) :
    (values'.foldl Frame.push f).Related r (values.foldl Frame.push g) := by
  induction h generalizing f g with
  | nil => exact hfg
  | cons hhead _ ih => exact ih (hfg.push hhead)

theorem locals_foldl_push (values : List Value) (f : Frame) :
    (values.foldl Frame.push f).locals = f.locals := by
  induction values generalizing f with
  | nil => rfl
  | cons v values ih => exact ih (f.push v)

theorem locals_of_push {line : Line} {groups : List (List Value)} {f f' : Frame} {pushed : Pushed}
    (h : line.push groups f pushed = .ok f') : f'.locals = f.locals := by
  cases pushed with
  | popped position =>
      cases h
      exact locals_foldl_push _ f
  | fromLocal index expected =>
      obtain ⟨type, _, h⟩ := exists_of_bind_eq_ok h
      cases h
      rfl
  | _ =>
      cases h
      rfl

theorem push_related (hr : ShapeRelation r) {line : Line} {groups' groups : List (List Value)}
    {f g g' : Frame} {pushed : Pushed} (hgroups : List.Forall₂ (ValuesRelated r) groups' groups)
    (h : f.Related r g) (hpushed : pushed.RejectsTop) (hpush : line.push groups g pushed = .ok g') :
    ∃ f', line.push groups' f pushed = .ok f' ∧ f'.Related r g' := by
  cases pushed with
  | popped position =>
      cases hpush
      exact ⟨_, rfl, foldl_push_related (getD_related hgroups position) h⟩
  | fromLocal index expected =>
      obtain ⟨type, hload, hpush⟩ := exists_of_bind_eq_ok hpush
      cases hpush
      obtain ⟨type', hload', htype⟩ := loadLocal_related hr h hpushed hload
      refine ⟨f.push ⟨type', line.id⟩, ?_, h.push htype⟩
      rw [push, hload']
      rfl
  | _ =>
      cases hpush
      exact ⟨_, rfl, h.push (hr.refl _)⟩

theorem pushAll_related (hr : ShapeRelation r) {line : Line} {groups' groups : List (List Value)}
    {f g g' : Frame} {pushes : List Pushed}
    (hgroups : List.Forall₂ (ValuesRelated r) groups' groups) (h : f.Related r g)
    (hpushes : ∀ pushed ∈ pushes, pushed.RejectsTop)
    (hpush : pushes.foldlM (line.push groups) g = .ok g') :
    ∃ f', pushes.foldlM (line.push groups') f = .ok f' ∧ f'.Related r g' ∧
      f'.locals = f.locals ∧ g'.locals = g.locals := by
  induction pushes generalizing f g with
  | nil =>
      cases hpush
      exact ⟨f, rfl, h, rfl, rfl⟩
  | cons pushed pushes ih =>
      rw [List.foldlM_cons] at hpush
      obtain ⟨g₁, hpush₁, hpush⟩ := exists_of_bind_eq_ok hpush
      obtain ⟨f₁, hf₁, h₁⟩ := push_related hr hgroups h (hpushes _ List.mem_cons_self) hpush₁
      obtain ⟨f', hf', h', hlocals, hlocals'⟩ :=
        ih h₁ (fun p hp => hpushes p (List.mem_cons_of_mem _ hp)) hpush
      refine ⟨f', ?_, h', hlocals.trans (locals_of_push hf₁),
        hlocals'.trans (locals_of_push hpush₁)⟩
      rw [List.foldlM_cons, hf₁]
      exact hf'

theorem initializeReceiver_related (hr : ShapeRelation r) {groups' groups : List (List Value)}
    {f g : Frame} (hgroups : List.Forall₂ (ValuesRelated r) groups' groups) (h : f.Related r g)
    (thisClass : BinaryName) (position : Option Nat) :
    (initializeReceiver thisClass groups' position f).Related r
      (initializeReceiver thisClass groups position g) := by
  cases position with
  | none => exact h
  | some i =>
      simp only [initializeReceiver, Option.bind_some]
      rcases head?_related (getD_related hgroups i) with ⟨hv, hw⟩ | ⟨v, w, hv, hw, hvw⟩
      · rw [hv, hw]
        exact h
      · rw [hv, hw]
        exact h.markInitialized hr hvw thisClass

theorem size_initializeReceiver (thisClass : BinaryName) (groups : List (List Value))
    (position : Option Nat) (f : Frame) :
    (initializeReceiver thisClass groups position f).locals.size = f.locals.size := by
  rw [initializeReceiver]
  split
  · exact f.size_markInitialized _ _
  · rfl

/-- A store writes to the same slots of both frames, so it cannot make one longer alone. -/
theorem storePopped_related (hr : ShapeRelation r) {groups' groups : List (List Value)}
    {f g : Frame} (hgroups : List.Forall₂ (ValuesRelated r) groups' groups) (h : f.Related r g)
    (index : Option UInt16) :
    (storePopped groups' index f).Related r (storePopped groups index g) ∧
      (storePopped groups' index f).locals.size ≤
        max f.locals.size (storePopped groups index g).locals.size := by
  cases index with
  | none => exact ⟨h, Nat.le_max_left _ _⟩
  | some index =>
      simp only [storePopped]
      rcases head?_related (getD_related hgroups 0) with ⟨hv, hw⟩ | ⟨v, w, hv, hw, hvw⟩
      · rw [hv, hw]
        exact ⟨h, Nat.le_max_left _ _⟩
      · rw [hv, hw]
        refine ⟨h.setLocal hr hvw index, ?_⟩
        have hwidth := ValueType.width_eq_of_sameShape (hr.shape hvw)
        rw [Frame.size_setLocal, Frame.size_setLocal, Value.width, Value.width, hwidth]
        omega

/-- Where an instruction goes through, it goes through on every related frame, and the results are
related. -/
theorem apply_related (hr : ShapeRelation r) {line : Line} {thisClass : BinaryName}
    {f g g' : Frame} (h : f.Related r g) (happly : line.apply thisClass g = .ok g') :
    ∃ f', line.apply thisClass f = .ok f' ∧ f'.Related r g' ∧
      f'.locals.size ≤ max f.locals.size g'.locals.size := by
  rw [apply] at happly ⊢
  cases heffect : line.instruction.effect with
  | unchanged =>
      rw [heffect] at happly
      cases happly
      exact ⟨f, rfl, h, Nat.le_max_left _ _⟩
  | change c =>
      have htop : ∀ pushed ∈ c.pushes, pushed.RejectsTop := by
        intro pushed hpushed
        apply line.instruction.rejectsTop_of_pushes
        rw [heffect]
        exact hpushed
      rw [heffect] at happly
      obtain ⟨⟨groups, stack⟩, htake, happly⟩ := exists_of_bind_eq_ok happly
      obtain ⟨groups', stack', htake', hgroups, hstack⟩ := takeAll_related hr h.stack htake
      have hpopped : (Frame.mk f.locals stack').Related r (Frame.mk g.locals stack) :=
        ⟨hstack, h.locals⟩
      have hinit := initializeReceiver_related hr hgroups hpopped thisClass c.initializes
      obtain ⟨hstore, hsize⟩ := storePopped_related hr hgroups hinit c.store
      obtain ⟨f', hf', h', hlocals, hlocals'⟩ := pushAll_related hr hgroups hstore htop happly
      refine ⟨f', ?_, h', ?_⟩
      · simp only [applyChange, htake', bind, Except.bind]
        exact hf'
      · rw [hlocals, hlocals']
        rw [size_initializeReceiver] at hsize
        exact hsize

end Line

end JvmAssembler
