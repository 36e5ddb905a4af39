import JvmAssembler.Instruction.Basic
import JvmAssembler.Proofs.Success

/-! Instructions that differ in their constants and targets only. Where these are replaced one by
one, the new instruction is related to the old one by whatever relates new constants and targets to
old ones, and it has the same size. -/

namespace JvmAssembler

namespace Operation

variable {κ κ' ε σ : Type}

/-- The same operation on related constants. -/
inductive Related (R : κ → κ' → Prop) : Operation κ → Operation κ' → Prop
  | nop : Related R nop nop
  | nullConst : Related R nullConst nullConst
  | intConst (n : Int8) : Related R (intConst n) (intConst n)
  | longConst (n : UInt8) : Related R (longConst n) (longConst n)
  | floatConst (n : UInt8) : Related R (floatConst n) (floatConst n)
  | doubleConst (n : UInt8) : Related R (doubleConst n) (doubleConst n)
  | bytePush (n : Int8) : Related R (bytePush n) (bytePush n)
  | shortPush (n : Int16) : Related R (shortPush n) (shortPush n)
  | ldc (form : LdcForm) {constant : κ} {constant' : κ'} (h : R constant constant') :
      Related R (ldc form constant) (ldc form constant')
  | load (kind : ValueKind) (index : UInt16) (form : LocalForm) :
      Related R (load kind index form) (load kind index form)
  | store (kind : ValueKind) (index : UInt16) (form : LocalForm) :
      Related R (store kind index form) (store kind index form)
  | increment (index : UInt16) (amount : Int16) (wide : Bool) :
      Related R (increment index amount wide) (increment index amount wide)
  | arrayLoad (kind : ArrayKind) : Related R (arrayLoad kind) (arrayLoad kind)
  | arrayStore (kind : ArrayKind) : Related R (arrayStore kind) (arrayStore kind)
  | stack (op : StackOp) : Related R (stack op) (stack op)
  | arithmetic (kind : NumericKind) (op : ArithmeticOp) :
      Related R (arithmetic kind op) (arithmetic kind op)
  | negate (kind : NumericKind) : Related R (negate kind) (negate kind)
  | shift (kind : NumericKind) (op : ShiftOp) : Related R (shift kind op) (shift kind op)
  | bitwise (kind : NumericKind) (op : BitwiseOp) : Related R (bitwise kind op) (bitwise kind op)
  | convert (source target : NumericKind) :
      Related R (convert source target) (convert source target)
  | narrowInt (target : NarrowInt) : Related R (narrowInt target) (narrowInt target)
  | compareLongs : Related R compareLongs compareLongs
  | compareFloats (mode : CompareMode) : Related R (compareFloats mode) (compareFloats mode)
  | compareDoubles (mode : CompareMode) : Related R (compareDoubles mode) (compareDoubles mode)
  | field (access : FieldAccess) {constant : κ} {constant' : κ'} (h : R constant constant') :
      Related R (field access constant) (field access constant')
  | invoke (kind : InvokeKind) {constant : κ} {constant' : κ'} (h : R constant constant') :
      Related R (invoke kind constant) (invoke kind constant')
  | classUse (action : ClassUse) {constant : κ} {constant' : κ'} (h : R constant constant') :
      Related R (classUse action constant) (classUse action constant')
  | newArray (element : BaseType) : Related R (newArray element) (newArray element)
  | multiArray {constant : κ} {constant' : κ'} (h : R constant constant') (dimensions : UInt8) :
      Related R (multiArray constant dimensions) (multiArray constant' dimensions)
  | arrayLength : Related R arrayLength arrayLength
  | monitorEnter : Related R monitorEnter monitorEnter
  | monitorExit : Related R monitorExit monitorExit

/-- An operation has one constant at most, so it is replaced in one step or not at all. -/
theorem related_of_traverse {f : κ → EStateM ε σ κ'} {op : Operation κ} {resolved : Operation κ'}
    {s s' : σ} (h : op.traverse f s = .ok resolved s') :
    (s = s' ∧ ∀ R : κ → κ' → Prop, op.Related R resolved) ∨
      ∃ constant index, f constant s = .ok index s' ∧
        ∀ R : κ → κ' → Prop, R constant index → op.Related R resolved := by
  cases op with
  | ldc _ constant | field _ constant | invoke _ constant | classUse _ constant
  | multiArray constant _ =>
      obtain ⟨index, s₁, hindex, hreturn⟩ := exists_of_bind_eq_result h
      cases hreturn
      refine .inr ⟨constant, index, hindex, fun R hconstant => ?_⟩
      constructor
      exact hconstant
  | _ =>
      cases h
      refine .inl ⟨rfl, fun R => ?_⟩
      constructor

namespace Related

variable {op : Operation κ} {op' : Operation κ'}

theorem size_eq {R : κ → κ' → Prop} (h : op.Related R op') : op'.size = op.size := by
  cases h with
  | ldc form | load _ _ form | store _ _ form => cases form <;> rfl
  | increment _ _ wide => cases wide <;> rfl
  | invoke kind => cases kind <;> rfl
  | _ => rfl

/-- What takes the new constants back to the old ones takes back the operation. -/
theorem traverse_eq {g : κ' → Option κ} (h : op.Related (fun old new => g new = some old) op') :
    op'.traverse g = some op := by
  cases h with
  | ldc _ h | field _ h | invoke _ h | classUse _ h | multiArray h => simp [traverse, h]
  | _ => rfl

end Related

end Operation

namespace Branch

variable {ℓ ℓ' : Type}

/-- The same branch with related targets. -/
inductive Related (R : ℓ → ℓ' → Prop) : Branch ℓ → Branch ℓ' → Prop
  | jump (op : Jump) {target : ℓ} {target' : ℓ'} (h : R target target') :
      Related R (jump op target) (jump op target')
  | tableSwitch {default : ℓ} {default' : ℓ'} (hdefault : R default default') (low : Int32)
      {targets : List ℓ} {targets' : List ℓ'} (htargets : List.Forall₂ R targets targets') :
      Related R (tableSwitch default low targets) (tableSwitch default' low targets')
  | lookupSwitch {default : ℓ} {default' : ℓ'} (hdefault : R default default')
      {targets : List (Int32 × ℓ)} {targets' : List (Int32 × ℓ')}
      (htargets : List.Forall₂ (fun entry entry' => entry.1 = entry'.1 ∧ R entry.2 entry'.2)
        targets targets') :
      Related R (lookupSwitch default targets) (lookupSwitch default' targets')
  | returns (kind : Option ValueKind) : Related R (returns kind) (returns kind)
  | throws : Related R throws throws

theorem related_of_traverse {ε : Type} {f : ℓ → Except ε ℓ'} {R : ℓ → ℓ' → Prop} {b : Branch ℓ}
    {resolved : Branch ℓ'} (h : b.traverse f = .ok resolved)
    (hR : ∀ target d, f target = .ok d → R target d) : b.Related R resolved := by
  cases b with
  | jump op target =>
      obtain ⟨d, hd, hreturn⟩ := exists_of_bind_eq_ok h
      cases hreturn
      exact .jump op (hR target d hd)
  | tableSwitch default low targets =>
      obtain ⟨d, hd, h⟩ := exists_of_bind_eq_ok h
      obtain ⟨ds, hds, hreturn⟩ := exists_of_bind_eq_ok h
      cases hreturn
      exact .tableSwitch (hR default d hd) low ((forall₂_of_mapM_eq_ok hds).imp hR)
  | lookupSwitch default targets =>
      obtain ⟨d, hd, h⟩ := exists_of_bind_eq_ok h
      obtain ⟨ds, hds, hreturn⟩ := exists_of_bind_eq_ok h
      cases hreturn
      refine .lookupSwitch (hR default d hd) ((forall₂_of_mapM_eq_ok hds).imp ?_)
      intro entry entry' hentry
      obtain ⟨d', hd', hreturn⟩ := exists_of_bind_eq_ok hentry
      cases hreturn
      exact ⟨rfl, hR entry.2 d' hd'⟩
  | returns kind =>
      cases h
      exact .returns kind
  | throws =>
      cases h
      exact .throws

namespace Related

variable {R : ℓ → ℓ' → Prop} {b : Branch ℓ} {b' : Branch ℓ'}

theorem sizeAt_eq (h : b.Related R b') (offset : Nat) : b'.sizeAt offset = b.sizeAt offset := by
  cases h with
  | tableSwitch _ _ htargets => rw [sizeAt, sizeAt, htargets.length_eq]
  | lookupSwitch _ htargets => rw [sizeAt, sizeAt, htargets.length_eq]
  | jump | returns | throws => rfl

theorem targets (h : b.Related R b') : List.Forall₂ R b.targets b'.targets := by
  cases h with
  | jump _ h => exact .cons h .nil
  | tableSwitch hdefault _ htargets => exact .cons hdefault htargets
  | lookupSwitch hdefault htargets =>
      refine .cons hdefault ?_
      rw [List.forall₂_map_left_iff, List.forall₂_map_right_iff]
      exact htargets.imp fun _ _ hentry => hentry.2
  | returns | throws => exact .nil

/-- A branch is determined by what each of its targets is related to. -/
theorem right_unique (hR : Relator.RightUnique R) {b'' : Branch ℓ'} (h : b.Related R b')
    (h' : b.Related R b'') : b' = b'' := by
  cases h with
  | jump op htarget =>
      cases h' with
      | jump _ htarget' => rw [hR htarget htarget']
  | tableSwitch hdefault low htargets =>
      cases h' with
      | tableSwitch hdefault' _ htargets' =>
          rw [hR hdefault hdefault', hR.forall₂ htargets htargets']
  | lookupSwitch hdefault htargets =>
      cases h' with
      | lookupSwitch hdefault' htargets' =>
          have hentries : Relator.RightUnique fun (entry : Int32 × ℓ) (entry' : Int32 × ℓ') =>
              entry.1 = entry'.1 ∧ R entry.2 entry'.2 := by
            intro entry first second hfirst hsecond
            exact Prod.ext (hfirst.1.symm.trans hsecond.1) (hR hfirst.2 hsecond.2)
          rw [hR hdefault hdefault', hentries.forall₂ htargets htargets']
  | returns | throws =>
      cases h'
      rfl

end Related

end Branch

/-- The same instruction with related constants and targets. -/
inductive Instruction.Related {κ κ' ℓ ℓ' : Type} (R : κ → κ' → Prop) (S : ℓ → ℓ' → Prop) :
    Instruction κ ℓ → Instruction κ' ℓ' → Prop
  | operation {op : Operation κ} {op' : Operation κ'} (h : op.Related R op') :
      Related R S (operation op) (operation op')
  | branch {b : Branch ℓ} {b' : Branch ℓ'} (h : b.Related S b') :
      Related R S (branch b) (branch b')

end JvmAssembler
