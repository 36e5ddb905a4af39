import JvmAssembler.Proofs.Instruction.Encode

/-! Some operands take fewer values than their type has. Whether they fit is known before anything
is resolved, the index of a short `ldc` and the distance of a short jump apart. An instruction has
an encoding exactly if all of these fit, and then it has one at every offset. -/

namespace JvmAssembler

theorem exists_ite_ok_iff {ε α : Type} {p : Prop} [Decidable p] {a : α} {e : ε} :
    (∃ b, (if p then Except.ok a else Except.error e) = .ok b) ↔ p := by
  by_cases h : p
  · rw [if_pos h]
    exact ⟨fun _ => h, fun _ => ⟨a, rfl⟩⟩
  · rw [if_neg h]
    exact ⟨nofun, fun hp => absurd hp h⟩

/-- Can a load or store of this form name the index? -/
def LocalForm.Reaches (index : UInt16) : LocalForm → Prop
  | implicit => index < 4
  | narrow => index < 256
  | wide => True

namespace Operation

variable {κ κ' : Type}

/-- The operands other than constants fit. -/
def Encodable : Operation κ → Prop
  | intConst n => -1 ≤ n ∧ n ≤ 5
  | longConst n | doubleConst n => n ≤ 1
  | floatConst n => n ≤ 2
  | load _ index form | store _ index form => form.Reaches index
  | increment index amount false => index < 256 ∧ -128 ≤ amount ∧ amount ≤ 127
  | shift kind _ | bitwise kind _ => kind = .int ∨ kind = .long
  | convert source target => source ≠ target
  | _ => True

/-- The index of a short `ldc` fits in a byte. -/
def IndexFits : Operation UInt16 → Prop
  | ldc .narrow index => index ≤ 255
  | _ => True

theorem encodable_map (f : κ → κ') (op : Operation κ) : (op.map f).Encodable ↔ op.Encodable := by
  cases op with
  | increment index amount wide => cases wide <;> exact Iff.rfl
  | _ => exact Iff.rfl

theorem exists_encodeConst_iff {part : EncodedPart} {base limit n : UInt8} :
    (∃ bytes, encodeConst part base limit n = .ok bytes) ↔ n ≤ limit :=
  exists_ite_ok_iff

theorem exists_encodeLocal_iff {implicit explicit : UInt8} {index : UInt16} {form : LocalForm} :
    (∃ bytes, encodeLocal implicit explicit index form = .ok bytes) ↔ form.Reaches index := by
  cases form with
  | implicit | narrow => exact exists_ite_ok_iff
  | wide => exact ⟨fun _ => trivial, fun _ => ⟨_, rfl⟩⟩

theorem exists_integralRank_iff {kind : NumericKind} {f : UInt8 → List UInt8} :
    (∃ bytes, (integralRank kind).map f = .ok bytes) ↔ kind = .int ∨ kind = .long := by
  cases kind with
  | int => exact ⟨fun _ => .inl rfl, fun _ => ⟨_, rfl⟩⟩
  | long => exact ⟨fun _ => .inr rfl, fun _ => ⟨_, rfl⟩⟩
  | float | double => exact ⟨nofun, nofun⟩

theorem exists_convertOpcode_iff {source target : NumericKind} {f : UInt8 → List UInt8} :
    (∃ bytes, (convertOpcode source target).map f = .ok bytes) ↔ source ≠ target := by
  cases source <;> cases target <;> simp [convertOpcode, Except.map]

/-- An operation has an encoding exactly if its operands fit. -/
theorem exists_encode_iff {op : Operation UInt16} :
    (∃ bytes, op.encode = .ok bytes) ↔ op.Encodable ∧ op.IndexFits := by
  cases op with
  | intConst n =>
      simp only [encode, Encodable, IndexFits, and_true, exists_ite_ok_iff]
  | longConst n | floatConst n | doubleConst n =>
      simp only [encode, Encodable, IndexFits, and_true, exists_encodeConst_iff]
  | load kind index form | store kind index form =>
      simp only [encode, Encodable, IndexFits, and_true, exists_encodeLocal_iff]
  | ldc form index =>
      cases form with
      | narrow =>
          have hle : index < 256 ↔ index ≤ 255 := by
            rw [UInt16.lt_iff_toNat_lt, UInt16.le_iff_toNat_le]
            exact Nat.lt_succ_iff
          simp only [encode, Encodable, IndexFits, true_and, exists_ite_ok_iff, hle]
      | wide | double => exact ⟨fun _ => ⟨trivial, trivial⟩, fun _ => ⟨_, rfl⟩⟩
  | increment index amount wide =>
      cases wide with
      | true => exact ⟨fun _ => ⟨trivial, trivial⟩, fun _ => ⟨_, rfl⟩⟩
      | false =>
          simp only [encode, Encodable, IndexFits, and_true]
          split
          · rename_i hindex
            rw [exists_ite_ok_iff]
            exact ⟨fun hamount => ⟨hindex, hamount⟩, And.right⟩
          · rename_i hindex
            constructor
            · rintro ⟨bytes, ⟨⟩⟩
            · exact fun h => absurd h.1 hindex
  | shift kind op | bitwise kind op =>
      simp only [encode, Encodable, IndexFits, and_true, exists_integralRank_iff]
  | convert source target =>
      simp only [encode, Encodable, IndexFits, and_true, exists_convertOpcode_iff]
  | narrowInt target => cases target <;> exact ⟨fun _ => ⟨trivial, trivial⟩, fun _ => ⟨_, rfl⟩⟩
  | compareFloats mode | compareDoubles mode =>
      cases mode <;> exact ⟨fun _ => ⟨trivial, trivial⟩, fun _ => ⟨_, rfl⟩⟩
  | invoke kind index => cases kind <;> exact ⟨fun _ => ⟨trivial, trivial⟩, fun _ => ⟨_, rfl⟩⟩
  | classUse action index =>
      cases action <;> exact ⟨fun _ => ⟨trivial, trivial⟩, fun _ => ⟨_, rfl⟩⟩
  | _ => exact ⟨fun _ => ⟨trivial, trivial⟩, fun _ => ⟨_, rfl⟩⟩

end Operation

namespace Branch

/-- The distance of a short jump fits in 16 bits. -/
def DistanceFits : Branch Int32 → Prop
  | jump op distance => op = .gotoWide ∨ -32768 ≤ distance ∧ distance ≤ 32767
  | _ => True

/-- A branch has an encoding exactly if its distance fits. -/
theorem exists_encodeAt_iff {b : Branch Int32} {offset : Nat} :
    (∃ bytes, b.encodeAt offset = .ok bytes) ↔ b.DistanceFits := by
  cases b with
  | jump op distance =>
      cases op with
      | gotoWide => exact ⟨fun _ => .inl rfl, fun _ => ⟨_, rfl⟩⟩
      | _ =>
          simp only [encodeAt, DistanceFits, reduceCtorEq, false_or, exists_ite_ok_iff]
  | returns kind => cases kind <;> exact ⟨fun _ => trivial, fun _ => ⟨_, rfl⟩⟩
  | _ => exact ⟨fun _ => trivial, fun _ => ⟨_, rfl⟩⟩

end Branch

namespace Instruction

variable {κ κ' ℓ ℓ' : Type}

/-- Replaces the constant and the targets. -/
def map (f : κ → κ') (g : ℓ → ℓ') : Instruction κ ℓ → Instruction κ' ℓ'
  | operation op => operation (op.map f)
  | branch b => branch (b.map g)

/-- All operands fit that are known before constants and targets are resolved. -/
def Encodable : Instruction κ ℓ → Prop
  | operation op => op.Encodable
  | branch _ => True

/-- What was resolved fits. -/
def ResolvedFits : ResolvedInstruction → Prop
  | operation op => op.IndexFits
  | branch b => b.DistanceFits

theorem encodable_map (f : κ → κ') (g : ℓ → ℓ') (insn : Instruction κ ℓ) :
    (insn.map f g).Encodable ↔ insn.Encodable := by
  cases insn with
  | operation op => exact op.encodable_map f
  | branch b => exact Iff.rfl

/-- An instruction has an encoding exactly if its operands fit, wherever it stands. -/
theorem exists_encodeAt_iff {insn : ResolvedInstruction} {offset : Nat} :
    (∃ bytes, insn.encodeAt offset = .ok bytes) ↔ insn.Encodable ∧ insn.ResolvedFits := by
  cases insn with
  | operation op => exact Operation.exists_encode_iff
  | branch b => exact Branch.exists_encodeAt_iff.trans (iff_of_eq (true_and _).symm)

end Instruction

end JvmAssembler
