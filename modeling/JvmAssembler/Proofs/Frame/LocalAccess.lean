import JvmAssembler.Proofs.Frame.Balance
import JvmAssembler.Proofs.Frame.Shape

/-! Loads, stores and increments use a local. A load or a store that can be applied to a frame finds
there what it needs. An increment is applied to every frame, so whether it finds an int is a
question of its own. -/

namespace JvmAssembler

/-- Numeric types have a shape of their own. -/
theorem ValueType.eq_numeric_of_sameShape {type : ValueType} {kind : NumericKind}
    (h : type.SameShape (.numeric kind)) : type = .numeric kind := by
  rcases eq_of_sameShape h with heq | ⟨_, hinitialized⟩
  · exact heq
  · cases hinitialized

namespace ValueKind

/-- Is a value of the type of this kind? -/
def describes : ValueKind → ValueType → Bool
  | numeric kind, type => type == .numeric kind
  | reference, type => type.isReference

theorem width_of_describes {kind : ValueKind} {type : ValueType}
    (h : kind.describes type = true) : type.width = kind.width := by
  cases kind with
  | numeric kind =>
      rw [describes, beq_iff_eq] at h
      rw [h]
      rfl
  | reference =>
      cases type with
      | top | numeric kind => cases h
      | _ => rfl

theorem describes_top (kind : ValueKind) : kind.describes .top = false := by
  cases kind <;> rfl

/-- A load or store takes the values of its kind. -/
theorem accepts_movedValue (kind : ValueKind) (type : ValueType) :
    (Effect.movedValue kind).accepts type = kind.describes type := by
  cases kind with
  | numeric kind =>
      rw [Effect.movedValue, Expectation.accepts, describes, Bool.eq_iff_iff, beq_iff_eq,
        beq_iff_eq]
      cases type <;> simp [ValueType.numeric?]
  | reference => rfl

theorem width_le_two (kind : ValueKind) : kind.width ≤ 2 := by
  cases kind with
  | numeric kind => cases kind <;> decide
  | reference => decide

theorem width_movedValue (kind : ValueKind) : (Effect.movedValue kind).width = kind.width := by
  cases kind <;> rfl

end ValueKind

/-- The use of a local by an instruction: its index, the kind of the value, and whether the value is
read or only written. -/
structure LocalAccess where
  index : UInt16
  kind : ValueKind
  reads : Bool

/-- The type of a local, where missing ones are unusable. -/
def Frame.localType (f : Frame) (index : UInt16) : ValueType :=
  (f.locals.getD index.toNat Value.unusable).type

/-- There is room for the value, and a value that is read is of the right kind. -/
def LocalAccess.Sound (access : LocalAccess) (maxLocals : Nat) (f : Frame) : Prop :=
  access.index.toNat + access.kind.width ≤ maxLocals ∧
    (access.reads = true → access.kind.describes (f.localType access.index) = true)

namespace Instruction

/-- The local that a load or store uses. -/
def moves? : SymbolicInstruction → Option LocalAccess
  | .operation (.load kind index _) => some ⟨index, kind, true⟩
  | .operation (.store kind index _) => some ⟨index, kind, false⟩
  | _ => none

/-- The local that an increment uses. -/
def increments? : SymbolicInstruction → Option LocalAccess
  | .operation (.increment index _ _) => some ⟨index, .numeric .int, true⟩
  | _ => none

theorem increments?_eq_some {instruction : SymbolicInstruction} {access : LocalAccess}
    (h : instruction.increments? = some access) :
    access.kind = .numeric .int ∧ access.reads = true := by
  unfold increments? at h
  split at h
  · cases h
    exact ⟨rfl, rfl⟩
  · cases h

/-- The local that an instruction uses. -/
def localAccess? (instruction : SymbolicInstruction) : Option LocalAccess :=
  instruction.moves?.or instruction.increments?

theorem localAccess?_eq_some_iff {instruction : SymbolicInstruction} {access : LocalAccess} :
    instruction.localAccess? = some access ↔
      instruction.moves? = some access ∨ instruction.increments? = some access := by
  rw [localAccess?, Option.or_eq_some_iff]
  refine or_congr_right ⟨fun h => h.2, fun h => ⟨?_, h⟩⟩
  unfold increments? at h
  split at h
  · rfl
  · cases h

end Instruction

namespace Frame

variable {f g : Frame}

theorem SameShape.localType (h : f.SameShape g) (index : UInt16) :
    (f.localType index).SameShape (g.localType index) := h.getD_locals index.toNat

/-- Where the wider frame has a numeric value, so has the other. -/
theorem Below.localType_eq {index : UInt16} {kind : NumericKind} (h : f.Below g)
    (hg : g.localType index = .numeric kind) : f.localType index = .numeric kind := by
  rw [localType, Array.getD_eq_getD_getElem?] at hg ⊢
  cases hw : g.locals[index.toNat]? with
  | none =>
      rw [hw] at hg
      cases hg
  | some w =>
      rw [hw, Option.getD_some] at hg
      rcases h.locals _ w hw with htop | ⟨v, hv, hle⟩
      · rw [htop] at hg
        cases hg
      · rw [hv, Option.getD_some]
        rw [hg] at hle
        exact ValueType.eq_numeric_of_sameShape (ValueType.sameShape_of_le hle)

/-- All slots of a value lie among the locals. -/
theorem Paired.add_width_le (h : f.Paired) {index : UInt16} {kind : ValueKind}
    (hkind : kind.describes (f.localType index) = true) :
    index.toNat + kind.width ≤ f.locals.size := by
  cases hget : f.locals[index.toNat]? with
  | none =>
      rw [localType, Array.getD_eq_getD_getElem?, hget] at hkind
      rw [Option.getD_none, Value.unusable, ValueKind.describes_top] at hkind
      cases hkind
  | some v =>
      rw [localType, Array.getD_eq_getD_getElem?, hget, Option.getD_some] at hkind
      have hwidth : v.width = kind.width := ValueKind.width_of_describes hkind
      obtain ⟨hlt, _⟩ := Array.getElem?_eq_some_iff.mp hget
      by_cases htwo : v.width = 2
      · obtain ⟨w, hw, _⟩ := h _ v hget htwo
        obtain ⟨hlt', _⟩ := Array.getElem?_eq_some_iff.mp hw
        omega
      · have hle := kind.width_le_two
        omega

end Frame

namespace Line

variable {line : Line} {thisClass : BinaryName} {f f' : Frame} {kind : ValueKind} {index : UInt16}
  {form : LocalForm}

/-- A load finds a value of its kind. -/
theorem describes_of_load (hline : line.instruction = .operation (.load kind index form))
    (h : line.apply thisClass f = .ok f') : kind.describes (f.localType index) = true := by
  rw [apply, hline] at h
  obtain ⟨⟨groups, stack⟩, htake, h⟩ := exists_of_bind_eq_ok h
  obtain ⟨g, hpush, _⟩ := exists_of_bind_eq_ok h
  obtain ⟨type, hload, _⟩ := exists_of_bind_eq_ok hpush
  obtain ⟨htype, haccepts⟩ := loadLocal_eq_ok_iff.mp hload
  rw [Frame.elim_local?] at htype
  rw [← ValueKind.accepts_movedValue, Frame.localType]
  cases htake
  exact htype ▸ haccepts

theorem take_movedValue {s rest : SlotVec Value} {group : List Value}
    (h : line.take (Effect.movedValue kind) kind.width [] s = .ok (group, rest)) :
    ∃ v : Value, group = [v] ∧ v.width = kind.width := by
  have hone : ∀ count, Effect.movedValue kind ≠ .slots count := by
    cases kind <;> exact fun _ => Expectation.noConfusion
  rw [← ValueKind.width_movedValue] at h ⊢
  obtain ⟨v, rfl, haccepts⟩ := take_one hone h
  exact ⟨v, rfl, Expectation.width_of_accepts haccepts⟩

/-- A store makes room for a value of its kind. -/
theorem add_width_le_of_store (hline : line.instruction = .operation (.store kind index form))
    (h : line.apply thisClass f = .ok f') : index.toNat + kind.width ≤ f'.locals.size := by
  rw [apply, hline] at h
  obtain ⟨⟨groups, stack⟩, htake, h⟩ := exists_of_bind_eq_ok h
  obtain ⟨⟨group, rest⟩, hgroup, htake⟩ := exists_of_bind_eq_ok htake
  rw [ValueKind.width_movedValue] at hgroup
  obtain ⟨v, rfl, hwidth⟩ := take_movedValue hgroup
  cases htake
  cases h
  rw [← hwidth]
  exact Nat.le_trans (Nat.le_max_right _ _) (Nat.le_of_eq (Frame.size_setLocal _ index v).symm)

/-- A load or store that can be applied is sound. -/
theorem sound_of_moves {access : LocalAccess} {maxLocals : Nat}
    (hmoves : line.instruction.moves? = some access) (h : line.apply thisClass f = .ok f')
    (hpaired : f.Paired) (hroom : f.locals.size ≤ maxLocals) (hroom' : f'.locals.size ≤ maxLocals) :
    access.Sound maxLocals f := by
  unfold Instruction.moves? at hmoves
  split at hmoves
  · rename_i kind index form hline
    cases hmoves
    have hdescribes := describes_of_load hline h
    exact ⟨Nat.le_trans (hpaired.add_width_le hdescribes) hroom, fun _ => hdescribes⟩
  · rename_i kind index form hline
    cases hmoves
    exact ⟨Nat.le_trans (add_width_le_of_store hline h) hroom', fun hreads => by cases hreads⟩
  · cases hmoves

/-- An increment is sound if its local is an int. -/
theorem sound_of_increments {access : LocalAccess} {maxLocals : Nat}
    (hincrements : line.instruction.increments? = some access) (hpaired : f.Paired)
    (hroom : f.locals.size ≤ maxLocals) (hint : f.localType access.index = .numeric .int) :
    access.Sound maxLocals f := by
  have hdescribes : access.kind.describes (f.localType access.index) = true := by
    rw [(Instruction.increments?_eq_some hincrements).1, hint]
    rfl
  exact ⟨Nat.le_trans (hpaired.add_width_le hdescribes) hroom, fun _ => hdescribes⟩

end Line

end JvmAssembler
