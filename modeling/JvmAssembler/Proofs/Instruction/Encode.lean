import JvmAssembler.Method.Emit
import JvmAssembler.Proofs.Instruction.Related

/-! Resolving an instruction keeps its size, and its bytes are as many as its size says. So the
offsets that were fixed before anything was resolved are those of the code. -/

namespace JvmAssembler

namespace Operation

/-- Number of bytes of a load or store. -/
def localSize : LocalForm → Nat
  | .implicit => 1
  | .narrow => 2
  | .wide => 4

theorem length_of_encodeLocal {implicit explicit : UInt8} {index : UInt16} {form : LocalForm}
    {bytes : List UInt8} (h : encodeLocal implicit explicit index form = .ok bytes) :
    bytes.length = localSize form := by
  cases form with
  | implicit | narrow =>
      simp only [encodeLocal] at h
      split at h
      · cases h
        rfl
      · cases h
  | wide =>
      cases h
      rfl

theorem length_of_encodeConst {part : EncodedPart} {base limit n : UInt8} {bytes : List UInt8}
    (h : encodeConst part base limit n = .ok bytes) : bytes.length = 1 := by
  simp only [encodeConst] at h
  split at h
  · cases h
    rfl
  · cases h

theorem length_of_map_singleton {x : Except EncodeError UInt8} {f : UInt8 → UInt8}
    {bytes : List UInt8} (h : x.map (fun n => [f n]) = .ok bytes) : bytes.length = 1 := by
  cases x with
  | error e => cases h
  | ok n =>
      cases h
      rfl

theorem length_of_encode {op : Operation UInt16} {bytes : List UInt8}
    (h : op.encode = .ok bytes) : bytes.length = op.size := by
  cases op with
  | load kind index form =>
      rw [encode] at h
      rw [length_of_encodeLocal h]
      cases form <;> rfl
  | store kind index form =>
      rw [encode] at h
      rw [length_of_encodeLocal h]
      cases form <;> rfl
  | longConst n | floatConst n | doubleConst n => exact length_of_encodeConst h
  | shift kind op | bitwise kind op | convert source target => exact length_of_map_singleton h
  | intConst n =>
      rw [encode] at h
      split at h
      · cases h
        rfl
      · cases h
  | ldc form index =>
      cases form with
      | narrow =>
          rw [encode] at h
          split at h
          · cases h
            rfl
          · cases h
      | wide | double =>
          cases h
          rfl
  | increment index amount wide =>
      cases wide with
      | true =>
          cases h
          rfl
      | false =>
          rw [encode] at h
          split at h
          · split at h
            · cases h
              rfl
            · cases h
          · cases h
  | narrowInt target =>
      cases target <;> cases h <;> rfl
  | compareFloats mode | compareDoubles mode =>
      cases mode <;> cases h <;> rfl
  | invoke kind index =>
      cases kind <;> cases h <;> rfl
  | classUse action index =>
      cases action <;> cases h <;> rfl
  | _ =>
      cases h
      rfl

end Operation

theorem length_flatMap_of_length_eq {α β : Type} {f : α → List β} {n : Nat}
    (h : ∀ a, (f a).length = n) (l : List α) : (l.flatMap f).length = n * l.length := by
  induction l with
  | nil => rfl
  | cons a l ih =>
      rw [List.flatMap_cons, List.length_append, h, ih, List.length_cons, Nat.mul_succ]
      exact Nat.add_comm _ _

namespace Branch

theorem length_of_encodeAt {offset : Nat} {b : Branch Int32} {bytes : List UInt8}
    (h : b.encodeAt offset = .ok bytes) : bytes.length = b.sizeAt offset := by
  cases b with
  | jump op target =>
      cases op with
      | gotoWide =>
          cases h
          rfl
      | _ =>
          simp only [encodeAt] at h
          split at h
          · cases h
            rfl
          · cases h
  | tableSwitch default low targets =>
      cases h
      have htargets : (targets.flatMap Bytes.ofInt32).length = 4 * targets.length := by
        apply length_flatMap_of_length_eq
        intro target
        rfl
      simp only [sizeAt, List.length_append, List.length_cons, List.length_replicate,
        Bytes.ofInt32, Bytes.length_ofUInt32] at htargets ⊢
      omega
  | lookupSwitch default targets =>
      cases h
      have htargets : (targets.flatMap fun entry =>
          Bytes.ofInt32 entry.1 ++ Bytes.ofInt32 entry.2).length = 8 * targets.length := by
        apply length_flatMap_of_length_eq
        intro entry
        rfl
      simp only [sizeAt, List.length_append, List.length_cons, List.length_replicate,
        Bytes.ofInt32, Bytes.length_ofUInt32] at htargets ⊢
      omega
  | returns kind =>
      cases kind <;> cases h <;> rfl
  | throws =>
      cases h
      rfl

end Branch

theorem Instruction.length_of_encodeAt {offset : Nat} {insn : ResolvedInstruction}
    {bytes : List UInt8} (h : insn.encodeAt offset = .ok bytes) :
    bytes.length = insn.sizeAt offset := by
  cases insn with
  | operation op => exact Operation.length_of_encode h
  | branch b => exact Branch.length_of_encodeAt h

namespace Line

variable {line : Line} {body : Body} {s s' : ClassState}

theorem exists_of_encode {bytes : List UInt8} (h : line.encode body s = .ok bytes s') :
    ∃ resolved, line.resolve body s = .ok resolved s' ∧
      resolved.encodeAt line.offset = .ok bytes := by
  obtain ⟨resolved, s₁, hresolve, hlift⟩ := exists_of_bind_eq_result h
  obtain ⟨hencode, rfl⟩ := lift_eq_result hlift
  exact ⟨resolved, hresolve, eq_ok_of_mapError hencode⟩

/-- The distance to a label is that to the instruction after it, modulo 2^32. -/
theorem distance_eq_ok_iff {label : Nat} {d : Int32} :
    line.distance body label = .ok d ↔
      ∃ target, body.lines[(body.labels.get label).instruction]? = some target ∧
        d = Int32.ofInt (target.offset - line.offset) := by
  unfold distance Body.labelOffset?
  cases body.lines[(body.labels.get label).instruction]? with
  | none => simp
  | some target => simp [eq_comm]

theorem traverse_of_resolveOperation {op : SymbolicOperation} {resolved : Operation UInt16}
    (h : line.resolveOperation op s = .ok resolved s') :
    op.traverse (fun constant => Emission.interning (ConstantPool.intern constant)) s =
      .ok resolved s' := by
  obtain ⟨found, s₁, htraverse, h⟩ := exists_of_bind_eq_result h
  dsimp only at h
  split at h
  · split at h
    · cases h
    · cases h
      exact htraverse
  · cases h
    exact htraverse

theorem traverse_of_resolveBranch {b : SymbolicBranch} {resolved : Branch Int32}
    (h : line.resolveBranch body b = .ok resolved) :
    b.traverse (line.distance body) = .ok resolved := by
  obtain ⟨found, htraverse, h⟩ := exists_of_bind_eq_ok h
  split at h
  · cases h
    exact htraverse
  · split at h
    · cases h
      exact htraverse
    · cases h
  · cases h
    exact htraverse

/-- The resolved forms of an instruction. -/
theorem resolve_cases {resolved : ResolvedInstruction} (h : line.resolve body s = .ok resolved s') :
    (∃ op found, line.instruction = .operation op ∧ resolved = .operation found ∧
      op.traverse (fun constant => Emission.interning (ConstantPool.intern constant)) s =
        .ok found s') ∨
    (∃ b found, line.instruction = .branch b ∧ resolved = .branch found ∧ s = s' ∧
      b.traverse (line.distance body) = .ok found) := by
  cases hinsn : line.instruction with
  | operation op =>
      simp only [resolve, hinsn] at h
      obtain ⟨found, s₁, hfound, hreturn⟩ := exists_of_bind_eq_result h
      cases hreturn
      exact .inl ⟨op, found, rfl, rfl, traverse_of_resolveOperation hfound⟩
  | branch b =>
      simp only [resolve, hinsn] at h
      obtain ⟨found, s₁, hlift, hreturn⟩ := exists_of_bind_eq_result h
      cases hreturn
      obtain ⟨hfound, rfl⟩ := lift_eq_result hlift
      exact .inr ⟨b, found, rfl, rfl, rfl, traverse_of_resolveBranch hfound⟩

/-- The bytes of an instruction are as many as its size says. -/
theorem length_of_encode {bytes : List UInt8} (h : line.encode body s = .ok bytes s') :
    bytes.length = line.size := by
  obtain ⟨resolved, hresolve, hencode⟩ := exists_of_encode h
  rw [Instruction.length_of_encodeAt hencode, size]
  rcases resolve_cases hresolve with ⟨op, found, hop, rfl, htraverse⟩ | ⟨b, found, hb, rfl, _, htraverse⟩
  · rw [hop]
    rcases Operation.related_of_traverse htraverse with ⟨-, hrelated⟩ | ⟨_, _, _, hrelated⟩
    · exact (hrelated fun _ _ => True).size_eq
    · exact (hrelated (fun _ _ => True) trivial).size_eq
  · rw [hb]
    have hrelated := Branch.related_of_traverse (R := fun _ _ => True) htraverse fun _ _ _ => trivial
    exact hrelated.sizeAt_eq line.offset

end Line

end JvmAssembler
