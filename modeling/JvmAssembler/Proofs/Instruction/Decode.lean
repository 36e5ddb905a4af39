import JvmAssembler.Proofs.Instruction.Encode
import JvmAssembler.Proofs.Instruction.Read
import JvmAssembler.Proofs.Method.Evaluate

/-! The formats of the instructions, listed by opcode, give a decoder of code. It takes the bytes of
an encoded instruction off the front of code and gives the instruction. -/

namespace JvmAssembler

/-- The keys of a table, and the number of entries of any other switch, are within the range of the
operands that tell them. -/
def Instruction.Fits {κ ℓ : Type} : Instruction κ ℓ → Prop
  | branch (.tableSwitch _ low targets) =>
    targets ≠ [] ∧ low.toInt + (targets.length - 1) ≤ 2147483647
  | branch (.lookupSwitch _ targets) => targets.length < 2 ^ 31
  | _ => True

theorem Branch.Related.keysFit {ℓ ℓ' : Type} {R : ℓ → ℓ' → Prop} {b : Branch ℓ} {b' : Branch ℓ'}
    (h : b.Related R b') (hkeys : b.KeysFit) : b'.KeysFit := by
  cases h with
  | tableSwitch _ _ htargets =>
      rw [KeysFit, ← List.length_pos_iff, ← htargets.length_eq, List.length_pos_iff]
      exact hkeys
  | jump | lookupSwitch | returns | throws => trivial

theorem Branch.Related.fits {κ κ' ℓ ℓ' : Type} {R : ℓ → ℓ' → Prop} {b : Branch ℓ} {b' : Branch ℓ'}
    (h : b.Related R b') (hfits : (Instruction.branch b : Instruction κ ℓ).Fits) :
    (Instruction.branch b' : Instruction κ' ℓ').Fits := by
  have hkeys := h.keysFit
  cases h with
  | tableSwitch => exact hkeys hfits
  | lookupSwitch _ htargets =>
      rw [Instruction.Fits, ← htargets.length_eq]
      exact hfits
  | jump | returns | throws => trivial

namespace Decode

open ByteReader

def numericKinds : List NumericKind := [.int, .long, .float, .double]

def integralKinds : List NumericKind := [.int, .long]

def valueKinds : List ValueKind := numericKinds.map .numeric ++ [.reference]

def arrayKinds : List ArrayKind := valueKinds.map .value ++ [.byte, .char, .short]

def comparisons : List OrdComparison := [.eq, .ne, .lt, .ge, .gt, .le]

/-- An operation that is all in its opcode. -/
def plain (op : Operation UInt16) : ByteReader ResolvedInstruction := pure (.operation op)

/-- An operation with an operand. -/
def operand {α : Type} (read : ByteReader α) (op : α → Operation UInt16) :
    ByteReader ResolvedInstruction :=
  (fun a => .operation (op a)) <$> read

/-- An operation with an index of one byte. -/
def shortIndex (op : UInt16 → Operation UInt16) : ByteReader ResolvedInstruction :=
  operand uint8 fun index => op index.toUInt16

/-- A jump over a distance of two bytes. -/
def jump (op : Jump) : ByteReader ResolvedInstruction :=
  (fun distance => .branch (.jump op distance.toInt32)) <$> int16

/-- An increment names the local first and then the amount. -/
def increment : ByteReader ResolvedInstruction := do
  let index ← uint8
  let amount ← int8
  pure (.operation (.increment index.toUInt16 amount.toInt16 false))

/-- The number of argument slots of an interface call is followed by a zero. -/
def invokeInterface : ByteReader ResolvedInstruction := do
  let index ← uint16
  let count ← uint8
  let zero ← uint8
  if zero = 0 then pure (.operation (.invoke (.interface count) index)) else failure

/-- The type codes of the elements of arrays. -/
def elementTypes : List (UInt8 × BaseType) :=
  [(4, .boolean), (5, .char), (6, .float), (7, .double), (8, .byte), (9, .short), (10, .int),
    (11, .long)]

def newArray : ByteReader ResolvedInstruction := do
  let code ← uint8
  match elementTypes.lookup code with
  | some element => pure (.operation (.newArray element))
  | none => failure

def multiArray : ByteReader ResolvedInstruction := do
  let index ← uint16
  let dimensions ← uint8
  pure (.operation (.multiArray index dimensions))

/-- The distance from a position to the next multiple of four. -/
def toNextWord (position : Nat) : Nat := (position + 3) / 4 * 4 - position

/-- Zeros up to the next multiple of four. -/
def padding (position : Nat) : ByteReader Unit := do
  let bytes ← many uint8 (toNextWord position)
  if bytes.all (· = 0) then pure () else failure

/-- Operands start at a multiple of four. The largest key of a table is not less than the smallest
one. -/
def tableSwitch (offset : Nat) : ByteReader ResolvedInstruction := do
  padding (offset + 1)
  let default ← int32
  let low ← int32
  let high ← int32
  if low ≤ high then
    let targets ← many int32 (high.toInt - low.toInt + 1).toNat
    pure (.branch (.tableSwitch default low targets))
  else failure

def keyedTarget : ByteReader (Int32 × Int32) := do
  let key ← int32
  let target ← int32
  pure (key, target)

def lookupSwitch (offset : Nat) : ByteReader ResolvedInstruction := do
  padding (offset + 1)
  let default ← int32
  let count ← int32
  if 0 ≤ count then
    let targets ← many keyedTarget count.toInt.toNat
    pure (.branch (.lookupSwitch default targets))
  else failure

def wideIncrement : ByteReader ResolvedInstruction := do
  let index ← uint16
  let amount ← int16
  pure (.operation (.increment index amount true))

/-- Loads, stores and increments with longer operands. -/
def wide : ByteReader ResolvedInstruction := do
  let opcode ← uint8
  let n := opcode.toNat
  if n < 0x15 then failure
  else if n < 0x36 then
    (valueKinds.map fun kind => operand uint16 fun index => .load kind index .wide).getD (n - 0x15)
      failure
  else if n < 0x84 then
    (valueKinds.map fun kind => operand uint16 fun index => .store kind index .wide).getD (n - 0x36)
      failure
  else if n = 0x84 then wideIncrement
  else failure

/-- The formats of constants, from the opcode `0x00` on. -/
def constants : List (ByteReader ResolvedInstruction) :=
  [[plain .nop, plain .nullConst],
    [(-1 : Int8), 0, 1, 2, 3, 4, 5].map fun n => plain (.intConst n),
    [(0 : UInt8), 1].map fun n => plain (.longConst n),
    [(0 : UInt8), 1, 2].map fun n => plain (.floatConst n),
    [(0 : UInt8), 1].map fun n => plain (.doubleConst n),
    [operand int8 .bytePush, operand int16 .shortPush, shortIndex (.ldc .narrow),
      operand uint16 (.ldc .wide), operand uint16 (.ldc .double)]].flatten

/-- The formats of loads, from the opcode `0x15` on. -/
def loads : List (ByteReader ResolvedInstruction) :=
  [valueKinds.map fun kind => shortIndex fun index => .load kind index .narrow,
    valueKinds.flatMap fun kind =>
      [(0 : UInt16), 1, 2, 3].map fun index => plain (.load kind index .implicit),
    arrayKinds.map fun kind => plain (.arrayLoad kind)].flatten

/-- The formats of stores, from the opcode `0x36` on. -/
def stores : List (ByteReader ResolvedInstruction) :=
  [valueKinds.map fun kind => shortIndex fun index => .store kind index .narrow,
    valueKinds.flatMap fun kind =>
      [(0 : UInt16), 1, 2, 3].map fun index => plain (.store kind index .implicit),
    arrayKinds.map fun kind => plain (.arrayStore kind)].flatten

/-- The formats of computations, from the opcode `0x57` on. -/
def computations : List (ByteReader ResolvedInstruction) :=
  [[StackOp.pop, .pop2, .dup, .dupX1, .dupX2, .dup2, .dup2X1, .dup2X2, .swap].map
      fun op => plain (.stack op),
    [ArithmeticOp.add, .sub, .mul, .div, .rem].flatMap fun op =>
      numericKinds.map fun kind => plain (.arithmetic kind op),
    numericKinds.map fun kind => plain (.negate kind),
    [ShiftOp.left, .arithmeticRight, .logicalRight].flatMap fun op =>
      integralKinds.map fun kind => plain (.shift kind op),
    [BitwiseOp.and, .or, .xor].flatMap fun op =>
      integralKinds.map fun kind => plain (.bitwise kind op),
    [increment],
    numericKinds.flatMap fun source =>
      (numericKinds.filter (· != source)).map fun target => plain (.convert source target),
    [NarrowInt.byte, .char, .short].map fun target => plain (.narrowInt target),
    [plain .compareLongs, plain (.compareFloats .less), plain (.compareFloats .greater),
      plain (.compareDoubles .less), plain (.compareDoubles .greater)]].flatten

/-- The formats of branches, from the opcode `0x99` on. Two of the opcodes are those of subroutines,
which are not used. -/
def branches (offset : Nat) : List (ByteReader ResolvedInstruction) :=
  [comparisons.map fun comparison => jump (.ifZero comparison),
    comparisons.map fun comparison => jump (.ifInts comparison),
    [jump (.ifReferences .eq), jump (.ifReferences .ne), jump .goto, failure, failure,
      tableSwitch offset, lookupSwitch offset],
    valueKinds.map fun kind => pure (.branch (.returns (some kind))),
    [pure (.branch (.returns none))]].flatten

/-- The formats of references to members and classes, from the opcode `0xB2` on, and of what was
added to the instruction set last. Calls without a method are not used. -/
def references : List (ByteReader ResolvedInstruction) :=
  [[FieldAccess.getStatic, .putStatic, .getField, .putField].map
      fun access => operand uint16 (.field access),
    [InvokeKind.virtual, .special, .static].map fun kind => operand uint16 (.invoke kind),
    [invokeInterface, failure, operand uint16 (.classUse .new), newArray,
      operand uint16 (.classUse .newArray), plain .arrayLength, pure (.branch .throws),
      operand uint16 (.classUse .checkCast), operand uint16 (.classUse .instanceOf),
      plain .monitorEnter, plain .monitorExit, wide, multiArray,
      jump (.ifNull .eq), jump (.ifNull .ne),
      (fun distance => .branch (.jump .gotoWide distance)) <$> int32]].flatten

/-- The format of an opcode, for an instruction at an offset. -/
def format (offset : Nat) (opcode : UInt8) : ByteReader ResolvedInstruction :=
  let n := opcode.toNat
  if n < 0x15 then constants.getD n failure
  else if n < 0x36 then loads.getD (n - 0x15) failure
  else if n < 0x57 then stores.getD (n - 0x36) failure
  else if n < 0x99 then computations.getD (n - 0x57) failure
  else if n < 0xB2 then (branches offset).getD (n - 0x99) failure
  else references.getD (n - 0xB2) failure

/-- The instruction at an offset. -/
def instruction (offset : Nat) : ByteReader ResolvedInstruction := do
  let opcode ← uint8
  format offset opcode

/-- The instructions of code from an offset on, each with its own. -/
def all (offset : Nat) (code : List UInt8) : Option (List (Nat × ResolvedInstruction)) :=
  if code = [] then some []
  else
    match instruction offset code with
    | none => none
    | some (insn, rest) =>
      if rest.length < code.length then
        (all (offset + (code.length - rest.length)) rest).map ((offset, insn) :: ·)
      else none
termination_by code.length

/-! ### Encoded instructions -/

-- A format is looked up by evaluating comparisons of opcodes.
set_option maxRecDepth 2000

variable {offset : Nat} {bytes : List UInt8}

/-- The format of an opcode reads what follows it. -/
theorem reads_instruction {opcode : UInt8} {read : ByteReader ResolvedInstruction}
    {insn : ResolvedInstruction} (h : Reads read bytes insn)
    (hformat : format offset opcode = read) :
    Reads (instruction offset) (opcode :: bytes) insn := by
  rw [← hformat] at h
  exact (reads_uint8 opcode).bind h

theorem reads_plain {opcode : UInt8} {op : Operation UInt16}
    (hformat : format offset opcode = plain op) :
    Reads (instruction offset) [opcode] (.operation op) :=
  reads_instruction (.pure _) hformat

theorem reads_index (op : UInt16 → Operation UInt16) (index : UInt16) :
    Reads (operand uint16 op) (Bytes.ofUInt16 index) (.operation (op index)) :=
  (reads_uint16 index).map _

theorem toUInt16_toUInt8 {index : UInt16} (h : index < 256) : index.toUInt8.toUInt16 = index := by
  apply UInt16.toNat_inj.mp
  have hlt : index.toNat < 256 := UInt16.lt_iff_toNat_lt.mp h
  rw [UInt8.toNat_toUInt16, UInt16.toNat_toUInt8]
  exact Nat.mod_eq_of_lt hlt

theorem toInt16_toInt8 {n : Int16} (h : -128 ≤ n ∧ n ≤ 127) : n.toInt8.toInt16 = n := by
  have hlow : -128 ≤ n.toInt := Int16.le_iff_toInt_le.mp h.1
  have hhigh : n.toInt ≤ 127 := Int16.le_iff_toInt_le.mp h.2
  apply Int16.toInt_inj.mp
  rw [Int8.toInt_toInt16, Int16.toInt_toInt8]
  exact Int.bmod_eq_of_le (by omega) (by omega)

theorem toInt32_toInt16 {n : Int32} (h : -32768 ≤ n ∧ n ≤ 32767) : n.toInt16.toInt32 = n := by
  have hlow : -32768 ≤ n.toInt := Int32.le_iff_toInt_le.mp h.1
  have hhigh : n.toInt ≤ 32767 := Int32.le_iff_toInt_le.mp h.2
  apply Int32.toInt_inj.mp
  rw [Int16.toInt_toInt32, Int32.toInt_toInt16]
  exact Int.bmod_eq_of_le (by omega) (by omega)

theorem reads_shortIndex {index : UInt16} (h : index < 256) (op : UInt16 → Operation UInt16) :
    Reads (shortIndex op) [index.toUInt8] (.operation (op index)) := by
  have hread := (reads_uint8 index.toUInt8).map fun index =>
    (.operation (op index.toUInt16) : ResolvedInstruction)
  rwa [toUInt16_toUInt8 h] at hread

theorem eq_of_lt_four {index : UInt16} (h : index < 4) :
    index = 0 ∨ index = 1 ∨ index = 2 ∨ index = 3 := by
  have hlt : index.toNat < 4 := UInt16.lt_iff_toNat_lt.mp h
  simp only [← UInt16.toNat_inj]
  show index.toNat = 0 ∨ index.toNat = 1 ∨ index.toNat = 2 ∨ index.toNat = 3
  omega

/-- Loads and stores have the same three forms. -/
theorem reads_local {implicit explicit : UInt8} {index : UInt16} {form : LocalForm}
    (op : UInt16 → LocalForm → Operation UInt16)
    (himplicit : ∀ index < 4, format offset (implicit + index.toUInt8) =
      plain (op index .implicit))
    (hnarrow : format offset explicit =
      shortIndex fun index => op index .narrow)
    (hwide : Reads wide (explicit :: Bytes.ofUInt16 index) (.operation (op index .wide)))
    (h : Operation.encodeLocal implicit explicit index form = .ok bytes) :
    Reads (instruction offset) bytes (.operation (op index form)) := by
  cases form with
  | implicit =>
      simp only [Operation.encodeLocal] at h
      split at h
      · rename_i hlt
        cases h
        exact reads_plain (himplicit index hlt)
      · cases h
  | narrow =>
      simp only [Operation.encodeLocal] at h
      split at h
      · rename_i hlt
        cases h
        exact reads_instruction (reads_shortIndex hlt fun index => op index .narrow) hnarrow
      · cases h
  | wide =>
      cases h
      exact reads_instruction hwide rfl

theorem reads_load {kind : ValueKind} {index : UInt16} {form : LocalForm}
    (h : (Operation.load kind index form).encode = .ok bytes) :
    Reads (instruction offset) bytes (.operation (.load kind index form)) := by
  refine reads_local (.load kind) ?_ ?_ ?_ h
  · intro index hlt
    rcases eq_of_lt_four hlt with rfl | rfl | rfl | rfl <;>
      rcases kind with (_ | _ | _ | _) | _ <;> rfl
  · rcases kind with (_ | _ | _ | _) | _ <;> rfl
  · refine (reads_uint8 _).bind ?_
    rcases kind with (_ | _ | _ | _) | _ <;> exact reads_index _ index

theorem reads_store {kind : ValueKind} {index : UInt16} {form : LocalForm}
    (h : (Operation.store kind index form).encode = .ok bytes) :
    Reads (instruction offset) bytes (.operation (.store kind index form)) := by
  refine reads_local (.store kind) ?_ ?_ ?_ h
  · intro index hlt
    rcases eq_of_lt_four hlt with rfl | rfl | rfl | rfl <;>
      rcases kind with (_ | _ | _ | _) | _ <;> rfl
  · rcases kind with (_ | _ | _ | _) | _ <;> rfl
  · refine (reads_uint8 _).bind ?_
    rcases kind with (_ | _ | _ | _) | _ <;> exact reads_index _ index

theorem reads_const {part : EncodedPart} {base limit n : UInt8} (op : UInt8 → Operation UInt16)
    (hformat : ∀ n ≤ limit, format offset (base + n) = plain (op n))
    (h : Operation.encodeConst part base limit n = .ok bytes) :
    Reads (instruction offset) bytes (.operation (op n)) := by
  simp only [Operation.encodeConst] at h
  split at h
  · rename_i hle
    cases h
    exact reads_plain (hformat n hle)
  · cases h

theorem eq_of_le_one {n : UInt8} (h : n ≤ 1) : n = 0 ∨ n = 1 := by
  have hle : n.toNat ≤ 1 := UInt8.le_iff_toNat_le.mp h
  simp only [← UInt8.toNat_inj]
  show n.toNat = 0 ∨ n.toNat = 1
  omega

theorem eq_of_le_two {n : UInt8} (h : n ≤ 2) : n = 0 ∨ n = 1 ∨ n = 2 := by
  have hle : n.toNat ≤ 2 := UInt8.le_iff_toNat_le.mp h
  simp only [← UInt8.toNat_inj]
  show n.toNat = 0 ∨ n.toNat = 1 ∨ n.toNat = 2
  omega

theorem reads_intConst {n : Int8} (h : (Operation.intConst n).encode = .ok bytes) :
    Reads (instruction offset) bytes (.operation (.intConst n)) := by
  simp only [Operation.encode] at h
  split at h
  · rename_i hrange
    cases h
    have hcases : n = -1 ∨ n = 0 ∨ n = 1 ∨ n = 2 ∨ n = 3 ∨ n = 4 ∨ n = 5 := by
      obtain ⟨hlow, hhigh⟩ := hrange
      have hlow : -1 ≤ n.toInt := Int8.le_iff_toInt_le.mp hlow
      have hhigh : n.toInt ≤ 5 := Int8.le_iff_toInt_le.mp hhigh
      simp only [← Int8.toInt_inj]
      show n.toInt = -1 ∨ n.toInt = 0 ∨ n.toInt = 1 ∨ n.toInt = 2 ∨ n.toInt = 3 ∨ n.toInt = 4 ∨
        n.toInt = 5
      omega
    rcases hcases with rfl | rfl | rfl | rfl | rfl | rfl | rfl <;> exact reads_plain rfl
  · cases h

theorem reads_increment {index : UInt16} {amount : Int16} {long : Bool}
    (h : (Operation.increment index amount long).encode = .ok bytes) :
    Reads (instruction offset) bytes (.operation (.increment index amount long)) := by
  cases long with
  | true =>
      cases h
      have hread : Reads wideIncrement (Bytes.ofUInt16 index ++ Bytes.ofInt16 amount)
          (.operation (.increment index amount true)) := by
        rw [← List.append_nil (Bytes.ofInt16 amount)]
        exact (reads_uint16 index).bind ((reads_int16 amount).bind (.pure _))
      have hwide : Reads wide (0x84 :: (Bytes.ofUInt16 index ++ Bytes.ofInt16 amount))
          (.operation (.increment index amount true)) := (reads_uint8 0x84).bind hread
      exact reads_instruction hwide rfl
  | false =>
      simp only [Operation.encode] at h
      split at h
      · rename_i hindex
        split at h
        · rename_i hamount
          cases h
          have hread : Reads increment [index.toUInt8, amount.toInt8.toUInt8]
              (.operation (.increment index.toUInt8.toUInt16 amount.toInt8.toInt16 false)) :=
            (reads_uint8 index.toUInt8).bind ((reads_int8 amount.toInt8).bind (.pure _))
          rw [toUInt16_toUInt8 hindex, toInt16_toInt8 hamount] at hread
          exact reads_instruction hread rfl
        · cases h
      · cases h

theorem reads_operation {op : Operation UInt16} (h : op.encode = .ok bytes) :
    Reads (instruction offset) bytes (.operation op) := by
  cases op with
  | load kind index form => exact reads_load h
  | store kind index form => exact reads_store h
  | increment index amount long => exact reads_increment h
  | intConst n => exact reads_intConst h
  | longConst n =>
      refine reads_const .longConst (fun n hn => ?_) h
      rcases eq_of_le_one hn with rfl | rfl <;> rfl
  | floatConst n =>
      refine reads_const .floatConst (fun n hn => ?_) h
      rcases eq_of_le_two hn with rfl | rfl | rfl <;> rfl
  | doubleConst n =>
      refine reads_const .doubleConst (fun n hn => ?_) h
      rcases eq_of_le_one hn with rfl | rfl <;> rfl
  | bytePush n =>
      cases h
      exact reads_instruction ((reads_int8 n).map _) rfl
  | shortPush n =>
      cases h
      exact reads_instruction ((reads_int16 n).map _) rfl
  | ldc form index =>
      cases form with
      | narrow =>
          simp only [Operation.encode] at h
          split at h
          · rename_i hlt
            cases h
            exact reads_instruction (reads_shortIndex hlt (.ldc .narrow)) rfl
          · cases h
      | wide =>
          cases h
          exact reads_instruction (reads_index (.ldc .wide) index) rfl
      | double =>
          cases h
          exact reads_instruction (reads_index (.ldc .double) index) rfl
  | arrayLoad kind | arrayStore kind =>
      cases h
      rcases kind with ((_ | _ | _ | _) | _) | _ | _ | _ <;> exact reads_plain rfl
  | arithmetic kind op =>
      cases h
      cases kind <;> cases op <;> exact reads_plain rfl
  | shift kind op | bitwise kind op =>
      cases kind <;> cases op <;> cases h <;> exact reads_plain rfl
  | convert source target =>
      cases source <;> cases target <;> cases h <;> exact reads_plain rfl
  | stack op | negate op | narrowInt op | compareFloats op | compareDoubles op =>
      cases op <;> cases h <;> exact reads_plain rfl
  | field access index =>
      cases h
      cases access <;> exact reads_instruction (reads_index (.field _) index) rfl
  | invoke kind index =>
      cases kind with
      | interface count =>
          cases h
          have hread : Reads invokeInterface (Bytes.ofUInt16 index ++ [count, 0])
              (.operation (.invoke (.interface count) index)) :=
            (reads_uint16 index).bind ((reads_uint8 count).bind ((reads_uint8 0).bind (.pure _)))
          exact reads_instruction hread rfl
      | _ =>
          cases h
          exact reads_instruction (reads_index (.invoke _) index) rfl
  | classUse action index =>
      cases action <;> cases h <;> exact reads_instruction (reads_index (.classUse _) index) rfl
  | newArray element =>
      cases h
      have hread : Reads newArray [element.arrayCode] (.operation (.newArray element)) := by
        refine (reads_uint8 _).bind ?_
        cases element <;> exact .pure _
      exact reads_instruction hread rfl
  | multiArray index dimensions =>
      cases h
      have hread : Reads multiArray (Bytes.ofUInt16 index ++ [dimensions])
          (.operation (.multiArray index dimensions)) :=
        (reads_uint16 index).bind ((reads_uint8 dimensions).bind (.pure _))
      exact reads_instruction hread rfl
  | nop | nullConst | compareLongs | arrayLength | monitorEnter | monitorExit =>
      cases h
      exact reads_plain rfl

theorem toNextWord_eq {position count : Nat} (hlt : count < 4)
    (haligned : (position + count) % 4 = 0) : toNextWord position = count := by
  unfold toNextWord
  omega

/-- The zeros after the opcode of a switch end where the next multiple of four is. -/
theorem reads_padding (offset : Nat) :
    Reads (padding (offset + 1)) (List.replicate (switchPadding offset) 0) () := by
  have hcount := toNextWord_eq (switchPadding_lt offset) (switchPadding_aligned offset)
  have hzeros : (List.replicate (switchPadding offset) (0 : UInt8)).all (· = 0) = true := by simp
  have hread := Reads.many_map (fun byte => [byte]) reads_uint8
    (List.replicate (switchPadding offset) 0)
  rw [List.length_replicate, List.flatMap_singleton'] at hread
  rw [padding, hcount, ← List.append_nil (List.replicate _ _)]
  refine hread.bind ?_
  rw [if_pos hzeros]
  exact .pure ()

theorem reads_keyedTargets (targets : List (Int32 × Int32)) :
    Reads (many keyedTarget targets.length)
      (targets.flatMap fun (key, target) => Bytes.ofInt32 key ++ Bytes.ofInt32 target) targets := by
  refine Reads.many_map (fun (key, target) => Bytes.ofInt32 key ++ Bytes.ofInt32 target) ?_ targets
  rintro ⟨key, target⟩
  show Reads keyedTarget (Bytes.ofInt32 key ++ Bytes.ofInt32 target) (key, target)
  rw [← List.append_nil (Bytes.ofInt32 target)]
  exact (reads_int32 key).bind ((reads_int32 target).bind (.pure (key, target)))

/-- The largest key of a table that fits does not wrap around. -/
theorem toInt_lastKey {low : Int32} {count : Nat} (hpos : 0 < count)
    (hfit : low.toInt + (count - 1) ≤ 2147483647) :
    (low + Int32.ofNat count - 1).toInt = low.toInt + (count - 1) := by
  have hlow : -2147483648 ≤ low.toInt := Int32.le_toInt low
  have hsum : (low + Int32.ofNat count - 1).toInt =
      (low.toInt + (count - 1)).bmod 4294967296 := by
    have hone : (1 : Int32).toInt = 1 := rfl
    rw [Int32.toInt_sub, Int32.toInt_add, Int32.toInt_ofNat', Int32.size, hone, Int.add_bmod_bmod,
      Int.bmod_sub_bmod, Int.add_sub_assoc]
  rw [hsum]
  exact Int.bmod_eq_of_le (by omega) (by omega)

theorem reads_tableSwitch {default low : Int32} {targets : List Int32}
    (hfits : (Branch.tableSwitch default low targets).KeysFit)
    (h : (Branch.tableSwitch default low targets).encodeAt offset = .ok bytes) :
    Reads (instruction offset) bytes (.branch (.tableSwitch default low targets)) := by
  obtain ⟨hne, hfit⟩ := hfits
  have hpos : 0 < targets.length := List.length_pos_iff.mpr hne
  have hlast := toInt_lastKey hpos hfit
  have hle : low ≤ low + Int32.ofNat targets.length - 1 := by
    rw [Int32.le_iff_toInt_le, hlast]
    omega
  have hcount : ((low + Int32.ofNat targets.length - 1).toInt - low.toInt + 1).toNat =
      targets.length := by
    rw [hlast]
    omega
  cases h
  have hread : Reads (tableSwitch offset) (List.replicate (switchPadding offset) 0 ++
      (Bytes.ofInt32 default ++ (Bytes.ofInt32 low ++
        (Bytes.ofInt32 (low + Int32.ofNat targets.length - 1) ++
          (targets.flatMap Bytes.ofInt32 ++ [])))))
      (.branch (.tableSwitch default low targets)) := by
    refine (reads_padding offset).bind ((reads_int32 default).bind ((reads_int32 low).bind
      ((reads_int32 _).bind ?_)))
    rw [if_pos hle, hcount]
    exact (Reads.many_map Bytes.ofInt32 reads_int32 targets).bind (.pure _)
  rw [List.append_nil] at hread
  simp only [List.cons_append, List.append_assoc]
  exact reads_instruction hread rfl

theorem reads_lookupSwitch {default : Int32} {targets : List (Int32 × Int32)}
    (hcount : targets.length < 2 ^ 31)
    (h : (Branch.lookupSwitch default targets).encodeAt offset = .ok bytes) :
    Reads (instruction offset) bytes (.branch (.lookupSwitch default targets)) := by
  have hint : (Int32.ofNat targets.length).toInt = targets.length := Int32.toInt_ofNat_of_lt hcount
  have hle : 0 ≤ Int32.ofNat targets.length := by
    rw [Int32.le_iff_toInt_le, hint]
    exact Int.natCast_nonneg _
  cases h
  have hread : Reads (lookupSwitch offset) (List.replicate (switchPadding offset) 0 ++
      (Bytes.ofInt32 default ++ (Bytes.ofInt32 (Int32.ofNat targets.length) ++
        ((targets.flatMap fun (key, target) => Bytes.ofInt32 key ++ Bytes.ofInt32 target) ++ []))))
      (.branch (.lookupSwitch default targets)) := by
    refine (reads_padding offset).bind ((reads_int32 default).bind ((reads_int32 _).bind ?_))
    rw [if_pos hle, hint, Int.toNat_natCast]
    exact (reads_keyedTargets targets).bind (.pure _)
  rw [List.append_nil] at hread
  simp only [List.cons_append, List.append_assoc]
  exact reads_instruction hread rfl

theorem reads_jump {op : Jump} {distance : Int32}
    (h : (Branch.jump op distance).encodeAt offset = .ok bytes) :
    Reads (instruction offset) bytes (.branch (.jump op distance)) := by
  by_cases hop : op = .gotoWide
  · subst hop
    cases h
    exact reads_instruction ((reads_int32 distance).map _) rfl
  · have hformat : format offset op.opcode = jump op := by
      cases op with
      | gotoWide => exact absurd rfl hop
      | goto => rfl
      | _ comparison => cases comparison <;> rfl
    simp only [Branch.encodeAt] at h
    split at h
    · rename_i hrange
      cases h
      have hread := (reads_int16 distance.toInt16).map fun distance =>
        (.branch (.jump op distance.toInt32) : ResolvedInstruction)
      rw [toInt32_toInt16 hrange] at hread
      exact reads_instruction hread hformat
    · cases h

/-- The bytes of an encoded instruction decode to it, whatever follows. -/
theorem reads_of_fits {insn : ResolvedInstruction} (h : insn.encodeAt offset = .ok bytes)
    (hfits : insn.Fits) : Reads (instruction offset) bytes insn := by
  cases insn with
  | operation op => exact reads_operation h
  | branch b =>
      cases b with
      | jump op distance => exact reads_jump h
      | tableSwitch default low targets => exact reads_tableSwitch hfits h
      | lookupSwitch default targets => exact reads_lookupSwitch hfits h
      | returns kind =>
          rcases kind with _ | (_ | _ | _ | _) | _ <;> cases h <;>
            exact reads_instruction (.pure _) rfl
      | throws =>
          cases h
          exact reads_instruction (.pure _) rfl

/-- A switch has fewer entries than bytes. -/
theorem reads_encoded {insn : ResolvedInstruction} (h : insn.encodeAt offset = .ok bytes)
    (hfits : ∀ b, insn = .branch b → b.KeysFit) (hsize : bytes.length < 2 ^ 31) :
    Reads (instruction offset) bytes insn := by
  refine reads_of_fits h ?_
  cases insn with
  | operation op => trivial
  | branch b =>
      cases b with
      | tableSwitch default low targets => exact hfits _ rfl
      | lookupSwitch default targets =>
          have hlength := Instruction.length_of_encodeAt h
          simp only [Instruction.sizeAt, Branch.sizeAt] at hlength
          show targets.length < 2 ^ 31
          omega
      | _ => trivial

/-- An instruction and what follows it are decoded one after the other. -/
theorem all_append {insn : ResolvedInstruction}
    (h : Reads (instruction offset) bytes insn) (hpos : 0 < bytes.length) (rest : List UInt8) :
    all offset (bytes ++ rest) =
      (all (offset + bytes.length) rest).map ((offset, insn) :: ·) := by
  have hne : bytes ++ rest ≠ [] := by
    intro hnil
    rw [List.append_eq_nil_iff] at hnil
    rw [hnil.1] at hpos
    cases hpos
  have hlt : rest.length < (bytes ++ rest).length := by
    rw [List.length_append]
    omega
  have hdistance : (bytes ++ rest).length - rest.length = bytes.length := by
    rw [List.length_append, Nat.add_sub_cancel]
  rw [all, if_neg hne, h rest]
  simp only [if_pos hlt, hdistance]

end Decode

end JvmAssembler
