import JvmAssembler.Instruction.Kind

/-! An instruction is an operation, after which the next instruction follows, or a branch.
Operations are over the constants that they refer to and branches over their targets: these are
symbolic constants and labels in a method, indices of the pool and relative offsets in code. -/

namespace JvmAssembler

/-- An operation with constants in `κ`. -/
inductive Operation (κ : Type) where
  | nop
  | nullConst
  | intConst (n : Int8)
  | longConst (n : UInt8)
  | floatConst (n : UInt8)
  | doubleConst (n : UInt8)
  | bytePush (n : Int8)
  | shortPush (n : Int16)
  | ldc (form : LdcForm) (constant : κ)
  | load (kind : ValueKind) (index : UInt16) (form : LocalForm)
  | store (kind : ValueKind) (index : UInt16) (form : LocalForm)
  | increment (index : UInt16) (amount : Int16) (wide : Bool)
  | arrayLoad (kind : ArrayKind)
  | arrayStore (kind : ArrayKind)
  | stack (op : StackOp)
  | arithmetic (kind : NumericKind) (op : ArithmeticOp)
  | negate (kind : NumericKind)
  | shift (kind : NumericKind) (op : ShiftOp)
  | bitwise (kind : NumericKind) (op : BitwiseOp)
  | convert (source target : NumericKind)
  | narrowInt (target : NarrowInt)
  | compareLongs
  | compareFloats (mode : CompareMode)
  | compareDoubles (mode : CompareMode)
  | field (access : FieldAccess) (field : κ)
  | invoke (kind : InvokeKind) (method : κ)
  | classUse (action : ClassUse) (type : κ)
  | newArray (element : BaseType)
  | multiArray (type : κ) (dimensions : UInt8)
  | arrayLength
  | monitorEnter
  | monitorExit
deriving DecidableEq, Repr

namespace Operation

variable {κ κ' : Type}

/-- Replaces the constant, if there is one. -/
def traverse {m : Type → Type} [Monad m] (f : κ → m κ') : Operation κ → m (Operation κ')
  | nop => pure nop
  | nullConst => pure nullConst
  | intConst n => pure (intConst n)
  | longConst n => pure (longConst n)
  | floatConst n => pure (floatConst n)
  | doubleConst n => pure (doubleConst n)
  | bytePush n => pure (bytePush n)
  | shortPush n => pure (shortPush n)
  | ldc form constant => return ldc form (← f constant)
  | load kind index form => pure (load kind index form)
  | store kind index form => pure (store kind index form)
  | increment index amount wide => pure (increment index amount wide)
  | arrayLoad kind => pure (arrayLoad kind)
  | arrayStore kind => pure (arrayStore kind)
  | stack op => pure (stack op)
  | arithmetic kind op => pure (arithmetic kind op)
  | negate kind => pure (negate kind)
  | shift kind op => pure (shift kind op)
  | bitwise kind op => pure (bitwise kind op)
  | convert source target => pure (convert source target)
  | narrowInt target => pure (narrowInt target)
  | compareLongs => pure compareLongs
  | compareFloats mode => pure (compareFloats mode)
  | compareDoubles mode => pure (compareDoubles mode)
  | field access constant => return field access (← f constant)
  | invoke kind constant => return invoke kind (← f constant)
  | classUse action constant => return classUse action (← f constant)
  | newArray element => pure (newArray element)
  | multiArray constant dimensions => return multiArray (← f constant) dimensions
  | arrayLength => pure arrayLength
  | monitorEnter => pure monitorEnter
  | monitorExit => pure monitorExit

def map (f : κ → κ') (op : Operation κ) : Operation κ' := traverse (m := Id) f op

/-- Number of bytes in code. -/
def size : Operation κ → Nat
  | bytePush _ | ldc .narrow _ | load _ _ .narrow | store _ _ .narrow | newArray _ => 2
  | shortPush _ | ldc .wide _ | ldc .double _ | increment _ _ false | field _ _ | classUse _ _ => 3
  | load _ _ .wide | store _ _ .wide | multiArray _ _ => 4
  | invoke (.interface _) _ => 5
  | invoke _ _ => 3
  | increment _ _ true => 6
  | _ => 1

end Operation

/-- An instruction that ends a block, with targets in `ℓ`. -/
inductive Branch (ℓ : Type) where
  | jump (op : Jump) (target : ℓ)
  /-- Target number `i` is for the key `low + i`, the default for all other keys. -/
  | tableSwitch (default : ℓ) (low : Int32) (targets : List ℓ)
  /-- Keys in ascending order with their targets. -/
  | lookupSwitch (default : ℓ) (targets : List (Int32 × ℓ))
  | returns (kind : Option ValueKind)
  | throws
deriving DecidableEq, Repr

/-- Zero bytes after the opcode of a switch at an offset, so that its operands start at a multiple
of four. -/
def switchPadding (offset : Nat) : Nat := (4 - (offset + 1) % 4) % 4

theorem switchPadding_lt (offset : Nat) : switchPadding offset < 4 := Nat.mod_lt _ (by decide)

theorem switchPadding_aligned (offset : Nat) : (offset + 1 + switchPadding offset) % 4 = 0 := by
  unfold switchPadding
  omega

namespace Branch

variable {ℓ ℓ' : Type}

def fallsThrough : Branch ℓ → Bool
  | jump op _ => op.isConditional
  | _ => false

/-- Targets in the order of the code, the default of a switch first. -/
def targets : Branch ℓ → List ℓ
  | jump _ target => [target]
  | tableSwitch default _ targets => default :: targets
  | lookupSwitch default targets => default :: targets.map Prod.snd
  | returns _ | throws => []

/-- Replaces the targets, in the order of the code. -/
def traverse {m : Type → Type} [Monad m] (f : ℓ → m ℓ') : Branch ℓ → m (Branch ℓ')
  | jump op target => return jump op (← f target)
  | tableSwitch default low targets => do
    let default ← f default
    return tableSwitch default low (← targets.mapM f)
  | lookupSwitch default targets => do
    let default ← f default
    return lookupSwitch default (← targets.mapM fun (key, target) => return (key, ← f target))
  | returns kind => pure (returns kind)
  | throws => pure throws

def map (f : ℓ → ℓ') (b : Branch ℓ) : Branch ℓ' := traverse (m := Id) f b

/-- Number of bytes in code, for an instruction that starts at an offset. -/
def sizeAt (offset : Nat) : Branch ℓ → Nat
  | jump op _ => op.size
  | tableSwitch _ _ targets => 1 + switchPadding offset + 4 * (3 + targets.length)
  | lookupSwitch _ targets => 1 + switchPadding offset + 8 * (1 + targets.length)
  | returns _ | throws => 1

end Branch

/-- An instruction with constants in `κ` and targets in `ℓ`. -/
inductive Instruction (κ ℓ : Type) where
  | operation (op : Operation κ)
  | branch (branch : Branch ℓ)
deriving DecidableEq, Repr

namespace Instruction

variable {κ ℓ : Type}

/-- Number of bytes in code, for an instruction that starts at an offset. -/
def sizeAt (offset : Nat) : Instruction κ ℓ → Nat
  | operation op => op.size
  | branch b => b.sizeAt offset

/-- Can the next instruction follow? -/
def fallsThrough : Instruction κ ℓ → Bool
  | operation _ => true
  | branch b => b.fallsThrough

def branch? : Instruction κ ℓ → Option (Branch ℓ)
  | operation _ => none
  | branch b => some b

theorem sizeAt_pos (offset : Nat) (insn : Instruction κ ℓ) : 0 < insn.sizeAt offset := by
  cases insn with
  | operation op =>
    simp only [sizeAt, Operation.size]
    split <;> decide
  | branch b =>
    cases b with
    | jump j _ => cases j <;> simp [sizeAt, Branch.sizeAt, Jump.size]
    | tableSwitch => simp only [sizeAt, Branch.sizeAt]; omega
    | lookupSwitch => simp only [sizeAt, Branch.sizeAt]; omega
    | returns => simp [sizeAt, Branch.sizeAt]
    | throws => simp [sizeAt, Branch.sizeAt]

end Instruction

end JvmAssembler
