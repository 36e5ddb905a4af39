import JvmAssembler.Instruction.Basic
import JvmAssembler.Text.Numeral

/-! What each mnemonic stands for. A template says which instruction is meant and what its operands
have to be. -/

namespace JvmAssembler

inductive Template where
  /-- An instruction without operands. -/
  | plain (instruction : Instruction Empty Empty)
  | returns (kind : Option ValueKind)
  | bytePush
  | shortPush
  | ldc (form : LdcForm)
  /-- A load, whose index is known if the mnemonic ends in it. -/
  | load (kind : ValueKind) (index : Option UInt16)
  /-- A store, whose index is known if the mnemonic ends in it. -/
  | store (kind : ValueKind) (index : Option UInt16)
  | increment
  | field (access : FieldAccess)
  | invoke (kind : InvokeKind)
  | classUse (action : ClassUse)
  | newArray
  | multiArray
  | jump (op : Jump)
  | tableSwitch
  | lookupSwitch
deriving DecidableEq, Repr

namespace Template

def operation (op : Operation Empty) : Template := plain (.operation op)

/-- `iconst_` and the like, with a number up to a limit. -/
def ofSmallConstant? (kind : Char) (digits : List Char) : Option Template := do
  let n ← Text.readBelow? 256 digits
  match kind with
  | 'i' => if n ≤ 5 then some (operation (.intConst (Int8.ofNat n))) else none
  | 'l' => if n ≤ 1 then some (operation (.longConst (UInt8.ofNat n))) else none
  | 'f' => if n ≤ 2 then some (operation (.floatConst (UInt8.ofNat n))) else none
  | 'd' => if n ≤ 1 then some (operation (.doubleConst (UInt8.ofNat n))) else none
  | _ => none

def ofConstant? (mnemonic : String) : Option Template :=
  match mnemonic with
  | "nop" => some (operation .nop)
  | "aconst_null" => some (operation .nullConst)
  | "iconst_m1" => some (operation (.intConst (-1)))
  | "bipush" => some bytePush
  | "sipush" => some shortPush
  | "ldc" => some (ldc .narrow)
  | "ldc_w" => some (ldc .wide)
  | "ldc2_w" => some (ldc .double)
  | _ =>
    match mnemonic.toList with
    | kind :: 'c' :: 'o' :: 'n' :: 's' :: 't' :: '_' :: digits => ofSmallConstant? kind digits
    | _ => none

/-- The index at the end of a short load or store. -/
def shortIndex? : List Char → Option UInt16
  | ['0'] => some 0
  | ['1'] => some 1
  | ['2'] => some 2
  | ['3'] => some 3
  | _ => none

/-- Loads and stores with a kind, with or without an index at the end. -/
def ofLocal? (mnemonic : String) : Option Template :=
  match mnemonic.toList with
  | ['i', 'i', 'n', 'c'] => some increment
  | c :: 'l' :: 'o' :: 'a' :: 'd' :: rest => do
    let kind ← ValueKind.ofLetter? c
    match rest with
    | [] => some (load kind none)
    | '_' :: digits => (shortIndex? digits).map fun index => load kind (some index)
    | _ => none
  | c :: 's' :: 't' :: 'o' :: 'r' :: 'e' :: rest => do
    let kind ← ValueKind.ofLetter? c
    match rest with
    | [] => some (store kind none)
    | '_' :: digits => (shortIndex? digits).map fun index => store kind (some index)
    | _ => none
  | _ => none

def ofStack? (mnemonic : String) : Option Template :=
  let op? : Option StackOp :=
    match mnemonic with
    | "pop" => some .pop
    | "pop2" => some .pop2
    | "dup" => some .dup
    | "dup_x1" => some .dupX1
    | "dup_x2" => some .dupX2
    | "dup2" => some .dup2
    | "dup2_x1" => some .dup2X1
    | "dup2_x2" => some .dup2X2
    | "swap" => some .swap
    | _ => none
  op?.map fun op => operation (.stack op)

/-- Operations that exist for every kind of number. -/
def ofNumeric? (kind : NumericKind) : List Char → Option (Operation Empty)
  | ['a', 'd', 'd'] => some (.arithmetic kind .add)
  | ['s', 'u', 'b'] => some (.arithmetic kind .sub)
  | ['m', 'u', 'l'] => some (.arithmetic kind .mul)
  | ['d', 'i', 'v'] => some (.arithmetic kind .div)
  | ['r', 'e', 'm'] => some (.arithmetic kind .rem)
  | ['n', 'e', 'g'] => some (.negate kind)
  | ['2', c] => do
    let target ← NumericKind.ofLetter? c
    if target = kind then none else some (.convert kind target)
  | _ => none

/-- Operations that exist for integers only. -/
def ofIntegral? (kind : NumericKind) (name : List Char) : Option (Operation Empty) :=
  if kind = .int ∨ kind = .long then
    match name with
    | ['s', 'h', 'l'] => some (.shift kind .left)
    | ['s', 'h', 'r'] => some (.shift kind .arithmeticRight)
    | ['u', 's', 'h', 'r'] => some (.shift kind .logicalRight)
    | ['a', 'n', 'd'] => some (.bitwise kind .and)
    | ['o', 'r'] => some (.bitwise kind .or)
    | ['x', 'o', 'r'] => some (.bitwise kind .xor)
    | _ => none
  else none

def ofArithmetic? (mnemonic : String) : Option Template :=
  match mnemonic with
  | "i2b" => some (operation (.narrowInt .byte))
  | "i2c" => some (operation (.narrowInt .char))
  | "i2s" => some (operation (.narrowInt .short))
  | "lcmp" => some (operation .compareLongs)
  | "fcmpl" => some (operation (.compareFloats .less))
  | "fcmpg" => some (operation (.compareFloats .greater))
  | "dcmpl" => some (operation (.compareDoubles .less))
  | "dcmpg" => some (operation (.compareDoubles .greater))
  | _ =>
    match mnemonic.toList with
    | [] => none
    | c :: name => do
      let kind ← NumericKind.ofLetter? c
      (ofNumeric? kind name <|> ofIntegral? kind name).map operation

def ofControl? : String → Option Template
  | "ifeq" => some (jump (.ifZero .eq))
  | "ifne" => some (jump (.ifZero .ne))
  | "iflt" => some (jump (.ifZero .lt))
  | "ifge" => some (jump (.ifZero .ge))
  | "ifgt" => some (jump (.ifZero .gt))
  | "ifle" => some (jump (.ifZero .le))
  | "if_icmpeq" => some (jump (.ifInts .eq))
  | "if_icmpne" => some (jump (.ifInts .ne))
  | "if_icmplt" => some (jump (.ifInts .lt))
  | "if_icmpge" => some (jump (.ifInts .ge))
  | "if_icmpgt" => some (jump (.ifInts .gt))
  | "if_icmple" => some (jump (.ifInts .le))
  | "if_acmpeq" => some (jump (.ifReferences .eq))
  | "if_acmpne" => some (jump (.ifReferences .ne))
  | "ifnull" => some (jump (.ifNull .eq))
  | "ifnonnull" => some (jump (.ifNull .ne))
  | "goto" => some (jump .goto)
  | "goto_w" => some (jump .gotoWide)
  | "tableswitch" => some tableSwitch
  | "lookupswitch" => some lookupSwitch
  | "ireturn" => some (returns (some (.numeric .int)))
  | "lreturn" => some (returns (some (.numeric .long)))
  | "freturn" => some (returns (some (.numeric .float)))
  | "dreturn" => some (returns (some (.numeric .double)))
  | "areturn" => some (returns (some .reference))
  | "return" => some (returns none)
  | "athrow" => some (plain (.branch .throws))
  | _ => none

def ofObject? (mnemonic : String) : Option Template :=
  match mnemonic with
  | "getstatic" => some (field .getStatic)
  | "putstatic" => some (field .putStatic)
  | "getfield" => some (field .getField)
  | "putfield" => some (field .putField)
  | "invokevirtual" => some (invoke .virtual)
  | "invokespecial" => some (invoke .special)
  | "invokestatic" => some (invoke .static)
  | "invokeinterface" => some (invoke (.interface 0))
  | "new" => some (classUse .new)
  | "anewarray" => some (classUse .newArray)
  | "checkcast" => some (classUse .checkCast)
  | "instanceof" => some (classUse .instanceOf)
  | "newarray" => some newArray
  | "multianewarray" => some multiArray
  | "arraylength" => some (operation .arrayLength)
  | "monitorenter" => some (operation .monitorEnter)
  | "monitorexit" => some (operation .monitorExit)
  | _ =>
    match mnemonic.toList with
    | [c, 'a', 'l', 'o', 'a', 'd'] =>
      (ArrayKind.ofLetter? c).map fun kind => operation (.arrayLoad kind)
    | [c, 'a', 's', 't', 'o', 'r', 'e'] =>
      (ArrayKind.ofLetter? c).map fun kind => operation (.arrayStore kind)
    | _ => none

/-- The template that a mnemonic stands for. -/
def ofMnemonic? (mnemonic : String) : Option Template :=
  ofConstant? mnemonic <|> ofLocal? mnemonic <|> ofStack? mnemonic <|> ofArithmetic? mnemonic
    <|> ofControl? mnemonic <|> ofObject? mnemonic

end Template

/-- An instruction without constants and targets, as one with any. -/
def Instruction.ofPlain {κ ℓ : Type} : Instruction Empty Empty → Instruction κ ℓ
  | operation op => operation (op.map Empty.elim)
  | branch b => branch (b.map Empty.elim)

end JvmAssembler
