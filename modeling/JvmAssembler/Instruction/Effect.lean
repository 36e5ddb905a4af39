import JvmAssembler.Constant.Basic
import JvmAssembler.Frame.Effect
import JvmAssembler.Instruction.Basic

/-! What each instruction takes off the stack and puts on it. The effect hangs on the instruction
alone, not on where it stands. -/

namespace JvmAssembler

/-- An operation of a method under assembly. -/
abbrev SymbolicOperation := Operation Constant

/-- A branch to labels, which are numbered. -/
abbrev SymbolicBranch := Branch Nat

/-- An instruction of a method under assembly. -/
abbrev SymbolicInstruction := Instruction Constant Nat

namespace Effect

/-- Takes values off and puts others on. -/
def exchange (pops : List Expectation) (pushes : List Pushed) : Effect :=
  change { pops := pops, pushes := pushes }

/-- A constant put on the stack. -/
def ofConstant : Constant → Effect
  | .integer _ => exchange [] [.numeric .int]
  | .float _ => exchange [] [.numeric .float]
  | .long _ => exchange [] [.numeric .long]
  | .double _ => exchange [] [.numeric .double]
  | .string _ => exchange [] [.reference (.object .javaString)]
  | .classRef _ => exchange [] [.reference (.object .javaClass)]
  | .field _ | .method _ => exchange [] [.anyObject]

/-- What loads and stores expect: a reference may be uninitialized. -/
def movedValue : ValueKind → Expectation
  | .numeric kind => .numeric kind
  | .reference => .anyReference

def ofStackOp : StackOp → Effect
  | .pop => exchange [.slots 1] []
  | .pop2 => exchange [.slots 2] []
  | .dup => exchange [.slots 1] [.popped 0, .popped 0]
  | .dupX1 => exchange [.slots 1, .slots 1] [.popped 0, .popped 1, .popped 0]
  | .dupX2 => exchange [.slots 1, .slots 2] [.popped 0, .popped 1, .popped 0]
  | .dup2 => exchange [.slots 2] [.popped 0, .popped 0]
  | .dup2X1 => exchange [.slots 2, .slots 1] [.popped 0, .popped 1, .popped 0]
  | .dup2X2 => exchange [.slots 2, .slots 2] [.popped 0, .popped 1, .popped 0]
  | .swap => exchange [.slots 1, .slots 1] [.popped 0, .popped 1]

/-- Elements of an array as the stack holds them. -/
def arrayElement : ArrayKind → ValueKind
  | .value kind => kind
  | .byte | .char | .short => .numeric .int

def pushedElement : ValueKind → Pushed
  | .numeric kind => .numeric kind
  | .reference => .anyObject

/-- Access to a field, none for any other constant. A field can be written on an object whose
constructor was not called. -/
def ofField (access : FieldAccess) : Constant → Effect
  | .field field =>
    match access with
    | .getStatic => exchange [] [.ofField field.type]
    | .putStatic => exchange [.ofField field.type] []
    | .getField => exchange [.object] [.ofField field.type]
    | .putField => exchange [.ofField field.type, .anyReference] []
  | _ => unchanged

/-- A call, none for any other constant. The arguments are taken last one first, then the receiver.
A call of a constructor takes an uninitialized object and initializes every copy of it. -/
def ofInvoke (kind : InvokeKind) : Constant → Effect
  | .method method =>
    let arguments := (method.descriptor.parameters.map Expectation.ofField).reverse
    let pushes := method.descriptor.returns.toList.map Pushed.ofField
    match kind with
    | .static => exchange arguments pushes
    | .special =>
      if method.name.isInit then
        change {
          pops := arguments ++ [.uninitialized]
          pushes := pushes
          initializes := some method.descriptor.parameters.length }
      else exchange (arguments ++ [.object]) pushes
    | _ => exchange (arguments ++ [.object]) pushes
  | _ => unchanged

/-- The reference to an object of the class that a constant names. -/
def ofClassConstant : Constant → Pushed
  | .classRef type => .reference type
  | _ => .anyObject

def ofClassUse : ClassUse → Constant → Effect
  | .new, .classRef (.object owner) => exchange [] [.uninitialized owner]
  | .new, _ => unchanged
  | .newArray, .classRef type => exchange [.numeric .int] [.reference (.arrayOf (.ref type))]
  | .newArray, _ => exchange [.numeric .int] [.anyObject]
  | .checkCast, constant => exchange [.object] [ofClassConstant constant]
  | .instanceOf, _ => exchange [.object] [.numeric .int]

end Effect

namespace Operation

open Effect in
def effect : SymbolicOperation → Effect
  | nop => unchanged
  | nullConst => exchange [] [.null]
  | intConst _ | bytePush _ | shortPush _ => exchange [] [.numeric .int]
  | longConst _ => exchange [] [.numeric .long]
  | floatConst _ => exchange [] [.numeric .float]
  | doubleConst _ => exchange [] [.numeric .double]
  | ldc _ constant => ofConstant constant
  | load kind index _ => exchange [] [.fromLocal index (movedValue kind)]
  | store kind index _ => change { pops := [movedValue kind], store := some index }
  | increment _ _ _ => unchanged
  | arrayLoad kind => exchange [.numeric .int, .object] [pushedElement (arrayElement kind)]
  | arrayStore kind => exchange [.ofKind (arrayElement kind), .numeric .int, .object] []
  | stack op => ofStackOp op
  | arithmetic kind _ | bitwise kind _ => exchange [.numeric kind, .numeric kind] [.numeric kind]
  | negate kind => exchange [.numeric kind] [.numeric kind]
  | shift kind _ => exchange [.numeric .int, .numeric kind] [.numeric kind]
  | convert source target => exchange [.numeric source] [.numeric target]
  | narrowInt _ => exchange [.numeric .int] [.numeric .int]
  | compareLongs => exchange [.numeric .long, .numeric .long] [.numeric .int]
  | compareFloats _ => exchange [.numeric .float, .numeric .float] [.numeric .int]
  | compareDoubles _ => exchange [.numeric .double, .numeric .double] [.numeric .int]
  | field access constant => ofField access constant
  | invoke kind constant => ofInvoke kind constant
  | classUse action constant => ofClassUse action constant
  | newArray element => exchange [.numeric .int] [.reference (.arrayOf (.base element))]
  | multiArray constant dimensions =>
    exchange (List.replicate dimensions.toNat (.numeric .int)) [ofClassConstant constant]
  | arrayLength => exchange [.object] [.numeric .int]
  | monitorEnter | monitorExit => exchange [.object] []

end Operation

namespace Branch

open Effect in
def effect {ℓ : Type} : Branch ℓ → Effect
  | jump (.ifZero _) _ | tableSwitch _ _ _ | lookupSwitch _ _ => exchange [.numeric .int] []
  | jump (.ifInts _) _ => exchange [.numeric .int, .numeric .int] []
  | jump (.ifReferences _) _ => exchange [.object, .object] []
  | jump (.ifNull _) _ | throws => exchange [.object] []
  | jump .goto _ | jump .gotoWide _ | returns none => unchanged
  | returns (some kind) => exchange [.ofKind kind] []

end Branch

/-- The effect of an instruction on the frame. -/
def Instruction.effect : SymbolicInstruction → Effect
  | operation op => op.effect
  | branch b => b.effect

end JvmAssembler
