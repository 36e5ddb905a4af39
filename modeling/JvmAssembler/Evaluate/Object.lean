import JvmAssembler.Evaluate.Operand
import JvmAssembler.Instruction.Effect

/-! Class names, fields, methods and element types, as operands of instructions. -/

namespace JvmAssembler.Evaluate

/-- The type that a class name or an array descriptor stands for. -/
def classType (insn : WrittenInstruction) (name : String) : Except CompileError RefType :=
  (RefType.ofClassName name).mapError fun cause =>
    .badDescriptor insn.position name (.descriptor cause)

def memberName (insn : WrittenInstruction) (name : String) : Except CompileError UnqualifiedName :=
  (UnqualifiedName.ofString name).mapError fun cause =>
    .badDescriptor insn.position name (.name cause)

def fieldRef (insn : WrittenInstruction) (member : MemberRef) : Except CompileError FieldRef := do
  let owner ← (BinaryName.ofString member.owner).mapError fun cause =>
    CompileError.badDescriptor insn.position member.owner (.name cause)
  let name ← memberName insn member.name
  let type ← (FieldType.ofString member.descriptor).mapError fun cause =>
    CompileError.badDescriptor insn.position member.descriptor (.descriptor cause)
  return ⟨owner, name, type⟩

def field (insn : WrittenInstruction) (access : FieldAccess) :
    Except CompileError SymbolicOperation := do
  insn.expectPlain 1
  let field ← fieldRef insn (← insn.member 0)
  return .field access (.field field)

/-- Constructors are called by `invokespecial` only and return nothing; class initializers are never
called. -/
def checkInitializer (insn : WrittenInstruction) (kind : InvokeKind) (name : UnqualifiedName)
    (descriptor : MethodDescriptor) : Except CompileError Unit := do
  if name = .clinit then throw (insn.illegal .callOfClassInitializer)
  if name.isInit then
    if kind ≠ .special then throw (insn.illegal .callOfConstructor)
    if descriptor.returns.isSome then throw (insn.illegal .constructorResult)

/-- The kind of a call, with the number of argument slots for a method of an interface. -/
def countArguments (insn : WrittenInstruction) (descriptor : MethodDescriptor) :
    InvokeKind → Except CompileError InvokeKind
  | .interface _ =>
    let count := descriptor.argumentSlots true
    if count ≤ 255 then .ok (.interface (UInt8.ofNat count))
    else .error (insn.illegal (.tooManyArguments count))
  | kind => .ok kind

def isInterfaceCall : InvokeKind → Bool
  | .interface _ => true
  | _ => false

def invoke (insn : WrittenInstruction) (kind : InvokeKind) :
    Except CompileError SymbolicOperation := do
  insn.expectPlain 1
  let member ← insn.member 0
  let owner ← classType insn member.owner
  let name ← memberName insn member.name
  let descriptor ← (MethodDescriptor.ofString member.descriptor).mapError fun cause =>
    CompileError.badDescriptor insn.position member.descriptor (.descriptor cause)
  checkInitializer insn kind name descriptor
  let kind ← countArguments insn descriptor kind
  return .invoke kind (.method ⟨owner, name, descriptor, isInterfaceCall kind⟩)

def classUse (insn : WrittenInstruction) (action : ClassUse) :
    Except CompileError SymbolicOperation := do
  insn.expectPlain 1
  let type ← classType insn (← insn.typeName 0)
  if action = .new ∧ type.dimensions ≠ 0 then throw (insn.illegal .newOfArray)
  return .classUse action (.classRef type)

/-- The element type of `newarray`, by its name or its letter. -/
def elementType? : String → Option BaseType
  | "boolean" | "Z" => some .boolean
  | "char" | "C" => some .char
  | "float" | "F" => some .float
  | "double" | "D" => some .double
  | "byte" | "B" => some .byte
  | "short" | "S" => some .short
  | "int" | "I" => some .int
  | "long" | "J" => some .long
  | _ => none

def newArray (insn : WrittenInstruction) : Except CompileError SymbolicOperation := do
  insn.expectPlain 1
  let name ← insn.typeName 0
  match elementType? name with
  | some type => return .newArray type
  | none => throw (insn.illegal (.notPrimitive name))

def multiArray (insn : WrittenInstruction) : Except CompileError SymbolicOperation := do
  insn.expectPlain 2
  let type ← classType insn (← insn.typeName 0)
  let count ← insn.uint8 1 "dimension count"
  if count = 0 ∨ count.toNat > type.dimensions then
    throw (insn.illegal (.dimensionCount count.toNat type.dimensions))
  return .multiArray (.classRef type) count

end JvmAssembler.Evaluate
