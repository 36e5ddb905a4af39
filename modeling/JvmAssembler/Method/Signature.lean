import JvmAssembler.Error
import JvmAssembler.Source.Method

/-! The checked name and descriptor of a method, and the frame that they give on entry. -/

namespace JvmAssembler

structure Signature where
  name : UnqualifiedName
  descriptor : MethodDescriptor

/-- The signature of a method. A constructor has a receiver and returns nothing. -/
def WrittenMethod.signature (m : WrittenMethod) : Except CompileError Signature := do
  let name ← (UnqualifiedName.ofString m.name).mapError fun cause =>
    .badDescriptor m.position m.name (.name cause)
  let descriptor ← (MethodDescriptor.ofString m.descriptor).mapError fun cause =>
    .badDescriptor m.position m.descriptor (.descriptor cause)
  if name.isInit && (m.isStatic || descriptor.returns.isSome) then
    throw (.badDescriptor m.position m.descriptor .constructorShape)
  if descriptor.argumentSlots (!m.isStatic) > maxArgumentSlots then
    throw (.badDescriptor m.position m.descriptor .tooManyParameters)
  return ⟨name, descriptor⟩

namespace Frame

/-- Puts parameters into locals, from a slot on. -/
def setParameters (f : Frame) (index : Nat) : List FieldType → Frame
  | [] => f
  | type :: rest =>
    (f.setLocal (UInt16.ofNat index) ⟨.ofField type, none⟩).setParameters (index + type.width) rest

/-- The receiver on entry: a constructor starts with an object that is not initialized. -/
def receiver (owner : BinaryName) (name : UnqualifiedName) : ValueType :=
  if name.isInit then .uninitializedThis else .reference (.object owner)

/-- The frame on entry to a method: its arguments and an empty stack. -/
def onEntry (owner : BinaryName) (isStatic : Bool) (s : Signature) : Frame :=
  if isStatic then empty.setParameters 0 s.descriptor.parameters
  else
    (empty.setLocal 0 ⟨receiver owner s.name, none⟩).setParameters 1 s.descriptor.parameters

end Frame

end JvmAssembler
