import JvmAssembler.Descriptor.Basic

/-! What instructions refer to until they are resolved against a constant pool. Floating-point
numbers are held as their bits, so that constants are equal exactly if they share an entry of the
pool. -/

namespace JvmAssembler

/-- A field of a class. -/
structure FieldRef where
  owner : BinaryName
  name : UnqualifiedName
  type : FieldType
deriving DecidableEq

/-- A method of a class, an interface or an array type. -/
structure MethodRef where
  owner : RefType
  name : UnqualifiedName
  descriptor : MethodDescriptor
  inInterface : Bool
deriving DecidableEq

inductive Constant where
  | integer (value : Int32)
  | float (bits : UInt32)
  | long (value : Int64)
  | double (bits : UInt64)
  | string (text : String)
  | classRef (type : RefType)
  | field (field : FieldRef)
  | method (method : MethodRef)
deriving DecidableEq

/-- Does the constant take two slots when loaded? -/
def Constant.isWide : Constant → Bool
  | long _ | double _ => true
  | _ => false

end JvmAssembler
