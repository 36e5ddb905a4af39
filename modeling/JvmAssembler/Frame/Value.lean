import JvmAssembler.Instruction.Kind
import JvmAssembler.SlotVec

/-! The type of a value on the stack or in a local, as far as the checks of a method know it, and
the instruction that produced it. Two types have the same shape if one can stand for the other where
paths meet. -/

namespace JvmAssembler

inductive ValueType where
  /-- A slot that cannot be used. -/
  | top
  | numeric (kind : NumericKind)
  | null
  /-- The object under construction, before the constructor of its superclass was called. -/
  | uninitializedThis
  /-- An object allocated by the instruction `site`, before its constructor was called. -/
  | uninitialized (owner : BinaryName) (site : Nat)
  /-- A reference to an object of unspecified class. -/
  | anyObject
  | reference (type : RefType)
deriving DecidableEq

namespace ValueType

def width : ValueType → Nat
  | numeric kind => kind.width
  | _ => 1

theorem width_pos (t : ValueType) : 0 < t.width := by
  cases t with
  | numeric kind => cases kind <;> decide
  | _ => exact Nat.one_pos

/-- References, also null and uninitialized ones. -/
def isReference : ValueType → Bool
  | top | numeric _ => false
  | _ => true

/-- References to initialized objects, and null. -/
def isInitialized : ValueType → Bool
  | null | anyObject | reference _ => true
  | _ => false

def isUninitialized : ValueType → Bool
  | uninitializedThis | uninitialized _ _ => true
  | _ => false

def numeric? : ValueType → Option NumericKind
  | numeric kind => some kind
  | _ => none

/-- All initialized references have one shape, any other type only its own. -/
def sameShape (s t : ValueType) : Bool := (s.isInitialized && t.isInitialized) || s == t

def ofField : FieldType → ValueType
  | .base type => numeric (.ofBase type)
  | .ref type => reference type

/-- A type that stands for both where paths meet: null gives way to a class, and different classes
to a reference of unspecified class. Other types stay as they are. -/
def join : (mine theirs : ValueType) → ValueType
  | null, reference type => reference type
  | reference a, reference b => if a = b then reference a else anyObject
  | null, anyObject => anyObject
  | reference _, anyObject => anyObject
  | mine, _ => mine

def text : ValueType → String
  | top => "top"
  | numeric .int => "int"
  | numeric .float => "float"
  | numeric .long => "long"
  | numeric .double => "double"
  | null => "null"
  | uninitializedThis => "uninitialized this"
  | uninitialized owner site => s!"uninitialized {owner.text} (from instruction #{site})"
  | anyObject => "object reference"
  | reference type => type.text

/-- How often a type can still be widened where paths meet. -/
def slack : ValueType → Nat
  | null => 2
  | reference _ => 1
  | _ => 0

theorem slack_join_le (s t : ValueType) : (s.join t).slack ≤ s.slack := by
  unfold join
  split
  case h_2 a b => by_cases h : a = b <;> simp [h, slack]
  all_goals simp [slack]

theorem slack_join_lt {s t : ValueType} (h : s.join t ≠ s) : (s.join t).slack < s.slack := by
  unfold join at h ⊢
  split
  case h_2 a b => by_cases hab : a = b <;> simp_all [slack]
  all_goals simp_all [slack]

end ValueType

/-- A value and the instruction that produced it, none for arguments. -/
structure Value where
  type : ValueType
  producer : Option Nat
deriving DecidableEq

namespace Value

/-- What an unused slot holds. -/
def unusable : Value := ⟨.top, none⟩

instance : Inhabited Value := ⟨unusable⟩

def width (v : Value) : Nat := v.type.width

instance : HasWidth Value := ⟨width⟩

def sameShape (v w : Value) : Bool := v.type.sameShape w.type

/-- The value with a type that also stands for another value. -/
def join (mine theirs : Value) : Value := { mine with type := mine.type.join theirs.type }

def text (v : Value) : String := v.type.text

end Value

end JvmAssembler
