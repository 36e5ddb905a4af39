import JvmAssembler.Bytes
import JvmAssembler.Constant.ModifiedUtf8
import JvmAssembler.Ieee.Shortest
import JvmAssembler.SlotVec
import JvmAssembler.Text.Quoted

/-! An entry refers to others by their index. `PoolEntry.order` is a total order on entries, by
which the pool finds an entry that it already holds. -/

namespace JvmAssembler

inductive PoolEntry where
  | utf8 (text : String)
  | integer (value : Int32)
  | float (bits : UInt32)
  | long (value : Int64)
  | double (bits : UInt64)
  | classRef (name : UInt16)
  | string (utf8 : UInt16)
  | field (owner member : UInt16)
  | method (owner member : UInt16) (inInterface : Bool)
  | nameAndType (name descriptor : UInt16)
deriving DecidableEq, Repr

namespace PoolEntry

/-- An entry of eight bytes takes two indices, of which only the first is used. -/
instance : HasWidth PoolEntry where
  width
    | long _ | double _ => 2
    | _ => 1

/-- The first byte of the entry. -/
def tag : PoolEntry → UInt8
  | utf8 _ => 1
  | integer _ => 3
  | float _ => 4
  | long _ => 5
  | double _ => 6
  | classRef _ => 7
  | string _ => 8
  | field _ _ => 9
  | method _ _ inInterface => if inInterface then 11 else 10
  | nameAndType _ _ => 12

/-- The bytes after the tag. The length of a text is written modulo 2^16. -/
def body : PoolEntry → List UInt8
  | utf8 text =>
    let encoded := ModifiedUtf8.encode text
    Bytes.bigEndian 2 encoded.length ++ encoded
  | integer value => Bytes.ofInt32 value
  | float bits => Bytes.ofUInt32 bits
  | long value => Bytes.ofInt64 value
  | double bits => Bytes.ofUInt64 bits
  | classRef name => Bytes.ofUInt16 name
  | string index => Bytes.ofUInt16 index
  | field owner member => Bytes.ofUInt16 owner ++ Bytes.ofUInt16 member
  | method owner member _ => Bytes.ofUInt16 owner ++ Bytes.ofUInt16 member
  | nameAndType name descriptor => Bytes.ofUInt16 name ++ Bytes.ofUInt16 descriptor

def bytes (entry : PoolEntry) : List UInt8 := entry.tag :: entry.body

/-- The first number of the entry, zero for a text. -/
def first : PoolEntry → Nat
  | utf8 _ => 0
  | integer value => value.toUInt32.toNat
  | float bits => bits.toNat
  | long value => value.toUInt64.toNat
  | double bits => bits.toNat
  | classRef name => name.toNat
  | string index => index.toNat
  | field owner _ => owner.toNat
  | method owner _ _ => owner.toNat
  | nameAndType name _ => name.toNat

/-- The second number of the entry, zero if there is none. -/
def second : PoolEntry → Nat
  | field _ member => member.toNat
  | method _ member _ => member.toNat
  | nameAndType _ descriptor => descriptor.toNat
  | _ => 0

/-- The text of the entry, empty if there is none. -/
def content : PoolEntry → String
  | utf8 text => text
  | _ => ""

/-- Entries in the order of tag, numbers and text. -/
def order : PoolEntry → PoolEntry → Ordering :=
  compareLex (compareOn tag)
    (compareLex (compareOn first) (compareLex (compareOn second) (compareOn content)))

instance : Std.TransCmp order := by
  unfold order
  infer_instance

/-- The entry that tag, numbers and text belong to. -/
def ofKey (tag : UInt8) (first second : Nat) (content : String) : PoolEntry :=
  match tag with
  | 1 => utf8 content
  | 3 => integer (UInt32.ofNat first).toInt32
  | 4 => float (UInt32.ofNat first)
  | 5 => long (UInt64.ofNat first).toInt64
  | 6 => double (UInt64.ofNat first)
  | 7 => classRef (UInt16.ofNat first)
  | 8 => string (UInt16.ofNat first)
  | 9 => field (UInt16.ofNat first) (UInt16.ofNat second)
  | 10 => method (UInt16.ofNat first) (UInt16.ofNat second) false
  | 11 => method (UInt16.ofNat first) (UInt16.ofNat second) true
  | _ => nameAndType (UInt16.ofNat first) (UInt16.ofNat second)

theorem ofKey_eq (entry : PoolEntry) :
    ofKey entry.tag entry.first entry.second entry.content = entry := by
  cases entry with
  | method owner member inInterface =>
      cases inInterface <;> simp [ofKey, tag, first, second]
  | _ => simp [ofKey, tag, first, second, content]

/-- The order tells different entries apart. -/
instance : Std.LawfulEqCmp order where
  compare_self := Std.ReflCmp.compare_self
  eq_of_compare := by
    intro a b h
    simp only [order, compareLex, compareOn, Ordering.then_eq_eq, Std.compare_eq_iff_eq] at h
    obtain ⟨htag, hfirst, hsecond, hcontent⟩ := h
    rw [← ofKey_eq a, ← ofKey_eq b, htag, hfirst, hsecond, hcontent]

theorem width_pos (entry : PoolEntry) : 0 < width entry := by
  cases entry <;> simp [width]

/-- The entry as it stands in messages. -/
def text : PoolEntry → String
  | utf8 text => "Utf8(" ++ Text.quoted text ++ ")"
  | integer value => s!"Integer({value.toInt})"
  | float bits => "Float(" ++ Ieee.single.text bits.toNat ++ ")"
  | long value => s!"Long({value.toInt})"
  | double bits => "Double(" ++ Ieee.double.text bits.toNat ++ ")"
  | classRef name => s!"Class(ConstantIndex({name.toNat}))"
  | string index => s!"String(ConstantIndex({index.toNat}))"
  | field owner member =>
    s!"FieldRef \x7b class: ConstantIndex({owner.toNat}), name_and_type: ConstantIndex({member.toNat}) \x7d"
  | method owner member inInterface =>
    s!"MethodRef \x7b class: ConstantIndex({owner.toNat}), name_and_type: ConstantIndex({member.toNat}), is_interface: {inInterface} \x7d"
  | nameAndType name descriptor =>
    s!"NameAndType \x7b name: ConstantIndex({name.toNat}), descriptor: ConstantIndex({descriptor.toNat}) \x7d"

end PoolEntry

end JvmAssembler
