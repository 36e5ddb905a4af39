import JvmAssembler.Constant.Basic
import JvmAssembler.Constant.Entry
import Std.Data.TreeMap

/-! Entries in the order in which they were first needed, each held once. Indices start at 1 and the
largest is 65535. -/

namespace JvmAssembler

structure ConstantPool where
  entries : SlotVec PoolEntry
  /-- The index of each entry. -/
  indices : Std.TreeMap PoolEntry UInt16 PoolEntry.order
  start_eq : entries.start = 1
  next_le : entries.next ≤ 0x10000
  indices_iff : ∀ entry index, indices[entry]? = some index ↔ entries.get? index.toNat = some entry

/-- An entry that the pool has no room for, and the offset at which it would stand. -/
structure PoolOverflow where
  entry : PoolEntry
  offset : Nat
deriving DecidableEq, Repr

namespace ConstantPool

def empty : ConstantPool where
  entries := .startingAt 1
  indices := ∅
  start_eq := rfl
  next_le := by decide
  indices_iff := by
    intro entry index
    rw [Std.TreeMap.getElem?_emptyc]
    exact ⟨fun h => (by cases h), fun h => (by cases h)⟩

instance : Inhabited ConstantPool := ⟨empty⟩

/-- Offset of the next entry, one more than the largest index in use. -/
def next (pool : ConstantPool) : Nat := pool.entries.next

def get? (pool : ConstantPool) (index : UInt16) : Option PoolEntry := pool.entries.get? index.toNat

/-- Adds an entry that the pool does not hold and has room for. -/
def add (pool : ConstantPool) (entry : PoolEntry) (hnew : pool.indices[entry]? = none)
    (hroom : pool.next + width entry ≤ 0x10000) : ConstantPool where
  entries := pool.entries.push entry
  indices := pool.indices.insert entry (UInt16.ofNat pool.next)
  start_eq := pool.start_eq
  next_le := hroom
  indices_iff := by
    intro other index
    have hpos := entry.width_pos
    have hindex : (UInt16.ofNat pool.next).toNat = pool.entries.next :=
      UInt16.toNat_ofNat_of_lt' (by omega : pool.next < 0x10000)
    have hnext : ∀ e, pool.entries.get? pool.entries.next ≠ some e := fun e he =>
      absurd (SlotVec.lt_next_of_get?_eq_some PoolEntry.width_pos he) (Nat.lt_irrefl _)
    simp only [Std.TreeMap.getElem?_insert, SlotVec.get?_push, Std.LawfulEqCmp.compare_eq_iff_eq]
    by_cases hsame : entry = other
    · subst hsame
      rw [if_pos rfl, Option.some.injEq, ← UInt16.toNat_inj, hindex]
      split
      · rename_i heq
        simp [heq]
      · rename_i hne
        rw [← pool.indices_iff, hnew]
        simp [hne]
    · rw [if_neg hsame, pool.indices_iff]
      split
      · rename_i heq
        rw [← heq]
        simp [hnext, hsame]
      · exact Iff.rfl

/-- Work that adds to a pool. What was added before a failure stays. -/
abbrev Interning := EStateM PoolOverflow ConstantPool

/-- The index of an entry, which is added at the end if the pool does not hold it. -/
def internEntry (entry : PoolEntry) : Interning UInt16 := fun pool =>
  match h : pool.indices[entry]? with
  | some index => .ok index pool
  | none =>
    if hroom : pool.next + width entry ≤ 0x10000 then
      .ok (UInt16.ofNat pool.next) (pool.add entry h hroom)
    else .error ⟨entry, pool.next⟩ pool

def internUtf8 (text : String) : Interning UInt16 := internEntry (.utf8 text)

def internClass (type : RefType) : Interning UInt16 := do
  let name ← internUtf8 type.className
  internEntry (.classRef name)

def internNameAndType (name descriptor : String) : Interning UInt16 := do
  let name ← internUtf8 name
  let descriptor ← internUtf8 descriptor
  internEntry (.nameAndType name descriptor)

/-- The index of a constant. The entries that it refers to come before it. -/
def intern : Constant → Interning UInt16
  | .integer value => internEntry (.integer value)
  | .float bits => internEntry (.float bits)
  | .long value => internEntry (.long value)
  | .double bits => internEntry (.double bits)
  | .string text => do
    let utf8 ← internUtf8 text
    internEntry (.string utf8)
  | .classRef type => internClass type
  | .field field => do
    let owner ← internClass (.object field.owner)
    let nameAndType ← internNameAndType field.name.text field.type.text
    internEntry (.field owner nameAndType)
  | .method method => do
    let owner ← internClass method.owner
    let nameAndType ← internNameAndType method.name.text method.descriptor.text
    internEntry (.method owner nameAndType method.inInterface)

/-- The offset of the next entry, modulo 2^16, and the entries. -/
def bytes (pool : ConstantPool) : List UInt8 :=
  Bytes.bigEndian 2 pool.next ++ pool.entries.toList.flatMap PoolEntry.bytes

end ConstantPool

end JvmAssembler
