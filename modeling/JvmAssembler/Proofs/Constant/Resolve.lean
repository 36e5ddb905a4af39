import JvmAssembler.Constant.Pool
import JvmAssembler.Proofs.Descriptor.RoundTrip
import JvmAssembler.Proofs.Success

/-! An index of the pool resolves to a constant by following the references between entries.
Interning a constant gives an index that resolves to it, and what an index resolves to stays when a
pool grows. -/

namespace JvmAssembler

namespace ConstantPool

/-- The text at an index. -/
def text? (pool : ConstantPool) (index : UInt16) : Option String :=
  match pool.get? index with
  | some (.utf8 text) => some text
  | _ => none

/-- The type that the class entry at an index names. -/
def classType? (pool : ConstantPool) (index : UInt16) : Option RefType :=
  match pool.get? index with
  | some (.classRef name) => (pool.text? name).bind fun text => (RefType.ofClassName text).toOption
  | _ => none

/-- The name of a field or method and the text of its descriptor. -/
def member? (pool : ConstantPool) (index : UInt16) : Option (UnqualifiedName × String) :=
  match pool.get? index with
  | some (.nameAndType name descriptor) => do
    let text ← pool.text? name
    let name ← (UnqualifiedName.ofString text).toOption
    let descriptor ← pool.text? descriptor
    some (name, descriptor)
  | _ => none

/-- The field of a class that a member names. -/
def field? (pool : ConstantPool) (owner member : UInt16) : Option FieldRef := do
  let type ← pool.classType? owner
  let (name, descriptor) ← pool.member? member
  match type, FieldType.ofString descriptor with
  | .object owner, .ok type => some ⟨owner, name, type⟩
  | _, _ => none

/-- The method of a type that a member names. -/
def method? (pool : ConstantPool) (owner member : UInt16) (inInterface : Bool) :
    Option MethodRef := do
  let owner ← pool.classType? owner
  let (name, descriptor) ← pool.member? member
  let descriptor ← (MethodDescriptor.ofString descriptor).toOption
  some ⟨owner, name, descriptor, inInterface⟩

/-- The constant that an index resolves to. -/
def constant? (pool : ConstantPool) (index : UInt16) : Option Constant :=
  match pool.get? index with
  | some (.integer value) => some (.integer value)
  | some (.float bits) => some (.float bits)
  | some (.long value) => some (.long value)
  | some (.double bits) => some (.double bits)
  | some (.string utf8) => (pool.text? utf8).map .string
  | some (.classRef _) => (pool.classType? index).map .classRef
  | some (.field owner member) => (pool.field? owner member).map .field
  | some (.method owner member inInterface) => (pool.method? owner member inInterface).map .method
  | _ => none

/-- Every entry of the first pool stands at its index in the second. -/
def Extends (pool pool' : ConstantPool) : Prop :=
  ∀ index entry, pool.get? index = some entry → pool'.get? index = some entry

theorem Extends.refl (pool : ConstantPool) : pool.Extends pool := fun _ _ h => h

theorem Extends.trans {p q r : ConstantPool} (hpq : p.Extends q) (hqr : q.Extends r) :
    p.Extends r := fun index entry h => hqr index entry (hpq index entry h)

section Kept

variable {pool pool' : ConstantPool} {index : UInt16}

theorem text?_eq_some_iff {text : String} :
    pool.text? index = some text ↔ pool.get? index = some (.utf8 text) := by
  unfold text?
  split
  · rename_i heq
    simp [heq]
  · rename_i hother
    constructor
    · intro h
      cases h
    · intro h
      exact absurd h (hother text)

theorem text?_kept {text : String} (hext : pool.Extends pool')
    (h : pool.text? index = some text) : pool'.text? index = some text :=
  text?_eq_some_iff.mpr (hext _ _ (text?_eq_some_iff.mp h))

theorem classType?_kept {type : RefType} (hext : pool.Extends pool')
    (h : pool.classType? index = some type) : pool'.classType? index = some type := by
  unfold classType? at h
  split at h
  · rename_i name heq
    obtain ⟨text, htext, htype⟩ := Option.bind_eq_some_iff.mp h
    simp only [classType?, hext _ _ heq, text?_kept hext htext, Option.bind_some, htype]
  · cases h

theorem member?_kept {member : UnqualifiedName × String} (hext : pool.Extends pool')
    (h : pool.member? index = some member) : pool'.member? index = some member := by
  unfold member? at h
  split at h
  · rename_i name descriptor heq
    obtain ⟨text, htext, h⟩ := Option.bind_eq_some_iff.mp h
    obtain ⟨named, hnamed, h⟩ := Option.bind_eq_some_iff.mp h
    obtain ⟨spelled, hspelled, hmember⟩ := Option.bind_eq_some_iff.mp h
    simp only [member?, hext _ _ heq, text?_kept hext htext, text?_kept hext hspelled, bind,
      Option.bind_some, hnamed, hmember]
  · cases h

theorem field?_kept {owner member : UInt16} {field : FieldRef} (hext : pool.Extends pool')
    (h : pool.field? owner member = some field) : pool'.field? owner member = some field := by
  obtain ⟨type, htype, h⟩ := Option.bind_eq_some_iff.mp h
  obtain ⟨named, hnamed, hfield⟩ := Option.bind_eq_some_iff.mp h
  simp only [field?, classType?_kept hext htype, member?_kept hext hnamed, bind, Option.bind_some,
    hfield]

theorem method?_kept {owner member : UInt16} {inInterface : Bool} {method : MethodRef}
    (hext : pool.Extends pool') (h : pool.method? owner member inInterface = some method) :
    pool'.method? owner member inInterface = some method := by
  obtain ⟨type, htype, h⟩ := Option.bind_eq_some_iff.mp h
  obtain ⟨named, hnamed, hmethod⟩ := Option.bind_eq_some_iff.mp h
  simp only [method?, classType?_kept hext htype, member?_kept hext hnamed, bind, Option.bind_some]
  exact hmethod

theorem constant?_kept {constant : Constant} (hext : pool.Extends pool')
    (h : pool.constant? index = some constant) : pool'.constant? index = some constant := by
  unfold constant? at h
  split at h
  case h_5 utf8 heq =>
    obtain ⟨text, htext, rfl⟩ := Option.map_eq_some_iff.mp h
    simp only [constant?, hext _ _ heq, text?_kept hext htext, Option.map_some]
  case h_6 name heq =>
    obtain ⟨type, htype, rfl⟩ := Option.map_eq_some_iff.mp h
    simp only [constant?, hext _ _ heq, classType?_kept hext htype, Option.map_some]
  case h_7 owner member heq =>
    obtain ⟨field, hfield, rfl⟩ := Option.map_eq_some_iff.mp h
    simp only [constant?, hext _ _ heq, field?_kept hext hfield, Option.map_some]
  case h_8 owner member inInterface heq =>
    obtain ⟨method, hmethod, rfl⟩ := Option.map_eq_some_iff.mp h
    simp only [constant?, hext _ _ heq, method?_kept hext hmethod, Option.map_some]
  case h_9 => cases h
  all_goals
    rename_i heq
    simp only [constant?, hext _ _ heq, h]

end Kept

section Interning

variable {pool pool' : ConstantPool} {index : UInt16}

theorem get?_add {entry : PoolEntry} (hnew : pool.indices[entry]? = none)
    (hroom : pool.next + width entry ≤ 0x10000) :
    pool.Extends (pool.add entry hnew hroom) ∧
      (pool.add entry hnew hroom).get? (UInt16.ofNat pool.next) = some entry := by
  have hpos := entry.width_pos
  have hindex : (UInt16.ofNat pool.next).toNat = pool.entries.next :=
    UInt16.toNat_ofNat_of_lt' (by omega : pool.next < 0x10000)
  refine ⟨?_, ?_⟩
  · intro index held hheld
    have hlt := SlotVec.lt_next_of_get?_eq_some PoolEntry.width_pos hheld
    show (pool.entries.push entry).get? index.toNat = some held
    rw [SlotVec.get?_push, if_neg (by omega)]
    exact hheld
  · show (pool.entries.push entry).get? (UInt16.ofNat pool.next).toNat = some entry
    rw [SlotVec.get?_push, if_pos hindex.symm]

/-- An entry that the pool does not hold is added if there is room for it. -/
theorem internEntry_of_none {entry : PoolEntry} (hnew : pool.indices[entry]? = none) :
    internEntry entry pool =
      if hroom : pool.next + width entry ≤ 0x10000 then
        .ok (UInt16.ofNat pool.next) (pool.add entry hnew hroom)
      else .error ⟨entry, pool.next⟩ pool := by
  unfold internEntry
  split
  · rename_i hfound
    rw [hnew] at hfound
    cases hfound
  · rfl

theorem internEntry_spec {entry : PoolEntry} (h : internEntry entry pool = .ok index pool') :
    pool.Extends pool' ∧ pool'.get? index = some entry := by
  unfold internEntry at h
  split at h
  · rename_i found hfound
    cases h
    exact ⟨.refl pool, (pool.indices_iff entry index).mp hfound⟩
  · rename_i hnew
    split at h
    · rename_i hroom
      cases h
      exact get?_add hnew hroom
    · cases h

theorem internUtf8_spec {text : String} (h : internUtf8 text pool = .ok index pool') :
    pool.Extends pool' ∧ pool'.text? index = some text := by
  obtain ⟨hext, hget⟩ := internEntry_spec h
  exact ⟨hext, text?_eq_some_iff.mpr hget⟩

theorem internClass_spec {type : RefType} (h : internClass type pool = .ok index pool') :
    pool.Extends pool' ∧ pool'.classType? index = some type ∧
      ∃ name, pool'.get? index = some (.classRef name) := by
  obtain ⟨name, pool₁, hname, hentry⟩ := exists_of_bind_eq_result h
  obtain ⟨hext, htext⟩ := internUtf8_spec hname
  obtain ⟨hext', hget⟩ := internEntry_spec hentry
  refine ⟨hext.trans hext', ?_, name, hget⟩
  simp only [classType?, hget, text?_kept hext' htext, Option.bind_some,
    RefType.ofClassName_className, Except.toOption]

theorem internNameAndType_spec {name : UnqualifiedName} {descriptor : String}
    (h : internNameAndType name.text descriptor pool = .ok index pool') :
    pool.Extends pool' ∧ pool'.member? index = some (name, descriptor) := by
  obtain ⟨first, pool₁, hfirst, h⟩ := exists_of_bind_eq_result h
  obtain ⟨second, pool₂, hsecond, hentry⟩ := exists_of_bind_eq_result h
  obtain ⟨hext₁, hname⟩ := internUtf8_spec hfirst
  obtain ⟨hext₂, hdescriptor⟩ := internUtf8_spec hsecond
  obtain ⟨hext₃, hget⟩ := internEntry_spec hentry
  refine ⟨hext₁.trans (hext₂.trans hext₃), ?_⟩
  simp only [member?, hget, text?_kept (hext₂.trans hext₃) hname, text?_kept hext₃ hdescriptor,
    bind, Option.bind_some, UnqualifiedName.ofString_text, Except.toOption]

/-- An interned constant is what its index resolves to. -/
theorem intern_spec {constant : Constant} (h : intern constant pool = .ok index pool') :
    pool.Extends pool' ∧ pool'.constant? index = some constant := by
  cases constant with
  | integer value | float bits | long value | double bits =>
      obtain ⟨hext, hget⟩ := internEntry_spec h
      exact ⟨hext, by simp only [constant?, hget]⟩
  | string text =>
      obtain ⟨utf8, pool₁, hutf8, hentry⟩ := exists_of_bind_eq_result h
      obtain ⟨hext₁, htext⟩ := internUtf8_spec hutf8
      obtain ⟨hext₂, hget⟩ := internEntry_spec hentry
      refine ⟨hext₁.trans hext₂, ?_⟩
      simp only [constant?, hget, text?_kept hext₂ htext, Option.map_some]
  | classRef type =>
      obtain ⟨hext, htype, name, hget⟩ := internClass_spec h
      exact ⟨hext, by simp only [constant?, hget, htype, Option.map_some]⟩
  | field field =>
      obtain ⟨owner, pool₁, howner, h⟩ := exists_of_bind_eq_result h
      obtain ⟨member, pool₂, hmember, hentry⟩ := exists_of_bind_eq_result h
      obtain ⟨hext₁, htype, -⟩ := internClass_spec howner
      obtain ⟨hext₂, hnamed⟩ := internNameAndType_spec hmember
      obtain ⟨hext₃, hget⟩ := internEntry_spec hentry
      have hfield : pool'.field? owner member = some field := by
        simp only [field?, classType?_kept (hext₂.trans hext₃) htype, member?_kept hext₃ hnamed,
          bind, Option.bind_some, FieldType.ofString_text]
      exact ⟨hext₁.trans (hext₂.trans hext₃), by simp only [constant?, hget, hfield, Option.map_some]⟩
  | method method =>
      obtain ⟨owner, pool₁, howner, h⟩ := exists_of_bind_eq_result h
      obtain ⟨member, pool₂, hmember, hentry⟩ := exists_of_bind_eq_result h
      obtain ⟨hext₁, htype, -⟩ := internClass_spec howner
      obtain ⟨hext₂, hnamed⟩ := internNameAndType_spec hmember
      obtain ⟨hext₃, hget⟩ := internEntry_spec hentry
      have hmethod : pool'.method? owner member method.inInterface = some method := by
        simp only [method?, classType?_kept (hext₂.trans hext₃) htype, member?_kept hext₃ hnamed,
          bind, Option.bind_some, MethodDescriptor.ofString_text, Except.toOption]
      exact ⟨hext₁.trans (hext₂.trans hext₃), by simp only [constant?, hget, hmethod, Option.map_some]⟩

end Interning

end ConstantPool

end JvmAssembler
