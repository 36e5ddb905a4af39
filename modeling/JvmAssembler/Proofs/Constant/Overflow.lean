import JvmAssembler.Proofs.Constant.ReadBack
import JvmAssembler.Proofs.Descriptor.Grammar
import JvmAssembler.Proofs.Failure

/-! A constant needs up to six entries, and the pool may run out of room before any of them. What is
left behind then are entries that the constant refers to, and they are found by all later requests.
So the same request fails in the same way again, and everything that had an index keeps it. -/

namespace JvmAssembler

theorem UnqualifiedName.text_of_ofString {text : String} {name : UnqualifiedName}
    (h : ofString text = .ok name) : name.text = text := by
  unfold ofString at h
  split at h
  · cases h
    rfl
  · cases h

namespace ConstantPool

variable {pool pool' : ConstantPool} {index : UInt16} {e : PoolOverflow}

theorem internUtf8_of_text? {text : String} (h : pool.text? index = some text) :
    internUtf8 text pool = .ok index pool :=
  internEntry_of_get? (text?_eq_some_iff.mp h)

theorem internClass_of_classType? {type : RefType} (h : pool.classType? index = some type) :
    internClass type pool = .ok index pool := by
  unfold classType? at h
  split at h
  · rename_i name hget
    obtain ⟨text, htext, htype⟩ := Option.bind_eq_some_iff.mp h
    rw [← RefType.ofClassName_eq_ok_iff.mp (eq_ok_of_toOption htype)] at htext
    exact (bind_eq_of_ok (internUtf8_of_text? htext)).trans (internEntry_of_get? hget)
  · cases h

theorem internNameAndType_of_member? {name : UnqualifiedName} {descriptor : String}
    (h : pool.member? index = some (name, descriptor)) :
    internNameAndType name.text descriptor pool = .ok index pool := by
  unfold member? at h
  split at h
  · rename_i first second hget
    obtain ⟨text, htext, h⟩ := Option.bind_eq_some_iff.mp h
    obtain ⟨named, hnamed, h⟩ := Option.bind_eq_some_iff.mp h
    obtain ⟨spelled, hspelled, heq⟩ := Option.bind_eq_some_iff.mp h
    cases heq
    rw [← UnqualifiedName.text_of_ofString (eq_ok_of_toOption hnamed)] at htext
    exact (bind_eq_of_ok (internUtf8_of_text? htext)).trans
      ((bind_eq_of_ok (internUtf8_of_text? hspelled)).trans (internEntry_of_get? hget))
  · cases h

theorem owner_and_member_of_field? {owner member : UInt16} {field : FieldRef}
    (h : pool.field? owner member = some field) :
    pool.classType? owner = some (.object field.owner) ∧
      pool.member? member = some (field.name, field.type.text) := by
  obtain ⟨type, htype, hrest⟩ := Option.bind_eq_some_iff.mp h
  obtain ⟨⟨name, descriptor⟩, hmember, heq⟩ := Option.bind_eq_some_iff.mp hrest
  dsimp only at heq
  split at heq
  · rename_i hspelled
    cases heq
    rw [FieldType.ofString_eq_ok_iff.mp hspelled]
    exact ⟨htype, hmember⟩
  · cases heq

theorem owner_and_member_of_method? {owner member : UInt16} {inInterface : Bool} {method : MethodRef}
    (h : pool.method? owner member inInterface = some method) :
    pool.classType? owner = some method.owner ∧
      pool.member? member = some (method.name, method.descriptor.text) ∧
      method.inInterface = inInterface := by
  obtain ⟨type, htype, h⟩ := Option.bind_eq_some_iff.mp h
  obtain ⟨⟨name, descriptor⟩, hmember, h⟩ := Option.bind_eq_some_iff.mp h
  obtain ⟨spelled, hspelled, heq⟩ := Option.bind_eq_some_iff.mp h
  cases heq
  rw [MethodDescriptor.ofString_eq_ok_iff.mp (eq_ok_of_toOption hspelled)]
  exact ⟨htype, hmember, rfl⟩

/-- A constant that an index resolves to is found there. -/
theorem intern_of_constant? {constant : Constant} (h : pool.constant? index = some constant) :
    intern constant pool = .ok index pool := by
  unfold constant? at h
  split at h
  case h_5 utf8 hget =>
    obtain ⟨text, htext, rfl⟩ := Option.map_eq_some_iff.mp h
    exact (bind_eq_of_ok (internUtf8_of_text? htext)).trans (internEntry_of_get? hget)
  case h_6 name hget =>
    obtain ⟨type, htype, rfl⟩ := Option.map_eq_some_iff.mp h
    exact internClass_of_classType? htype
  case h_7 owner member hget =>
    obtain ⟨field, hfield, rfl⟩ := Option.map_eq_some_iff.mp h
    obtain ⟨howner, hmember⟩ := owner_and_member_of_field? hfield
    exact (bind_eq_of_ok (internClass_of_classType? howner)).trans
      ((bind_eq_of_ok (internNameAndType_of_member? hmember)).trans (internEntry_of_get? hget))
  case h_8 owner member inInterface hget =>
    obtain ⟨method, hmethod, rfl⟩ := Option.map_eq_some_iff.mp h
    obtain ⟨howner, hmember, rfl⟩ := owner_and_member_of_method? hmethod
    exact (bind_eq_of_ok (internClass_of_classType? howner)).trans
      ((bind_eq_of_ok (internNameAndType_of_member? hmember)).trans (internEntry_of_get? hget))
  case h_9 => cases h
  all_goals
    rename_i hget
    cases h
    exact internEntry_of_get? hget

/-- What an index resolves to is found there, and nothing is added. -/
theorem work_of_meaning? {request : Request} (h : pool.meaning? index = some request.meaning) :
    request.work pool = .ok index pool := by
  unfold meaning? at h
  split at h
  · rename_i text htext
    cases request with
    | text content =>
        cases h
        exact internUtf8_of_text? htext
    | constant c => cases h
    | classOf type => cases h
  · obtain ⟨constant, hconstant, heq⟩ := Option.map_eq_some_iff.mp h
    have hfound := intern_of_constant? hconstant
    cases request with
    | text content => cases heq
    | constant c =>
        cases heq
        exact hfound
    | classOf type =>
        cases heq
        exact hfound

/-- Work that only fails for want of room, and fails in the same way once more. -/
structure FailsAgain (work : Interning UInt16) : Prop extends Recalls work where
  fails : ∀ {pool pool' : ConstantPool} {e : PoolOverflow}, work pool = .error e pool' →
    e.offset = pool'.next ∧ 0x10000 < e.offset + width e.entry ∧ work pool' = .error e pool'

theorem FailsAgain.bind {first : Interning UInt16} {next : UInt16 → Interning UInt16}
    (hfirst : FailsAgain first) (hnext : ∀ index, FailsAgain (next index)) :
    FailsAgain (first >>= next) where
  toRecalls := hfirst.toRecalls.bind fun index => (hnext index).toRecalls
  fails := by
    intro pool pool' e h
    rcases cases_of_bind_eq_error h with hfails | ⟨index, pool₁, hpool₁, hfails⟩
    · obtain ⟨hoffset, hroom, hagain⟩ := hfirst.fails hfails
      exact ⟨hoffset, hroom, bind_eq_of_error hagain⟩
    · obtain ⟨hoffset, hroom, hagain⟩ := (hnext index).fails hfails
      have hfound := (hfirst.again hpool₁).2 pool' ((hnext index).kept hfails)
      exact ⟨hoffset, hroom, (bind_eq_of_ok hfound).trans hagain⟩

theorem failsAgain_internEntry (entry : PoolEntry) : FailsAgain (internEntry entry) where
  toRecalls := recalls_internEntry entry
  fails := by
    intro pool pool' e h
    have hrun := h
    unfold internEntry at hrun
    split at hrun
    · cases hrun
    · split at hrun
      · cases hrun
      · rename_i hroom
        cases hrun
        exact ⟨rfl, Nat.lt_of_not_le hroom, h⟩

theorem Request.failsAgain_work (request : Request) : FailsAgain request.work :=
  request.work_induction failsAgain_internEntry .bind

/-- An entry that other entries refer to. -/
inductive Part where
  | text (content : String)
  | classOf (type : RefType)
  | member (name descriptor : String)

namespace Part

def work : Part → Interning UInt16
  | text content => internUtf8 content
  | classOf type => internClass type
  | member name descriptor => internNameAndType name descriptor

/-- The entry at an index is that of the part, and so are those that it refers to. -/
def StandsAt (index : UInt16) (pool : ConstantPool) : Part → Prop
  | text content => pool.get? index = some (.utf8 content)
  | classOf type => ∃ name, pool.get? index = some (.classRef name) ∧
      pool.get? name = some (.utf8 type.className)
  | member name descriptor => ∃ first second, pool.get? index = some (.nameAndType first second) ∧
      pool.get? first = some (.utf8 name) ∧ pool.get? second = some (.utf8 descriptor)

/-- The parts that a part refers to. -/
def below : Part → List Part
  | text _ => []
  | classOf type => [text type.className]
  | member name descriptor => [text name, text descriptor]

/-- A part and those that it refers to. -/
def all (part : Part) : List Part := part.below ++ [part]

end Part

/-- The parts that a constant refers to, directly or through others. -/
def partsOf : Constant → List Part
  | .string text => [.text text]
  | .classRef type => (Part.classOf type).below
  | .field field =>
    (Part.classOf (.object field.owner)).all ++ (Part.member field.name.text field.type.text).all
  | .method method =>
    (Part.classOf method.owner).all ++ (Part.member method.name.text method.descriptor.text).all
  | _ => []

theorem Part.StandsAt.kept {part : Part} (h : part.StandsAt index pool) (hext : pool.Extends pool') :
    part.StandsAt index pool' := by
  cases part with
  | text content => exact hext _ _ h
  | classOf type =>
      obtain ⟨name, hget, hname⟩ := h
      exact ⟨name, hext _ _ hget, hext _ _ hname⟩
  | member name descriptor =>
      obtain ⟨first, second, hget, hfirst, hsecond⟩ := h
      exact ⟨first, second, hext _ _ hget, hext _ _ hfirst, hext _ _ hsecond⟩

/-- A part that stands in a pool is found. -/
theorem Part.StandsAt.work_eq {part : Part} (h : part.StandsAt index pool) :
    part.work pool = .ok index pool := by
  cases part with
  | text content => exact internEntry_of_get? h
  | classOf type =>
      obtain ⟨name, hget, hname⟩ := h
      exact (bind_eq_of_ok (internEntry_of_get? hname)).trans (internEntry_of_get? hget)
  | member name descriptor =>
      obtain ⟨first, second, hget, hfirst, hsecond⟩ := h
      exact (bind_eq_of_ok (internEntry_of_get? hfirst)).trans
        ((bind_eq_of_ok (internEntry_of_get? hsecond)).trans (internEntry_of_get? hget))

/-! ### What is left behind -/

/-- All entries of a pool are kept, and those that are new are some parts. -/
structure AddsParts (added : List Part) (pool pool' : ConstantPool) : Prop where
  kept : pool.Extends pool'
  new : ∀ {index : UInt16} {entry : PoolEntry}, pool'.get? index = some entry →
    pool.get? index = some entry ∨ ∃ part ∈ added, part.StandsAt index pool'

namespace AddsParts

variable {added others : List Part}

theorem refl (pool : ConstantPool) : pool.AddsParts [] pool := ⟨.refl pool, .inl⟩

theorem mono (h : pool.AddsParts added pool') (hsub : added ⊆ others) :
    pool.AddsParts others pool' where
  kept := h.kept
  new := by
    intro index entry hget
    rcases h.new hget with hold | ⟨part, hmem, hstands⟩
    · exact .inl hold
    · exact .inr ⟨part, hsub hmem, hstands⟩

theorem trans {pool'' : ConstantPool} (h : pool.AddsParts added pool')
    (h' : pool'.AddsParts others pool'') : pool.AddsParts (added ++ others) pool'' where
  kept := h.kept.trans h'.kept
  new := by
    intro index entry hget
    rcases h'.new hget with hold | ⟨part, hmem, hstands⟩
    · rcases h.new hold with hfirst | ⟨part, hmem, hstands⟩
      · exact .inl hfirst
      · exact .inr ⟨part, List.mem_append_left _ hmem, hstands.kept h'.kept⟩
    · exact .inr ⟨part, List.mem_append_right _ hmem, hstands⟩

end AddsParts

/-- A request for an entry adds none but this one. -/
theorem get?_of_internEntry {entry other : PoolEntry} {found : UInt16}
    (h : internEntry entry pool = .ok index pool') (hget : pool'.get? found = some other) :
    pool.get? found = some other ∨ found = index := by
  unfold internEntry at h
  split at h
  · cases h
    exact .inl hget
  · split at h
    · rename_i hroom
      cases h
      change (pool.entries.push entry).get? found.toNat = some other at hget
      rw [SlotVec.get?_push] at hget
      split at hget
      · rename_i heq
        refine .inr (UInt16.toNat_inj.mp ?_)
        have hpos := entry.width_pos
        rw [UInt16.toNat_ofNat_of_lt' (by omega : pool.next < 0x10000), ← heq]
        rfl
      · exact .inl hget
    · cases h

theorem addsParts_of_internEntry {entry : PoolEntry} {part : Part}
    (h : internEntry entry pool = .ok index pool') (hstands : part.StandsAt index pool') :
    pool.AddsParts [part] pool' where
  kept := (internEntry_spec h).1
  new := by
    intro found other hget
    rcases get?_of_internEntry h hget with hold | rfl
    · exact .inl hold
    · exact .inr ⟨part, List.mem_singleton_self part, hstands⟩

theorem Part.addsParts_of_ok {part : Part} (h : part.work pool = .ok index pool') :
    part.StandsAt index pool' ∧ pool.AddsParts part.all pool' := by
  have htext : ∀ {content : String} {pool pool' : ConstantPool} {index : UInt16},
      internUtf8 content pool = .ok index pool' →
      pool'.get? index = some (.utf8 content) ∧ pool.AddsParts [.text content] pool' := by
    intro content pool pool' index h
    have hget := (internEntry_spec h).2
    exact ⟨hget, addsParts_of_internEntry h hget⟩
  cases part with
  | text content => exact htext h
  | classOf type =>
      obtain ⟨name, pool₁, hname, hentry⟩ := exists_of_bind_eq_result h
      obtain ⟨hext, hget⟩ := internEntry_spec hentry
      obtain ⟨hutf8, hadds⟩ := htext hname
      have hstands : (Part.classOf type).StandsAt index pool' := ⟨name, hget, hext _ _ hutf8⟩
      exact ⟨hstands, hadds.trans (addsParts_of_internEntry hentry hstands)⟩
  | member name descriptor =>
      obtain ⟨first, pool₁, hfirst, h⟩ := exists_of_bind_eq_result h
      obtain ⟨second, pool₂, hsecond, hentry⟩ := exists_of_bind_eq_result h
      obtain ⟨hext, hget⟩ := internEntry_spec hentry
      obtain ⟨hname, hadds⟩ := htext hfirst
      obtain ⟨hdescriptor, hadds'⟩ := htext hsecond
      have hstands : (Part.member name descriptor).StandsAt index pool' :=
        ⟨first, second, hget, hext _ _ (hadds'.kept _ _ hname), hext _ _ hdescriptor⟩
      exact ⟨hstands, (hadds.trans hadds').trans (addsParts_of_internEntry hentry hstands)⟩

theorem addsParts_of_internEntry_eq_error {entry : PoolEntry}
    (h : internEntry entry pool = .error e pool') : pool.AddsParts [] pool' := by
  unfold internEntry at h
  split at h
  · cases h
  · split at h <;> cases h
    exact .refl pool

/-- Two steps that fail have added the part that the first asks for, or some of what it refers to, and
what the second left behind. -/
theorem Part.addsParts_of_bind (part : Part) {next : UInt16 → Interning UInt16} {others : List Part}
    (hpart : ∀ {pool pool' : ConstantPool} {e : PoolOverflow}, part.work pool = .error e pool' →
      pool.AddsParts part.below pool')
    (hnext : ∀ {index : UInt16} {pool pool' : ConstantPool} {e : PoolOverflow},
      next index pool = .error e pool' → pool.AddsParts others pool')
    (h : (part.work >>= next) pool = .error e pool') : pool.AddsParts (part.all ++ others) pool' := by
  rcases cases_of_bind_eq_error h with hfails | ⟨index, pool₁, hpool₁, hfails⟩
  · exact (hpart hfails).mono fun p hp => List.mem_append_left _ (List.mem_append_left _ hp)
  · exact (addsParts_of_ok hpool₁).2.trans (hnext hfails)

theorem Part.addsParts_of_error {part : Part} (h : part.work pool = .error e pool') :
    pool.AddsParts part.below pool' := by
  have htext : ∀ {content : String} {pool pool' : ConstantPool} {e : PoolOverflow},
      (text content).work pool = .error e pool' → pool.AddsParts [] pool' :=
    addsParts_of_internEntry_eq_error
  cases part with
  | text content => exact htext h
  | classOf type =>
      exact (text type.className).addsParts_of_bind htext addsParts_of_internEntry_eq_error h
  | member name descriptor =>
      refine (text name).addsParts_of_bind htext (fun hrest => ?_) h
      exact (text descriptor).addsParts_of_bind htext addsParts_of_internEntry_eq_error hrest

theorem addsParts_of_member (owner : RefType) (name descriptor : String)
    {entry : UInt16 → UInt16 → PoolEntry}
    (h : (do
      let owner ← internClass owner
      let member ← internNameAndType name descriptor
      internEntry (entry owner member)) pool = EStateM.Result.error e pool') :
    pool.AddsParts ((Part.classOf owner).all ++ (Part.member name descriptor).all) pool' := by
  refine (Part.classOf owner).addsParts_of_bind Part.addsParts_of_error (fun hrest => ?_) h
  have hmember := (Part.member name descriptor).addsParts_of_bind Part.addsParts_of_error
    addsParts_of_internEntry_eq_error hrest
  rw [List.append_nil] at hmember
  exact hmember

/-- A constant that fails leaves parts of it behind and nothing else. -/
theorem addsParts_of_intern {constant : Constant} (h : intern constant pool = .error e pool') :
    pool.AddsParts (partsOf constant) pool' := by
  cases constant with
  | integer value | float bits | long value | double bits =>
      exact addsParts_of_internEntry_eq_error h
  | string text =>
      exact (Part.text text).addsParts_of_bind Part.addsParts_of_error
        addsParts_of_internEntry_eq_error h
  | classRef type =>
      have hpart : (Part.classOf type).work pool = .error e pool' := h
      exact Part.addsParts_of_error hpart
  | field field => exact addsParts_of_member (.object field.owner) _ _ h
  | method method => exact addsParts_of_member method.owner _ _ h

/-- What a constant leaves behind that a pool has no room for. -/
structure Overflowed (constant : Constant) (e : PoolOverflow) (pool pool' : ConstantPool) : Prop where
  kept : pool.Extends pool'
  /-- What was added is a part of the constant, and is found by later requests. -/
  added : ∀ {index : UInt16} {entry : PoolEntry}, pool'.get? index = some entry →
    pool.get? index = none → ∃ part ∈ partsOf constant, part.StandsAt index pool' ∧
      ∀ later, pool'.Extends later → part.work later = .ok index later
  offset_eq : e.offset = pool'.next
  no_room : 0x10000 < e.offset + width e.entry
  /-- The constant fails in the same way again, and then adds nothing. -/
  again : intern constant pool' = .error e pool'
  /-- What had an index is found there. -/
  found : ∀ {request : Request} {index : UInt16}, pool.meaning? index = some request.meaning →
    request.work pool' = .ok index pool'

/-- **A full pool stays consistent.** A constant that cannot be interned leaves all entries of the pool
in their places and adds none but parts of it. The error names the next index and an entry that does
not fit there, it comes again when the constant is interned again, and whatever had an index is still
given it. -/
theorem overflowed_of_intern {constant : Constant} (h : intern constant pool = .error e pool') :
    Overflowed constant e pool pool' := by
  have hadds := addsParts_of_intern h
  obtain ⟨hoffset, hroom, hagain⟩ := (Request.constant constant).failsAgain_work.fails h
  refine ⟨hadds.kept, ?_, hoffset, hroom, hagain, fun hmeaning => ?_⟩
  · intro index entry hget hnone
    rcases hadds.new hget with hold | ⟨part, hmem, hstands⟩
    · rw [hnone] at hold
      cases hold
    · exact ⟨part, hmem, hstands, fun later hlater => (hstands.kept hlater).work_eq⟩
  · exact work_of_meaning? (meaning?_kept hadds.kept hmeaning)

theorem internEntry_eq_error_of_not_mem {n : Nat} (hnext : pool.next = n) (entry : PoolEntry)
    (h : entry ∉ pool.entries.toList) (hroom : 0x10000 < n + width entry) :
    internEntry entry pool = .error ⟨entry, n⟩ pool := by
  subst hnext
  exact (internEntry_of_none (indices_eq_none_of_not_mem h)).trans (dif_neg (Nat.not_le_of_lt hroom))

/-- A field of type `int`. -/
def countField : FieldRef := ⟨.javaObject, ⟨"count", by decide⟩, .int⟩

/-- Where three indices are left, the field finds room for its class and its name, but not for its
descriptor. -/
theorem overflowed_of_intern_countField :
    ∃ pool', intern (.field countField) (serve (integers 0xFFFC) empty).2 =
        .error ⟨.utf8 "I", 0x10000⟩ pool' ∧
      pool'.get? 0xFFFF = some (.utf8 "count") ∧
      Overflowed (.field countField) ⟨.utf8 "I", 0x10000⟩ (serve (integers 0xFFFC) empty).2 pool' := by
  have hlist := toList_serve_integers (by decide : 0xFFFC ≤ 0xFFFF)
  generalize (serve (integers 0xFFFC) empty).2 = pool at hlist ⊢
  have hnext : pool.next = 0xFFFD := next_of_integers hlist
  obtain ⟨pool₁, howner, hlist₁, hnext₁⟩ := exists_internEntry_of_not_mem hnext
    (.utf8 "java/lang/Object") (by simp [hlist]) (by decide)
  obtain ⟨pool₂, hclass, hlist₂, hnext₂⟩ := exists_internEntry_of_not_mem hnext₁
    (.classRef 0xFFFD) (by simp [hlist₁, hlist]) (by decide)
  obtain ⟨pool₃, hname, hlist₃, hnext₃⟩ := exists_internEntry_of_not_mem hnext₂
    (.utf8 "count") (by simp [hlist₂, hlist₁, hlist]) (by decide)
  have hfails := internEntry_eq_error_of_not_mem hnext₃
    (.utf8 "I") (by simp [hlist₃, hlist₂, hlist₁, hlist]) (by decide)
  have hmember : internNameAndType "count" "I" pool₂ = .error ⟨.utf8 "I", 0x10000⟩ pool₃ :=
    (bind_eq_of_ok hname).trans (bind_eq_of_error hfails)
  have hintern : intern (.field countField) pool = .error ⟨.utf8 "I", 0x10000⟩ pool₃ :=
    (bind_eq_of_ok ((bind_eq_of_ok howner).trans hclass)).trans (bind_eq_of_error hmember)
  exact ⟨pool₃, hintern, (internEntry_spec hname).2, overflowed_of_intern hintern⟩

end ConstantPool

end JvmAssembler
