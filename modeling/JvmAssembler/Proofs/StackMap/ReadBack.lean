import JvmAssembler.Proofs.Instruction.Read
import JvmAssembler.Proofs.Success
import JvmAssembler.StackMap.Encode

/-! The bytes of a stack map are a 16-bit count and the entries. The tag of an entry tells its form,
and for some forms also its distance or a number of locals. A full entry lists locals and stack
after 16-bit counts. All counts are written modulo 2^16, so a stack map is read back exactly if none
of its lists is too long. -/

namespace JvmAssembler

open ByteReader

namespace ResolvedType

/-- The type after its tag. -/
def readBody : UInt8 → ByteReader ResolvedType
  | 0 => pure .top
  | 1 => pure (.numeric .int)
  | 2 => pure (.numeric .float)
  | 3 => pure (.numeric .double)
  | 4 => pure (.numeric .long)
  | 5 => pure .null
  | 6 => pure .uninitializedThis
  | 7 => .object <$> uint16
  | 8 => .uninitialized <$> uint16
  | _ => failure

def read : ByteReader ResolvedType := do
  let tag ← uint8
  readBody tag

theorem reads_type (type : ResolvedType) : Reads read (bytes type) type := by
  cases type with
  | top => exact (reads_uint8 0).bind (.pure _)
  | numeric kind => cases kind <;> exact (reads_uint8 _).bind (.pure _)
  | null => exact (reads_uint8 5).bind (.pure _)
  | uninitializedThis => exact (reads_uint8 6).bind (.pure _)
  | object index => exact (reads_uint8 7).bind ((reads_uint16 index).map _)
  | uninitialized offset => exact (reads_uint8 8).bind ((reads_uint16 offset).map _)

theorem reads_types {types : List ResolvedType} (h : types.length < 0x10000) :
    Reads (counted read) (Bytes.counted (types.map bytes)) types :=
  reads_counted (List.forall₂_map_right_iff.mpr (List.forall₂_same.mpr fun type _ => reads_type type))
    h

end ResolvedType

namespace MapEntry

/-- The lengths of the lists of a full entry can be written in 16 bits. -/
def Fits {τ : Type} : MapEntry τ → Prop
  | full _ locals stack => locals.length < 0x10000 ∧ stack.length < 0x10000
  | _ => True

/-- The numbers that the tag of an entry tells are the ones that there are tags for. -/
def HasTag {τ : Type} : MapEntry τ → Prop
  | chop _ count => 1 ≤ count ∧ count ≤ 3
  | append _ locals => 1 ≤ locals.length ∧ locals.length ≤ 3
  | _ => True

theorem hasTag_between {τ : Type} [DecidableEq τ] (delta : UInt16) (previous locals stack : List τ) :
    (between delta previous locals stack).HasTag := by
  unfold between
  split
  · split
    · rename_i hchop
      split
      · trivial
      · have hle := (List.isPrefixOf_iff_prefix.mp hchop.1).length_le
        exact ⟨by omega, by omega⟩
    · split
      · rename_i hnot happend
        have hbegins : previous <+: locals := List.isPrefixOf_iff_prefix.mp happend.1
        have hne : locals.length ≠ previous.length := by
          intro hlength
          obtain rfl := hbegins.eq_of_length hlength.symm
          exact hnot ⟨List.isPrefixOf_iff_prefix.mpr List.prefix_rfl, by omega⟩
        have hle := hbegins.length_le
        show 1 ≤ (locals.drop previous.length).length ∧ (locals.drop previous.length).length ≤ 3
        rw [List.length_drop]
        omega
      · trivial
  · split <;> trivial
  · trivial

/-- The entry after a tag from 247 on and a distance. -/
def readAfterDelta (tag : UInt8) (delta : UInt16) : ByteReader (MapEntry ResolvedType) :=
  if tag = 247 then oneStack delta <$> ResolvedType.read
  else if tag < 251 then pure (chop delta (251 - tag.toNat))
  else if tag = 251 then pure (same delta)
  else if tag < 255 then append delta <$> many ResolvedType.read (tag.toNat - 251)
  else do
    let locals ← counted ResolvedType.read
    let stack ← counted ResolvedType.read
    pure (full delta locals stack)

/-- The entry after its tag. -/
def readBody (tag : UInt8) : ByteReader (MapEntry ResolvedType) :=
  if tag < 64 then pure (same tag.toUInt16)
  else if tag < 128 then oneStack (tag - 64).toUInt16 <$> ResolvedType.read
  else if tag < 247 then failure
  else do
    let delta ← uint16
    readAfterDelta tag delta

def read : ByteReader (MapEntry ResolvedType) := do
  let tag ← uint8
  readBody tag

variable {entry : MapEntry ResolvedType} {bytes : List UInt8}

theorem reads_after_delta (tag : UInt8) (htag : 247 ≤ tag) (delta : UInt16)
    (h : Reads (readAfterDelta tag delta) bytes entry) :
    Reads read (tag :: Bytes.ofUInt16 delta ++ bytes) entry := by
  have hbody : Reads (readBody tag) (Bytes.ofUInt16 delta ++ bytes) entry := by
    rw [readBody, if_neg, if_neg, if_neg]
    · exact (reads_uint16 delta).bind h
    all_goals
      rw [UInt8.not_lt]
      exact UInt8.le_trans (by decide) htag
  exact (reads_uint8 tag).bind hbody

/-- A distance below 64 is found in the tag. -/
theorem toNat_toUInt8 {delta : UInt16} (h : delta ≤ 63) :
    delta.toUInt8.toNat = delta.toNat ∧ delta.toNat ≤ 63 := by
  have hle : delta.toNat ≤ 63 := UInt16.le_iff_toNat_le.mp h
  rw [UInt16.toNat_toUInt8]
  omega

theorem toUInt16_toUInt8 {delta : UInt16} (h : delta ≤ 63) : delta.toUInt8.toUInt16 = delta := by
  apply UInt16.toNat_inj.mp
  rw [UInt8.toNat_toUInt16, (toNat_toUInt8 h).1]

theorem reads_same (delta : UInt16) (h : (same delta).encode = .ok bytes) :
    Reads read bytes (same delta) := by
  cases h
  split
  · rename_i hdelta
    obtain ⟨htag, hle⟩ := toNat_toUInt8 hdelta
    have hbody : Reads (readBody delta.toUInt8) [] (same delta) := by
      rw [readBody, if_pos (UInt8.lt_iff_toNat_lt.mpr (htag ▸ Nat.lt_succ_of_le hle)),
        toUInt16_toUInt8 hdelta]
      exact .pure _
    exact (reads_uint8 _).bind hbody
  · have h := reads_after_delta 251 (by decide) delta (.pure (same delta))
    rwa [List.append_nil] at h

theorem reads_oneStack (delta : UInt16) (stack : ResolvedType)
    (h : (oneStack delta stack).encode = .ok bytes) : Reads read bytes (oneStack delta stack) := by
  cases h
  split
  · rename_i hdelta
    obtain ⟨htag, hle⟩ := toNat_toUInt8 hdelta
    have hsum : (delta.toUInt8 + 64).toNat = delta.toNat + 64 := by
      rw [UInt8.toNat_add, htag]
      show (delta.toNat + 64) % 256 = delta.toNat + 64
      omega
    have hge : ¬ delta.toUInt8 + 64 < 64 := by
      rw [UInt8.lt_iff_toNat_lt, hsum]
      exact Nat.not_lt.mpr (Nat.le_add_left 64 _)
    have hlt : delta.toUInt8 + 64 < 128 := by
      rw [UInt8.lt_iff_toNat_lt, hsum]
      exact Nat.lt_succ_of_le (Nat.add_le_add_right hle 64)
    have hbody : Reads (readBody (delta.toUInt8 + 64)) (ResolvedType.bytes stack)
        (oneStack delta stack) := by
      rw [readBody, if_neg hge, if_pos hlt, UInt8.add_sub_cancel, toUInt16_toUInt8 hdelta]
      exact (ResolvedType.reads_type stack).map _
    exact (reads_uint8 _).bind hbody
  · exact reads_after_delta 247 (by decide) delta
      ((ResolvedType.reads_type stack).map (oneStack delta))

theorem reads_chop (delta : UInt16) (count : Nat) (h : (chop delta count).encode = .ok bytes) :
    Reads read bytes (chop delta count) := by
  rw [encode] at h
  split at h
  · rename_i hcount
    cases h
    rw [← List.append_nil (_ :: _)]
    obtain rfl | rfl | rfl : count = 1 ∨ count = 2 ∨ count = 3 := by omega
    · exact reads_after_delta 250 (by decide) delta (.pure _)
    · exact reads_after_delta 249 (by decide) delta (.pure _)
    · exact reads_after_delta 248 (by decide) delta (.pure _)
  · cases h

theorem reads_append (delta : UInt16) (locals : List ResolvedType)
    (h : (append delta locals).encode = .ok bytes) : Reads read bytes (append delta locals) := by
  have htypes := (Reads.many_map ResolvedType.bytes ResolvedType.reads_type locals).map
    (append delta)
  simp only [encode] at h
  split at h
  · rename_i hcount
    cases h
    obtain hlength | hlength | hlength :
        locals.length = 1 ∨ locals.length = 2 ∨ locals.length = 3 := by omega
    all_goals
      rw [hlength] at htypes ⊢
    · exact reads_after_delta 252 (by decide) delta htypes
    · exact reads_after_delta 253 (by decide) delta htypes
    · exact reads_after_delta 254 (by decide) delta htypes
  · cases h

theorem reads_full (delta : UInt16) {locals stack : List ResolvedType}
    (hlocals : locals.length < 0x10000) (hstack : stack.length < 0x10000)
    (h : (full delta locals stack).encode = .ok bytes) :
    Reads read bytes (full delta locals stack) := by
  cases h
  have hlists : Reads (readAfterDelta 255 delta)
      (Bytes.counted (locals.map ResolvedType.bytes) ++
        (Bytes.counted (stack.map ResolvedType.bytes) ++ [])) (full delta locals stack) :=
    (ResolvedType.reads_types hlocals).bind ((ResolvedType.reads_types hstack).bind (.pure _))
  rw [List.append_nil] at hlists
  rw [List.append_assoc]
  exact reads_after_delta 255 (by decide) delta hlists

theorem reads_entry (h : entry.encode = .ok bytes) (hfits : entry.Fits) :
    Reads read bytes entry := by
  cases entry with
  | same delta => exact reads_same delta h
  | oneStack delta stack => exact reads_oneStack delta stack h
  | chop delta count => exact reads_chop delta count h
  | append delta locals => exact reads_append delta locals h
  | full delta locals stack => exact reads_full delta hfits.1 hfits.2 h

theorem ensures_fits_after_delta (tag : UInt8) (delta : UInt16) :
    Ensures (readAfterDelta tag delta) Fits := by
  have htypes : Ensures (counted ResolvedType.read) fun types => types.length < 0x10000 := by
    intro bytes types rest h
    exact (ensures_counted .any bytes types rest h).1
  unfold readAfterDelta
  split
  · exact Ensures.any.map fun _ _ => trivial
  · split
    · exact .pure trivial
    · split
      · exact .pure trivial
      · split
        · exact Ensures.any.map fun _ _ => trivial
        · exact htypes.bind fun _ hlocals => htypes.bind fun _ hstack => .pure ⟨hlocals, hstack⟩

/-- The lists of an entry that was read are not too long. -/
theorem ensures_fits : Ensures read Fits := by
  refine Ensures.any.bind fun tag _ => ?_
  unfold readBody
  split
  · exact .pure trivial
  · split
    · exact Ensures.any.map fun _ _ => trivial
    · split
      · exact .failure
      · exact Ensures.any.bind fun delta _ => ensures_fits_after_delta tag delta

theorem exists_encode (h : entry.HasTag) : ∃ bytes, entry.encode = .ok bytes := by
  cases entry with
  | same delta => exact ⟨_, rfl⟩
  | oneStack delta stack => exact ⟨_, rfl⟩
  | chop delta count => exact ⟨_, if_pos h⟩
  | append delta locals => exact ⟨_, if_pos h⟩
  | full delta locals stack => exact ⟨_, rfl⟩

end MapEntry

namespace StackMap

/-- The entries of a stack map, from all of its bytes. -/
def read (bytes : List UInt8) : Option (List (MapEntry ResolvedType)) :=
  match counted MapEntry.read bytes with
  | some (entries, []) => some entries
  | _ => none

variable {stackMap : List (MapEntry ResolvedType)} {items : List (List UInt8)}

/-- A stack map is read back from its bytes exactly if its length and those of its lists can be
written. -/
theorem read_counted_iff (h : stackMap.mapM MapEntry.encode = .ok items) :
    read (Bytes.counted items) = some stackMap ↔
      stackMap.length < 0x10000 ∧ ∀ entry ∈ stackMap, entry.Fits := by
  constructor
  · intro hread
    unfold read at hread
    split at hread
    · rename_i entries hcounted
      cases hread
      exact ensures_counted MapEntry.ensures_fits _ _ _ hcounted
    · cases hread
  · rintro ⟨hlength, hfits⟩
    have hreads : List.Forall₂ (fun entry item => Reads MapEntry.read item entry) stackMap items := by
      have hencoded := forall₂_of_mapM_eq_ok h
      rw [List.forall₂_iff_zip] at hencoded ⊢
      refine ⟨hencoded.1, fun hmem => ?_⟩
      exact MapEntry.reads_entry (hencoded.2 hmem) (hfits _ (List.of_mem_zip hmem).1)
    have hbytes := reads_counted hreads hlength []
    rw [List.append_nil] at hbytes
    rw [read, hbytes]

end StackMap

end JvmAssembler
