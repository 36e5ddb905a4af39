import JvmAssembler.Proofs.Constant.Interning
import JvmAssembler.Proofs.Constant.ModifiedUtf8

/-! The bytes of a constant pool are a 16-bit count, one more than the largest index in use, and the
entries in the order of their indices. The count and the lengths of texts are written modulo 2^16,
so a pool is read back from its bytes exactly if the last index is free and no text is too long. -/

namespace JvmAssembler

open ByteReader

namespace PoolEntry

/-- The length of the text of an entry can be written in 16 bits. -/
def Fits : PoolEntry → Prop
  | utf8 text => (ModifiedUtf8.encode text).length < 0x10000
  | _ => True

/-- A text with its length in bytes. -/
def readText : ByteReader String := do
  let length ← number 2
  let bytes ← take length
  StateT.lift (ModifiedUtf8.decode bytes)

/-- Two indices. -/
def readPair (entry : UInt16 → UInt16 → PoolEntry) : ByteReader PoolEntry := do
  let first ← uint16
  let second ← uint16
  pure (entry first second)

/-- The entry after its tag. -/
def readBody : UInt8 → ByteReader PoolEntry
  | 1 => utf8 <$> readText
  | 3 => integer <$> int32
  | 4 => float <$> uint32
  | 5 => long <$> int64
  | 6 => double <$> uint64
  | 7 => classRef <$> uint16
  | 8 => string <$> uint16
  | 9 => readPair field
  | 10 => readPair (method · · false)
  | 11 => readPair (method · · true)
  | 12 => readPair nameAndType
  | _ => failure

def read : ByteReader PoolEntry := do
  let tag ← uint8
  readBody tag

theorem reads_text {text : String} (h : (ModifiedUtf8.encode text).length < 0x10000) :
    Reads readText (utf8 text).body text := by
  have hlift : Reads (StateT.lift (ModifiedUtf8.decode (ModifiedUtf8.encode text))) [] text := by
    intro rest
    rw [ModifiedUtf8.decode_eq_some_iff.mpr rfl]
    rfl
  have hbytes := (reads_take (ModifiedUtf8.encode text)).bind
    (f := fun bytes => StateT.lift (ModifiedUtf8.decode bytes)) hlift
  rw [List.append_nil] at hbytes
  exact (reads_number h).bind hbytes

theorem reads_pair (entry : UInt16 → UInt16 → PoolEntry) (first second : UInt16) :
    Reads (readPair entry) (Bytes.ofUInt16 first ++ Bytes.ofUInt16 second) (entry first second) := by
  rw [← List.append_nil (Bytes.ofUInt16 second)]
  exact (reads_uint16 first).bind ((reads_uint16 second).bind (.pure (entry first second)))

theorem reads_body {entry : PoolEntry} (h : entry.Fits) :
    Reads (readBody entry.tag) entry.body entry := by
  cases entry with
  | utf8 text => exact (reads_text h).map utf8
  | integer value => exact (reads_int32 value).map integer
  | float bits => exact (reads_uint32 bits).map float
  | long value => exact (reads_int64 value).map long
  | double bits => exact (reads_uint64 bits).map double
  | classRef name => exact (reads_uint16 name).map classRef
  | string index => exact (reads_uint16 index).map string
  | field owner member => exact reads_pair field owner member
  | method owner member inInterface =>
      cases inInterface with
      | false => exact reads_pair (method · · false) owner member
      | true => exact reads_pair (method · · true) owner member
  | nameAndType name descriptor => exact reads_pair nameAndType name descriptor

theorem reads_entry {entry : PoolEntry} (h : entry.Fits) : Reads read entry.bytes entry :=
  (reads_uint8 entry.tag).bind (reads_body h)

theorem ensures_text :
    Ensures readText fun text => (ModifiedUtf8.encode text).length < 0x10000 := by
  refine ensures_number.bind fun length hlength => ?_
  refine (ensures_take length).bind fun bytes hbytes => ?_
  intro _ text _ h
  obtain ⟨decoded, hdecoded, h⟩ := Option.bind_eq_some_iff.mp h
  cases h
  rw [ModifiedUtf8.decode_eq_some_iff.mp hdecoded, hbytes]
  exact hlength

theorem ensures_pair {entry : UInt16 → UInt16 → PoolEntry}
    (h : ∀ first second, (entry first second).Fits) : Ensures (readPair entry) Fits :=
  Ensures.any.bind fun first _ => Ensures.any.bind fun second _ => .pure (h first second)

/-- A text of an entry that was read is not too long. -/
theorem ensures_fits : Ensures read Fits := by
  refine Ensures.any.bind fun tag _ => ?_
  fun_cases readBody tag with
  | case1 => exact ensures_text.map fun _ h => h
  | case8 | case9 | case10 | case11 => exact ensures_pair fun _ _ => trivial
  | case12 => exact .failure
  | _ => exact Ensures.any.map fun _ _ => trivial

end PoolEntry

namespace ConstantPool

/-- Entries from an index on, up to the count. An entry of two indices is not to be the last with
only one left. -/
def readEntries (count index : Nat) : ByteReader (List (Nat × PoolEntry)) :=
  if index < count then do
    let entry ← PoolEntry.read
    let entries ← readEntries count (index + width entry)
    pure ((index, entry) :: entries)
  else if index = count then pure [] else failure
termination_by count - index
decreasing_by
  have hpos := entry.width_pos
  omega

/-- The count and the entries. -/
def readPool : ByteReader (List (Nat × PoolEntry)) := do
  let count ← number 2
  readEntries count 1

/-- The entries of a pool with their indices, from all of its bytes. -/
def read (bytes : List UInt8) : Option (List (Nat × PoolEntry)) :=
  match readPool bytes with
  | some (entries, []) => some entries
  | _ => none

theorem reads_entries {entries : List PoolEntry} (h : ∀ entry ∈ entries, entry.Fits)
    (index : Nat) : Reads (readEntries (index + totalWidth entries) index)
      (entries.flatMap PoolEntry.bytes) (SlotVec.numbered index entries) := by
  induction entries generalizing index with
  | nil =>
      rw [readEntries, totalWidth_nil, Nat.add_zero, if_neg (Nat.lt_irrefl _), if_pos rfl]
      exact .pure []
  | cons entry entries ih =>
      have hpos := entry.width_pos
      have hrest := ih (fun e he => h e (List.mem_cons_of_mem _ he)) (index + width entry)
      rw [readEntries, totalWidth_cons, if_pos (by omega), List.flatMap_cons,
        ← List.append_nil (entries.flatMap PoolEntry.bytes)]
      refine (PoolEntry.reads_entry (h entry List.mem_cons_self)).bind ?_
      rw [← Nat.add_assoc]
      exact hrest.bind (.pure _)

theorem ensures_fits_entries (count index : Nat) :
    Ensures (readEntries count index) fun entries => ∀ numbered ∈ entries, numbered.2.Fits := by
  fun_induction readEntries count index with
  | case1 index hlt ih =>
      refine .bind PoolEntry.ensures_fits fun entry hfits => ?_
      refine .bind (ih entry) fun entries hentries => .pure ?_
      intro numbered hmem
      rcases List.mem_cons.mp hmem with rfl | hmem
      · exact hfits
      · exact hentries numbered hmem
  | case2 hlt => exact .pure fun _ hmem => absurd hmem List.not_mem_nil
  | case3 index hlt hne => exact .failure

/-- Entries that fit, with a count that can be written, are read back. -/
theorem read_of_fits {pool : ConstantPool} (hcount : pool.next < 0x10000)
    (hfits : ∀ entry ∈ pool.entries.toList, entry.Fits) :
    read pool.bytes = some pool.entries.placed := by
  have hnext : pool.next = 1 + totalWidth pool.entries.toList :=
    pool.start_eq ▸ pool.entries.next_eq_toList
  have hnumber : Reads (number 2) (Bytes.bigEndian 2 pool.next) pool.next := reads_number hcount
  have hentries := reads_entries hfits 1
  rw [← hnext] at hentries
  have hpool : Reads readPool pool.bytes (SlotVec.numbered 1 pool.entries.toList) :=
    hnumber.bind hentries
  have hbytes := hpool []
  rw [List.append_nil] at hbytes
  rw [read, hbytes, SlotVec.placed_eq_numbered, pool.start_eq]

/-- The count of a pool that uses the last index is read as zero. -/
theorem read_of_full {pool : ConstantPool} (h : pool.next = 0x10000) : read pool.bytes = none := by
  have hzero : Bytes.bigEndian 2 0x10000 = Bytes.bigEndian 2 0 := by decide
  have hnumber : Reads (number 2) (Bytes.bigEndian 2 0) 0 := reads_number (by decide)
  have hentries : ∀ rest, readEntries 0 1 rest = none := by
    intro rest
    rw [readEntries, if_neg (by decide), if_neg (by decide)]
    rfl
  have hpool : readPool pool.bytes = none := by
    rw [bytes, h, hzero]
    exact hnumber.bind_eq_none (hentries _)
  rw [read, hpool]

/-- Only entries that fit are read, and only up to a count that can be written. -/
theorem fits_of_read {pool : ConstantPool} (h : read pool.bytes = some pool.entries.placed) :
    pool.next < 0x10000 ∧ ∀ entry ∈ pool.entries.toList, entry.Fits := by
  constructor
  · refine Nat.lt_of_le_of_ne pool.next_le fun hfull => ?_
    rw [read_of_full hfull] at h
    cases h
  · intro entry hentry
    unfold read at h
    split at h
    · rename_i entries hread
      cases h
      have hensures : Ensures readPool fun entries => ∀ numbered ∈ entries, numbered.2.Fits :=
        Ensures.any.bind fun count _ => ensures_fits_entries count 1
      rw [SlotVec.placed_eq_numbered] at hread
      obtain ⟨p, hp, rfl⟩ := SlotVec.exists_mem_numbered hentry pool.entries.start
      exact hensures _ _ _ hread p hp
    · cases h

theorem indices_eq_none_of_not_mem {pool : ConstantPool} {entry : PoolEntry}
    (h : entry ∉ pool.entries.toList) : pool.indices[entry]? = none := by
  cases hfound : pool.indices[entry]? with
  | none => rfl
  | some index => exact absurd (SlotVec.mem_toList_of_get? ((pool.indices_iff _ _).mp hfound)) h

/-- An entry that the pool does not hold is added at the end if there is room. -/
theorem exists_internEntry_of_not_mem {pool : ConstantPool} {n : Nat} (hnext : pool.next = n)
    (entry : PoolEntry) (h : entry ∉ pool.entries.toList) (hroom : n + width entry ≤ 0x10000) :
    ∃ pool', internEntry entry pool = .ok (UInt16.ofNat n) pool' ∧
      pool'.entries.toList = pool.entries.toList ++ [entry] ∧ pool'.next = n + width entry := by
  subst hnext
  exact ⟨_, (internEntry_of_none (indices_eq_none_of_not_mem h)).trans (dif_pos hroom),
    SlotVec.toList_push pool.entries entry, rfl⟩

theorem toList_serve_text (text : String) :
    (serve [.text text] empty).2.entries.toList = [.utf8 text] := by
  have hnext : empty.next = 1 := rfl
  have hroom : 1 + width (PoolEntry.utf8 text) ≤ 0x10000 := by
    show 1 + 1 ≤ 0x10000
    decide
  obtain ⟨pool', hwork, hlist, -⟩ :=
    exists_internEntry_of_not_mem hnext (.utf8 text) List.not_mem_nil hroom
  have hwork : (Request.text text).work empty = .ok _ pool' := hwork
  rw [serve, hwork]
  exact hlist

theorem length_encode_replicate (n : Nat) :
    (ModifiedUtf8.encode (String.ofList (List.replicate n 'a'))).length = n := by
  rw [ModifiedUtf8.encode, String.toList_ofList]
  induction n with
  | zero => rfl
  | succ n ih =>
      rw [List.replicate_succ, List.flatMap_cons, List.length_append, ih, Nat.add_comm]
      rfl

/-- Requests for the integers below a bound. -/
def integers (n : Nat) : List Request := (List.range n).map fun i => .constant (.integer (.ofNat i))

theorem next_of_integers {pool : ConstantPool} {n : Nat}
    (h : pool.entries.toList = (List.range n).map fun i => .integer (.ofNat i)) :
    pool.next = 1 + n := by
  have hwidth : ∀ numbers : List Nat,
      totalWidth (numbers.map fun i => PoolEntry.integer (.ofNat i)) = numbers.length := by
    intro numbers
    induction numbers with
    | nil => rfl
    | cons i numbers ih =>
        rw [List.map_cons, totalWidth_cons, ih, List.length_cons, Nat.add_comm]
        rfl
  rw [next, SlotVec.next_eq_toList, pool.start_eq, h, hwidth, List.length_range]

/-- The pool has room for 65535 integers. -/
theorem toList_serve_integers {n : Nat} (h : n ≤ 0xFFFF) :
    (serve (integers n) empty).2.entries.toList =
      (List.range n).map fun i => .integer (.ofNat i) := by
  induction n with
  | zero => rfl
  | succ n ih =>
      have hbefore := ih (by omega)
      have hserved : integers (n + 1) = integers n ++ [.constant (.integer (.ofNat n))] := by
        rw [integers, List.range_succ, List.map_append]
        rfl
      rw [hserved, serve_append]
      generalize (serve (integers n) empty).2 = pool at hbefore
      have hnew : PoolEntry.integer (.ofNat n) ∉ pool.entries.toList := by
        intro hmem
        rw [hbefore] at hmem
        obtain ⟨i, hi, heq⟩ := List.mem_map.mp hmem
        have hlt : i < n := List.mem_range.mp hi
        have hvalue := congrArg Int32.toInt (PoolEntry.integer.inj heq)
        rw [Int32.toInt_ofNat_of_lt (by omega), Int32.toInt_ofNat_of_lt (by omega)] at hvalue
        omega
      have hroom : 1 + n + width (PoolEntry.integer (.ofNat n)) ≤ 0x10000 := by
        show 1 + n + 1 ≤ 0x10000
        omega
      obtain ⟨pool', hwork, hlist, -⟩ :=
        exists_internEntry_of_not_mem (next_of_integers hbefore) _ hnew hroom
      have hwork : (Request.constant (.integer (.ofNat n))).work pool = .ok _ pool' := hwork
      rw [serve, hwork, List.range_succ, List.map_append, ← hbefore]
      exact hlist

/-- **When a pool is read back.** The bytes of a pool give its entries at their indices, and nothing
is left over, exactly if the last index 65535 is not used and the encoding of each text is shorter
than 65536 bytes. -/
theorem read_bytes_iff (pool : ConstantPool) :
    read pool.bytes = some pool.entries.placed ↔
      pool.next < 0x10000 ∧ ∀ entry ∈ pool.entries.toList, entry.Fits :=
  ⟨fits_of_read, fun h => read_of_fits h.1 h.2⟩

/-- A text of 65536 letters and a pool of 65535 integers are taken without an error, and cannot be
read back. -/
theorem read_bytes_ne_placed :
    (read (serve [.text (String.ofList (List.replicate 0x10000 'a'))] empty).2.bytes ≠
      some (serve [.text (String.ofList (List.replicate 0x10000 'a'))] empty).2.entries.placed) ∧
    read (serve (integers 0xFFFF) empty).2.bytes ≠
      some (serve (integers 0xFFFF) empty).2.entries.placed := by
  constructor
  · intro h
    have hfits := (fits_of_read h).2 (.utf8 (String.ofList (List.replicate 0x10000 'a')))
    rw [toList_serve_text] at hfits
    have hlength := hfits (List.mem_singleton_self _)
    rw [PoolEntry.Fits, length_encode_replicate] at hlength
    exact Nat.lt_irrefl _ hlength
  · have hnext : (serve (integers 0xFFFF) empty).2.next = 0x10000 :=
      next_of_integers (toList_serve_integers (Nat.le_refl _))
    rw [read_of_full hnext]
    exact fun h => Option.some_ne_none _ h.symm

end ConstantPool

end JvmAssembler
