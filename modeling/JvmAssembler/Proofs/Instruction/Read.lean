import JvmAssembler.Bytes
import Mathlib.Data.List.Forall2
import Mathlib.Tactic.Ring

/-! Readers that take a value off the front of bytes. `Reads` says that a reader takes certain bytes
whatever follows them, so readings of parts go together. -/

namespace JvmAssembler

/-- A reader takes a value off the front of bytes and leaves the rest. -/
abbrev ByteReader := StateT (List UInt8) Option

namespace Bytes

theorem foldl_bigEndian (width n start : Nat) :
    (bigEndian width n).foldl (fun n byte => 256 * n + byte.toNat) start
      = start * 256 ^ width + n % 256 ^ width := by
  induction width generalizing start with
  | zero => simp [bigEndian, Nat.mod_one]
  | succ width ih =>
      have hshift : n >>> (8 * width) = n / 256 ^ width :=
        calc
          n >>> (8 * width) = n / 2 ^ (8 * width) := Nat.shiftRight_eq_div_pow n _
          _ = n / (2 ^ 8) ^ width := by rw [pow_mul]
          _ = n / 256 ^ width := by norm_num
      rw [bigEndian, List.foldl_cons, ih, UInt8.toNat_ofNat', hshift, pow_succ 256 width, Nat.mod_mul]
      ring

theorem toNat_bigEndian (width n : Nat) : toNat (bigEndian width n) = n % 256 ^ width := by
  rw [toNat, foldl_bigEndian, Nat.zero_mul, Nat.zero_add]

end Bytes

namespace ByteReader

variable {α β : Type}

/-- A natural number of some bytes. -/
def number (width : Nat) : ByteReader Nat := fun bytes =>
  if width ≤ bytes.length then some (Bytes.toNat (bytes.take width), bytes.drop width) else none

def uint8 : ByteReader UInt8 := UInt8.ofNat <$> number 1

def uint16 : ByteReader UInt16 := UInt16.ofNat <$> number 2

def uint32 : ByteReader UInt32 := UInt32.ofNat <$> number 4

def uint64 : ByteReader UInt64 := UInt64.ofNat <$> number 8

def int8 : ByteReader Int8 := UInt8.toInt8 <$> uint8

def int16 : ByteReader Int16 := UInt16.toInt16 <$> uint16

def int32 : ByteReader Int32 := (fun n => (UInt32.ofNat n).toInt32) <$> number 4

def int64 : ByteReader Int64 := UInt64.toInt64 <$> uint64

/-- A number of bytes as they are. -/
def take (count : Nat) : ByteReader (List UInt8) := fun bytes =>
  if count ≤ bytes.length then some (bytes.take count, bytes.drop count) else none

/-- A number of values. -/
def many (read : ByteReader α) : Nat → ByteReader (List α)
  | 0 => pure []
  | n + 1 => do
    let first ← read
    let rest ← many read n
    pure (first :: rest)

/-- The reader takes the value off bytes that start like this. -/
def Reads (read : ByteReader α) (bytes : List UInt8) (a : α) : Prop :=
  ∀ rest, read (bytes ++ rest) = some (a, rest)

namespace Reads

variable {read : ByteReader α} {bytes bytes' : List UInt8} {a : α} {b : β}

theorem pure (a : α) : Reads (Pure.pure a) [] a := fun _ => rfl

theorem bind {f : α → ByteReader β} (h : Reads read bytes a) (hf : Reads (f a) bytes' b) :
    Reads (read >>= f) (bytes ++ bytes') b := by
  intro rest
  show (read (bytes ++ bytes' ++ rest) >>= fun p => f p.1 p.2) = _
  rw [List.append_assoc, h]
  exact hf rest

theorem map (f : α → β) (h : Reads read bytes a) : Reads (f <$> read) bytes (f a) := by
  intro rest
  show (read (bytes ++ rest) >>= fun p => Pure.pure (f p.1, p.2)) = _
  rw [h]
  rfl

theorem many {values : List α} {items : List (List UInt8)}
    (h : List.Forall₂ (fun a item => Reads read item a) values items) :
    Reads (many read values.length) items.flatten values := by
  induction h with
  | nil => exact .pure []
  | @cons a item values items hfirst hrest ih =>
      rw [List.flatten_cons, ← List.append_nil items.flatten]
      exact hfirst.bind (ih.bind (.pure (a :: values)))

theorem many_map (encode : α → List UInt8) (h : ∀ a, Reads read (encode a) a) (values : List α) :
    Reads (ByteReader.many read values.length) (values.flatMap encode) values := by
  rw [List.flatMap]
  exact many (List.forall₂_map_right_iff.mpr (List.forall₂_same.mpr fun a _ => h a))

end Reads

theorem reads_number {width n : Nat} (h : n < 256 ^ width) :
    Reads (number width) (Bytes.bigEndian width n) n := by
  intro rest
  have hlength := Bytes.length_bigEndian width n
  have hle : width ≤ (Bytes.bigEndian width n ++ rest).length := by
    rw [List.length_append, hlength]
    exact Nat.le_add_right _ _
  rw [number, if_pos hle, List.take_left' hlength, List.drop_left' hlength, Bytes.toNat_bigEndian,
    Nat.mod_eq_of_lt h]

theorem reads_uint8 (n : UInt8) : Reads uint8 [n] n := by
  have h : Reads uint8 (Bytes.bigEndian 1 n.toNat) (UInt8.ofNat n.toNat) :=
    (reads_number n.toNat_lt).map UInt8.ofNat
  simpa [Bytes.bigEndian] using h

theorem reads_uint16 (n : UInt16) : Reads uint16 (Bytes.ofUInt16 n) n := by
  have h : Reads uint16 (Bytes.ofUInt16 n) (UInt16.ofNat n.toNat) :=
    (reads_number n.toNat_lt).map UInt16.ofNat
  rwa [UInt16.ofNat_toNat] at h

theorem reads_uint32 (n : UInt32) : Reads uint32 (Bytes.ofUInt32 n) n := by
  have h : Reads uint32 (Bytes.ofUInt32 n) (UInt32.ofNat n.toNat) :=
    (reads_number n.toNat_lt).map UInt32.ofNat
  rwa [UInt32.ofNat_toNat] at h

theorem reads_uint64 (n : UInt64) : Reads uint64 (Bytes.ofUInt64 n) n := by
  have h : Reads uint64 (Bytes.ofUInt64 n) (UInt64.ofNat n.toNat) :=
    (reads_number n.toNat_lt).map UInt64.ofNat
  rwa [UInt64.ofNat_toNat] at h

theorem reads_int8 (n : Int8) : Reads int8 (Bytes.ofInt8 n) n :=
  (reads_uint8 n.toUInt8).map UInt8.toInt8

theorem reads_int16 (n : Int16) : Reads int16 (Bytes.ofInt16 n) n :=
  (reads_uint16 n.toUInt16).map UInt16.toInt16

theorem reads_int32 (n : Int32) : Reads int32 (Bytes.ofInt32 n) n := by
  have h : Reads int32 (Bytes.ofInt32 n) (UInt32.ofNat n.toUInt32.toNat).toInt32 :=
    (reads_number n.toUInt32.toNat_lt).map fun n => (UInt32.ofNat n).toInt32
  rwa [UInt32.ofNat_toNat] at h

theorem reads_int64 (n : Int64) : Reads int64 (Bytes.ofInt64 n) n :=
  (reads_uint64 n.toUInt64).map UInt64.toInt64

theorem reads_take (bytes : List UInt8) : Reads (take bytes.length) bytes bytes := by
  intro rest
  have hle : bytes.length ≤ (bytes ++ rest).length := by
    rw [List.length_append]
    exact Nat.le_add_right _ _
  rw [take, if_pos hle, List.take_left, List.drop_left]

/-- Every value that is read has a property. -/
def Ensures (read : ByteReader α) (P : α → Prop) : Prop :=
  ∀ bytes a rest, read bytes = some (a, rest) → P a

namespace Ensures

variable {read : ByteReader α} {P : α → Prop} {Q : β → Prop}

theorem pure {a : α} (h : P a) : Ensures (Pure.pure a) P := by
  intro bytes b rest hb
  cases hb
  exact h

theorem failure : Ensures (failure : ByteReader α) P := by
  intro bytes b rest hb
  cases hb

theorem any : Ensures read fun _ => True := fun _ _ _ _ => trivial

theorem bind {next : α → ByteReader β} (h : Ensures read P) (hnext : ∀ a, P a → Ensures (next a) Q) :
    Ensures (read >>= next) Q := by
  intro bytes b rest hb
  obtain ⟨⟨a, rest'⟩, ha, hb⟩ := Option.bind_eq_some_iff.mp hb
  exact hnext a (h _ _ _ ha) _ _ _ hb

theorem map {f : α → β} (h : Ensures read P) (hf : ∀ a, P a → Q (f a)) : Ensures (f <$> read) Q := by
  intro bytes b rest hb
  obtain ⟨⟨a, rest'⟩, ha, hb⟩ := Option.bind_eq_some_iff.mp hb
  cases hb
  exact hf a (h _ _ _ ha)

end Ensures

/-- Reading fails where the next reader fails. -/
theorem Reads.bind_eq_none {read : ByteReader α} {next : α → ByteReader β}
    {bytes rest : List UInt8} {a : α} (h : Reads read bytes a) (hnext : next a rest = none) :
    (read >>= next) (bytes ++ rest) = none := by
  show (read (bytes ++ rest) >>= fun p => next p.1 p.2) = none
  rw [h]
  exact hnext

theorem ensures_number : Ensures (number 2) (· < 0x10000) := by
  intro bytes n rest h
  unfold number at h
  split at h
  · cases h
    match bytes with
    | a :: b :: tail =>
        have ha := a.toNat_lt
        have hb := b.toNat_lt
        simp only [List.take_succ_cons, List.take_zero, Bytes.toNat, List.foldl_cons,
          List.foldl_nil]
        omega
  · cases h

theorem ensures_take (count : Nat) : Ensures (take count) (·.length = count) := by
  intro bytes taken rest h
  unfold take at h
  split at h
  · rename_i hle
    cases h
    exact List.length_take_of_le hle
  · cases h

/-- A 16-bit count, and so many values. -/
def counted (read : ByteReader α) : ByteReader (List α) := do
  let count ← number 2
  many read count

theorem reads_counted {read : ByteReader α} {values : List α} {items : List (List UInt8)}
    (h : List.Forall₂ (fun a item => Reads read item a) values items)
    (hlength : values.length < 0x10000) :
    Reads (counted read) (Bytes.counted items) values := by
  have hcount : Bytes.ofUInt16 (UInt16.ofNat items.length) = Bytes.bigEndian 2 values.length := by
    rw [← h.length_eq, Bytes.ofUInt16, UInt16.toNat_ofNat_of_lt' hlength]
  rw [Bytes.counted, hcount]
  exact (reads_number hlength).bind (.many h)

theorem ensures_many {read : ByteReader α} {P : α → Prop} (h : Ensures read P) (count : Nat) :
    Ensures (many read count) fun values => values.length = count ∧ ∀ a ∈ values, P a := by
  induction count with
  | zero => exact .pure ⟨rfl, fun _ hmem => absurd hmem List.not_mem_nil⟩
  | succ count ih =>
      refine h.bind fun a ha => ih.bind fun values hvalues => .pure ⟨?_, ?_⟩
      · rw [List.length_cons, hvalues.1]
      · exact List.forall_mem_cons.mpr ⟨ha, hvalues.2⟩

theorem ensures_counted {read : ByteReader α} {P : α → Prop} (h : Ensures read P) :
    Ensures (counted read) fun values => values.length < 0x10000 ∧ ∀ a ∈ values, P a := by
  refine ensures_number.bind fun count hcount => ?_
  intro bytes values rest hread
  obtain ⟨hlength, hall⟩ := ensures_many h count bytes values rest hread
  exact ⟨hlength ▸ hcount, hall⟩

end ByteReader

end JvmAssembler
