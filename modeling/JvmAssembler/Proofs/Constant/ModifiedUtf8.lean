import JvmAssembler.Constant.ModifiedUtf8
import JvmAssembler.Proofs.Instruction.Read

/-! Bytes are read as 16-bit units, and units as characters, where two surrogates make one
character. The reader is strict: each unit has to stand in its shortest form, apart from the null
character, and a surrogate has to be one of a pair. So bytes are read as a text exactly if they are
its encoding. -/

namespace JvmAssembler.ModifiedUtf8

/-- The bytes of a 16-bit unit. -/
def unitBytes (n : Nat) : List UInt8 :=
  if n = 0 then twoBytes n
  else if n < 0x80 then [UInt8.ofNat n]
  else if n < 0x800 then twoBytes n
  else threeBytes n

/-- What a byte adds to the unit that it continues. -/
def continuation? (byte : UInt8) : Option Nat :=
  if 0x80 ≤ byte.toNat ∧ byte.toNat < 0xC0 then some (byte.toNat - 0x80) else none

def readUnit : ByteReader Nat
  | [] => none
  | a :: rest =>
    if 0 < a.toNat ∧ a.toNat < 0x80 then some (a.toNat, rest)
    else if 0xC0 ≤ a.toNat ∧ a.toNat < 0xE0 then
      match rest with
      | [] => none
      | b :: rest =>
        match continuation? b with
        | none => none
        | some y =>
          let n := (a.toNat - 0xC0) * 64 + y
          if n = 0 ∨ 0x80 ≤ n then some (n, rest) else none
    else if 0xE0 ≤ a.toNat ∧ a.toNat < 0xF0 then
      match rest with
      | b :: c :: rest =>
        match continuation? b, continuation? c with
        | some y, some z =>
          let n := (a.toNat - 0xE0) * 4096 + y * 64 + z
          if 0x800 ≤ n then some (n, rest) else none
        | _, _ => none
      | _ => none
    else none

theorem toNat_byte {n : Nat} (h : n < 256) : (UInt8.ofNat n).toNat = n :=
  UInt8.toNat_ofNat_of_lt' h

theorem continuation?_byte {y : Nat} (h : y < 64) :
    continuation? (UInt8.ofNat (0x80 + y)) = some y := by
  rw [continuation?, toNat_byte (by omega), if_pos (by omega), Nat.add_sub_cancel_left]

theorem continuation?_eq_some {byte : UInt8} {y : Nat} (h : continuation? byte = some y) :
    y < 64 ∧ byte = UInt8.ofNat (0x80 + y) := by
  unfold continuation? at h
  split at h
  · rw [Option.some.injEq] at h
    subst h
    refine ⟨by omega, ?_⟩
    rw [Nat.add_sub_cancel' (by omega), UInt8.ofNat_toNat]
  · cases h

theorem readUnit_twoBytes {n : Nat} (h : n = 0 ∨ 0x80 ≤ n) (hlt : n < 0x800)
    (rest : List UInt8) : readUnit (twoBytes n ++ rest) = some (n, rest) := by
  have hfirst : (UInt8.ofNat (0xC0 + n / 64)).toNat = 0xC0 + n / 64 := toNat_byte (by omega)
  have hvalue : (0xC0 + n / 64 - 0xC0) * 64 + n % 64 = n := by omega
  simp only [twoBytes, List.cons_append, List.nil_append, readUnit, hfirst]
  rw [if_neg (by omega), if_pos (by omega)]
  simp only [continuation?_byte (Nat.mod_lt n (by decide : 0 < 64)), hvalue, if_pos h]

theorem readUnit_threeBytes {n : Nat} (h : 0x800 ≤ n) (hlt : n < 0x10000) (rest : List UInt8) :
    readUnit (threeBytes n ++ rest) = some (n, rest) := by
  have hfirst : (UInt8.ofNat (0xE0 + n / 4096)).toNat = 0xE0 + n / 4096 := toNat_byte (by omega)
  have hvalue : (0xE0 + n / 4096 - 0xE0) * 4096 + n / 64 % 64 * 64 + n % 64 = n := by omega
  simp only [threeBytes, List.cons_append, List.nil_append, readUnit, hfirst]
  rw [if_neg (by omega), if_neg (by omega), if_pos (by omega)]
  simp only [continuation?_byte (Nat.mod_lt _ (by decide : 0 < 64)), hvalue, if_pos h]

/-- A unit is read off its bytes. -/
theorem readUnit_unitBytes {n : Nat} (h : n < 0x10000) (rest : List UInt8) :
    readUnit (unitBytes n ++ rest) = some (n, rest) := by
  unfold unitBytes
  split
  · exact readUnit_twoBytes (by omega) (by omega) rest
  · split
    · have hbyte := toNat_byte (by omega : n < 256)
      simp only [List.cons_append, List.nil_append, readUnit, hbyte]
      rw [if_pos (by omega)]
    · split
      · exact readUnit_twoBytes (by omega) (by omega) rest
      · exact readUnit_threeBytes (by omega) h rest

theorem twoBytes_eq {a : UInt8} {y : Nat} (ha : 0xC0 ≤ a.toNat) (hy : y < 64) :
    twoBytes ((a.toNat - 0xC0) * 64 + y) = [a, UInt8.ofNat (0x80 + y)] := by
  have hfirst : 0xC0 + ((a.toNat - 0xC0) * 64 + y) / 64 = a.toNat := by omega
  have hsecond : ((a.toNat - 0xC0) * 64 + y) % 64 = y := by omega
  rw [twoBytes, hfirst, hsecond, UInt8.ofNat_toNat]

theorem threeBytes_eq {a : UInt8} {y z : Nat} (ha : 0xE0 ≤ a.toNat) (hy : y < 64) (hz : z < 64) :
    threeBytes ((a.toNat - 0xE0) * 4096 + y * 64 + z) =
      [a, UInt8.ofNat (0x80 + y), UInt8.ofNat (0x80 + z)] := by
  have hfirst : 0xE0 + ((a.toNat - 0xE0) * 4096 + y * 64 + z) / 4096 = a.toNat := by omega
  have hsecond : ((a.toNat - 0xE0) * 4096 + y * 64 + z) / 64 % 64 = y := by omega
  have hthird : ((a.toNat - 0xE0) * 4096 + y * 64 + z) % 64 = z := by omega
  rw [threeBytes, hfirst, hsecond, hthird, UInt8.ofNat_toNat]

/-- Only the bytes of a unit are read as the unit. -/
theorem eq_of_readUnit {bytes rest : List UInt8} {n : Nat} (h : readUnit bytes = some (n, rest)) :
    n < 0x10000 ∧ bytes = unitBytes n ++ rest := by
  revert h
  fun_cases readUnit bytes with
  | case2 a tail hone =>
      rintro ⟨⟩
      refine ⟨by omega, ?_⟩
      rw [unitBytes, if_neg (by omega), if_pos hone.2, UInt8.ofNat_toNat]
      rfl
  | case5 a _ htwo b tail y hy value hvalue =>
      intro h
      simp only [Option.some.injEq, Prod.mk.injEq] at h
      obtain ⟨rfl, rfl⟩ := h
      obtain ⟨hlt, rfl⟩ := continuation?_eq_some hy
      have heq : value = (a.toNat - 0xC0) * 64 + y := rfl
      have hbytes : twoBytes value = [a, UInt8.ofNat (0x80 + y)] := by
        rw [heq]
        exact twoBytes_eq htwo.1 hlt
      refine ⟨by omega, ?_⟩
      rw [unitBytes]
      split
      · rw [hbytes]
        rfl
      · rw [if_neg (by omega), if_pos (by omega), hbytes]
        rfl
  | case7 a _ _ hthree b c tail y z hz hy value hvalue =>
      intro h
      simp only [Option.some.injEq, Prod.mk.injEq] at h
      obtain ⟨rfl, rfl⟩ := h
      obtain ⟨hlt, rfl⟩ := continuation?_eq_some hy
      obtain ⟨hlt', rfl⟩ := continuation?_eq_some hz
      have heq : value = (a.toNat - 0xE0) * 4096 + y * 64 + z := rfl
      refine ⟨by omega, ?_⟩
      rw [unitBytes, if_neg (by omega), if_neg (by omega), if_neg (by omega), heq,
        threeBytes_eq hthree.1 hlt hlt']
      rfl
  | _ => rintro ⟨⟩

/-- The surrogates of a character beyond the 16-bit range. -/
def highSurrogate (n : Nat) : Nat := 0xD800 + (n - 0x10000) / 0x400

def lowSurrogate (n : Nat) : Nat := 0xDC00 + (n - 0x10000) % 0x400

/-- The number of the character that two surrogates stand for. -/
def ofSurrogates (high low : Nat) : Nat := 0x10000 + (high - 0xD800) * 0x400 + (low - 0xDC00)

theorem unitBytes_of_ge {n : Nat} (h : 0x800 ≤ n) : unitBytes n = threeBytes n := by
  rw [unitBytes, if_neg (by omega), if_neg (by omega), if_neg (by omega)]

theorem encodeChar_eq (c : Char) : encodeChar c =
    if c.toNat < 0x10000 then unitBytes c.toNat
    else unitBytes (highSurrogate c.toNat) ++ unitBytes (lowSurrogate c.toNat) := by
  by_cases hunit : c.toNat < 0x10000
  · simp only [encodeChar, unitBytes, if_pos hunit]
  · have hhigh : 0x800 ≤ highSurrogate c.toNat := Nat.le_trans (by decide) (Nat.le_add_right _ _)
    have hlow : 0x800 ≤ lowSurrogate c.toNat := Nat.le_trans (by decide) (Nat.le_add_right _ _)
    rw [if_neg hunit, unitBytes_of_ge hhigh, unitBytes_of_ge hlow, encodeChar,
      if_neg (by omega), if_neg (by omega), if_neg (by omega), if_neg hunit]
    rfl

def readChar : ByteReader Char := fun bytes =>
  match readUnit bytes with
  | none => none
  | some (unit, rest) =>
    if unit < 0xD800 ∨ 0xE000 ≤ unit then some (Char.ofNat unit, rest)
    else if unit < 0xDC00 then
      match readUnit rest with
      | none => none
      | some (low, rest) =>
        if 0xDC00 ≤ low ∧ low < 0xE000 then some (Char.ofNat (ofSurrogates unit low), rest)
        else none
    else none

theorem ofSurrogates_of_char {n : Nat} (h : 0x10000 ≤ n) (hlt : n < 0x110000) :
    0xD800 ≤ highSurrogate n ∧ highSurrogate n < 0xDC00 ∧
      0xDC00 ≤ lowSurrogate n ∧ lowSurrogate n < 0xE000 ∧
      ofSurrogates (highSurrogate n) (lowSurrogate n) = n := by
  unfold ofSurrogates highSurrogate lowSurrogate
  omega

theorem surrogates_of_pair {high low : Nat} (hhigh : 0xD800 ≤ high) (hhigh' : high < 0xDC00)
    (hlow : 0xDC00 ≤ low) (hlow' : low < 0xE000) :
    0x10000 ≤ ofSurrogates high low ∧ ofSurrogates high low < 0x110000 ∧
      highSurrogate (ofSurrogates high low) = high ∧ lowSurrogate (ofSurrogates high low) = low := by
  unfold ofSurrogates highSurrogate lowSurrogate
  omega

theorem readChar_encodeChar (c : Char) (rest : List UInt8) :
    readChar (encodeChar c ++ rest) = some (c, rest) := by
  have hvalid : c.toNat < 0xD800 ∨ 0xDFFF < c.toNat ∧ c.toNat < 0x110000 := c.valid
  rw [encodeChar_eq]
  split
  · rename_i hunit
    have hplain : c.toNat < 0xD800 ∨ 0xE000 ≤ c.toNat := by omega
    rw [readChar, readUnit_unitBytes hunit]
    simp only [if_pos hplain, Char.ofNat_toNat]
  · obtain ⟨hge, hhigh, hge', hlow, hpair⟩ :=
      ofSurrogates_of_char (by omega : 0x10000 ≤ c.toNat) (by omega)
    rw [readChar, List.append_assoc, readUnit_unitBytes (by omega)]
    have hsurrogate : ¬(highSurrogate c.toNat < 0xD800 ∨ 0xE000 ≤ highSurrogate c.toNat) := by omega
    have hunit : lowSurrogate c.toNat < 0x10000 := by omega
    simp only [if_neg hsurrogate, if_pos hhigh, readUnit_unitBytes hunit]
    rw [if_pos ⟨hge', hlow⟩, hpair, Char.ofNat_toNat]

theorem toNat_ofNat_of_valid {n : Nat} (h : n < 0xD800 ∨ 0xDFFF < n ∧ n < 0x110000) :
    (Char.ofNat n).toNat = n := by
  unfold Char.ofNat
  rw [dif_pos h]
  rfl

theorem eq_of_readChar {bytes rest : List UInt8} {c : Char}
    (h : readChar bytes = some (c, rest)) : bytes = encodeChar c ++ rest := by
  revert h
  fun_cases readChar bytes with
  | case2 unit tail hunit hplain =>
      rintro ⟨⟩
      obtain ⟨hlt, hbytes⟩ := eq_of_readUnit hunit
      have htoNat : (Char.ofNat unit).toNat = unit := toNat_ofNat_of_valid (by omega)
      rw [encodeChar_eq, htoNat, if_pos hlt, hbytes]
  | case4 high tail hhigh hsurrogate hlt low rest hlow hpair =>
      intro h
      simp only [Option.some.injEq, Prod.mk.injEq] at h
      obtain ⟨rfl, rfl⟩ := h
      obtain ⟨_, hbytes⟩ := eq_of_readUnit hhigh
      obtain ⟨_, hbytes'⟩ := eq_of_readUnit hlow
      obtain ⟨hge, hbound, heq, heq'⟩ :=
        surrogates_of_pair (by omega : 0xD800 ≤ high) hlt hpair.1 hpair.2
      have htoNat : (Char.ofNat (ofSurrogates high low)).toNat = ofSurrogates high low :=
        toNat_ofNat_of_valid (by omega)
      rw [encodeChar_eq, htoNat, if_neg (by omega), heq, heq', hbytes, hbytes', List.append_assoc]
  | _ => rintro ⟨⟩

theorem encodeChar_ne_nil (c : Char) : encodeChar c ≠ [] := by
  intro h
  have hread := readChar_encodeChar c []
  rw [h] at hread
  cases hread

theorem length_lt_of_readChar {bytes rest : List UInt8} {c : Char}
    (h : readChar bytes = some (c, rest)) : rest.length < bytes.length := by
  have hpos := List.length_pos_iff.mpr (encodeChar_ne_nil c)
  rw [eq_of_readChar h, List.length_append]
  omega

/-- The characters that bytes spell, if they are the encoding of some. -/
def decodeChars (bytes : List UInt8) : Option (List Char) :=
  if bytes = [] then some []
  else
    match _h : readChar bytes with
    | none => none
    | some (c, rest) => (decodeChars rest).map (c :: ·)
termination_by bytes.length
decreasing_by exact length_lt_of_readChar _h

def decode (bytes : List UInt8) : Option String := (decodeChars bytes).map String.ofList

theorem decodeChars_flatMap (chars : List Char) :
    decodeChars (chars.flatMap encodeChar) = some chars := by
  induction chars with
  | nil => rw [List.flatMap_nil, decodeChars, if_pos rfl]
  | cons c chars ih =>
      have hne : encodeChar c ++ chars.flatMap encodeChar ≠ [] :=
        fun h => encodeChar_ne_nil c (List.append_eq_nil_iff.mp h).1
      rw [List.flatMap_cons, decodeChars, if_neg hne]
      split
      · rename_i hnone
        rw [readChar_encodeChar] at hnone
        cases hnone
      · rename_i c' rest hsome
        rw [readChar_encodeChar, Option.some.injEq, Prod.mk.injEq] at hsome
        obtain ⟨rfl, rfl⟩ := hsome
        rw [ih, Option.map_some]

theorem flatMap_of_decodeChars {bytes : List UInt8} {chars : List Char}
    (h : decodeChars bytes = some chars) : chars.flatMap encodeChar = bytes := by
  fun_induction decodeChars bytes generalizing chars with
  | case1 =>
      cases h
      rfl
  | case2 => cases h
  | case3 bytes hne c rest hread ih =>
      obtain ⟨tail, htail, rfl⟩ := Option.map_eq_some_iff.mp h
      rw [List.flatMap_cons, ih htail, eq_of_readChar hread]

/-- Bytes are read as a text exactly if they are its encoding. -/
theorem decode_eq_some_iff {bytes : List UInt8} {text : String} :
    decode bytes = some text ↔ encode text = bytes := by
  constructor
  · intro h
    obtain ⟨chars, hchars, rfl⟩ := Option.map_eq_some_iff.mp h
    rw [encode, String.toList_ofList, flatMap_of_decodeChars hchars]
  · intro h
    rw [decode, ← h, encode, decodeChars_flatMap, Option.map_some, String.ofList_toList]

end JvmAssembler.ModifiedUtf8
