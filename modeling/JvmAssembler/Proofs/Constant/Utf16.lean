import JvmAssembler.Proofs.Constant.ModifiedUtf8

/-! A class file holds a text as its UTF-16 units, each in a form of one, two or three bytes.
Reading the units back and joining the surrogates gives the text, so nothing is lost. The bytes are
also those that the format cuts from the bits of each code point, in all planes. -/

namespace JvmAssembler.ModifiedUtf8

/-- The UTF-16 units of a character. -/
def utf16 (c : Char) : List Nat :=
  if c.toNat < 0x10000 then [c.toNat] else [highSurrogate c.toNat, lowSurrogate c.toNat]

theorem encodeChar_eq_flatMap (c : Char) : encodeChar c = (utf16 c).flatMap unitBytes := by
  rw [encodeChar_eq, utf16]
  split <;> simp

theorem lt_of_mem_utf16 {c : Char} {unit : Nat} (h : unit ∈ utf16 c) : unit < 0x10000 := by
  have hvalid : c.toNat < 0xD800 ∨ 0xDFFF < c.toNat ∧ c.toNat < 0x110000 := c.valid
  unfold utf16 at h
  split at h
  · rw [List.mem_singleton.mp h]
    assumption
  · obtain ⟨_, hhigh, _, hlow, _⟩ := ofSurrogates_of_char (by omega : 0x10000 ≤ c.toNat) (by omega)
    rcases List.mem_cons.mp h with rfl | h
    · omega
    · rw [List.mem_singleton.mp h]
      omega

theorem encode_eq_flatMap (text : String) :
    encode text = (text.toList.flatMap utf16).flatMap unitBytes := by
  rw [encode, List.flatMap_assoc]
  exact List.flatMap_congr fun c _ => encodeChar_eq_flatMap c

theorem unitBytes_ne_nil (unit : Nat) : unitBytes unit ≠ [] := by
  unfold unitBytes twoBytes threeBytes
  split_ifs <;> simp

theorem length_lt_of_readUnit {bytes rest : List UInt8} {unit : Nat}
    (h : readUnit bytes = some (unit, rest)) : rest.length < bytes.length := by
  have hpos := List.length_pos_iff.mpr (unitBytes_ne_nil unit)
  rw [(eq_of_readUnit h).2, List.length_append]
  omega

/-- The units that bytes spell. -/
def readUnits (bytes : List UInt8) : Option (List Nat) :=
  if bytes = [] then some []
  else
    match _h : readUnit bytes with
    | none => none
    | some (unit, rest) => (readUnits rest).map (unit :: ·)
termination_by bytes.length
decreasing_by exact length_lt_of_readUnit _h

/-- The characters that units stand for. A surrogate stands for one together with the next unit. -/
def joinSurrogates : List Nat → Option (List Char)
  | [] => some []
  | unit :: rest =>
    if unit < 0xD800 ∨ 0xE000 ≤ unit then (joinSurrogates rest).map (Char.ofNat unit :: ·)
    else
      match rest with
      | [] => none
      | low :: rest =>
        if unit < 0xDC00 ∧ 0xDC00 ≤ low ∧ low < 0xE000 then
          (joinSurrogates rest).map (Char.ofNat (ofSurrogates unit low) :: ·)
        else none

theorem readUnits_flatMap {units : List Nat} (h : ∀ unit ∈ units, unit < 0x10000) :
    readUnits (units.flatMap unitBytes) = some units := by
  induction units with
  | nil => rw [List.flatMap_nil, readUnits, if_pos rfl]
  | cons unit units ih =>
      rw [List.forall_mem_cons] at h
      have hne : unitBytes unit ++ units.flatMap unitBytes ≠ [] :=
        fun heq => unitBytes_ne_nil unit (List.append_eq_nil_iff.mp heq).1
      have hread := readUnit_unitBytes h.1 (units.flatMap unitBytes)
      rw [List.flatMap_cons, readUnits, if_neg hne]
      split
      · rename_i hnone
        rw [hread] at hnone
        cases hnone
      · rename_i found rest hsome
        rw [hread, Option.some.injEq, Prod.mk.injEq] at hsome
        obtain ⟨rfl, rfl⟩ := hsome
        rw [ih h.2, Option.map_some]

theorem joinSurrogates_utf16 (c : Char) (rest : List Nat) :
    joinSurrogates (utf16 c ++ rest) = (joinSurrogates rest).map (c :: ·) := by
  have hvalid : c.toNat < 0xD800 ∨ 0xDFFF < c.toNat ∧ c.toNat < 0x110000 := c.valid
  unfold utf16
  split
  · rw [List.singleton_append, joinSurrogates.eq_def]
    dsimp only
    rw [if_pos (by omega), Char.ofNat_toNat]
  · obtain ⟨_, hhigh, hge, hlow, hpair⟩ :=
      ofSurrogates_of_char (by omega : 0x10000 ≤ c.toNat) (by omega)
    simp only [List.cons_append, List.nil_append]
    rw [joinSurrogates, if_neg (by omega), if_pos ⟨hhigh, hge, hlow⟩, hpair, Char.ofNat_toNat]

theorem joinSurrogates_flatMap (chars : List Char) :
    joinSurrogates (chars.flatMap utf16) = some chars := by
  induction chars with
  | nil => rfl
  | cons c chars ih => rw [List.flatMap_cons, joinSurrogates_utf16, ih, Option.map_some]

/-- No byte of a unit is null or begins a form of four bytes. -/
theorem byte_of_mem_unitBytes {unit : Nat} (h : unit < 0x10000) {byte : UInt8}
    (hmem : byte ∈ unitBytes unit) : byte ≠ 0 ∧ byte < 0xF0 := by
  have hbyte : ∀ {n : Nat}, 0 < n → n < 0xF0 → UInt8.ofNat n ≠ 0 ∧ UInt8.ofNat n < 0xF0 := by
    intro n hpos hlt
    have htoNat : (UInt8.ofNat n).toNat = n := toNat_byte (by omega)
    constructor
    · intro heq
      rw [heq] at htoNat
      exact absurd htoNat (Nat.ne_of_lt hpos)
    · rw [UInt8.lt_iff_toNat_lt, htoNat]
      exact hlt
  unfold unitBytes twoBytes threeBytes at hmem
  split_ifs at hmem <;> simp only [List.mem_cons, List.not_mem_nil, or_false] at hmem
  · rcases hmem with rfl | rfl <;> exact hbyte (by omega) (by omega)
  · subst hmem
    exact hbyte (by omega) (by omega)
  · rcases hmem with rfl | rfl <;> exact hbyte (by omega) (by omega)
  · rcases hmem with rfl | rfl | rfl <;> exact hbyte (by omega) (by omega)

/-- Bits of a code point, below the bits that mark the form of the byte. -/
def cut (code shift mask : UInt32) (mark : UInt8) : UInt8 := (code >>> shift &&& mask).toUInt8 ||| mark

/-- The plane of a supplementary code point, counted from 1, in four bits: plane 16 has wrapped to 0
before it is taken down by one. -/
def cutPlane (code : UInt32) : UInt8 := ((code >>> 16 &&& 0x0F).toUInt8 - 1) &&& 0x0F ||| 0xA0

/-- The bytes of a code point, cut from its bits. In the last byte but one of a supplementary code
point, the mask has a bit more than the field, which the mark has too. -/
def cutBytes (code : UInt32) : List UInt8 :=
  if code = 0 ∨ 0x80 ≤ code ∧ code < 0x800 then [cut code 6 0x1F 0xC0, cut code 0 0x3F 0x80]
  else if code < 0x80 then [code.toUInt8]
  else if code < 0x10000 then [cut code 12 0x0F 0xE0, cut code 6 0x3F 0x80, cut code 0 0x3F 0x80]
  else
    [0xED, cutPlane code, cut code 10 0x3F 0x80, 0xED, cut code 6 0x1F 0xB0, cut code 0 0x3F 0x80]

/-- Bits that do not meet the mark are a remainder that is added to it. -/
theorem cut_eq_add {code shift mask : UInt32} {mark : UInt8} {size : Nat}
    (hmask : ∀ n, n &&& mask.toNat = n % size)
    (hmark : ∀ x < size, x ||| mark.toNat = mark.toNat + x) (hpos : 0 < size) :
    cut code shift mask mark =
      UInt8.ofNat (mark.toNat + code.toNat >>> (shift.toNat % 32) % size) := by
  have hlt := Nat.mod_lt (code.toNat >>> (shift.toNat % 32)) hpos
  rw [← hmark _ hlt, ← hmask, UInt8.ofNat_or, UInt8.ofNat_toNat, cut]
  rfl

/-- Six bits after a shift, in a byte that continues another. -/
theorem cut_continuation (code shift : UInt32) :
    cut code shift 0x3F 0x80 = UInt8.ofNat (0x80 + code.toNat >>> (shift.toNat % 32) % 64) :=
  cut_eq_add (fun n => Nat.and_two_pow_sub_one_eq_mod n 6) (by decide) (by decide)

theorem twoBytes_eq_cut {code : UInt32} (h : code.toNat < 0x800) :
    twoBytes code.toNat = [cut code 6 0x1F 0xC0, cut code 0 0x3F 0x80] := by
  have hfirst : cut code 6 0x1F 0xC0 = UInt8.ofNat (0xC0 + code.toNat >>> 6 % 32) :=
    cut_eq_add (fun n => Nat.and_two_pow_sub_one_eq_mod n 5) (by decide) (by decide)
  have hshift : code.toNat >>> 6 % 32 = code.toNat / 64 := by
    rw [Nat.shiftRight_eq_div_pow]
    omega
  rw [hfirst, hshift, cut_continuation]
  rfl

theorem threeBytes_eq_cut {code : UInt32} (h : code.toNat < 0x10000) :
    threeBytes code.toNat = [cut code 12 0x0F 0xE0, cut code 6 0x3F 0x80, cut code 0 0x3F 0x80] := by
  have hfirst : cut code 12 0x0F 0xE0 = UInt8.ofNat (0xE0 + code.toNat >>> 12 % 16) :=
    cut_eq_add (fun n => Nat.and_two_pow_sub_one_eq_mod n 4) (by decide) (by decide)
  have hshift : code.toNat >>> 12 % 16 = code.toNat / 4096 := by
    rw [Nat.shiftRight_eq_div_pow]
    omega
  have hshift' : code.toNat >>> 6 = code.toNat / 64 := Nat.shiftRight_eq_div_pow _ 6
  rw [hfirst, hshift, cut_continuation, cut_continuation, threeBytes, ← hshift']
  rfl

theorem cutPlane_eq (code : UInt32) :
    cutPlane code = UInt8.ofNat (0xA0 + (code.toNat >>> 16 + 15) % 16) := by
  have hwrap : ∀ x < 16,
      (UInt8.ofNat x - 1) &&& 0x0F ||| 0xA0 = UInt8.ofNat (0xA0 + (x + 15) % 16) := by
    decide
  have hmask : code.toNat >>> 16 &&& 0x0F = code.toNat >>> 16 % 16 :=
    Nat.and_two_pow_sub_one_eq_mod _ 4
  have hfield : (code >>> 16 &&& 0x0F).toUInt8 = UInt8.ofNat (code.toNat >>> 16 % 16) := by
    rw [← hmask]
    rfl
  have hmod : (code.toNat >>> 16 % 16 + 15) % 16 = (code.toNat >>> 16 + 15) % 16 := by omega
  rw [cutPlane, hfield, hwrap _ (Nat.mod_lt _ (by decide)), hmod]

/-- The wider mask makes no difference. -/
theorem cut_wide_mask (code : UInt32) :
    cut code 6 0x1F 0xB0 = UInt8.ofNat (0xB0 + code.toNat >>> 6 % 16) := by
  have hor : ∀ x < 32, x ||| 0xB0 = 0xB0 + x % 16 := by decide
  have hlt : code.toNat >>> 6 % 32 < 32 := Nat.mod_lt _ (by decide)
  have hmask : code.toNat >>> 6 &&& 0x1F = code.toNat >>> 6 % 32 :=
    Nat.and_two_pow_sub_one_eq_mod _ 5
  have hmod : code.toNat >>> 6 % 32 % 16 = code.toNat >>> 6 % 16 := by omega
  rw [← hmod, ← hor _ hlt, ← hmask, UInt8.ofNat_or, cut]
  rfl

theorem surrogates_eq_cut {code : UInt32} (h : 0x10000 ≤ code.toNat) (hlt : code.toNat < 0x110000) :
    threeBytes (highSurrogate code.toNat) ++ threeBytes (lowSurrogate code.toNat) =
      [0xED, cutPlane code, cut code 10 0x3F 0x80, 0xED, cut code 6 0x1F 0xB0,
        cut code 0 0x3F 0x80] := by
  have hsix : code.toNat >>> 6 = code.toNat / 64 := Nat.shiftRight_eq_div_pow _ 6
  have hten : code.toNat >>> 10 = code.toNat / 0x400 := Nat.shiftRight_eq_div_pow _ 10
  have hsixteen : code.toNat >>> 16 = code.toNat / 0x10000 := Nat.shiftRight_eq_div_pow _ 16
  have hcontinuation : cut code 10 0x3F 0x80 = UInt8.ofNat (0x80 + code.toNat >>> 10 % 64) :=
    cut_continuation code 10
  have hlast : cut code 0 0x3F 0x80 = UInt8.ofNat (0x80 + code.toNat % 64) :=
    cut_continuation code 0
  have hmark : (0xED : UInt8) = UInt8.ofNat 0xED := rfl
  rw [cutPlane_eq, cut_wide_mask, hcontinuation, hlast, hmark, hsix, hten, hsixteen]
  simp only [threeBytes, highSurrogate, lowSurrogate, List.cons_append, List.nil_append,
    List.cons.injEq, and_true]
  refine ⟨?_, ?_, ?_, ?_, ?_, ?_⟩ <;> exact congrArg UInt8.ofNat (by omega)

/-- The bytes of a character are those that are cut from its code point. -/
theorem encodeChar_eq_cutBytes (c : Char) : encodeChar c = cutBytes c.val := by
  have hvalid : c.toNat < 0xD800 ∨ 0xDFFF < c.toNat ∧ c.toNat < 0x110000 := c.valid
  have hval : c.val.toNat = c.toNat := rfl
  have hzero : c.val = 0 ↔ c.toNat = 0 := by
    rw [← hval, ← UInt32.toNat_inj]
    rfl
  unfold cutBytes
  simp only [UInt32.le_iff_toNat_le, UInt32.lt_iff_toNat_lt, UInt32.reduceToNat, hzero, hval]
  by_cases hone : c.toNat ≠ 0 ∧ c.toNat < 0x80
  · rw [if_neg (by omega), if_pos hone.2, encodeChar, if_neg hone.1, if_pos hone.2]
    rfl
  · by_cases htwo : c.toNat < 0x800
    · have hcut : twoBytes c.toNat = _ := twoBytes_eq_cut (hval ▸ htwo)
      rw [if_pos (by omega), encodeChar]
      by_cases hnull : c.toNat = 0
      · rw [if_pos hnull, hcut]
      · rw [if_neg hnull, if_neg (by omega), if_pos htwo, hcut]
    · rw [if_neg (by omega), if_neg (by omega), encodeChar, if_neg (by omega), if_neg (by omega),
        if_neg htwo]
      by_cases hthree : c.toNat < 0x10000
      · rw [if_pos hthree, if_pos hthree]
        exact threeBytes_eq_cut hthree
      · rw [if_neg hthree, if_neg hthree]
        exact surrogates_eq_cut (Nat.le_of_not_lt hthree) (by omega)

theorem encode_append (text other : String) : encode (text ++ other) = encode text ++ encode other := by
  rw [encode, String.toList_append, List.flatMap_append]
  rfl

/-- **Modified UTF-8 is lossless.** The bytes of a text are those that are cut from its code points.
Read as units with surrogates joined, they give the text back. None of them is null or above the
first byte of a form of three, and texts that are joined have their bytes joined. -/
theorem encode_lossless (text : String) :
    ((readUnits (encode text)).bind joinSurrogates).map String.ofList = some text ∧
      (∀ byte ∈ encode text, byte ≠ 0 ∧ byte < 0xF0) ∧
      (∀ other, encode (text ++ other) = encode text ++ encode other) ∧
      encode text = text.toList.flatMap fun c => cutBytes c.val := by
  have hunits : ∀ unit ∈ text.toList.flatMap utf16, unit < 0x10000 := by
    intro unit hunit
    obtain ⟨c, _, hc⟩ := List.mem_flatMap.mp hunit
    exact lt_of_mem_utf16 hc
  refine ⟨?_, fun byte hbyte => ?_, encode_append text, ?_⟩
  · rw [encode_eq_flatMap, readUnits_flatMap hunits, Option.bind_some, joinSurrogates_flatMap,
      Option.map_some, String.ofList_toList]
  · rw [encode_eq_flatMap] at hbyte
    obtain ⟨unit, hunit, hmem⟩ := List.mem_flatMap.mp hbyte
    exact byte_of_mem_unitBytes (hunits unit hunit) hmem
  · exact List.flatMap_congr fun c _ => encodeChar_eq_cutBytes c

end JvmAssembler.ModifiedUtf8
