import JvmAssembler.Listing.Operand
import JvmAssembler.Proofs.Text.Numeral

/-! An integer of 64 bits is written in base ten, or in base sixteen after `0x`, with a minus sign
in front if it is negative. The sign is taken off before the digits are read, and the digits of the
least integer stand for one more than the greatest, so this one integer is not read back. In base
ten it becomes a decimal, and in base sixteen it is no number. -/

namespace JvmAssembler

namespace Text

variable {base n : Nat} {numeral : List Char}

theorem readNat?_cons_eq_none {c : Char} (h : digit? base c = none) (rest : List Char) :
    readNat? base (c :: rest) = none := by
  rw [readNat?_eq_foldlM (by simp), List.foldlM_cons, shift?, h]
  rfl

/-- A numeral starts with no sign, so only the range is left to check. -/
theorem readInt64?_of_readNat? (h : readNat? base numeral = some n) :
    readInt64? base numeral = if n < 1 <<< 63 then some (n : Int) else none := by
  unfold readInt64?
  split
  · rw [readNat?_cons_eq_none (by simp [digit?, digitValue?])] at h
    cases h
  · rw [readNat?_cons_eq_none (by simp [digit?, digitValue?])] at h
    cases h
  · rw [h]
    by_cases hn : n < 1 <<< 63
    · rw [Option.filter_some, if_pos (decide_eq_true hn), if_pos hn]
      rfl
    · rw [Option.filter_some, if_neg (by simpa using hn), if_neg hn]
      rfl

end Text

namespace Operand

theorem readInteger?_toDigits (n : Nat) :
    readInteger? (Nat.toDigits 10 n) = if n < 1 <<< 63 then some (n : Int) else none := by
  have hread : Text.readNat? 10 (Nat.toDigits 10 n) = some n :=
    Text.readNat?_toDigits (by decide) (by decide) n
  rw [← Text.readInt64?_of_readNat? hread, readInteger?]
  rintro digits hdigits
  have hx : 'x' ∈ Nat.toDigits 10 n := by simp [hdigits]
  exact absurd (Nat.isDigit_of_mem_toDigits (by decide) (by decide) hx) (by decide)

theorem readInteger?_hexadecimal {digits : List Char} {n : Nat}
    (h : digits.map Char.toLower = Nat.toDigits 16 n) :
    readInteger? ('0' :: 'x' :: digits) = if n < 1 <<< 63 then some (n : Int) else none := by
  have hread : Text.readNat? 16 digits = some n := by
    rw [← Text.readNat?_map_toLower, h, Text.readNat?_toDigits (by decide) (by decide)]
  exact Text.readInt64?_of_readNat? hread

/-- The sign of an integer, if it is written. -/
def sign (n : Int64) : List Char := if n.toInt < 0 then ['-'] else []

/-- What an integer can be written as. -/
inductive Rendering (n : Int64) : List Char → Prop
  | decimal : Rendering n (toString n).toList
  | hexadecimal (digits : List Char)
      (spelled : digits.map Char.toLower = Nat.toDigits 16 n.toInt.natAbs) :
      Rendering n (sign n ++ '0' :: 'x' :: digits)

theorem toList_toString (n : Int64) :
    (toString n).toList = sign n ++ Nat.toDigits 10 n.toInt.natAbs := by
  have hrepr : toString n = n.toInt.repr := rfl
  rw [hrepr, Int.repr_eq_if, sign]
  by_cases hn : n.toInt < 0
  · rw [if_neg (Int.not_le.mpr hn), if_pos hn, String.toList_append, Nat.toList_repr,
      show (-n.toInt).toNat = n.toInt.natAbs by omega]
    rfl
  · rw [if_pos (Int.not_lt.mp hn), if_neg hn, Nat.toList_repr,
      show n.toInt.toNat = n.toInt.natAbs by omega]
    rfl

theorem natAbs_lt_iff (n : Int64) : n.toInt.natAbs < 1 <<< 63 ↔ n ≠ Int64.minValue := by
  have hlow := n.le_toInt
  have hhigh := n.toInt_lt
  rw [ne_eq, ← Int64.toInt_inj, Int64.toInt_minValue]
  omega

theorem startsNumber_toDigits (n : Nat) : startsNumber (Nat.toDigits 10 n) = true := by
  unfold startsNumber
  split
  · rename_i c _ hdigits
    exact Nat.isDigit_of_mem_toDigits (by decide) (by decide) (hdigits ▸ List.mem_cons_self)
  · rename_i hdigits
    exact absurd hdigits Nat.toDigits_ne_nil

/-- Digits are read without their sign, which is put back afterwards. -/
theorem readNumber?_sign_append_eq (n : Int64) {digits : List Char}
    (h : startsNumber digits = true) :
    readNumber? (sign n ++ digits) =
      (readInteger? digits).elim ((Ieee.readDouble? (sign n ++ digits)).map .decimal)
        fun k => some (.number (Int64.ofInt (if n.toInt < 0 then -k else k))) := by
  unfold sign
  by_cases hn : n.toInt < 0
  · rw [if_pos hn, List.singleton_append, readNumber?]
    cases readInteger? digits <;> simp [h, hn]
  · have hminus : ∀ rest, digits ≠ '-' :: rest := by
      rintro rest rfl
      cases h
    rw [if_neg hn, List.nil_append, readNumber?]
    · cases readInteger? digits <;> simp [h, hn]
    · exact hminus

theorem readNumber?_sign_append_iff (n : Int64) {digits : List Char}
    (hstarts : startsNumber digits = true)
    (hread : readInteger? digits =
      if n.toInt.natAbs < 1 <<< 63 then some (n.toInt.natAbs : Int) else none) :
    readNumber? (sign n ++ digits) = some (.number n) ↔ n ≠ Int64.minValue := by
  rw [readNumber?_sign_append_eq n hstarts, hread, ← natAbs_lt_iff]
  by_cases hn : n.toInt.natAbs < 1 <<< 63
  · have habs : (if n.toInt < 0 then -(n.toInt.natAbs : Int) else n.toInt.natAbs) = n.toInt := by
      omega
    simp only [hn, if_true, Option.elim_some, habs, Int64.ofInt_toInt]
  · simp only [hn, if_false, Option.elim_none, Option.map_eq_some_iff, iff_false]
    rintro ⟨bits, _, hbits⟩
    cases hbits

/-- **Integers are read back but for the least.** -/
theorem readNumber?_rendering_iff (n : Int64) (text : List Char) (h : Rendering n text) :
    readNumber? text = some (.number n) ↔ n ≠ Int64.minValue := by
  cases h with
  | decimal =>
      rw [toList_toString]
      exact readNumber?_sign_append_iff n (startsNumber_toDigits _) (readInteger?_toDigits _)
  | hexadecimal digits spelled =>
      exact readNumber?_sign_append_iff n rfl (readInteger?_hexadecimal spelled)

/-- The integer after the least is read, with letters in both cases. -/
theorem readNumber?_rendering_iff_mixedCase :
    Rendering (-9223372036854775807) "-0x7fffffffFFFFFFFF".toList ∧
      readNumber? "-0x7fffffffFFFFFFFF".toList = some (.number (-9223372036854775807)) := by
  have hrendering : Rendering (-9223372036854775807) "-0x7fffffffFFFFFFFF".toList :=
    .hexadecimal "7fffffffFFFFFFFF".toList (by decide)
  exact ⟨hrendering, (readNumber?_rendering_iff _ _ hrendering).mpr (by decide)⟩

/-- The least integer is read as a decimal in base ten, and not at all in base sixteen. -/
theorem readNumber?_minValue :
    (Rendering Int64.minValue "-9223372036854775808".toList ∧
      readNumber? "-9223372036854775808".toList = some (.decimal 0xC3E0000000000000)) ∧
    Rendering Int64.minValue "-0x8000000000000000".toList ∧
      readNumber? "-0x8000000000000000".toList = none := by
  refine ⟨⟨?_, by decide +kernel⟩, ?_, by decide +kernel⟩
  · exact .decimal
  · exact .hexadecimal "8000000000000000".toList (by decide)

end Operand

end JvmAssembler
