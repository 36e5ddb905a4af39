import JvmAssembler.Text.Numeral
import Mathlib.Data.List.Induction

/-! Reading the numeral of a number gives the number, in every base up to sixteen and with letters
in either case. The other way round, a numeral of a number with one digit is that digit, with
nothing in front but zeros, and a plus sign where one may stand. -/

namespace JvmAssembler.Text

/-- Digits by code points. -/
theorem digitValue?_eq (c : Char) :
    digitValue? c =
      if 48 ≤ c.toNat ∧ c.toNat ≤ 57 then some (c.toNat - 48)
      else if 97 ≤ c.toNat ∧ c.toNat ≤ 102 then some (c.toNat - 87)
      else if 65 ≤ c.toNat ∧ c.toNat ≤ 70 then some (c.toNat - 55)
      else none := by
  simp only [digitValue?, Char.le_def, UInt32.le_iff_toNat_le]
  rfl

theorem toNat_toLower (c : Char) :
    c.toLower.toNat = if 65 ≤ c.toNat ∧ c.toNat ≤ 90 then c.toNat + 32 else c.toNat := by
  unfold Char.toLower
  split
  · rename_i h
    have hupper : 65 ≤ c.toNat ∧ c.toNat ≤ 90 := h
    have hle : c.val.toNat ≤ 90 := hupper.2
    have hdistance : ('a'.val - 'A'.val).toNat = 32 := rfl
    have hsum : (c.val + ('a'.val - 'A'.val)).toNat = c.val.toNat + 32 := by
      rw [UInt32.toNat_add, hdistance, Nat.mod_eq_of_lt (by omega)]
    rw [if_pos hupper]
    exact hsum
  · rename_i h
    have hupper : ¬(65 ≤ c.toNat ∧ c.toNat ≤ 90) := h
    rw [if_neg hupper]

/-- A letter counts the same in either case. -/
theorem digitValue?_toLower (c : Char) : digitValue? c.toLower = digitValue? c := by
  rw [digitValue?_eq, digitValue?_eq, toNat_toLower]
  by_cases hupper : 65 ≤ c.toNat ∧ c.toNat ≤ 90
  · rw [if_pos hupper]
    by_cases hdigit : c.toNat ≤ 70
    · rw [if_neg (by omega), if_pos (by omega), if_neg (by omega), if_neg (by omega),
        if_pos ⟨hupper.1, hdigit⟩]
      rfl
    · rw [if_neg (by omega), if_neg (by omega), if_neg (by omega), if_neg (by omega),
        if_neg (by omega), if_neg (by omega)]
  · rw [if_neg hupper]

theorem digitValue?_digitChar : ∀ {d : Nat}, d < 16 → digitValue? d.digitChar = some d := by
  decide

theorem digit?_digitChar {base d : Nat} (hbase : base ≤ 16) (hd : d < base) :
    digit? base d.digitChar = some d := by
  rw [digit?, digitValue?_digitChar (Nat.lt_of_lt_of_le hd hbase)]
  simp [hd]

theorem eq_digitChar_of_digit? {c : Char} {d : Nat} (h : digit? 10 c = some d) :
    d < 10 ∧ c = d.digitChar := by
  obtain ⟨hvalue, hlt⟩ := Option.filter_eq_some_iff.mp h
  have hten : d < 10 := by simpa using hlt
  refine ⟨hten, Char.toNat_inj.mp ?_⟩
  rw [Nat.toNat_digitChar_of_lt_ten hten]
  rw [digitValue?_eq] at hvalue
  grind

variable {base n : Nat} {numeral : List Char}

/-- The number that goes on with a digit. -/
def shift? (base n : Nat) (c : Char) : Option Nat := (digit? base c).map (n * base + ·)

theorem readNat?_eq_foldlM (h : numeral ≠ []) :
    readNat? base numeral = numeral.foldlM (shift? base) 0 := by
  rw [readNat?, if_neg (by simpa using h), continueNat?_eq_foldlM, Nat.zero_mul]
  rfl

theorem readNat?_singleton (base : Nat) (c : Char) : readNat? base [c] = digit? base c := by
  rw [readNat?_eq_foldlM (by simp)]
  cases h : digit? base c <;> simp [shift?, h]

theorem readNat?_concat (h : numeral ≠ []) (c : Char) :
    readNat? base (numeral ++ [c]) = (readNat? base numeral).bind fun n => shift? base n c := by
  rw [readNat?_eq_foldlM (by simp), readNat?_eq_foldlM h, List.foldlM_append]
  simp [bind, pure]

theorem readNat?_toDigits (h : 1 < base) (hbase : base ≤ 16) (n : Nat) :
    readNat? base (Nat.toDigits base n) = some n := by
  induction n using Nat.strongRecOn with
  | _ n ih =>
      by_cases hn : n < base
      · rw [Nat.toDigits_of_lt_base hn, readNat?_singleton, digit?_digitChar hbase hn]
      · have hle := Nat.le_of_not_lt hn
        have hdiv : n / base < n := Nat.div_lt_self (by omega) h
        have hmod : n % base < base := Nat.mod_lt n (by omega)
        rw [Nat.toDigits_of_base_le h hle, readNat?_concat Nat.toDigits_ne_nil, ih _ hdiv,
          Option.bind_some, shift?, digit?_digitChar hbase hmod]
        simp [Nat.div_add_mod']

theorem readNat?_map_toLower (base : Nat) (numeral : List Char) :
    readNat? base (numeral.map Char.toLower) = readNat? base numeral := by
  cases numeral with
  | nil => rfl
  | cons c numeral =>
      rw [readNat?_eq_foldlM (by simp), readNat?_eq_foldlM (by simp), List.foldlM_map]
      simp only [shift?, digit?, digitValue?_toLower]
      rfl

/-- A number below ten has one numeral but for zeros in front. -/
theorem readNat?_eq_some_iff_of_lt (hn : n < 10) :
    readNat? 10 numeral = some n ↔
      ∃ zeros, numeral = List.replicate zeros '0' ++ [n.digitChar] := by
  constructor
  · intro h
    induction numeral using List.reverseRecOn generalizing n with
    | nil => cases h
    | append_singleton before c ih =>
        by_cases hbefore : before = []
        · subst hbefore
          rw [List.nil_append, readNat?_singleton] at h
          exact ⟨0, by rw [(eq_digitChar_of_digit? h).2]; rfl⟩
        · rw [readNat?_concat hbefore] at h
          obtain ⟨k, hk, h⟩ := Option.bind_eq_some_iff.mp h
          obtain ⟨d, hd, rfl⟩ := Option.map_eq_some_iff.mp h
          obtain rfl : k = 0 := by omega
          obtain ⟨zeros, rfl⟩ := ih (by omega) hk
          refine ⟨zeros + 1, ?_⟩
          rw [(eq_digitChar_of_digit? hd).2, List.replicate_succ']
          simp [Nat.digitChar]
  · rintro ⟨zeros, rfl⟩
    have hdigit := digit?_digitChar (by decide) hn
    induction zeros with
    | zero => rw [List.replicate_zero, List.nil_append, readNat?_singleton, hdigit]
    | succ zeros ih =>
        rw [readNat?_eq_foldlM (by simp)] at ih ⊢
        rw [List.replicate_succ, List.cons_append, List.foldlM_cons]
        exact ih

/-- What may stand in front of a numeral and does not change it: zeros, and a plus sign before them. -/
def IsPadding (chars : List Char) : Prop :=
  ∃ zeros, chars = List.replicate zeros '0' ∨ chars = '+' :: List.replicate zeros '0'

theorem readBelow?_eq_some_iff_of_lt {bound : Nat} (hn : n < 10) (hbound : n < bound) :
    readBelow? bound numeral = some n ↔
      ∃ padding, IsPadding padding ∧ numeral = padding ++ [n.digitChar] := by
  have hread : ∀ digits, (readNat? 10 digits).filter (· < bound) = some n ↔
      ∃ zeros, digits = List.replicate zeros '0' ++ [n.digitChar] := by
    intro digits
    rw [Option.filter_eq_some_iff, readNat?_eq_some_iff_of_lt hn]
    simp [hbound]
  unfold readBelow?
  split
  · rename_i rest
    rw [hread]
    constructor
    · rintro ⟨zeros, rfl⟩
      exact ⟨_, ⟨zeros, .inr rfl⟩, rfl⟩
    · rintro ⟨_, ⟨zeros, rfl | rfl⟩, h⟩
      · cases zeros with
        | zero =>
            have hplus : '+' = n.digitChar := (List.cons.inj h).1
            exact absurd hplus.symm (Nat.digitChar_ne '+' rfl)
        | succ zeros => cases h
      · exact ⟨zeros, List.tail_eq_of_cons_eq h⟩
  · rename_i hplus
    rw [hread]
    constructor
    · rintro ⟨zeros, rfl⟩
      exact ⟨_, ⟨zeros, .inl rfl⟩, rfl⟩
    · rintro ⟨_, ⟨zeros, rfl | rfl⟩, h⟩
      · exact ⟨zeros, h⟩
      · exact absurd h (hplus _)

end JvmAssembler.Text
