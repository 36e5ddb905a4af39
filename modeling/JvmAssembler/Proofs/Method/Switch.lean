import JvmAssembler.Proofs.Instruction.Dispatch
import Mathlib.Data.List.Nodup

/-! What the operands of a written switch say about each key, and that evaluation keeps to it: a
table is taken as it stands, and the keys of any other switch are put in order. Only a key that is
written twice is refused. -/

namespace JvmAssembler

namespace WrittenInstruction

variable {insn : WrittenInstruction} {index : Nat}

/-- Operands after some others, by position. -/
theorem getElem?_of_toList_eq {before operands : List Operand}
    (h : insn.operands.toList = before ++ operands) (i : Nat) :
    insn.operands[before.length + i]? = operands[i]? := by
  rw [← Array.getElem?_toList, h, List.getElem?_append_right (Nat.le_add_right _ i),
    Nat.add_sub_cancel_left]

theorem operand_eq_ok_iff {operand : Operand} :
    insn.operand index = .ok operand ↔ insn.operands[index]? = some operand := by
  unfold WrittenInstruction.operand
  cases insn.operands[index]? with
  | none => exact iff_of_false nofun nofun
  | some found => rw [Except.ok.injEq, Option.some.injEq]

theorem operandOf_eq_ok_iff {α : Type} {expected : OperandKind} {get? : Operand → Option α} {a : α} :
    insn.operandOf index expected get? = .ok a ↔
      ∃ operand, insn.operands[index]? = some operand ∧ get? operand = some a := by
  constructor
  · intro h
    obtain ⟨operand, hoperand, h⟩ := exists_of_bind_eq_ok h
    refine ⟨operand, operand_eq_ok_iff.mp hoperand, ?_⟩
    cases hget : get? operand with
    | none =>
        rw [hget] at h
        cases h
    | some value =>
        rw [hget] at h
        cases h
        rfl
  · rintro ⟨operand, hoperand, hget⟩
    simp only [operandOf, operand_eq_ok_iff.mpr hoperand, bind, Except.bind, hget]

theorem label_eq_ok_iff {name : String} :
    insn.label index = .ok name ↔ insn.operands[index]? = some (.label name) := by
  unfold label
  rw [operandOf_eq_ok_iff]
  constructor
  · rintro ⟨operand, hoperand, hname⟩
    cases operand with
    | label text =>
        cases hname
        exact hoperand
    | _ => cases hname
  · exact fun h => ⟨_, h, rfl⟩

theorem number_eq_ok_iff {value : Int64} :
    insn.number index = .ok value ↔ insn.operands[index]? = some (.number value) := by
  unfold number
  rw [operandOf_eq_ok_iff]
  constructor
  · rintro ⟨operand, hoperand, hvalue⟩
    cases operand with
    | number value' =>
        cases hvalue
        exact hoperand
    | _ => cases hvalue
  · exact fun h => ⟨_, h, rfl⟩

/-- A number in the range of 32 bits is read as it is. -/
theorem int32_eq_ok_iff (what : String) {n : Int32} :
    insn.int32 index what = .ok n ↔
      ∃ value : Int64, insn.operands[index]? = some (.number value) ∧ n.toInt = value.toInt := by
  constructor
  · intro h
    obtain ⟨value, hvalue, rfl⟩ := exists_of_map_eq_ok h
    obtain ⟨written, hwritten, hvalue⟩ := exists_of_bind_eq_ok hvalue
    refine ⟨written, number_eq_ok_iff.mp hwritten, ?_⟩
    dsimp only at hvalue
    split at hvalue
    · rename_i hrange
      cases hvalue
      exact Int32.toInt_ofInt_of_le hrange.1 (Int.lt_add_one_of_le hrange.2)
    · cases hvalue
  · rintro ⟨value, hvalue, hn⟩
    have hrange : -2147483648 ≤ value.toInt ∧ value.toInt ≤ 2147483647 := by
      rw [← hn]
      exact ⟨Int32.le_toInt n, Int.le_of_lt_add_one (Int32.toInt_lt n)⟩
    simp only [int32, integer, number_eq_ok_iff.mpr hvalue, bind, Except.bind, if_pos hrange]
    rw [← hn]
    exact congrArg Except.ok (Int32.ofInt_toInt n)

theorem rejectWide_eq_ok_iff : insn.rejectWide = .ok () ↔ insn.wide = false := by
  unfold rejectWide
  cases insn.wide with
  | false => exact iff_of_true rfl rfl
  | true => exact iff_of_false nofun nofun

end WrittenInstruction

namespace Evaluate

variable {scope : Scope} {insn : WrittenInstruction} {index : Nat}

theorem target_eq_ok_iff {label : Nat} :
    target scope insn index = .ok label ↔
      ∃ name, insn.operands[index]? = some (.label name) ∧
        scope.labels.lookup? name = some label := by
  constructor
  · intro h
    obtain ⟨name, hname, h⟩ := exists_of_bind_eq_ok h
    refine ⟨name, WrittenInstruction.label_eq_ok_iff.mp hname, ?_⟩
    cases hlabel : scope.labels.lookup? name with
    | none =>
        rw [hlabel] at h
        cases h
    | some found =>
        rw [hlabel] at h
        cases h
        rfl
  · rintro ⟨name, hname, hlabel⟩
    simp only [target, WrittenInstruction.label_eq_ok_iff.mpr hname, bind, Except.bind, hlabel]
    rfl

theorem keyedTarget_eq_ok_iff {entry : Int32 × Nat} :
    keyedTarget scope insn index = .ok entry ↔
      ∃ (value : Int64) (name : String), insn.operands[index]? = some (.number value) ∧
        entry.1.toInt = value.toInt ∧ insn.operands[index + 1]? = some (.label name) ∧
        scope.labels.lookup? name = some entry.2 := by
  constructor
  · intro h
    obtain ⟨operand, _, h⟩ := exists_of_bind_eq_ok h
    split at h
    · obtain ⟨key, hkey, h⟩ := exists_of_bind_eq_ok h
      obtain ⟨label, hlabel, h⟩ := exists_of_bind_eq_ok h
      cases h
      obtain ⟨value, hvalue, hkey⟩ := (WrittenInstruction.int32_eq_ok_iff _).mp hkey
      obtain ⟨name, hname, hlabel⟩ := target_eq_ok_iff.mp hlabel
      exact ⟨value, name, hvalue, hkey, hname, hlabel⟩
    · cases h
  · rintro ⟨value, name, hvalue, hkey, hname, hlabel⟩
    have hoperand := WrittenInstruction.operand_eq_ok_iff.mpr hvalue
    have hkey' := (WrittenInstruction.int32_eq_ok_iff "key").mpr ⟨value, hvalue, hkey⟩
    have hlabel' := target_eq_ok_iff.mpr ⟨name, hname, hlabel⟩
    simp only [keyedTarget, hoperand, hkey', hlabel', bind, Except.bind]
    rfl

/-- The operands are pairs of a key and a label, with a default behind them. Keys are 32-bit numbers,
and labels are those of the method. -/
inductive Cases (labels : LabelTable) : List Operand → List (Int32 × Nat) → Nat → Prop
  | default {name : String} {label : Nat} (hlabel : labels.lookup? name = some label) :
      Cases labels [.label name] [] label
  | case {value : Int64} {key : Int32} {name : String} {label default : Nat}
      {rest : List Operand} {cases : List (Int32 × Nat)} (hkey : key.toInt = value.toInt)
      (hlabel : labels.lookup? name = some label) (hrest : Cases labels rest cases default) :
      Cases labels (.number value :: .label name :: rest) ((key, label) :: cases) default

/-- Operands are read by position, pair by pair behind those that were read before. -/
theorem cases_iff {before operands : List Operand} (start count : Nat)
    (hoperands : insn.operands.toList = before ++ operands) (hbefore : before.length = 2 * start)
    (hcount : operands.length = 2 * count + 1) {cases : List (Int32 × Nat)} {default : Nat} :
    Cases scope.labels operands cases default ↔
      (List.range' start count).mapM (fun i => keyedTarget scope insn (2 * i)) = .ok cases ∧
        target scope insn (2 * (start + count)) = .ok default := by
  induction count generalizing before operands start cases with
  | zero =>
      obtain ⟨operand, rfl⟩ := List.length_eq_one_iff.mp hcount
      have hoperand : insn.operands[2 * start]? = some operand :=
        hbefore ▸ WrittenInstruction.getElem?_of_toList_eq hoperands 0
      constructor
      · intro h
        cases h with
        | default hlabel => exact ⟨rfl, target_eq_ok_iff.mpr ⟨_, hoperand, hlabel⟩⟩
      · rintro ⟨hcases, hdefault⟩
        cases hcases
        obtain ⟨name, hname, hlabel⟩ := target_eq_ok_iff.mp hdefault
        cases hoperand.symm.trans hname
        exact .default hlabel
  | succ count ih =>
      obtain ⟨first, tail, rfl⟩ := List.exists_cons_of_length_eq_add_one hcount
      rw [List.length_cons] at hcount
      obtain ⟨second, rest, rfl⟩ : ∃ second rest, tail = second :: rest :=
        List.exists_cons_of_length_eq_add_one (Nat.succ.inj hcount)
      rw [List.length_cons] at hcount
      have hfirst : insn.operands[2 * start]? = some first :=
        hbefore ▸ WrittenInstruction.getElem?_of_toList_eq hoperands 0
      have hsecond : insn.operands[2 * start + 1]? = some second :=
        hbefore ▸ WrittenInstruction.getElem?_of_toList_eq hoperands 1
      have hoperands' : insn.operands.toList = (before ++ [first, second]) ++ rest := by
        rw [hoperands, List.append_assoc]
        rfl
      have hbefore' : (before ++ [first, second]).length = 2 * (start + 1) := by
        rw [List.length_append, hbefore]
        rfl
      have hrest : ∀ {cases : List (Int32 × Nat)}, Cases scope.labels rest cases default ↔ _ :=
        ih (start + 1) hoperands' hbefore' (by omega)
      have hlast : start + 1 + count = start + (count + 1) := by omega
      rw [hlast] at hrest
      rw [List.range'_succ, List.mapM_cons]
      constructor
      · intro h
        cases h with
        | @case value key name label _ _ _ hkey hlabel hcases =>
            have hentry : keyedTarget scope insn (2 * start) = .ok (key, label) :=
              keyedTarget_eq_ok_iff.mpr ⟨value, name, hfirst, hkey, hsecond, hlabel⟩
            obtain ⟨hcases, hdefault⟩ := hrest.mp hcases
            refine ⟨?_, hdefault⟩
            rw [hentry, hcases]
            rfl
      · rintro ⟨hcases, hdefault⟩
        obtain ⟨⟨key, label⟩, hentry, hcases⟩ := exists_of_bind_eq_ok hcases
        obtain ⟨others, hothers, hcases⟩ := exists_of_bind_eq_ok hcases
        cases hcases
        obtain ⟨value, name, hvalue, hkey, hname, hlabel⟩ := keyedTarget_eq_ok_iff.mp hentry
        cases hfirst.symm.trans hvalue
        cases hsecond.symm.trans hname
        exact .case hkey hlabel (hrest.mpr ⟨hothers, hdefault⟩)

theorem cases_toList_iff {count : Nat} (hcount : insn.operands.size = 2 * count + 1)
    {cases : List (Int32 × Nat)} {default : Nat} :
    Cases scope.labels insn.operands.toList cases default ↔
      (List.range count).mapM (fun i => keyedTarget scope insn (2 * i)) = .ok cases ∧
        target scope insn (2 * count) = .ok default := by
  have h : Cases scope.labels insn.operands.toList cases default ↔ _ :=
    cases_iff 0 count (List.nil_append insn.operands.toList).symm rfl hcount
  rw [Nat.zero_add, ← List.range_eq_range'] at h
  exact h

/-! ### Keys in order -/

/-- Keys are in ascending order, if some may be equal. -/
def Ascending (cases : List (Int32 × Nat)) : Prop := cases.Pairwise fun a b => a.1 ≤ b.1

theorem ascending_mergeSort (cases : List (Int32 × Nat)) :
    Ascending (cases.mergeSort fun a b => a.1 ≤ b.1) := by
  refine (List.pairwise_mergeSort ?_ ?_ cases).imp fun h => of_decide_eq_true h
  · intro a b c hab hbc
    exact decide_eq_true (Int32.le_trans (of_decide_eq_true hab) (of_decide_eq_true hbc))
  · intro a b
    rw [Bool.or_eq_true, decide_eq_true_iff, decide_eq_true_iff]
    exact Int32.le_total a.1 b.1

theorem Ascending.pairwise_lt {cases : List (Int32 × Nat)} (h : Ascending cases)
    (hkeys : (cases.map Prod.fst).Nodup) : (cases.map Prod.fst).Pairwise (· < ·) := by
  rw [List.pairwise_map]
  exact (h.and (List.pairwise_map.mp hkeys)).imp fun hab => Int32.lt_of_le_of_ne hab.1 hab.2

/-- In ascending order, equal keys stand side by side. -/
theorem Ascending.repeatedKey?_eq_none_iff {cases : List (Int32 × Nat)} (h : Ascending cases) :
    repeatedKey? cases = none ↔ (cases.map Prod.fst).Nodup := by
  fun_induction repeatedKey? cases with
  | case1 a b rest heq =>
      refine iff_of_false nofun fun hkeys => ?_
      exact (List.nodup_cons.mp hkeys).1 (heq ▸ List.mem_cons_self)
  | case2 a b rest hne ih =>
      obtain ⟨ha, hrest⟩ := List.pairwise_cons.mp h
      rw [ih hrest]
      refine ⟨fun hkeys => List.nodup_cons.mpr ⟨?_, hkeys⟩, fun hkeys => (List.nodup_cons.mp hkeys).2⟩
      intro hmem
      obtain ⟨c, hc, hca⟩ := List.mem_map.mp hmem
      have hlt : a.1 < b.1 := Int32.lt_of_le_of_ne (ha b List.mem_cons_self) hne
      have hle : b.1 ≤ c.1 := by
        rcases List.mem_cons.mp hc with rfl | hc
        · exact Int32.le_refl _
        · exact (List.pairwise_cons.mp hrest).1 c hc
      exact Int32.lt_irrefl (hca ▸ Int32.lt_of_lt_of_le hlt hle)
  | case3 cases hshort =>
      refine iff_of_true rfl ?_
      cases cases with
      | nil => exact List.nodup_nil
      | cons a rest =>
          cases rest with
          | nil => exact List.nodup_singleton _
          | cons b rest => exact absurd rfl (hshort a b rest)

theorem lookup_eq_of_perm {cases cases' : List (Int32 × Nat)} (h : cases.Perm cases')
    (hkeys : (cases.map Prod.fst).Nodup) (key : Int32) : cases.lookup key = cases'.lookup key := by
  induction h with
  | nil => rfl
  | cons entry _ ih => rw [List.lookup_cons, List.lookup_cons, ih (List.nodup_cons.mp hkeys).2]
  | swap a b rest =>
      have hne : b.1 ≠ a.1 := fun heq =>
        (List.nodup_cons.mp hkeys).1 (heq ▸ List.mem_cons_self)
      iterate 4 rw [List.lookup_cons]
      by_cases ha : key = a.1
      · have hb : (key == b.1) = false := beq_eq_false_iff_ne.mpr fun heq => hne (heq.symm.trans ha)
        rw [hb]
      · rw [beq_eq_false_iff_ne.mpr ha]
  | trans hfirst _ ihfirst ihsecond =>
      exact (ihfirst hkeys).trans (ihsecond ((hfirst.map Prod.fst).nodup_iff.mp hkeys))

theorem length_of_cases {labels : LabelTable} {operands : List Operand}
    {cases : List (Int32 × Nat)} {default : Nat} (h : Cases labels operands cases default) :
    operands.length = 2 * cases.length + 1 := by
  induction h with
  | default => rfl
  | case _ _ _ ih =>
      simp only [List.length_cons, ih]
      omega

/-- A switch is what its operands say if no key is written twice, and refused otherwise. -/
theorem lookupSwitch_eq_ok_iff {b : SymbolicBranch} :
    lookupSwitch scope insn = .ok b ↔
      insn.wide = false ∧ ∃ cases default, Cases scope.labels insn.operands.toList cases default ∧
        (cases.map Prod.fst).Nodup ∧
        b = .lookupSwitch default (cases.mergeSort fun a b => a.1 ≤ b.1) := by
  have hperm : ∀ cases : List (Int32 × Nat),
      ((cases.mergeSort fun a b => a.1 ≤ b.1).map Prod.fst).Nodup ↔ (cases.map Prod.fst).Nodup :=
    fun cases => ((List.mergeSort_perm cases _).map Prod.fst).nodup_iff
  constructor
  · intro h
    obtain ⟨_, hwide, h⟩ := exists_of_bind_eq_ok h
    dsimp only at h
    split at h
    · cases h
    · rename_i hodd
      have hcount : insn.operands.size = 2 * (insn.operands.size / 2) + 1 := by omega
      obtain ⟨cases, hcases, h⟩ := exists_of_bind_eq_ok h
      obtain ⟨default, hdefault, h⟩ := exists_of_bind_eq_ok h
      have hlast : insn.operands.size - 1 = 2 * (insn.operands.size / 2) := by omega
      rw [hlast] at hdefault
      split at h
      · cases h
      · rename_i hnone
        cases h
        refine ⟨WrittenInstruction.rejectWide_eq_ok_iff.mp hwide, cases, default,
          (cases_toList_iff hcount).mpr ⟨hcases, hdefault⟩, ?_, rfl⟩
        exact (hperm cases).mp ((ascending_mergeSort cases).repeatedKey?_eq_none_iff.mp hnone)
  · rintro ⟨hwide, cases, default, hcases, hkeys, rfl⟩
    have hsize : insn.operands.size = 2 * cases.length + 1 := length_of_cases hcases
    obtain ⟨hcases, hdefault⟩ := (cases_toList_iff hsize).mp hcases
    have hnone := (ascending_mergeSort cases).repeatedKey?_eq_none_iff.mpr ((hperm cases).mpr hkeys)
    have hodd : ¬insn.operands.size % 2 = 0 := by omega
    have hhalf : insn.operands.size / 2 = cases.length := by omega
    have hlast : insn.operands.size - 1 = 2 * cases.length := by omega
    simp only [lookupSwitch, WrittenInstruction.rejectWide_eq_ok_iff.mpr hwide, bind, Except.bind,
      hodd, hhalf, hlast, hcases, hdefault, hnone, if_false]
    rfl

theorem tableSwitch_spec {b : SymbolicBranch} (h : tableSwitch scope insn = .ok b) :
    ∃ (value : Int64) (low : Int32) (targets : List Nat) (default : Nat),
      b = .tableSwitch default low targets ∧ insn.operands[0]? = some (.number value) ∧
      low.toInt = value.toInt ∧ targets.length = insn.operands.size - 2 ∧
      (∀ i label, targets[i]? = some label → target scope insn (i + 1) = .ok label) ∧
      target scope insn (insn.operands.size - 1) = .ok default := by
  obtain ⟨_, _, h⟩ := exists_of_bind_eq_ok h
  obtain ⟨low, hlow, h⟩ := exists_of_bind_eq_ok h
  obtain ⟨value, hvalue, hlow⟩ := (WrittenInstruction.int32_eq_ok_iff _).mp hlow
  dsimp only at h
  split at h
  · cases h
  · obtain ⟨targets, htargets, h⟩ := exists_of_bind_eq_ok h
    obtain ⟨default, hdefault, h⟩ := exists_of_bind_eq_ok h
    split at h
    · cases h
    · cases h
      have hall := forall₂_of_mapM_eq_ok htargets
      have hlength : targets.length = insn.operands.size - 2 :=
        hall.length_eq.symm.trans (List.length_range' ..)
      refine ⟨value, low, targets, default, rfl, hvalue, hlow, hlength, ?_, hdefault⟩
      intro i label hlabel
      obtain ⟨hi, rfl⟩ := List.getElem?_eq_some_iff.mp hlabel
      have htarget := hall.get (hall.length_eq ▸ hi) hi
      rw [List.get_eq_getElem, List.get_eq_getElem, List.getElem_range', Nat.one_mul,
        Nat.add_comm 1 i] at htarget
      exact htarget

end Evaluate

namespace WrittenInstruction

open Evaluate

/-- The operand for a key in `tableswitch low target... default`. -/
def tableOperand? (insn : WrittenInstruction) (key : Int) : Option Operand :=
  match insn.operands[0]? with
  | some (Operand.number low) =>
    if low.toInt ≤ key ∧ key ≤ low.toInt + (insn.operands.size - 2 : Nat) - 1 then
      insn.operands[(key - low.toInt + 1).toNat]?
    else insn.operands[insn.operands.size - 1]?
  | _ => none

/-- The operand for a key in `(key target)... default`. -/
def lookupOperand? (key : Int) : List Operand → Option Operand
  | .number value :: target :: rest =>
    if value.toInt = key then some target else lookupOperand? key rest
  | [default] => some default
  | _ => none

/-- The keys of `(key target)... default`. -/
def writtenKeys : List Operand → List Int
  | .number value :: _ :: rest => value.toInt :: writtenKeys rest
  | _ => []

/-- The operand that a written switch has for a key. -/
def switchOperand? (insn : WrittenInstruction) (key : Int32) : Option Operand :=
  if insn.mnemonic = "tableswitch" then insn.tableOperand? key.toInt
  else lookupOperand? key.toInt insn.operands.toList

theorem lookupOperand?_of_cases {labels : LabelTable} {operands : List Operand}
    {cases : List (Int32 × Nat)} {default : Nat} (h : Cases labels operands cases default)
    (key : Int32) :
    ∃ name, lookupOperand? key.toInt operands = some (.label name) ∧
      labels.lookup? name = some ((cases.lookup key).getD default) := by
  induction h with
  | @default name label hlabel => exact ⟨name, rfl, hlabel⟩
  | @case value key' name label default rest cases hkey hlabel _ ih =>
      rw [lookupOperand?, List.lookup_cons, ← hkey]
      by_cases heq : key' = key
      · subst heq
        rw [if_pos rfl, beq_self_eq_true]
        exact ⟨name, rfl, hlabel⟩
      · rw [if_neg fun h => heq (Int32.toInt_inj.mp h), beq_eq_false_iff_ne.mpr (Ne.symm heq)]
        exact ih

theorem writtenKeys_of_cases {labels : LabelTable} {operands : List Operand}
    {cases : List (Int32 × Nat)} {default : Nat} (h : Cases labels operands cases default) :
    writtenKeys operands = cases.map fun entry => entry.1.toInt := by
  induction h with
  | default => rfl
  | case hkey _ _ ih => rw [writtenKeys, ih, List.map_cons, hkey]

theorem nodup_writtenKeys_iff {labels : LabelTable} {operands : List Operand}
    {cases : List (Int32 × Nat)} {default : Nat} (h : Cases labels operands cases default) :
    (writtenKeys operands).Nodup ↔ (cases.map Prod.fst).Nodup := by
  have hkeys : writtenKeys operands = (cases.map Prod.fst).map Int32.toInt := by
    rw [writtenKeys_of_cases h, List.map_map]
    rfl
  rw [hkeys, List.nodup_map_iff fun _ _ => Int32.toInt_inj.mp]

theorem select?_of_tableSwitch {insn : WrittenInstruction} {scope : Scope} {b : SymbolicBranch}
    (h : tableSwitch scope insn = .ok b) (key : Int32) :
    ∃ name label, insn.tableOperand? key.toInt = some (.label name) ∧
      scope.labels.lookup? name = some label ∧ b.select? key = some label := by
  obtain ⟨value, low, targets, default, rfl, hvalue, hlow, hlength, htargets, hdefault⟩ :=
    tableSwitch_spec h
  rw [tableOperand?, hvalue, Branch.select?, hlow, hlength]
  dsimp only
  split
  · rename_i hrange
    have hi : (key.toInt - value.toInt).toNat < targets.length := by omega
    have hlabel := List.getElem?_eq_getElem hi
    obtain ⟨name, hname, hlookup⟩ := target_eq_ok_iff.mp (htargets _ _ hlabel)
    have hposition : (key.toInt - value.toInt + 1).toNat = (key.toInt - value.toInt).toNat + 1 := by
      omega
    rw [hposition]
    exact ⟨name, _, hname, hlookup, hlabel⟩
  · obtain ⟨name, hname, hlabel⟩ := target_eq_ok_iff.mp hdefault
    exact ⟨name, default, hname, hlabel, rfl⟩

theorem select?_of_lookupSwitch {insn : WrittenInstruction} {scope : Scope} {b : SymbolicBranch}
    (h : lookupSwitch scope insn = .ok b) (key : Int32) :
    ∃ name label, lookupOperand? key.toInt insn.operands.toList = some (.label name) ∧
      scope.labels.lookup? name = some label ∧ b.select? key = some label := by
  obtain ⟨_, cases, default, hcases, hkeys, rfl⟩ := lookupSwitch_eq_ok_iff.mp h
  obtain ⟨name, hname, hlabel⟩ := lookupOperand?_of_cases hcases key
  refine ⟨name, _, hname, hlabel, ?_⟩
  rw [Branch.select?, lookup_eq_of_perm (List.mergeSort_perm cases _).symm hkeys]

/-- A switch does what is written, from the operands to the bytes. -/
structure Dispatches (insn : WrittenInstruction) (scope : Scope) (b : SymbolicBranch) : Prop where
  /-- Each key goes to the label that is written for it. -/
  selects : ∀ key : Int32, ∃ name label, insn.switchOperand? key = some (.label name) ∧
    scope.labels.lookup? name = some label ∧ b.select? key = some label
  /-- In the bytes, wherever they stand, each key goes the distance to its label. They tell the number
  of entries in 32 bits with a sign, and no code has room for so many. -/
  bytes : insn.operands.size < 4294967296 → ∀ (line : Line) (body : Body) (resolved : Branch Int32),
    line.resolveBranch body b = .ok resolved →
    ∃ bytes decoded, resolved.encodeAt line.offset = .ok bytes ∧
      ByteReader.Reads (Decode.instruction line.offset) bytes (.branch decoded) ∧
      decoded.lookupKeys = b.lookupKeys ∧
      ∀ key label, b.select? key = some label →
        ∃ target, body.lines[(body.labels.get label).instruction]? = some target ∧
          decoded.select? key = some (Int32.ofInt (target.offset - line.offset))
  /-- Keys that are searched for are in strictly ascending order. -/
  ascending : b.lookupKeys.Pairwise (· < ·)
  /-- They are the written ones. -/
  perm : insn.mnemonic = "lookupswitch" →
    (b.lookupKeys.map Int32.toInt).Perm (writtenKeys insn.operands.toList)

theorem evaluate_tableSwitch {insn : WrittenInstruction} (h : insn.mnemonic = "tableswitch")
    (scope : Scope) :
    insn.evaluate scope = (do return .branch (← tableSwitch scope insn)) := by
  rw [evaluate, h]
  rfl

theorem evaluate_lookupSwitch {insn : WrittenInstruction} (h : insn.mnemonic = "lookupswitch")
    (scope : Scope) :
    insn.evaluate scope = (do return .branch (← lookupSwitch scope insn)) := by
  rw [evaluate, h]
  rfl

theorem dispatches_of_tableSwitch {insn : WrittenInstruction} {scope : Scope} {b : SymbolicBranch}
    (hmnemonic : insn.mnemonic = "tableswitch") (h : tableSwitch scope insn = .ok b) :
    insn.Dispatches scope b := by
  have hselects := select?_of_tableSwitch h
  have hkeys := (regular_tableSwitch h).2
  obtain ⟨_, low, targets, default, rfl, _⟩ := tableSwitch_spec h
  refine ⟨?_, ?_, .nil, ?_⟩
  · intro key
    rw [switchOperand?, if_pos hmnemonic]
    exact hselects key
  · intro _ line body resolved hresolve
    obtain ⟨_, label, _, _, hlabel⟩ := hselects 0
    exact Line.exists_decoded_of_resolveBranch hresolve hkeys ⟨0, label, hlabel⟩
  · intro hlookup
    exact absurd (hmnemonic.symm.trans hlookup) (by decide)

theorem dispatches_of_lookupSwitch {insn : WrittenInstruction} {scope : Scope}
    {b : SymbolicBranch} (hmnemonic : insn.mnemonic = "lookupswitch")
    (h : lookupSwitch scope insn = .ok b) : insn.Dispatches scope b := by
  have hselects := select?_of_lookupSwitch h
  obtain ⟨_, cases, default, hcases, hkeys, rfl⟩ := lookupSwitch_eq_ok_iff.mp h
  have hperm := List.mergeSort_perm cases fun a b => decide (a.1 ≤ b.1)
  refine ⟨?_, ?_, ?_, fun _ => ?_⟩
  · intro key
    have hne : insn.mnemonic ≠ "tableswitch" := fun htable =>
      absurd (hmnemonic.symm.trans htable) (by decide)
    rw [switchOperand?, if_neg hne]
    exact hselects key
  · intro hsize line body resolved hresolve
    obtain ⟨_, label, _, _, hlabel⟩ := hselects 0
    refine Line.exists_decoded_of_resolveBranch hresolve ?_ ⟨0, label, hlabel⟩
    have hcount : insn.operands.size = 2 * cases.length + 1 := length_of_cases hcases
    rw [Instruction.Fits, hperm.length_eq]
    omega
  · exact (ascending_mergeSort cases).pairwise_lt ((hperm.map Prod.fst).nodup_iff.mpr hkeys)
  · rw [Branch.lookupKeys, List.map_map, writtenKeys_of_cases hcases]
    exact hperm.map _

/-- A switch that is evaluated does what is written, and one with keys and labels in their places is
refused exactly if a key is written twice. -/
theorem switch_dispatches {insn : WrittenInstruction}
    (hswitch : insn.mnemonic = "tableswitch" ∨ insn.mnemonic = "lookupswitch") (scope : Scope)
    (s : LocalState) :
    (∀ evaluated s', insn.evaluate scope s = .ok evaluated s' →
      ∃ b, evaluated = .branch b ∧ insn.Dispatches scope b) ∧
    (insn.mnemonic = "lookupswitch" → insn.wide = false →
      (∃ cases default, Cases scope.labels insn.operands.toList cases default) →
      ((∃ e s', insn.evaluate scope s = .error e s') ↔
        ¬(writtenKeys insn.operands.toList).Nodup)) := by
  constructor
  · intro evaluated s' h
    rcases hswitch with hmnemonic | hmnemonic
    · rw [evaluate_tableSwitch hmnemonic] at h
      obtain ⟨b, _, hlift, h⟩ := exists_of_bind_eq_result h
      cases h
      exact ⟨b, rfl, dispatches_of_tableSwitch hmnemonic (lift_eq_result hlift).1⟩
    · rw [evaluate_lookupSwitch hmnemonic] at h
      obtain ⟨b, _, hlift, h⟩ := exists_of_bind_eq_result h
      cases h
      exact ⟨b, rfl, dispatches_of_lookupSwitch hmnemonic (lift_eq_result hlift).1⟩
  · rintro hmnemonic hwide ⟨cases, default, hcases⟩
    rw [evaluate_lookupSwitch hmnemonic]
    cases hresult : lookupSwitch scope insn with
    | ok b =>
        obtain ⟨_, cases', _, hcases', hkeys, _⟩ := lookupSwitch_eq_ok_iff.mp hresult
        refine iff_of_false ?_ (not_not_intro ((nodup_writtenKeys_iff hcases').mpr hkeys))
        rintro ⟨e, s', ⟨⟩⟩
    | error e =>
        refine iff_of_true ⟨e, s, rfl⟩ fun hkeys => ?_
        have hok := lookupSwitch_eq_ok_iff.mpr
          ⟨hwide, cases, default, hcases, (nodup_writtenKeys_iff hcases).mp hkeys, rfl⟩
        cases hresult.symm.trans hok

/-- Bytes of a switch that are known decode to a switch that goes to its labels. -/
theorem Dispatches.exists_decoded {insn : WrittenInstruction} {scope : Scope} {b : SymbolicBranch}
    (h : insn.Dispatches scope b) (hsize : insn.operands.size < 4294967296) {line : Line}
    {body : Body} {resolved : Branch Int32} (hresolve : line.resolveBranch body b = .ok resolved)
    {bytes : List UInt8} (hbytes : resolved.encodeAt line.offset = .ok bytes) :
    ∃ decoded, ByteReader.Reads (Decode.instruction line.offset) bytes (.branch decoded) ∧
      ∀ key label d, b.select? key = some label → line.distance body label = .ok d →
        decoded.select? key = some d := by
  obtain ⟨found, decoded, hfound, hreads, _, hselects⟩ := h.bytes hsize line body resolved hresolve
  cases hfound.symm.trans hbytes
  refine ⟨decoded, hreads, fun key label d hlabel hd => ?_⟩
  obtain ⟨target, htarget, rfl⟩ := Line.distance_eq_ok_iff.mp hd
  obtain ⟨target', htarget', hselect⟩ := hselects key label hlabel
  cases htarget.symm.trans htarget'
  exact hselect

/-- A switch over a table. -/
def twoKeys : WrittenInstruction where
  mnemonic := "tableswitch"
  operands := #[.number 5, .label "a", .label "b", .label "b"]

/-- A switch with keys out of order. -/
def threeKeys : WrittenInstruction where
  mnemonic := "lookupswitch"
  operands := #[.number 7, .label "a", .number (-1), .label "b", .number 3, .label "a", .label "b"]

/-- A method with labels in front of its second and its third instruction. -/
def twoLabels : LabelTable :=
  [("a", 1), ("b", 2)].foldl
    (fun t label => ((t.declare label.1 {} label.2).map Prod.snd).toOption.getD t) .empty

/-- A switch at the offset 1, where two bytes of padding follow the opcode. -/
def unalignedSwitch (b : SymbolicBranch) : Line := ⟨0, "switch", {}, 1, 0, .branch b⟩

/-- The switch and the instructions behind two labels. -/
def unalignedBody (b : SymbolicBranch) : Body where
  lines := #[unalignedSwitch b, ⟨1, "nop", {}, 40, 1, .operation .nop⟩,
    ⟨2, "return", {}, 41, 2, .branch (.returns none)⟩]
  labels := twoLabels

theorem distance_unaligned_first (b : SymbolicBranch) :
    (unalignedSwitch b).distance (unalignedBody b) 1 = .ok 39 := by
  have hlabel : (twoLabels.get 1).instruction = 1 := by decide +kernel
  rw [Line.distance_eq_ok_iff, unalignedBody, hlabel]
  exact ⟨_, rfl, rfl⟩

theorem distance_unaligned_second (b : SymbolicBranch) :
    (unalignedSwitch b).distance (unalignedBody b) 2 = .ok 40 := by
  have hlabel : (twoLabels.get 2).instruction = 2 := by decide +kernel
  rw [Line.distance_eq_ok_iff, unalignedBody, hlabel]
  exact ⟨_, rfl, rfl⟩

theorem exists_evaluate_twoKeys :
    ∃ s', twoKeys.evaluate ⟨.void, twoLabels, 0⟩ ⟨{}, {}⟩ =
      .ok (.branch (.tableSwitch 2 5 [1, 2])) s' := by
  have hsatisfies : Assembly.satisfies (· == .branch (.tableSwitch 2 5 [1, 2]))
      (twoKeys.evaluate ⟨.void, twoLabels, 0⟩) ⟨{}, {}⟩ = true := by decide +kernel
  obtain ⟨evaluated, s', hevaluate, heq⟩ := Assembly.exists_of_satisfies hsatisfies
  exact ⟨s', eq_of_beq heq ▸ hevaluate⟩

theorem exists_evaluate_threeKeys :
    ∃ s', threeKeys.evaluate ⟨.void, twoLabels, 0⟩ ⟨{}, {}⟩ =
      .ok (.branch (.lookupSwitch 2 [(-1, 2), (3, 1), (7, 1)])) s' := by
  have ha : twoLabels.lookup? "a" = some 1 := by decide +kernel
  have hb : twoLabels.lookup? "b" = some 2 := by decide +kernel
  have hcases : Cases twoLabels threeKeys.operands.toList [(7, 1), (-1, 2), (3, 1)] 2 :=
    .case rfl ha (.case rfl hb (.case rfl ha (.default hb)))
  have hsorted : ([(7, 1), (-1, 2), (3, 1)] : List (Int32 × Nat)).mergeSort (fun a b => a.1 ≤ b.1) =
      [(-1, 2), (3, 1), (7, 1)] := by simp [List.mergeSort]
  have hswitch : lookupSwitch ⟨.void, twoLabels, 0⟩ threeKeys = .ok (.lookupSwitch 2 _) :=
    lookupSwitch_eq_ok_iff.mpr ⟨rfl, _, _, hcases, by decide, rfl⟩
  rw [evaluate_lookupSwitch rfl, hswitch, hsorted]
  exact ⟨_, rfl⟩

/-- A table and another switch, and the bytes of both at an offset where they are padded. -/
theorem switch_dispatches_unaligned :
    ((twoKeys.mnemonic = "tableswitch" ∨ twoKeys.mnemonic = "lookupswitch") ∧
      ∃ s', twoKeys.evaluate ⟨.void, twoLabels, 0⟩ ⟨{}, {}⟩ =
          .ok (.branch (.tableSwitch 2 5 [1, 2])) s' ∧
        twoKeys.Dispatches ⟨.void, twoLabels, 0⟩ (.tableSwitch 2 5 [1, 2]) ∧
        ∃ decoded, ByteReader.Reads (Decode.instruction 1)
            [0xAA, 0, 0, 0, 0, 0, 40, 0, 0, 0, 5, 0, 0, 0, 6, 0, 0, 0, 39, 0, 0, 0, 40]
            (.branch decoded) ∧
          decoded.select? 5 = some 39 ∧ decoded.select? 6 = some 40 ∧
          decoded.select? 4 = some 40) ∧
    ((threeKeys.mnemonic = "tableswitch" ∨ threeKeys.mnemonic = "lookupswitch") ∧
      ∃ s', threeKeys.evaluate ⟨.void, twoLabels, 0⟩ ⟨{}, {}⟩ =
          .ok (.branch (.lookupSwitch 2 [(-1, 2), (3, 1), (7, 1)])) s' ∧
        threeKeys.Dispatches ⟨.void, twoLabels, 0⟩ (.lookupSwitch 2 [(-1, 2), (3, 1), (7, 1)]) ∧
        ∃ decoded, ByteReader.Reads (Decode.instruction 1)
            [0xAB, 0, 0, 0, 0, 0, 40, 0, 0, 0, 3, 0xFF, 0xFF, 0xFF, 0xFF, 0, 0, 0, 40,
              0, 0, 0, 3, 0, 0, 0, 39, 0, 0, 0, 7, 0, 0, 0, 39]
            (.branch decoded) ∧
          decoded.select? (-1) = some 40 ∧ decoded.select? 7 = some 39 ∧
          decoded.select? 0 = some 40) := by
  constructor
  · obtain ⟨s', hevaluate⟩ := exists_evaluate_twoKeys
    obtain ⟨b, hb, hdispatches⟩ := (switch_dispatches (.inl rfl) _ _).1 _ _ hevaluate
    cases hb
    have hresolve : (unalignedSwitch (.tableSwitch 2 5 [1, 2])).resolveBranch
        (unalignedBody (.tableSwitch 2 5 [1, 2])) (.tableSwitch 2 5 [1, 2]) =
          .ok (.tableSwitch 40 5 [39, 40]) := by
      simp [Line.resolveBranch, Branch.traverse, distance_unaligned_first,
        distance_unaligned_second, bind, Except.bind, pure, Except.pure]
    obtain ⟨decoded, hreads, hselects⟩ := hdispatches.exists_decoded (by decide) hresolve rfl
    exact ⟨.inl rfl, s', hevaluate, hdispatches, decoded, hreads,
      hselects 5 1 39 rfl (distance_unaligned_first _),
      hselects 6 2 40 rfl (distance_unaligned_second _),
      hselects 4 2 40 rfl (distance_unaligned_second _)⟩
  · obtain ⟨s', hevaluate⟩ := exists_evaluate_threeKeys
    obtain ⟨b, hb, hdispatches⟩ := (switch_dispatches (.inr rfl) _ _).1 _ _ hevaluate
    cases hb
    have hresolve : (unalignedSwitch (.lookupSwitch 2 [(-1, 2), (3, 1), (7, 1)])).resolveBranch
        (unalignedBody (.lookupSwitch 2 [(-1, 2), (3, 1), (7, 1)]))
          (.lookupSwitch 2 [(-1, 2), (3, 1), (7, 1)]) =
          .ok (.lookupSwitch 40 [(-1, 40), (3, 39), (7, 39)]) := by
      simp [Line.resolveBranch, Branch.traverse, distance_unaligned_first,
        distance_unaligned_second, bind, Except.bind, pure, Except.pure]
    obtain ⟨decoded, hreads, hselects⟩ := hdispatches.exists_decoded (by decide) hresolve rfl
    exact ⟨.inr rfl, s', hevaluate, hdispatches, decoded, hreads,
      hselects (-1) 2 40 rfl (distance_unaligned_second _),
      hselects 7 1 39 rfl (distance_unaligned_first _),
      hselects 0 2 40 rfl (distance_unaligned_second _)⟩

end WrittenInstruction

end JvmAssembler
