import JvmAssembler.Proofs.Instruction.Decode

/-! Where a switch goes for a key, by the rule that a machine follows. The rule does not look at
what targets are, so resolving a switch and reading it back from code change nothing about it. -/

namespace JvmAssembler

namespace Branch

variable {ℓ ℓ' : Type}

/-- The target of a switch for a key. A table has a target for each key from the lowest one on, and
all other keys go to the default. -/
def select? (key : Int32) : Branch ℓ → Option ℓ
  | tableSwitch default low targets =>
    if low.toInt ≤ key.toInt ∧ key.toInt ≤ low.toInt + targets.length - 1 then
      targets[(key.toInt - low.toInt).toNat]?
    else some default
  | lookupSwitch default targets => some ((targets.lookup key).getD default)
  | _ => none

/-- The keys that stand beside the targets. -/
def lookupKeys : Branch ℓ → List Int32
  | lookupSwitch _ targets => targets.map Prod.fst
  | _ => []

theorem related_lookup {R : ℓ → ℓ' → Prop} {targets : List (Int32 × ℓ)}
    {targets' : List (Int32 × ℓ')} {default : ℓ} {default' : ℓ'} (hdefault : R default default')
    (h : List.Forall₂ (fun entry entry' => entry.1 = entry'.1 ∧ R entry.2 entry'.2) targets targets')
    (key : Int32) :
    R ((targets.lookup key).getD default) ((targets'.lookup key).getD default') := by
  induction h with
  | nil => exact hdefault
  | @cons entry entry' rest rest' hentry _ ih =>
      rw [List.lookup_cons, List.lookup_cons, hentry.1]
      cases key == entry'.1 with
      | true => exact hentry.2
      | false => exact ih

namespace Related

variable {R : ℓ → ℓ' → Prop} {b : Branch ℓ} {b' : Branch ℓ'}

/-- Related switches go to related targets. -/
theorem exists_select? (h : b.Related R b') {key : Int32} {target : ℓ}
    (hselect : b.select? key = some target) :
    ∃ target', R target target' ∧ b'.select? key = some target' := by
  cases h with
  | tableSwitch hdefault low htargets =>
      rw [select?] at hselect ⊢
      rw [← htargets.length_eq]
      split at hselect
      · rename_i hrange
        obtain ⟨hi, rfl⟩ := List.getElem?_eq_some_iff.mp hselect
        have hi' := htargets.length_eq ▸ hi
        exact ⟨_, htargets.get hi hi', (if_pos hrange).trans (List.getElem?_eq_getElem hi')⟩
      · rename_i hrange
        cases hselect
        exact ⟨_, hdefault, if_neg hrange⟩
  | lookupSwitch hdefault htargets =>
      cases hselect
      exact ⟨_, related_lookup hdefault htargets key, rfl⟩
  | jump | returns | throws => cases hselect

theorem lookupKeys_eq (h : b.Related R b') : b'.lookupKeys = b.lookupKeys := by
  cases h with
  | lookupSwitch _ htargets =>
      exact (map_eq_of_forall₂ htargets fun _ _ hentry => hentry.1).symm
  | tableSwitch | jump | returns | throws => rfl

end Related

/-- A switch is encoded whatever its targets are. -/
theorem exists_encodeAt_of_select? {b : Branch Int32} {key distance : Int32}
    (h : b.select? key = some distance) (offset : Nat) : ∃ bytes, b.encodeAt offset = .ok bytes := by
  cases b with
  | tableSwitch | lookupSwitch => exact ⟨_, rfl⟩
  | jump | returns | throws => cases h

end Branch

/-- The bytes of a switch are read back as a switch that goes, for every key, the distance to where
the switch itself goes. -/
theorem Line.exists_decoded_of_resolveBranch {line : Line} {body : Body} {b : SymbolicBranch}
    {resolved : Branch Int32} (h : line.resolveBranch body b = .ok resolved)
    (hfits : (Instruction.branch b : SymbolicInstruction).Fits)
    (hswitch : ∃ key label, b.select? key = some label) :
    ∃ bytes decoded, resolved.encodeAt line.offset = .ok bytes ∧
      ByteReader.Reads (Decode.instruction line.offset) bytes (.branch decoded) ∧
      decoded.lookupKeys = b.lookupKeys ∧
      ∀ key label, b.select? key = some label →
        ∃ target, body.lines[(body.labels.get label).instruction]? = some target ∧
          decoded.select? key = some (Int32.ofInt (target.offset - line.offset)) := by
  have hrelated := Branch.related_of_traverse (traverse_of_resolveBranch h) fun _ _ hdistance =>
    distance_eq_ok_iff.mp hdistance
  obtain ⟨key, label, hlabel⟩ := hswitch
  obtain ⟨distance, _, hdistance⟩ := hrelated.exists_select? hlabel
  obtain ⟨bytes, hbytes⟩ := Branch.exists_encodeAt_of_select? hdistance line.offset
  refine ⟨bytes, resolved, hbytes, Decode.reads_of_fits hbytes (hrelated.fits hfits),
    hrelated.lookupKeys_eq, ?_⟩
  intro key label hlabel
  obtain ⟨_, ⟨target, htarget, rfl⟩, hselect⟩ := hrelated.exists_select? hlabel
  exact ⟨target, htarget, hselect⟩

end JvmAssembler
