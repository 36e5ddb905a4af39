import JvmAssembler.Proofs.StackMap.Frames

/-! The stack map leaves out the second slot of a value of two slots, and unusable slots at the end
of the locals. Nothing else gets lost: written out slot by slot, the list is the types of the locals
again, and it never ends with an unusable slot. So two frames have the same list exactly if their
locals have the same verification types, where slots that a frame does not reach are unusable. -/

namespace JvmAssembler.StackMap

/-- The verification types of locals, one per slot. -/
def slotTypes (locals : List Value) : List SymbolicType := locals.map fun v => v.type.verification

variable {types types' : List SymbolicType} {locals : List Value}

theorem slots_cons (type : SymbolicType) (types : List SymbolicType) :
    slots (type :: types) = type :: List.replicate (type.width - 1) .top ++ slots types :=
  List.flatMap_cons

theorem mem_slots {type : SymbolicType} (h : type ∈ types) : type ∈ slots types :=
  List.mem_flatMap.mpr ⟨type, h, List.mem_cons_self⟩

theorem getLast?_localTypes_ne_top (locals : List Value) :
    (localTypes locals).getLast? ≠ some .top := by
  rw [localTypes, List.getLast?_reverse]
  intro h
  have hnot := List.head?_dropWhile_not (· == .top) (reversedTypes [] locals)
  rw [h] at hnot
  cases hnot

theorem getLast?_ne_of_cons {type : SymbolicType} (h : (type :: types).getLast? ≠ some .top) :
    types.getLast? ≠ some .top := by
  intro hlast
  rw [List.getLast?_cons, hlast] at h
  exact h rfl

theorem eq_nil_of_slots_append {count count' : Nat} (hlast : types.getLast? ≠ some .top)
    (h : slots types ++ List.replicate count .top = List.replicate count' .top) : types = [] := by
  cases hget : types.getLast? with
  | none => exact List.getLast?_eq_none_iff.mp hget
  | some type =>
      have hmem : type ∈ List.replicate count' .top :=
        h ▸ List.mem_append_left _ (mem_slots (List.mem_of_getLast? hget))
      rw [List.eq_of_mem_replicate hmem] at hget
      exact absurd hget hlast

/-- A list without unusable slots at the end is known from its slots, whatever unusable ones follow
them. -/
theorem eq_of_slots_append {count count' : Nat} (hlast : types.getLast? ≠ some .top)
    (hlast' : types'.getLast? ≠ some .top)
    (h : slots types ++ List.replicate count .top = slots types' ++ List.replicate count' .top) :
    types = types' := by
  induction types generalizing types' with
  | nil => exact (eq_nil_of_slots_append hlast' h.symm).symm
  | cons type types ih =>
      cases types' with
      | nil => exact eq_nil_of_slots_append hlast h
      | cons type' types' =>
          rw [slots_cons, slots_cons, List.cons_append, List.cons_append, List.cons_append,
            List.cons_append] at h
          obtain ⟨rfl, htail⟩ := List.cons.inj h
          rw [List.append_assoc, List.append_assoc] at htail
          have hrest := List.append_cancel_left htail
          rw [ih (getLast?_ne_of_cons hlast) (getLast?_ne_of_cons hlast') hrest]

theorem exists_slotTypes_eq (hpaired : PairedSlots locals) :
    ∃ count, slotTypes locals = slots (localTypes locals) ++ List.replicate count .top := by
  obtain ⟨unusable, hsplit, htop⟩ := exists_slots_localTypes hpaired
  refine ⟨unusable.length, ?_⟩
  rw [← List.eq_replicate_of_mem htop]
  exact hsplit

theorem rightpad_slotTypes (hpaired : PairedSlots locals) {size : Nat}
    (hsize : locals.length ≤ size) :
    (slotTypes locals).rightpad size .top = slots (localTypes locals) ++
      List.replicate (size - (slots (localTypes locals)).length) .top := by
  obtain ⟨count, hcount⟩ := exists_slotTypes_eq hpaired
  have hlength : locals.length = (slots (localTypes locals)).length + count := by
    have hlengths := congrArg List.length hcount
    rwa [slotTypes, List.length_map, List.length_append, List.length_replicate] at hlengths
  have hcounts : count + (size - locals.length) = size - (slots (localTypes locals)).length := by
    omega
  calc (slotTypes locals).rightpad size .top
    _ = slotTypes locals ++ List.replicate (size - locals.length) .top := by
      rw [List.rightpad, slotTypes, List.length_map]
    _ = slots (localTypes locals) ++ List.replicate (count + (size - locals.length)) .top := by
      rw [hcount, List.append_assoc, List.replicate_append_replicate]
    _ = slots (localTypes locals) ++
        List.replicate (size - (slots (localTypes locals)).length) .top := by rw [hcounts]

/-- Locals of which every value of two slots is followed by an unusable slot can be read off their
list, but for unusable slots at the end. -/
theorem localTypes_lossless :
    (∀ locals : List Value, PairedSlots locals →
      (∃ count, slotTypes locals = slots (localTypes locals) ++ List.replicate count .top) ∧
      (localTypes locals).getLast? ≠ some .top) ∧
    ∀ locals locals' : List Value, PairedSlots locals → PairedSlots locals' →
      (localTypes locals = localTypes locals' ↔
        (slotTypes locals).rightpad (max locals.length locals'.length) .top =
          (slotTypes locals').rightpad (max locals.length locals'.length) .top) := by
  refine ⟨fun locals hpaired => ⟨exists_slotTypes_eq hpaired, getLast?_localTypes_ne_top locals⟩, ?_⟩
  intro locals locals' hpaired hpaired'
  rw [rightpad_slotTypes hpaired (Nat.le_max_left _ _),
    rightpad_slotTypes hpaired' (Nat.le_max_right _ _)]
  constructor
  · intro heq
    rw [heq]
  · intro hslots
    exact eq_of_slots_append (getLast?_localTypes_ne_top locals)
      (getLast?_localTypes_ne_top locals') hslots

/-- An unusable slot in the middle stays. Two at the end, one of them the rest of a double, do not. -/
theorem localTypes_lossless_double :
    ∃ f g : Frame, PairedSlots f.locals.toList ∧ PairedSlots g.locals.toList ∧
      g.locals.size = f.locals.size + 2 ∧
      localTypes f.locals.toList = [.numeric .int, .numeric .long, .top, .null] ∧
      localTypes g.locals.toList = localTypes f.locals.toList ∧
      ∃ count, slotTypes g.locals.toList =
        slots (localTypes g.locals.toList) ++ List.replicate count .top := by
  let f : Frame := ((Frame.empty.setLocal 0 ⟨.numeric .int, none⟩).setLocal 1
    ⟨.numeric .long, some 0⟩).setLocal 4 ⟨.null, some 2⟩
  let g : Frame := (f.setLocal 5 ⟨.numeric .double, some 3⟩).setLocal 6 .unusable
  have hempty : Frame.empty.Paired := fun i v hv => by cases hv
  have hf : f.Paired := ((hempty.setLocal _ _).setLocal _ _).setLocal _ _
  have hg : g.Paired := (hf.setLocal _ _).setLocal _ _
  obtain ⟨hlossless, hiff⟩ := localTypes_lossless
  have hsame : localTypes g.locals.toList = localTypes f.locals.toList :=
    (hiff _ _ (pairedSlots_toList hg) (pairedSlots_toList hf)).mpr (by decide +kernel)
  exact ⟨f, g, pairedSlots_toList hf, pairedSlots_toList hg, by decide +kernel, by decide +kernel,
    hsame, (hlossless _ (pairedSlots_toList hg)).1⟩

end JvmAssembler.StackMap
