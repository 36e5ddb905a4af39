import JvmAssembler.Proofs.Local.Requests
import JvmAssembler.Proofs.Method.LocalRoom

/-! Locals get their slots in any order: the arguments, then named ones after all others, and ones
with a given slot anywhere. Still no two start at the same slot, and none ends past the last slot
that a method can have. -/

namespace JvmAssembler

namespace Local

/-- The slot is one of the local's. -/
def Covers (l : Local) (slot : Nat) : Prop :=
  l.index.toNat ≤ slot ∧ slot < l.index.toNat + l.width

theorem width_pos (l : Local) : 0 < l.width := by
  unfold width
  cases l.type with
  | base type => cases type <;> decide
  | _ => exact Nat.one_pos

end Local

namespace LocalTable

/-- No two locals start at the same slot, and all of them end at a limit or before. -/
structure Packed (locals : Array Local) (limit : Nat) : Prop where
  starts : (locals.toList.map (·.index)).Nodup
  ends : ∀ l ∈ locals, l.index.toNat + l.width ≤ limit

theorem packed_empty (limit : Nat) : Packed #[] limit where
  starts := List.nodup_nil
  ends := by
    intro l hl
    exact absurd hl (Array.not_mem_empty l)

theorem Packed.push {locals : Array Local} {limit limit' : Nat} (h : Packed locals limit)
    {l : Local} (hfree : ∀ earlier ∈ locals, earlier.index ≠ l.index) (hlimit : limit ≤ limit')
    (hl : l.index.toNat + l.width ≤ limit') : Packed (locals.push l) limit' where
  starts := by
    rw [Array.toList_push, List.map_append, List.nodup_append]
    refine ⟨h.starts, List.nodup_singleton _, ?_⟩
    intro index hindex index' hindex'
    obtain ⟨earlier, hearlier, rfl⟩ := List.mem_map.mp hindex
    rw [List.map_singleton, List.mem_singleton] at hindex'
    exact hindex' ▸ hfree earlier (Array.mem_def.mpr hearlier)
  ends := by
    intro l' hl'
    rcases Array.mem_push.mp hl' with hl' | rfl
    · exact Nat.le_trans (h.ends l' hl') hlimit
    · exact hl

/-- A local that starts where all others have ended starts at none of their slots. -/
theorem index_ne_of_end_le {l l' : Local} (h : l.index.toNat + l.width ≤ l'.index.toNat) :
    l.index ≠ l'.index := by
  have hwidth := l.width_pos
  intro heq
  rw [heq] at h
  omega

theorem packed_addParameters {locals : Array Local} {index : Nat} (h : Packed locals index)
    (number : Nat) {types : List FieldType}
    (hroom : index + total FieldType.width types ≤ maxLocals) :
    Packed (addParameters locals index number types) (index + total FieldType.width types) := by
  induction types generalizing locals index number with
  | nil => exact h
  | cons type rest ih =>
      rw [total_cons, ← Nat.add_assoc] at hroom ⊢
      have hindex : (UInt16.ofNat index).toNat = index := by
        have hlt : index < UInt16.size := by
          unfold maxLocals at hroom
          unfold UInt16.size
          omega
        exact UInt16.toNat_ofNat_of_lt' hlt
      refine ih (h.push ?_ (Nat.le_add_right _ _) ?_) (number + 1) hroom
      · intro earlier hearlier
        exact index_ne_of_end_le (hindex.symm ▸ h.ends earlier hearlier)
      · exact Nat.le_of_eq (congrArg (· + type.width) hindex)

theorem packed_ofMethod {receiver : Option BinaryName} {descriptor : MethodDescriptor}
    (hroom : descriptor.argumentSlots receiver.isSome ≤ maxArgumentSlots) :
    Packed (ofMethod receiver descriptor).locals (descriptor.argumentSlots receiver.isSome) := by
  have hle : descriptor.argumentSlots receiver.isSome ≤ maxLocals :=
    Nat.le_trans hroom (by decide)
  cases receiver with
  | none => exact packed_addParameters (packed_empty 0) 0 hle
  | some owner =>
      have hthis : Packed #[⟨"this", 0, .object owner, true⟩] 1 := by
        refine (packed_empty 0).push ?_ (Nat.zero_le 1) (Nat.le_refl 1)
        intro earlier hearlier
        exact absurd hearlier (Array.not_mem_empty earlier)
      exact packed_addParameters hthis 0 hle

theorem end_le_foldl (locals : List Local) (next : Nat) :
    next ≤ locals.foldl (fun next l => max next (l.index.toNat + l.width)) next ∧
      ∀ l ∈ locals, l.index.toNat + l.width ≤
        locals.foldl (fun next l => max next (l.index.toNat + l.width)) next := by
  induction locals generalizing next with
  | nil => exact ⟨Nat.le_refl next, fun _ hl => absurd hl List.not_mem_nil⟩
  | cons first rest ih =>
      obtain ⟨hnext, hrest⟩ := ih (max next (first.index.toNat + first.width))
      refine ⟨Nat.le_trans (Nat.le_max_left _ _) hnext, ?_⟩
      intro l hl
      rcases List.mem_cons.mp hl with rfl | hl
      · exact Nat.le_trans (Nat.le_max_right _ _) hnext
      · exact hrest l hl

/-- All locals end before the next slot. -/
theorem end_le_nextIndex {t : LocalTable} {l : Local} (hl : l ∈ t.locals) :
    l.index.toNat + l.width ≤ t.nextIndex := by
  rw [nextIndex, ← Array.foldl_toList]
  exact (end_le_foldl _ 0).2 l (Array.mem_def.mp hl)

end LocalTable

namespace StoreRequest

open LocalTable

namespace Adds

variable {r : StoreRequest} {s : LocalState} {l : Local}

theorem toNat_index (h : r.Adds s l) : l.index.toNat = r.newIndex s.table := by
  obtain ⟨⟨type, rfl, hfits⟩, _⟩ := h.spec
  have hlt : r.newIndex s.table < UInt16.size := by
    unfold maxLocals at hfits
    unfold UInt16.size
    omega
  exact UInt16.toNat_ofNat_of_lt' hlt

theorem end_le (h : r.Adds s l) : l.index.toNat + l.width ≤ maxLocals := by
  rw [h.toNat_index]
  obtain ⟨⟨type, rfl, hfits⟩, _⟩ := h.spec
  exact hfits

/-- A local that is added for a name starts where all others have ended. -/
theorem end_le_of_name (h : r.Adds s l) {name : String} (hname : r.reference = .name name)
    {earlier : Local} (hearlier : earlier ∈ s.table.locals) :
    earlier.index.toNat + earlier.width ≤ l.index.toNat := by
  have hindex : r.newIndex s.table = s.table.nextIndex := by
    rw [newIndex, hname]
  rw [h.toNat_index, hindex]
  exact end_le_nextIndex hearlier

/-- No local starts where one is added. -/
theorem index_ne (h : r.Adds s l) {earlier : Local} (hearlier : earlier ∈ s.table.locals) :
    earlier.index ≠ l.index := by
  cases hreference : r.reference with
  | name name => exact index_ne_of_end_le (h.end_le_of_name hreference hearlier)
  | index index =>
      have hl := h.answersTo
      intro heq
      refine not_answersTo_of_find? h.find?_eq hearlier ?_
      rw [hreference, Local.answersTo] at hl ⊢
      rw [heq]
      exact hl

end Adds

theorem packed_next (r : StoreRequest) {s : LocalState} (h : Packed s.table.locals maxLocals) :
    Packed (r.next s).table.locals maxLocals := by
  rcases r.next_cases s with ⟨hlocals, _⟩ | ⟨l, hadds⟩
  · rw [hlocals]
    exact h
  · rw [hadds.spec.2]
    exact h.push (fun _ => hadds.index_ne) (Nat.le_refl _) hadds.end_le

end StoreRequest

/-- What the table promises about slots, now and after any requests. -/
structure LocalState.Allocates (s : LocalState) : Prop where
  /-- No two locals start at the same slot. -/
  starts : (s.table.locals.toList.map (·.index)).Nodup
  /-- Every local ends within the slots that a method can have. -/
  ends : ∀ l ∈ s.table.locals, l.index.toNat + l.width ≤ maxLocals
  /-- A local that is added for a name shares no slot with the ones before. -/
  apart : ∀ (r : StoreRequest) (name : String) (l : Local), r.reference = .name name →
    r.Adds s l → ∀ earlier ∈ s.table.locals, ∀ slot, earlier.Covers slot → ¬l.Covers slot
  /-- What a load was given, all loads and stores are given later. -/
  loads : ∀ reference mnemonic position l,
    s.table.resolve reference mnemonic position = .ok l →
    ∀ later, (s.after later).Resolves reference l
  /-- What a store was given, all loads and stores are given later. -/
  stores : ∀ (r : StoreRequest) (l : Local) (s' : LocalState), r.resolve s = .ok l s' →
    ∀ later, (s'.after later).Resolves r.reference l
  /-- A store that is refused leaves the table as it was. -/
  refused : ∀ (r : StoreRequest) (e : CompileError) (s' : LocalState),
    r.resolve s = .error e s' → s'.table = s.table

theorem LocalState.Allocates.of_packed {s : LocalState}
    (h : LocalTable.Packed s.table.locals maxLocals) : s.Allocates where
  starts := h.starts
  ends := h.ends
  apart := by
    rintro r name l hname hadds earlier hearlier slot ⟨_, hlast⟩ ⟨hfirst, _⟩
    have hend := hadds.end_le_of_name hname hearlier
    omega
  loads := by
    intro reference mnemonic position l hload later
    exact resolves_iff.mpr (find?_after (LocalTable.find?_of_resolve hload) later)
  stores := by
    intro r l s' hresolve later
    exact resolves_iff.mpr (find?_after (StoreRequest.find?_of_resolve hresolve) later)
  refused := by
    intro r e s' hresolve
    cases hresolve ▸ r.outcome_resolve s with
    | refused _ htable => exact htable

/-- Whatever stores ask for, slots are allocated apart, within bounds and for good. So compiled
methods have no more locals than methods can have. -/
theorem LocalState.allocates_after {receiver : Option BinaryName} {descriptor : MethodDescriptor}
    (hroom : descriptor.argumentSlots receiver.isSome ≤ maxArgumentSlots) (warnShort : Bool)
    (journal : Journal) (requests : List StoreRequest) :
    ((ofMethod receiver descriptor warnShort journal).after requests).Allocates ∧
      ∀ (m : WrittenMethod) (settings : Settings) (s s' : ClassState) (compiled : CompiledMethod),
        m.compile settings s = .ok compiled s' → compiled.maxLocals ≤ maxLocals := by
  have hstart : LocalTable.Packed (ofMethod receiver descriptor warnShort journal).table.locals
      maxLocals := by
    have hpacked := LocalTable.packed_ofMethod hroom
    exact ⟨hpacked.starts, fun l hl =>
      Nat.le_trans (hpacked.ends l hl) (Nat.le_trans hroom (by decide))⟩
  refine ⟨.of_packed ?_, ?_⟩
  · exact after_keeps (I := fun s => LocalTable.Packed s.table.locals maxLocals) hstart
      (fun r _ hs => r.packed_next hs) requests
  · intro m settings s s' compiled hcompile
    exact WrittenMethod.maxLocals_le_of_compile hcompile

/-- A named local, then one in the last two slots. There is no room for a third. -/
def StoreRequest.lastSlots : List StoreRequest :=
  [⟨.name "total", { mnemonic := "istore" }, .base .int⟩,
    ⟨.index 65533, { mnemonic := "lstore" }, .base .long⟩,
    ⟨.name "late", { mnemonic := "istore" }, .base .int⟩]

/-- A method that stores a long in the slots 100 and 101. -/
def WrittenMethod.storing : WrittenMethod where
  owner := .javaString
  flags := ⟨8⟩
  name := "f"
  descriptor := "()V"
  position := {}
  body :=
    [.instruction { mnemonic := "lconst_0" },
      .instruction { mnemonic := "lstore", operands := #[.localVar (.index 100)] }]

theorem LocalState.allocates_after_lastSlots :
    (⟨[.base .long], none⟩ : MethodDescriptor).argumentSlots true ≤ maxArgumentSlots ∧
      ((ofMethod (some .javaString) ⟨[.base .long], none⟩ true {}).after
        StoreRequest.lastSlots).table.locals.toList.map (·.index) = [0, 1, 3, 65533] ∧
      ((ofMethod (some .javaString) ⟨[.base .long], none⟩ true {}).after
        StoreRequest.lastSlots).Allocates ∧
      ∃ compiled s', WrittenMethod.storing.compile {} ⟨.empty, {}⟩ = .ok compiled s' ∧
        compiled.maxLocals = 102 ∧ compiled.maxLocals ≤ maxLocals := by
  have hroom : (⟨[.base .long], none⟩ : MethodDescriptor).argumentSlots true ≤ maxArgumentSlots := by
    decide
  obtain ⟨hallocates, hbounded⟩ :=
    @allocates_after (some .javaString) _ hroom true {} StoreRequest.lastSlots
  have hstores : Assembly.satisfies (fun compiled => compiled.maxLocals == 102)
      (WrittenMethod.storing.compile {}) ⟨.empty, {}⟩ = true := by
    unfold WrittenMethod.compile Analysis.ofBody
    iterate 2 rw [Analysis.run_eq]
    decide +kernel
  obtain ⟨compiled, s', h, hmax⟩ := Assembly.exists_of_satisfies hstores
  exact ⟨hroom, by decide +kernel, hallocates, compiled, s', h, eq_of_beq hmax,
    hbounded _ _ _ _ _ h⟩

end JvmAssembler
