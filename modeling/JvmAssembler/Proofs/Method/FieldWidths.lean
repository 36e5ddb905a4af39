import JvmAssembler.Proofs.Analysis.StackBound
import JvmAssembler.Proofs.Method.Certificate
import JvmAssembler.Proofs.Method.LocalRoom
import JvmAssembler.Proofs.Method.PoolIndependence
import JvmAssembler.Proofs.StackMap.ReadBack

/-! A class file has 16 bits for the room of the stack and for each count of the stack map. Code and
locals are limited so that most counts fit, but nothing limits the stack. What is written for a
method can be read back exactly if the room for its stack can be written. An instruction takes one
byte at least and adds two slots at most, so this is so for all code of up to 32767 bytes. -/

namespace JvmAssembler

namespace MapEntry

section Between

variable {τ : Type} [DecidableEq τ]

theorem fits_between (delta : UInt16) (previous : List τ) {locals stack : List τ}
    (hlocals : locals.length < 0x10000) (hstack : stack.length < 0x10000) :
    (between delta previous locals stack).Fits := by
  unfold between
  split
  · split
    · split <;> trivial
    · split
      · trivial
      · exact ⟨hlocals, hstack⟩
  · split
    · trivial
    · exact ⟨hlocals, hstack⟩
  · exact ⟨hlocals, hstack⟩

end Between

theorem length_stack_lt {τ : Type} {entry : MapEntry τ} (h : entry.Fits) :
    entry.stack.length < 0x10000 := by
  cases entry with
  | full delta locals stack => exact h.2
  | oneStack delta type => exact Nat.lt_of_le_of_lt (Nat.le_refl 1) (by decide)
  | _ => exact Nat.zero_lt_succ _

/-- An entry of the same form with lists of the same lengths, as far as lengths are written. -/
structure Resembles {τ τ' : Type} (entry : MapEntry τ) (other : MapEntry τ') : Prop where
  hasTag : entry.HasTag → other.HasTag
  fits : entry.Fits → other.Fits
  stack : other.stack.length = entry.stack.length

theorem resembles_of_traverse {τ τ' ε σ : Type} {f : τ → EStateM ε σ τ'} {entry : MapEntry τ}
    {other : MapEntry τ'} {s s' : σ} (h : entry.traverse f s = .ok other s') :
    entry.Resembles other := by
  have hlength : ∀ {types : List τ} {others : List τ'} {s s' : σ},
      types.mapM f s = .ok others s' → types.length = others.length := by
    intro types others s s' hmap
    obtain ⟨_, hall⟩ := forall₂_of_mapM_eq_result (R := fun _ _ => True) (P := fun _ _ _ => True)
      (fun _ => trivial) (fun _ _ => trivial) (fun _ _ => trivial)
      (fun _ _ {_ _ _} _ => ⟨trivial, trivial⟩) hmap
    exact hall.length_eq
  cases entry with
  | same delta | chop delta count =>
      cases h
      exact ⟨id, id, rfl⟩
  | oneStack delta type =>
      obtain ⟨found, s₁, _, hreturn⟩ := exists_of_bind_eq_result h
      cases hreturn
      exact ⟨id, id, rfl⟩
  | append delta locals =>
      obtain ⟨found, s₁, hfound, hreturn⟩ := exists_of_bind_eq_result h
      cases hreturn
      refine ⟨fun htag => ?_, id, rfl⟩
      have hcount : 1 ≤ locals.length ∧ locals.length ≤ 3 := htag
      rw [hlength hfound] at hcount
      exact hcount
  | full delta locals stack =>
      obtain ⟨foundLocals, s₁, hlocals, h⟩ := exists_of_bind_eq_result h
      obtain ⟨foundStack, s₂, hstack, hreturn⟩ := exists_of_bind_eq_result h
      cases hreturn
      refine ⟨id, fun hfits => ?_, (hlength hstack).symm⟩
      exact ⟨hlength hlocals ▸ hfits.1, hlength hstack ▸ hfits.2⟩

end MapEntry

namespace StackMap

theorem length_reversedTypes_le (before : List SymbolicType) (locals : List Value) :
    (reversedTypes before locals).length ≤ before.length + locals.length := by
  fun_induction reversedTypes before locals with
  | case1 before => exact Nat.le_add_right _ _
  | case2 before value rest ih =>
      rw [List.length_cons, List.length_drop] at ih
      rw [List.length_cons]
      omega

theorem length_localTypes_le (locals : List Value) : (localTypes locals).length ≤ locals.length := by
  rw [localTypes, List.length_reverse]
  have hall := length_reversedTypes_le [] locals
  rw [List.length_nil, Nat.zero_add] at hall
  exact Nat.le_trans (List.dropWhile_sublist _).length_le hall

theorem length_stackTypes_le (f : Frame) : (stackTypes f).length ≤ f.depth := by
  have hwidth : ∀ values : List Value, values.length ≤ totalWidth values := by
    intro values
    induction values with
    | nil => exact Nat.le_refl 0
    | cons v values ih =>
        have hpos : 0 < v.width := v.type.width_pos
        rw [totalWidth_cons, List.length_cons]
        show values.length + 1 ≤ v.width + totalWidth values
        omega
  rw [stackTypes, List.length_map, Frame.depth, SlotVec.next_eq_toList]
  exact Nat.le_trans (hwidth _) (Nat.le_add_left _ _)

theorem length_entries (previous : Option Nat) (locals : List SymbolicType)
    (targets : List (Nat × Frame)) : (entries previous locals targets).length = targets.length := by
  induction targets generalizing previous locals with
  | nil => rfl
  | cons target targets ih => exact congrArg (· + 1) (ih _ _)

/-- An entry tells a frame from the locals of the entry before. -/
theorem exists_of_mem_entries {previous : Option Nat} {locals : List SymbolicType}
    {targets : List (Nat × Frame)} {entry : Nat × MapEntry SymbolicType}
    (h : entry ∈ entries previous locals targets) :
    ∃ target ∈ targets, ∃ before beforeLocals,
      entry.2 = entryAfter before beforeLocals target.1 target.2 := by
  induction targets generalizing previous locals with
  | nil => cases h
  | cons target targets ih =>
      rcases List.mem_cons.mp h with rfl | hrest
      · exact ⟨target, List.mem_cons_self, previous, locals, rfl⟩
      · obtain ⟨found, hfound, htold⟩ := ih hrest
        exact ⟨found, List.mem_cons_of_mem _ hfound, htold⟩

end StackMap

/-- The room for the stack has at most 16 bits, and the stack map can be read back from its bytes. -/
structure CompiledMethod.FitsFields (compiled : CompiledMethod) : Prop where
  maxStack_le : compiled.maxStack ≤ 65535
  stackMap_read : ∃ bytes, compiled.stackMapBytes = .ok bytes ∧
    StackMap.read bytes = some compiled.stackMap

namespace WrittenMethod

variable {m : WrittenMethod} {settings : Settings} {compiled : CompiledMethod}
  {analysis : Analysis} {encoded : List (Line × List UInt8)} {s₀ s₁ s₂ : ClassState}

namespace Compiles

theorem forall₂_stackMap (h : m.Compiles settings compiled analysis encoded s₀ s₁ s₂) :
    List.Forall₂ (fun entry resolved => MapEntry.Resembles entry.2 resolved)
      (StackMap.build (Frame.onEntry m.owner m.isStatic compiled.signature)
        (compiled.body.mapTargets analysis (compiled.body.unreachedRanges analysis)))
      compiled.stackMap := by
  obtain ⟨_, hall⟩ := forall₂_of_mapM_eq_result (R := fun _ _ => True)
    (P := fun (entry : Nat × MapEntry SymbolicType) resolved _ => entry.2.Resembles resolved)
    (fun _ => trivial) (fun _ _ => trivial) (fun hentry _ => hentry) (by
      intro entry _ s resolved s' hresolve
      obtain ⟨_, s₁, _, htraverse⟩ := exists_of_bind_eq_result hresolve
      exact ⟨trivial, MapEntry.resembles_of_traverse htraverse⟩) h.emitted.stackMap_eq
  exact hall

/-- Each entry of the stack map tells one of its frames. -/
theorem exists_of_mem_stackMap (h : m.Compiles settings compiled analysis encoded s₀ s₁ s₂)
    {entry : MapEntry ResolvedType} (hentry : entry ∈ compiled.stackMap) :
    ∃ offset f previous locals, (compiled.body.mapFrames analysis)[offset]? = some f ∧
      (StackMap.entryAfter previous locals offset f).Resembles entry := by
  obtain ⟨told, htold, hresembles⟩ := exists_of_mem_right h.forall₂_stackMap hentry
  obtain ⟨⟨offset, f⟩, htarget, previous, locals, heq⟩ := StackMap.exists_of_mem_entries htold
  refine ⟨offset, f, previous, locals, ?_, heq ▸ hresembles⟩
  exact Std.TreeMap.mem_toList_iff_getElem?_eq_some.mp htarget

/-- There are not more entries than bytes of code. -/
theorem length_stackMap_le (h : m.Compiles settings compiled analysis encoded s₀ s₁ s₂) :
    compiled.stackMap.length ≤ maxCodeSize := by
  obtain ⟨p, hp⟩ := h.exists_concludes
  have hlength : compiled.stackMap.length = (compiled.body.mapFrames analysis).toList.length :=
    h.forall₂_stackMap.length_eq.symm.trans (StackMap.length_entries _ _ _)
  have hnodup : ((compiled.body.mapFrames analysis).toList.map Prod.fst).Nodup := by
    rw [List.nodup_iff_pairwise_ne, List.pairwise_map]
    exact (StackMap.pairwise_toList _).imp fun hlt => Nat.ne_of_lt hlt
  have hwithin : ((compiled.body.mapFrames analysis).toList.map Prod.fst).toFinset ⊆
      Finset.range maxCodeSize := by
    intro offset hoffset
    obtain ⟨⟨found, f⟩, htarget, rfl⟩ := List.mem_map.mp (List.mem_toFinset.mp hoffset)
    obtain ⟨i, line, hline, heq, _⟩ := h.laidOut.mapFrames_cases hp
      (Std.TreeMap.mem_toList_iff_getElem?_eq_some.mp htarget)
    have hstop := h.laidOut.stop_le hline
    have hpos : 0 < line.size := Instruction.sizeAt_pos _ _
    have hsize := h.codeSize
    rw [Line.stop] at hstop
    exact Finset.mem_range.mpr (by omega)
  have hcard := Finset.card_le_card hwithin
  rw [List.toFinset_card_of_nodup hnodup, Finset.card_range, List.length_map] at hcard
  exact hlength ▸ hcard

/-- The frames of the stack map are within the room for the stack, those of replaced code too. -/
theorem depth_le_of_mapFrames (h : m.Compiles settings compiled analysis encoded s₀ s₁ s₂)
    {offset : Nat} {f : Frame} (hf : (compiled.body.mapFrames analysis)[offset]? = some f) :
    f.depth ≤ compiled.maxStack := by
  obtain ⟨_, _, hanalysis⟩ := h.analysed
  rw [h.maxStack_eq, Body.stackRoom]
  rcases Body.mem_mapTargets_iff.mp (StackMap.mem_of_getElem?_byOffset hf) with
    ⟨_, _, label, _, _, hframe⟩ | ⟨⟨stop, hrange⟩, rfl⟩
  · have hdepth : f.depth ≤ analysis.maxStack :=
      Analysis.depth_le_maxStack hanalysis (by rw [Frame.depth, Frame.stack_onEntry]; rfl) hframe
    split
    · exact hdepth
    · exact Nat.le_trans hdepth (Nat.le_max_left _ _)
  · rw [if_neg]
    · exact Nat.le_max_right _ _
    · rw [List.isEmpty_iff]
      exact List.ne_nil_of_mem hrange

/-- The room for the stack is at most two slots for each byte of code. -/
theorem maxStack_le (h : m.Compiles settings compiled analysis encoded s₀ s₁ s₂) :
    compiled.maxStack ≤ 2 * compiled.code.length := by
  obtain ⟨_, _, hanalysis⟩ := h.analysed
  have hroom : analysis.maxStack ≤ 2 * compiled.body.lines.size :=
    Analysis.maxStack_le_two_mul hanalysis (by rw [Frame.depth, Frame.stack_onEntry]; rfl)
  have hlines : compiled.body.lines.size ≤ compiled.code.length := by
    rw [h.length_code]
    have hsizes := List.length_le_sum_of_one_le (compiled.body.lines.toList.map Line.size) (by
      intro size hsize
      obtain ⟨line, _, rfl⟩ := List.mem_map.mp hsize
      exact Instruction.sizeAt_pos _ _)
    rwa [List.length_map, Array.length_toList] at hsizes
  rw [h.maxStack_eq, Body.stackRoom]
  split
  · omega
  · rename_i hunreached
    obtain ⟨⟨start, stop⟩, hrange⟩ := List.exists_mem_of_ne_nil _
      (fun hnil => hunreached (List.isEmpty_iff.mpr hnil))
    obtain ⟨block, hblock, first, hfirst, _, _⟩ := Body.mem_unreachedRanges_iff.mp ⟨stop, hrange⟩
    obtain ⟨i, hi, _⟩ := Body.exists_block_iff.mp ⟨block, hblock, hfirst⟩
    obtain ⟨hlt, _⟩ := Array.getElem?_eq_some_iff.mp hi
    omega

/-- All entries of the stack map have bytes, and only the lists of stacks can be too long. -/
theorem exists_stackMapBytes (h : m.Compiles settings compiled analysis encoded s₀ s₁ s₂) :
    ∃ bytes, compiled.stackMapBytes = .ok bytes ∧
      (StackMap.read bytes = some compiled.stackMap ↔
        ∀ entry ∈ compiled.stackMap, entry.stack.length ≤ 65535) := by
  have hencode : ∀ entry ∈ compiled.stackMap, ∃ bytes, entry.encode = .ok bytes := by
    intro entry hentry
    obtain ⟨_, _, _, _, _, hresembles⟩ := h.exists_of_mem_stackMap hentry
    exact MapEntry.exists_encode (hresembles.hasTag (MapEntry.hasTag_between _ _ _ _))
  obtain ⟨items, hitems⟩ := exists_mapM_eq_ok hencode
  refine ⟨Bytes.counted items, ?_, ?_⟩
  · rw [CompiledMethod.stackMapBytes, hitems]
    rfl
  · rw [StackMap.read_counted_iff hitems]
    constructor
    · intro hfits entry hentry
      exact Nat.le_of_lt_succ (MapEntry.length_stack_lt (hfits.2 entry hentry))
    · intro hstacks
      refine ⟨Nat.lt_succ_of_le h.length_stackMap_le, fun entry hentry => ?_⟩
      obtain ⟨offset, f, _, _, hf, hresembles⟩ := h.exists_of_mem_stackMap hentry
      refine hresembles.fits (MapEntry.fits_between _ _ ?_ ?_)
      · have hlocals := StackMap.length_localTypes_le f.locals.toList
        rw [Array.length_toList] at hlocals
        exact Nat.lt_succ_of_le (Nat.le_trans hlocals (h.size_le_of_mapFrames hf))
      · have hstack := hresembles.stack
        rw [StackMap.entryAfter, MapEntry.stack_between] at hstack
        rw [← hstack]
        exact Nat.lt_succ_of_le (hstacks entry hentry)

/-- The stacks that the stack map lists are within the room for the stack. -/
theorem length_stack_le (h : m.Compiles settings compiled analysis encoded s₀ s₁ s₂)
    {entry : MapEntry ResolvedType} (hentry : entry ∈ compiled.stackMap) :
    entry.stack.length ≤ compiled.maxStack := by
  obtain ⟨offset, f, _, _, hf, hresembles⟩ := h.exists_of_mem_stackMap hentry
  have hstack := hresembles.stack
  rw [StackMap.entryAfter, MapEntry.stack_between] at hstack
  calc
    entry.stack.length = (StackMap.stackTypes f).length := hstack
    _ ≤ f.depth := StackMap.length_stackTypes_le f
    _ ≤ compiled.maxStack := h.depth_le_of_mapFrames hf

end Compiles

/-- **Fields of a compiled method.** The entries of the stack map always have bytes, and the stack map
is read back from them exactly if no entry lists more than 65535 stack entries. All fields can be read
back exactly if the room for the stack is at most 65535 slots. It is at most two slots for each byte
of code, so this is so for all code of up to 32767 bytes. -/
theorem fitsFields_iff {s s' : ClassState} (h : m.compile settings s = .ok compiled s') :
    (∃ bytes, compiled.stackMapBytes = .ok bytes ∧
      (StackMap.read bytes = some compiled.stackMap ↔
        ∀ entry ∈ compiled.stackMap, entry.stack.length ≤ 65535)) ∧
    (compiled.FitsFields ↔ compiled.maxStack ≤ 65535) ∧
    compiled.maxStack ≤ 2 * compiled.code.length := by
  obtain ⟨analysis, encoded, s₀, s₁, s₂, hcompiles, _, _⟩ := exists_compiles h
  obtain ⟨bytes, hbytes, hread⟩ := hcompiles.exists_stackMapBytes
  refine ⟨⟨bytes, hbytes, hread⟩, ⟨fun hfits => hfits.maxStack_le, fun hroom => ?_⟩,
    hcompiles.maxStack_le⟩
  refine ⟨hroom, bytes, hbytes, hread.mpr fun entry hentry => ?_⟩
  exact Nat.le_trans (hcompiles.length_stack_le hentry) hroom

theorem fitsFields_iff_sample :
    ∃ compiled s', sample.compile {} ⟨.empty, {}⟩ = .ok compiled s' ∧
      (∃ bytes, compiled.stackMapBytes = .ok bytes ∧
        (StackMap.read bytes = some compiled.stackMap ↔
          ∀ entry ∈ compiled.stackMap, entry.stack.length ≤ 65535)) ∧
      (compiled.FitsFields ↔ compiled.maxStack ≤ 65535) ∧
      compiled.maxStack ≤ 2 * compiled.code.length := by
  obtain ⟨compiled, s', h⟩ := exists_compile_sample
  exact ⟨compiled, s', h, fitsFields_iff h⟩

end WrittenMethod

end JvmAssembler
