import JvmAssembler.Proofs.Method.Blocks
import JvmAssembler.Proofs.Method.Stages

/-! Control can get to an instruction exactly if the block of the instruction has a frame. So what
is replaced in the code of a method is what no path gets to. -/

namespace JvmAssembler

namespace Frame

theorem stack_setParameters (f : Frame) (index : Nat) (types : List FieldType) :
    (f.setParameters index types).stack = f.stack := by
  induction types generalizing f index with
  | nil => rfl
  | cons type rest ih => rw [setParameters, ih, stack_setLocal]

/-- A method is entered with an empty stack. -/
theorem stack_onEntry (owner : BinaryName) (isStatic : Bool) (s : Signature) :
    (onEntry owner isStatic s).stack = .empty := by
  unfold onEntry
  split
  · exact stack_setParameters _ _ _
  · rw [stack_setParameters, stack_setLocal]
    rfl

end Frame

namespace Body.LaidOut

variable {body : Body}

theorem flows_of_continues (h : body.LaidOut) {i : Nat} {previous line : Line}
    (hprevious : body.lines[i]? = some previous) (hline : body.lines[i + 1]? = some line)
    (hnone : body.labels.block? (i + 1) = none) : body.Flows i (i + 1) := by
  obtain ⟨_, hbranch⟩ := h.continues hprevious hline hnone
  refine ⟨previous, hprevious, .inl ⟨?_, rfl⟩⟩
  cases hinsn : previous.instruction with
  | operation op => rfl
  | branch b =>
      rw [hinsn] at hbranch
      cases hbranch

/-- Control only falls into an instruction without a label. -/
theorem reachable_of_continues (h : body.LaidOut) {i : Nat}
    (hnone : body.labels.block? (i + 1) = none) (hreachable : body.Reachable (i + 1)) :
    body.Reachable i := by
  rcases hreachable.cases_tail with heq | ⟨j, hj, line, hline, ⟨_, hnext⟩ | ⟨label, hlabel, hinsn⟩⟩
  · cases heq
  · cases hnext
    exact hj
  · have hsome := LabelTable.isSome_block? (h.target_lt hline hlabel)
    rw [← hinsn, hnone] at hsome
    cases hsome

theorem reachable_continues_iff (h : body.LaidOut) {i : Nat} {previous line : Line}
    (hprevious : body.lines[i]? = some previous) (hline : body.lines[i + 1]? = some line)
    (hnone : body.labels.block? (i + 1) = none) :
    body.Reachable (i + 1) ↔ body.Reachable i :=
  ⟨h.reachable_of_continues hnone,
    fun hreachable => hreachable.tail (h.flows_of_continues hprevious hline hnone)⟩

/-- An instruction can be reached exactly if its block has a frame. -/
theorem isSome_frame?_block_iff (h : body.LaidOut) {thisClass : BinaryName} {initial : Frame}
    {analysis : Analysis} {p : Progress} (hp : p.Concludes body thisClass initial analysis)
    {i : Nat} {line : Line} (hline : body.lines[i]? = some line) :
    (analysis.frame? line.block).isSome ↔ body.Reachable i := by
  induction i generalizing line with
  | zero =>
      obtain ⟨block, hblock⟩ := Option.isSome_iff_exists.mp body.labels.isSome_block?_zero
      obtain ⟨hlt, hinsn⟩ := LabelTable.instruction_of_block? hblock
      rw [h.leads hline hblock, hp.isSome_frame?_iff hlt, hinsn]
  | succ i ih =>
      cases hblock : body.labels.block? (i + 1) with
      | some block =>
          obtain ⟨hlt, hinsn⟩ := LabelTable.instruction_of_block? hblock
          rw [h.leads hline hblock, hp.isSome_frame?_iff hlt, hinsn]
      | none =>
          have hi : i < body.lines.size := by
            obtain ⟨hlt, _⟩ := Array.getElem?_eq_some_iff.mp hline
            omega
          have hprevious : body.lines[i]? = some body.lines[i] := Array.getElem?_eq_getElem hi
          rw [(h.continues hprevious hline hblock).1, ih hprevious,
            h.reachable_continues_iff hprevious hline hblock]

end Body.LaidOut

namespace CompiledMethod

/-- The bytes at the place of an instruction. -/
def bytesAt (compiled : CompiledMethod) (line : Line) : List UInt8 :=
  (compiled.code.drop line.offset).take line.size

end CompiledMethod

namespace WrittenMethod

variable {m : WrittenMethod} {settings : Settings} {compiled : CompiledMethod}
  {analysis : Analysis} {encoded : List (Line × List UInt8)} {s₀ s₁ s₂ : ClassState}

theorem Compiles.exists_concludes
    (h : m.Compiles settings compiled analysis encoded s₀ s₁ s₂) :
    ∃ p : Progress, p.Concludes compiled.body m.owner
      (Frame.onEntry m.owner m.isStatic compiled.signature) analysis := by
  obtain ⟨_, _, hanalysis⟩ := h.analysed
  refine Progress.exists_concludes ?_ hanalysis
  rw [Frame.stack_onEntry]
  rfl

/-- The bytes at the place of an instruction are its own if its block is reached, and replaced
otherwise. -/
theorem Compiles.bytesAt (h : m.Compiles settings compiled analysis encoded s₀ s₁ s₂) {i : Nat}
    {line : Line} (hline : compiled.body.lines[i]? = some line) :
    ∃ bytes, encoded[i]? = some (line, bytes) ∧ bytes.length = line.size ∧
      compiled.bytesAt line = Body.piece analysis (line, bytes) (encoded.drop (i + 1)) := by
  obtain ⟨hlines, hlengths⟩ := Body.encode_spec h.emitted.encode_eq
  have hentry : (encoded.map Prod.fst)[i]? = some line := by
    rw [hlines, Array.getElem?_toList]
    exact hline
  rw [List.getElem?_map, Option.map_eq_some_iff] at hentry
  obtain ⟨⟨_, bytes⟩, hentry, rfl⟩ := hentry
  have hlength : bytes.length = _ := hlengths _ (List.mem_of_getElem? hentry)
  have hpos := Body.length_pos_of_encode h.emitted.encode_eq
  have hsizes : (encoded.map fun entry => entry.2.length) =
      compiled.body.lines.toList.map Line.size := by
    rw [← hlines, List.map_map]
    exact List.map_congr_left hlengths
  refine ⟨bytes, hentry, hlength, ?_⟩
  rw [← Body.slice_code analysis hpos hentry, hsizes, ← List.map_take, ← h.laidOut.offset_eq hline,
    hlength, ← h.code_eq]
  rfl

/-- Labels have a frame exactly if control can get to them, and the bytes of an instruction are
replaced exactly if control cannot get to it. -/
theorem replaces_dead_code {s s' : ClassState} (h : m.compile settings s = .ok compiled s') :
    (∀ label < compiled.body.labels.size,
      ((compiled.labelFrames.getD label none).isSome ↔
        compiled.body.Reachable (compiled.body.labels.get label).instruction)) ∧
    ∃ encoded s₁ s₂, compiled.body.encode s₁ = .ok encoded s₂ ∧
      ∀ i line, compiled.body.lines[i]? = some line →
        ∃ bytes, encoded[i]? = some (line, bytes) ∧
          (compiled.body.Reachable i → compiled.bytesAt line = bytes) ∧
          (¬ compiled.body.Reachable i → compiled.bytesAt line = Body.replacement line.size
            (Body.endsBlock line (compiled.body.lines.toList.drop (i + 1)))) := by
  obtain ⟨analysis, encoded, s₀, s₁, s₂, hcompiles, _, _⟩ := exists_compiles h
  obtain ⟨p, hp⟩ := hcompiles.exists_concludes
  have hencode := hcompiles.emitted.encode_eq
  refine ⟨?_, encoded, s₁, s₂, hencode, ?_⟩
  · intro label hlabel
    rw [hcompiles.labelFrames_eq]
    exact hp.isSome_frame?_iff hlabel
  · intro i line hline
    obtain ⟨bytes, hentry, hlength, hbytes⟩ := hcompiles.bytesAt hline
    have hreached := hcompiles.laidOut.isSome_frame?_block_iff hp hline
    refine ⟨bytes, hentry, ?_, ?_⟩
    · intro hreachable
      rw [hbytes, Body.piece, if_pos (hreached.mpr hreachable)]
    · intro hunreachable
      rw [hbytes, Body.piece, if_neg fun hsome => hunreachable (hreached.mp hsome), List.map_drop,
        (Body.encode_spec hencode).1, hlength]

/-- In the sample, the instruction after the jump is replaced and the one at its target is not. -/
theorem replaces_dead_code_sample :
    ∃ compiled s', sample.compile {} ⟨.empty, {}⟩ = .ok compiled s' ∧
      compiled.body.Reachable 8 ∧ ¬ compiled.body.Reachable 6 ∧
      ∃ encoded s₁ s₂, compiled.body.encode s₁ = .ok encoded s₂ ∧
        (∃ line, encoded[8]? = some (line, [0x57]) ∧ compiled.bytesAt line = [0x57]) ∧
        ∃ line bytes, encoded[6]? = some (line, bytes) ∧ compiled.bytesAt line = [0x00, 0x00] ∧
          Body.replacement line.size
            (Body.endsBlock line (compiled.body.lines.toList.drop 7)) = [0x00, 0x00] := by
  have hsatisfies : Assembly.satisfies (fun compiled =>
      compiled.body.labels.size == 4 &&
      (compiled.body.labels.get 2).instruction == 8 && (compiled.labelFrames.getD 2 none).isSome &&
      (compiled.body.labels.get 3).instruction == 6 && (compiled.labelFrames.getD 3 none).isNone &&
      compiled.body.lines[8]?.any (compiled.bytesAt · == [0x57]) &&
      compiled.body.lines[6]?.any (compiled.bytesAt · == [0x00, 0x00]))
      (sample.compile {}) ⟨.empty, {}⟩ = true := by
    unfold compile Analysis.ofBody
    iterate 4 rw [Analysis.run_eq]
    decide +kernel
  obtain ⟨compiled, s', h, hcheck⟩ := Assembly.exists_of_satisfies hsatisfies
  simp only [Bool.and_eq_true, beq_iff_eq, Option.any_eq_true] at hcheck
  obtain ⟨⟨⟨⟨⟨⟨hsize, hdone⟩, hframe⟩, hskipped⟩, hnoFrame⟩, pop, hpop, hpopBytes⟩, ldc, hldc,
    hldcBytes⟩ := hcheck
  obtain ⟨hlabels, encoded, s₁, s₂, hencode, hbytes⟩ := replaces_dead_code h
  have hreached : compiled.body.Reachable 8 := hdone ▸ (hlabels 2 (by omega)).mp hframe
  have hunreached : ¬ compiled.body.Reachable 6 := by
    intro hreachable
    have hsome := (hlabels 3 (by omega)).mpr (hskipped.symm ▸ hreachable)
    rw [Option.isNone_iff_eq_none.mp hnoFrame] at hsome
    cases hsome
  obtain ⟨bytes, hentry, hkept, _⟩ := hbytes 8 pop hpop
  obtain ⟨bytes', hentry', _, hreplaced⟩ := hbytes 6 ldc hldc
  have hbytes : bytes = [0x57] := (hkept hreached).symm.trans hpopBytes
  exact ⟨compiled, s', h, hreached, hunreached, encoded, s₁, s₂, hencode,
    ⟨pop, hbytes ▸ hentry, hpopBytes⟩,
    ldc, bytes', hentry', hldcBytes, (hreplaced hunreached).symm.trans hldcBytes⟩

end WrittenMethod

end JvmAssembler
