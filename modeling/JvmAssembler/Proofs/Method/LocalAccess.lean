import JvmAssembler.Proofs.Analysis.PathSoundness
import JvmAssembler.Proofs.Frame.LocalAccess
import JvmAssembler.Proofs.Method.Reachability
import JvmAssembler.Proofs.StackMap.Targets

/-! On every path of a compiled method, loads and stores stay within the locals that the method has
room for, and loads find what they read. Increments are not checked. Whether they find an int on
every path can be told from the frames at labels: if all increments of a block find an int in the
frames that follow from the one at its label, they do so on all paths, and if one does not, there is
a path on which it does not. -/

namespace JvmAssembler

/-- An increment finds an int. -/
def Line.incrementFits (line : Line) (f : Frame) : Bool :=
  match line.instruction.increments? with
  | some access => f.localType access.index == .numeric .int
  | none => true

namespace Body

/-- All increments from an instruction to the end of its block find an int, if the instruction is
entered with the frame. -/
def blockFits (body : Body) (thisClass : BinaryName) (i : Nat) (f : Frame) : Bool :=
  if h : i < body.lines.size then
    let line := body.lines[i]
    line.incrementFits f &&
      match line.apply thisClass f with
      | .error _ => true
      | .ok f' =>
        if line.instruction.fallsThrough && (body.labels.block? (i + 1)).isNone then
          blockFits body thisClass (i + 1) f'
        else true
  else true
termination_by body.lines.size - i

/-- On every path, the uses of locals that are given for each instruction are sound. -/
def AccessesSound (body : Body) (thisClass : BinaryName) (initial : Frame) (maxLocals : Nat)
    (access? : SymbolicInstruction → Option LocalAccess) : Prop :=
  ∀ passed i, body.Path passed i → ∃ line f, body.lines[i]? = some line ∧
    body.follow thisClass passed initial = .ok f ∧
    ∀ access, access? line.instruction = some access → access.Sound maxLocals f

variable {body : Body} {thisClass : BinaryName} {initial : Frame}

theorem paired_of_follow {passed : List Nat} {f : Frame} (hinitial : initial.Paired)
    (h : body.follow thisClass passed initial = .ok f) : f.Paired := by
  induction passed generalizing initial with
  | nil =>
      cases h
      exact hinitial
  | cons i passed ih =>
      rw [follow] at h
      split at h
      · cases h
      · obtain ⟨next, happly, h⟩ := exists_of_bind_eq_ok h
        exact ih (hinitial.apply happly) h

theorem blockFits_iff {i : Nat} {line : Line} {f : Frame} (hline : body.lines[i]? = some line) :
    body.blockFits thisClass i f = true ↔ line.incrementFits f = true ∧
      ∀ f', line.apply thisClass f = .ok f' → line.instruction.fallsThrough = true →
        body.labels.block? (i + 1) = none → body.blockFits thisClass (i + 1) f' = true := by
  obtain ⟨hi, rfl⟩ := Array.getElem?_eq_some_iff.mp hline
  rw [blockFits, dif_pos hi]
  dsimp only
  rw [Bool.and_eq_true]
  refine and_congr_right fun _ => ?_
  cases happly : body.lines[i].apply thisClass f with
  | error e => exact ⟨fun _ f' hf' => (by cases hf'), fun _ => rfl⟩
  | ok f' =>
      dsimp only
      split
      · rename_i hinside
        rw [Bool.and_eq_true, Option.isNone_iff_eq_none] at hinside
        constructor
        · intro hfits f'' hf''
          cases hf''
          exact fun _ _ => hfits
        · intro hfits
          exact hfits f' rfl hinside.1 hinside.2
      · rename_i hinside
        rw [Bool.and_eq_true, Option.isNone_iff_eq_none] at hinside
        exact ⟨fun _ _ _ hfalls hnone => absurd ⟨hfalls, hnone⟩ hinside, fun _ => rfl⟩

end Body

namespace Progress.Concludes

open Body

variable {body : Body} {thisClass : BinaryName} {initial : Frame} {p : Progress}
  {analysis : Analysis}

/-- Loads and stores are sound. -/
theorem moves_sound (hp : p.Concludes body thisClass initial analysis)
    (hinitial : initial.Paired) :
    body.AccessesSound thisClass initial p.maxLocals Instruction.moves? := by
  intro passed i hpath
  obtain ⟨f, g, hfollow, hcovers, hbelow, hroom⟩ := hp.follow hpath
  obtain ⟨hline, happly, _, hlocals, _⟩ := hcovers.passes
  obtain ⟨f', happly', _, hsize⟩ := Line.apply_related .le hbelow happly
  refine ⟨_, f, hline, hfollow, fun access hmoves => ?_⟩
  exact Line.sound_of_moves hmoves happly' (paired_of_follow hinitial hfollow) hroom
    (Nat.le_trans hsize (Nat.max_le.mpr ⟨hroom, hlocals⟩))

/-- If the increments of all blocks find an int in the frames of the analysis, they are sound. -/
theorem increments_sound (hp : p.Concludes body thisClass initial analysis)
    (hlaidOut : body.LaidOut) (hinitial : initial.Paired)
    (hfits : ∀ label < body.labels.size, ∀ g, analysis.frame? label = some g →
      body.blockFits thisClass (body.labels.get label).instruction g = true) :
    body.AccessesSound thisClass initial p.maxLocals Instruction.increments? := by
  intro passed i hpath
  have hrecorded : ∀ label < body.labels.size, ∀ g,
      p.frame? (body.labels.get label).instruction = some g →
      body.blockFits thisClass (body.labels.get label).instruction g = true :=
    fun label hlabel g hg => hfits label hlabel g ((hp.frame? hlabel).trans hg)
  have hstart : ∀ g, p.frame? 0 = some g → body.blockFits thisClass 0 g = true := by
    have h := hrecorded LabelTable.start body.labels.size_pos
    rwa [LabelTable.instruction_start] at h
  have hlabels : ∀ {i : Nat} {line : Line} {label : Nat}, body.lines[i]? = some line →
      (label ∈ line.targets ∨ body.labels.block? (i + 1) = some label) →
      label < body.labels.size := by
    rintro i line label hline (htarget | hblock)
    · exact hlaidOut.target_lt hline htarget
    · exact (LabelTable.instruction_of_block? hblock).1
  obtain ⟨f, g, hfollow, hcovers, hbelow, hroom, hblock⟩ := hp.follow_invariant
    (P := fun i g => body.blockFits thisClass i g = true) hstart
    (fun hline hlabel => hrecorded _ (hlabels hline hlabel))
    (fun hline hblock => ((blockFits_iff hline).mp hblock).2 _) hpath
  obtain ⟨hline, _⟩ := hcovers.passes
  refine ⟨_, f, hline, hfollow, fun access hincrements => ?_⟩
  have hfit := ((blockFits_iff hline).mp hblock).1
  rw [Line.incrementFits, hincrements, beq_iff_eq] at hfit
  exact Line.sound_of_increments hincrements (paired_of_follow hinitial hfollow) hroom
    (hbelow.localType_eq hfit)

/-- Every recorded frame has the shape of the frame of some path. -/
theorem exists_path (hp : p.Concludes body thisClass initial analysis)
    (hinitial : initial.stack.start = 0) {i : Nat} {g : Frame} (h : p.frame? i = some g) :
    ∃ passed f, body.Path passed i ∧ body.follow thisClass passed initial = .ok f ∧
      f.SameShape g := by
  refine hp.meets (Q := fun i g => ∃ passed f, body.Path passed i ∧
    body.follow thisClass passed initial = .ok f ∧ f.SameShape g) ?_ ?_ i g h
  · constructor
    · rintro i j line g g' hline ⟨passed, f, hpath, hfollow, hshape⟩ happly hflows
      obtain ⟨f', happly', hshape'⟩ := Line.exists_apply hshape happly
      exact ⟨passed ++ [i], f', .step hpath hflows,
        follow_append_singleton hfollow hline happly', hshape'⟩
    · rintro i g g' ⟨passed, f, hpath, hfollow, hshape⟩ ⟨_, f', _, _, hshape'⟩ hmismatch
      have hrelated : g'.Related ValueType.SameShape g :=
        Frame.related_of_mismatch? hshape.stack.start_right hshape'.stack.start_right hmismatch
      exact ⟨passed, f, hpath, hfollow, hshape.trans (Frame.SameShape.join hrelated).symm⟩
  · exact ⟨[], initial, .start, rfl, .refl hinitial⟩

end Progress.Concludes

namespace Body

variable {body : Body} {thisClass : BinaryName} {initial : Frame} {maxLocals : Nat}

/-- If increments are sound, they find an int in all frames that have the shape of one of a path. -/
theorem AccessesSound.blockFits
    (h : body.AccessesSound thisClass initial maxLocals Instruction.increments?)
    {passed : List Nat} {i : Nat} {f g : Frame} (hpath : body.Path passed i)
    (hfollow : body.follow thisClass passed initial = .ok f) (hshape : f.SameShape g) :
    body.blockFits thisClass i g = true := by
  obtain ⟨line, f₁, hline, hfollow₁, hsound⟩ := h passed i hpath
  rw [hfollow, Except.ok.injEq] at hfollow₁
  subst hfollow₁
  refine (blockFits_iff hline).mpr ⟨?_, ?_⟩
  · rw [Line.incrementFits]
    split
    · rename_i access hincrements
      obtain ⟨hkind, hreads⟩ := Instruction.increments?_eq_some hincrements
      have hint := (hsound access hincrements).2 hreads
      rw [hkind, ValueKind.describes, beq_iff_eq] at hint
      have hsame := (hshape.localType access.index).symm
      rw [hint] at hsame
      exact beq_iff_eq.mpr (ValueType.eq_numeric_of_sameShape hsame)
    · rfl
  · intro g' happly hfalls hnone
    obtain ⟨f', happly', hshape'⟩ := Line.exists_apply hshape happly
    exact h.blockFits (.step hpath ⟨line, hline, .inl ⟨hfalls, rfl⟩⟩)
      (follow_append_singleton hfollow hline happly') hshape'
termination_by body.lines.size - i
decreasing_by
  obtain ⟨hi, _⟩ := Array.getElem?_eq_some_iff.mp hline
  omega

/-- All uses of locals are sound exactly if loads, stores and increments are. -/
theorem accessesSound_localAccess?_iff :
    body.AccessesSound thisClass initial maxLocals Instruction.localAccess? ↔
      body.AccessesSound thisClass initial maxLocals Instruction.moves? ∧
        body.AccessesSound thisClass initial maxLocals Instruction.increments? := by
  constructor
  · intro h
    constructor
    all_goals
      intro passed i hpath
      obtain ⟨line, f, hline, hfollow, hsound⟩ := h passed i hpath
      refine ⟨line, f, hline, hfollow, fun access haccess => hsound access ?_⟩
    · exact Instruction.localAccess?_eq_some_iff.mpr (.inl haccess)
    · exact Instruction.localAccess?_eq_some_iff.mpr (.inr haccess)
  · rintro ⟨hmoves, hincrements⟩ passed i hpath
    obtain ⟨line, f, hline, hfollow, hmove⟩ := hmoves passed i hpath
    obtain ⟨line', f', hline', hfollow', hincrement⟩ := hincrements passed i hpath
    rw [hline, Option.some.injEq] at hline'
    rw [hfollow, Except.ok.injEq] at hfollow'
    subst hline' hfollow'
    refine ⟨line, f, hline, hfollow, fun access haccess => ?_⟩
    exact (Instruction.localAccess?_eq_some_iff.mp haccess).elim (hmove access) (hincrement access)

end Body

/-- All increments find an int in the frames that follow from those at the labels. -/
def CompiledMethod.incrementsFit (compiled : CompiledMethod) (owner : BinaryName) : Bool :=
  (List.range compiled.body.labels.size).all fun label =>
    match compiled.labelFrames.getD label none with
    | none => true
    | some f => compiled.body.blockFits owner (compiled.body.labels.get label).instruction f

theorem CompiledMethod.incrementsFit_iff {compiled : CompiledMethod} {owner : BinaryName} :
    compiled.incrementsFit owner = true ↔ ∀ label < compiled.body.labels.size, ∀ g,
      compiled.labelFrames.getD label none = some g →
        compiled.body.blockFits owner (compiled.body.labels.get label).instruction g = true := by
  rw [incrementsFit, List.all_eq_true]
  constructor
  · intro h label hlabel g hg
    have hfits := h label (List.mem_range.mpr hlabel)
    rw [hg] at hfits
    exact hfits
  · intro h label hlabel
    split
    · rfl
    · rename_i g hg
      exact h label (List.mem_range.mp hlabel) g hg

namespace WrittenMethod

variable {m : WrittenMethod} {settings : Settings} {compiled : CompiledMethod}
  {s s' : ClassState}

/-- The frame that the method is entered with. -/
abbrev entryFrame (m : WrittenMethod) (compiled : CompiledMethod) : Frame :=
  Frame.onEntry m.owner m.isStatic compiled.signature

theorem moves_sound_of_compile (h : m.compile settings s = .ok compiled s') :
    compiled.body.AccessesSound m.owner (m.entryFrame compiled) compiled.maxLocals
      Instruction.moves? := by
  obtain ⟨analysis, encoded, s₀, s₁, s₂, hcompiles, _, _⟩ := exists_compiles h
  obtain ⟨p, hp⟩ := hcompiles.exists_concludes
  have hpaired : (m.entryFrame compiled).Paired := (compiled.body.lists_onEntry ..).1
  rw [hcompiles.maxLocals_eq, hp.maxLocals]
  exact hp.moves_sound hpaired

theorem increments_sound_iff (h : m.compile settings s = .ok compiled s') :
    compiled.body.AccessesSound m.owner (m.entryFrame compiled) compiled.maxLocals
      Instruction.increments? ↔ compiled.incrementsFit m.owner = true := by
  obtain ⟨analysis, encoded, s₀, s₁, s₂, hcompiles, _, _⟩ := exists_compiles h
  obtain ⟨p, hp⟩ := hcompiles.exists_concludes
  have hpaired : (m.entryFrame compiled).Paired := (compiled.body.lists_onEntry ..).1
  rw [CompiledMethod.incrementsFit_iff, hcompiles.labelFrames_eq, hcompiles.maxLocals_eq,
    hp.maxLocals]
  constructor
  · intro hsound label hlabel g hg
    have hbased : (m.entryFrame compiled).stack.start = 0 := by
      rw [Frame.stack_onEntry]
      rfl
    obtain ⟨passed, f, hpath, hfollow, hshape⟩ :=
      hp.exists_path hbased ((hp.frame? hlabel).symm.trans hg)
    exact hsound.blockFits hpath hfollow hshape
  · intro hfits
    exact hp.increments_sound hcompiles.laidOut hpaired hfits

/-- **Uses of locals on all paths of a compiled method.** Loads and stores stay within the locals of
the method, and loads find a value of the kind that they read. All uses of locals, increments
included, do so exactly if the increments find an int in the frames that follow from those at the
labels. -/
theorem local_accesses_sound_iff (h : m.compile settings s = .ok compiled s') :
    compiled.body.AccessesSound m.owner (m.entryFrame compiled) compiled.maxLocals
      Instruction.moves? ∧
    (compiled.body.AccessesSound m.owner (m.entryFrame compiled) compiled.maxLocals
      Instruction.localAccess? ↔ compiled.incrementsFit m.owner = true) := by
  have hmoves := moves_sound_of_compile h
  refine ⟨hmoves, ?_⟩
  rw [Body.accessesSound_localAccess?_iff, increments_sound_iff h]
  exact and_iff_right hmoves

/-- A method without arguments. -/
def ofBody (body : List Statement) : WrittenMethod where
  owner := .javaString
  flags := ⟨8⟩
  name := "f"
  descriptor := "()V"
  position := {}
  body := body

/-- A local is counted up in a loop. -/
def countingLoop : WrittenMethod := ofBody
  [.instruction { mnemonic := "iconst_0" },
    .instruction { mnemonic := "istore_0" },
    .label "loop" {},
    .instruction { mnemonic := "iinc", operands := #[.localVar (.index 0), .number 1] },
    .instruction { mnemonic := "goto", operands := #[.label "loop"] }]

theorem local_accesses_sound_countingLoop :
    ∃ compiled s', countingLoop.compile {} ⟨.empty, {}⟩ = .ok compiled s' ∧
      compiled.body.AccessesSound countingLoop.owner (countingLoop.entryFrame compiled)
        compiled.maxLocals Instruction.localAccess? := by
  have hsatisfies : Assembly.satisfies (CompiledMethod.incrementsFit · countingLoop.owner)
      (countingLoop.compile {}) ⟨.empty, {}⟩ = true := by
    unfold compile Analysis.ofBody
    iterate 4 rw [Analysis.run_eq]
    decide +kernel
  obtain ⟨compiled, s', h, hfits⟩ := Assembly.exists_of_satisfies hsatisfies
  exact ⟨compiled, s', h, (local_accesses_sound_iff h).2.mpr hfits⟩

/-- A local that holds a float is counted up. -/
def floatCounter : WrittenMethod := ofBody
  [.instruction { mnemonic := "fconst_0" },
    .instruction { mnemonic := "fstore_0" },
    .instruction { mnemonic := "iinc", operands := #[.localVar (.index 0), .number 1] },
    .instruction { mnemonic := "return" }]

/-- A local that is only written in code that is skipped is counted up. -/
def skippedCounter : WrittenMethod := ofBody
  [.instruction { mnemonic := "goto", operands := #[.label "count"] },
    .instruction { mnemonic := "istore", operands := #[.localVar (.index 5)] },
    .label "count" {},
    .instruction { mnemonic := "iinc", operands := #[.localVar (.index 5), .number 1] },
    .instruction { mnemonic := "return" }]

theorem not_accessesSound_of_satisfies
    (h : Assembly.satisfies (fun compiled => !compiled.incrementsFit m.owner)
      (m.compile settings) s = true) :
    ∃ compiled s', m.compile settings s = .ok compiled s' ∧
      ¬compiled.body.AccessesSound m.owner (m.entryFrame compiled) compiled.maxLocals
        Instruction.localAccess? := by
  obtain ⟨compiled, s', hcompile, hcheck⟩ := Assembly.exists_of_satisfies h
  refine ⟨compiled, s', hcompile, fun hsound => ?_⟩
  have hfits := (increments_sound_iff hcompile).mp
    (Body.accessesSound_localAccess?_iff.mp hsound).2
  rw [hfits] at hcheck
  cases hcheck

/-- Both methods are compiled, though an increment does not find an int. -/
theorem not_accessesSound_counters :
    (∃ compiled s', floatCounter.compile {} ⟨.empty, {}⟩ = .ok compiled s' ∧
      ¬compiled.body.AccessesSound floatCounter.owner (floatCounter.entryFrame compiled)
        compiled.maxLocals Instruction.localAccess?) ∧
    ∃ compiled s', skippedCounter.compile {} ⟨.empty, {}⟩ = .ok compiled s' ∧
      ¬compiled.body.AccessesSound skippedCounter.owner (skippedCounter.entryFrame compiled)
        compiled.maxLocals Instruction.localAccess? := by
  constructor
  all_goals
    apply not_accessesSound_of_satisfies
    unfold compile Analysis.ofBody
    iterate 4 rw [Analysis.run_eq]
    decide +kernel

end WrittenMethod

end JvmAssembler
