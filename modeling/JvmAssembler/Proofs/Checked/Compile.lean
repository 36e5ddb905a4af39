import JvmAssembler.Proofs.Checked.Analysis
import JvmAssembler.Proofs.Checked.Code
import JvmAssembler.Proofs.Checked.Layout

/-! The stages of compilation, each with its checks, one after another. No check fails for any
method, but for a table that has the largest key of all. -/

namespace JvmAssembler

namespace Checked

/-- The frame at a label, with the offset of the label, if it has both. -/
def mapTarget (body : Body) (analysis : Analysis) (label : Nat) :
    Option (Option (Nat × Frame)) := do
  let found ← body.labels.labels[label]?
  return do return (← body.lines[found.instruction]?.map Line.offset, ← analysis.frame? label)

/-- The frames that the stack map is about, with their offsets. -/
def mapTargets (body : Body) (analysis : Analysis) (unreached : List (Nat × Nat)) :
    Option (List (Nat × Frame)) := do
  let jumped ← (body.lines.toList.flatMap Line.targets).mapM (mapTarget body analysis)
  return jumped.filterMap id ++ unreached.map fun range => (range.1, Body.throwing)

/-- Code and stack map of a body that is analysed. -/
def emit (body : Body) (initial : Frame) (analysis : Analysis) :
    Checked CompileError ClassState (List UInt8 × List (MapEntry ResolvedType)) := do
  let unreached := body.unreachedRanges analysis
  let targets ← mapTargets body analysis unreached
  let entries ← build initial targets
  let stackMap ← entries.mapM (resolveEntry body)
  let encoded ← encodeAll body
  (unreached.forM fun range => Emission.report (.replaced range.1 range.2) : Emission PUnit)
  let code ← (unreached.foldlM replace (encoded.flatMap Prod.snd) : Option (List UInt8))
  return (code, stackMap)

theorem mapM_eq_some {α β : Type} {f : α → Option β} {g : α → β} {xs : List α}
    (h : ∀ a ∈ xs, f a = some (g a)) : xs.mapM f = some (xs.map g) := by
  induction xs with
  | nil => rfl
  | cons a xs ih =>
      rw [List.mapM_cons, h a List.mem_cons_self, ih fun a ha => h a (List.mem_cons_of_mem _ ha)]
      rfl

theorem mapTargets_eq {body : Body} (hlaid : body.LaidOut) (analysis : Analysis)
    (unreached : List (Nat × Nat)) :
    mapTargets body analysis unreached = some (body.mapTargets analysis unreached) := by
  have hjumped : (body.lines.toList.flatMap Line.targets).mapM (mapTarget body analysis) = some _ :=
    mapM_eq_some (g := fun label => do
      return (← body.labelOffset? label, ← analysis.frame? label)) fun label hlabel => by
        obtain ⟨line, hline, hlabel⟩ := List.mem_flatMap.mp hlabel
        obtain ⟨i, hi⟩ := List.getElem?_of_mem hline
        have hlt := hlaid.target_lt (Array.getElem?_toList.symm.trans hi) hlabel
        rw [mapTarget, LabelTable.getElem?_of_lt hlt]
        rfl
  rw [mapTargets, hjumped, Body.mapTargets]
  simp only [Option.bind_eq_bind, Option.bind_some, List.filterMap_map]
  rfl

theorem emit_agrees {body : Body} (hlaid : body.LaidOut) (hsize : body.codeSize ≤ maxCodeSize)
    (hroom : body.Each Instruction.RoomAbove) {thisClass : BinaryName} {initial : Frame}
    {analysis : Analysis} {p : Progress} (hp : p.Concludes body thisClass initial analysis)
    (hinitial : body.Lists initial) :
    Agrees (emit body initial analysis) (body.emit initial analysis) := by
  refine .check (mapTargets_eq hlaid analysis _) ?_
  refine .check (build_eq initial fun target htarget => ?_) ?_
  · exact hlaid.offset_lt_of_mapFrames hp hsize htarget
  refine .bind (.mapM fun entry hentry => ?_) fun _ _ _ _ => ?_
  · refine resolveEntry_agrees hlaid hsize fun site hsite => ?_
    obtain ⟨_, _, line, hline, _⟩ := hlaid.exists_allocatedAt hp hinitial hentry hsite
    obtain ⟨hlt, _⟩ := Array.getElem?_eq_some_iff.mp hline
    exact hlt
  refine .bind (encodeAll_agrees hlaid hsize hroom) fun _ encoded _ hencoded => ?_
  refine .bind (.lift _) fun _ _ _ _ => ?_
  exact .check (replace_unreached hlaid analysis hencoded) (.pure _)

/-- Work on the journal. -/
def journaling {α : Type} (x : Checked CompileError Journal α) :
    Checked CompileError ClassState α := fun s =>
  (x s.journal).map fun result => Emission.journaling (fun _ => result) s

theorem Agrees.journaling {α : Type} {g : Checked CompileError Journal α}
    {x : Assembly Journal α} (h : Agrees g x) :
    Agrees (Checked.journaling g) (Emission.journaling x) := by
  intro s
  rw [Checked.journaling, h s.journal, Option.map_some]
  rfl

/-- Compiles a method, and adds its constants to the pool. -/
def compile (m : WrittenMethod) (settings : Settings) :
    Checked CompileError ClassState CompiledMethod := do
  let signature ← m.signature
  Emission.report (.compiling m.owner signature.name m.descriptor)
  let body ← journaling (layout m settings signature)
  let initial ← onEntry m.owner m.isStatic signature
  let analysis ← journaling (analysis body m.owner initial)
  let (code, stackMap) ← emit body initial analysis
  Emission.report (.compiled signature.name code.length stackMap.length)
  return {
    signature, flags := m.flags, maxStack := body.stackRoom analysis,
    maxLocals := analysis.maxLocals, body, labelFrames := analysis.labelFrames, stackMap, code }

end Checked

namespace WrittenMethod

/-- No check fails while a method is compiled, whatever the method and the state, unless a table of
the method has the largest key of all: every number of a label, an instruction, an allocation or a
local and every range of code that is looked up is in range, and no difference or number is out of
the range of its type. -/
theorem compile_passes_checks (m : WrittenMethod) (settings : Settings)
    (hkeys : ∀ insn ∈ m.instructions, insn.lastKey? ≠ some 2147483647) (s : ClassState) :
    Checked.compile m settings s = some (m.compile settings s) := by
  have hagrees : Checked.Agrees (Checked.compile m settings) (m.compile settings) := by
    refine .bind (.lift _) fun _ signature _ hsignature => ?_
    obtain ⟨hsignature, -⟩ := lift_eq_result hsignature
    refine .bind (.lift _) fun _ _ _ _ => ?_
    refine .bind (Checked.layout_agrees hsignature settings).journaling fun _ body _ hbody => ?_
    obtain ⟨_, hlayout, -⟩ := Emission.exists_of_journaling hbody
    obtain ⟨hlaid, hsize⟩ := laidOut_of_layout hlayout
    have hroom : body.Each Instruction.RoomAbove :=
      each_of_layout (fun insn hinsn => insn.roomAbove_evaluate (hkeys insn hinsn)) trivial _ _ _
        hlayout
    refine .check (Checked.onEntry_eq hsignature) ?_
    refine .bind (Checked.analysis_agrees hlaid _ _).journaling fun _ analysis _ hanalysis => ?_
    obtain ⟨_, hanalysis, -⟩ := Emission.exists_of_journaling hanalysis
    obtain ⟨p, hp⟩ := Progress.exists_concludes (by rw [Frame.stack_onEntry]; rfl) hanalysis
    have hinitial := body.lists_onEntry m.owner m.isStatic signature
    refine .bind (Checked.emit_agrees hlaid hsize hroom hp hinitial) fun _ _ _ _ => ?_
    exact .bind (.lift _) fun _ _ _ _ => .pure _
  exact hagrees s

/-- A method with a table of the two largest keys that are allowed, and with code behind the table
that is not reached. -/
def highTable : WrittenMethod where
  owner := .javaString
  flags := ⟨8⟩
  name := "f"
  descriptor := "()V"
  position := {}
  body :=
    [.instruction { mnemonic := "iconst_0" },
      .instruction
        { mnemonic := "tableswitch",
          operands := #[.number 2147483645, .label "end", .label "end", .label "end"] },
      .instruction { mnemonic := "nop" },
      .label "end" {}]

theorem compile_passes_checks_highTable :
    (∀ insn ∈ highTable.instructions, insn.lastKey? ≠ some 2147483647) ∧
      ∃ compiled s', highTable.compile {} ⟨.empty, {}⟩ = .ok compiled s' ∧
        Checked.compile highTable {} ⟨.empty, {}⟩ = some (.ok compiled s') := by
  have hkeys : ∀ insn ∈ highTable.instructions, insn.lastKey? ≠ some 2147483647 := by
    decide +kernel
  obtain ⟨compiled, s', h⟩ :
      ∃ compiled s', highTable.compile {} ⟨.empty, {}⟩ = .ok compiled s' := by
    apply Assembly.exists_of_succeeds
    unfold compile Analysis.ofBody
    iterate 3 rw [Analysis.run_eq]
    decide +kernel
  exact ⟨hkeys, compiled, s', h, h ▸ compile_passes_checks highTable {} hkeys ⟨.empty, {}⟩⟩

end WrittenMethod

end JvmAssembler
