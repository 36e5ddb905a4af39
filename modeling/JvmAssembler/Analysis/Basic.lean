import JvmAssembler.Analysis.Progress
import JvmAssembler.Analysis.Step

/-! Blocks are simulated from the start of the method along jumps and falling through, in the order
in which they are first reached. A block is simulated with the frame that reached it first, and
again whenever the references in that frame are widened. The analysis gives the frame at every label
that is reached, and the room that stack and locals take. -/

namespace JvmAssembler

structure Analysis where
  /-- The frame at each label that is reached. -/
  labelFrames : Array (Option Frame)
  maxStack : Nat
  maxLocals : Nat

namespace Analysis

/-- The frame at a label. -/
def frame? (a : Analysis) (label : Nat) : Option Frame := a.labelFrames.getD label none

/-- Simulates instructions from number `i` to the end of the block. -/
def walk (body : Body) (thisClass : BinaryName) (i : Nat) (f : Frame) (p : Progress) :
    EStateM.Result CompileError Progress Unit :=
  if h : i < body.lines.size then
    let line := body.lines[i]
    match line.apply thisClass f with
    | .error e => .error e p
    | .ok f =>
      match Progress.propagateAll body.labels f line line.targets (p.simulated line f) with
      | .error e p => .error e p
      | .ok () p =>
        if !line.instruction.fallsThrough then .ok () p
        else if i + 1 = body.lines.size then .error (.fallsOffEnd line.id line.position) p
        else
          match body.labels.block? (i + 1) with
          | some next => p.propagate body.labels next f none
          | none => walk body thisClass (i + 1) f p
  else .ok () p
termination_by body.lines.size - i

/-- Simulates the block at an instruction with the frame recorded there. -/
def simulate (body : Body) (thisClass : BinaryName) (leader : Nat) (p : Progress) :
    EStateM.Result CompileError Progress Unit :=
  match p.frame? leader with
  | none => .ok () p
  | some f => walk body thisClass leader f (p.report (.simulating leader))

theorem advances_of_walk {body : Body} {thisClass : BinaryName} {i : Nat} {f : Frame}
    {p q : Progress} (h : walk body thisClass i f p = .ok () q) : p.Advances q := by
  fun_induction walk body thisClass i f p with
  | case1 => cases h
  | case2 => cases h
  | case3 i f p hi line f' _ r hr =>
      cases h
      exact (Progress.advances_of_propagateAll hr : (p.simulated line f').Advances _)
  | case4 => cases h
  | case5 i f p hi line f' _ r hr _ _ next _ =>
      have hall : p.Advances r :=
        (Progress.advances_of_propagateAll hr : (p.simulated line f').Advances _)
      exact hall.trans (Progress.advances_of_propagate h)
  | case6 i f p hi line f' _ r hr _ _ _ ih =>
      have hall : p.Advances r :=
        (Progress.advances_of_propagateAll hr : (p.simulated line f').Advances _)
      exact hall.trans (ih h)
  | case7 =>
      cases h
      exact .refl _

theorem advances_of_simulate {body : Body} {thisClass : BinaryName} {leader : Nat}
    {p q : Progress} (h : simulate body thisClass leader p = .ok () q) : p.Advances q := by
  simp only [simulate] at h
  split at h
  · cases h
    exact .refl _
  · exact (advances_of_walk h : (p.report (.simulating leader)).Advances _)

/-- Simulates pending blocks until there are none. -/
def run (body : Body) (thisClass : BinaryName) (p : Progress) :
    EStateM.Result CompileError Progress Unit :=
  match _hpop : p.pending.pop? with
  | none => .ok () p
  | some (leader, rest) =>
    match _hsim : simulate body thisClass leader { p with pending := rest } with
    | .error e q => .error e q
    | .ok () q => run body thisClass q
termination_by (p.unrecorded, p.slack, p.pending.size)
decreasing_by
  rcases advances_of_simulate _hsim with ⟨hframes, hpending⟩ | hfurther
  · have hsize := Queue.size_lt_of_pop? _hpop
    simp only [Progress.unrecorded, Progress.slack, hframes, hpending]
    exact Prod.Lex.right _ (Prod.Lex.right _ hsize)
  · rcases hfurther with hlt | ⟨heq, hlt⟩
    · exact Prod.Lex.left _ _ hlt
    · have heq' : q.unrecorded = p.unrecorded := heq
      rw [heq']
      exact Prod.Lex.right _ (Prod.Lex.left _ _ hlt)

/-- The first pending block is simulated, and then those that are pending after it. -/
theorem run_eq : @run = fun body thisClass p =>
    match p.pending.pop? with
    | none => .ok () p
    | some (leader, rest) =>
      match simulate body thisClass leader { p with pending := rest } with
      | .error e q => .error e q
      | .ok () q => run body thisClass q := by
  funext body thisClass p
  rw [run.eq_def]
  split
  · rename_i hpop
    simp only [hpop]
  · rename_i hpop
    simp only [hpop]
    split
    · rename_i hsim
      simp only [hsim]
    · rename_i hsim
      simp only [hsim]

/-- Number of instructions in each block, by its label. -/
def blockSizes (body : Body) : Array Nat :=
  body.lines.foldl (fun sizes line => sizes.modify line.block (· + 1))
    (Array.replicate body.labels.size 0)

/-- Reports a block that is not reached. -/
def reportUnreached (body : Body) (p : Progress) (sizes : Array Nat) (journal : Journal)
    (id : Nat) (label : Label) : Journal :=
  if (p.frame? label.instruction).isNone && label.instruction < body.lines.size
      && body.labels.block? label.instruction == some id then
    journal.report (.unreachable label.position label.name (sizes.getD id 0))
  else journal

/-- What the analysis says in the end, with a report of the blocks that are not reached. -/
def conclude (body : Body) (p : Progress) : Journal × Analysis :=
  let sizes := blockSizes body
  let journal := body.labels.labels.toList.zipIdx.foldl
    (fun journal (label, id) => reportUnreached body p sizes journal id label) p.journal
  (journal.report (.analysed p.maxStack p.maxLocals),
    { labelFrames := body.labels.labels.map fun label => p.frame? label.instruction
      maxStack := p.maxStack
      maxLocals := p.maxLocals })

/-- The analysis of a body that starts with a frame. -/
def ofBody (body : Body) (thisClass : BinaryName) (initial : Frame) : Assembly Journal Analysis :=
  fun journal =>
    let journal := journal.report (.analysing body.lines.size initial)
    if body.lines.isEmpty then .error (.fallsOffEnd none {}) journal
    else
      let p := Progress.start body.lines.size initial journal
      match p.propagate body.labels LabelTable.start initial none with
      | .error e p => .error e p.journal
      | .ok () p =>
        match run body thisClass p with
        | .error e p => .error e p.journal
        | .ok () p =>
          let (journal, analysis) := conclude body p
          .ok analysis journal

end Analysis

end JvmAssembler
