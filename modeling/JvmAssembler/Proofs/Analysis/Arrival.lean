import JvmAssembler.Analysis.Basic

/-! What happens when a frame arrives at a label that has one is a choice of its own: the analysis
widens the recorded frame and has the block simulated again, but it could as well only check that
the frames agree. The analysis is repeated here with the rule of arrival as a parameter. With the
widening rule it is the analysis itself, and with the checking rule every block is simulated once,
with the frame that reached it first. -/

namespace JvmAssembler

/-- A rule by which a frame arrives at a label, by a jump from a line or by falling through. -/
structure Arrival where
  arrive : LabelTable → Nat → Frame → Option Line → Progress →
    EStateM.Result CompileError Progress Unit
  advances : ∀ {labels : LabelTable} {label : Nat} {f : Frame} {source : Option Line}
    {p q : Progress}, arrive labels label f source p = .ok () q → p.Advances q

namespace Progress

/-- A frame arrives at a label, and is recorded if it is the first. Otherwise it has to agree with
the recorded one, which stays as it is. -/
def check (labels : LabelTable) (label : Nat) (f : Frame) (source : Option Line)
    (p : Progress) : EStateM.Result CompileError Progress Unit :=
  let target := labels.get label
  match p.frames[target.instruction]? with
  | none => .error (noInstruction label target source) p
  | some none => .ok () ((p.report (.recording target.name f)).record target.instruction f)
  | some (some expected) =>
    let p := p.report (.checking target.name f)
    match expected.mismatch? f with
    | some mismatch => .error (disagreement label target expected f mismatch) p
    | none => .ok () p

/-- What a check that succeeds does: it records the frame, or finds that it agrees. -/
theorem check_cases {labels : LabelTable} {label : Nat} {f : Frame} {source : Option Line}
    {p q : Progress} (h : p.check labels label f source = .ok () q) :
    let i := (labels.get label).instruction
    ∃ journal,
      (p.frames[i]? = some none ∧ q = { p.record i f with journal := journal }) ∨
      ∃ expected, p.frames[i]? = some (some expected) ∧ expected.mismatch? f = none ∧
        q = { p with journal := journal } := by
  simp only [check] at h
  split at h
  · cases h
  · rename_i hget
    cases h
    exact ⟨_, .inl ⟨hget, rfl⟩⟩
  · rename_i expected hget
    split at h
    · cases h
    · rename_i hmismatch
      cases h
      exact ⟨_, .inr ⟨expected, hget, hmismatch, rfl⟩⟩

theorem advances_of_check {labels : LabelTable} {label : Nat} {f : Frame} {source : Option Line}
    {p q : Progress} (h : p.check labels label f source = .ok () q) : p.Advances q := by
  obtain ⟨journal, ⟨hget, rfl⟩ | ⟨_, _, _, rfl⟩⟩ := check_cases h
  · exact .inr (further_record hget)
  · exact .inl ⟨rfl, rfl⟩

end Progress

namespace Arrival

/-- The references of the recorded frame are widened by those of the frame that arrives. -/
def widening : Arrival where
  arrive := fun labels label f source p => p.propagate labels label f source
  advances := Progress.advances_of_propagate

/-- The recorded frame is kept. -/
def checking : Arrival where
  arrive := fun labels label f source p => p.check labels label f source
  advances := Progress.advances_of_check

variable (a : Arrival)

/-- A frame arrives at each of several labels in turn. -/
def arriveAll (labels : LabelTable) (f : Frame) (source : Line) :
    List Nat → Progress → EStateM.Result CompileError Progress Unit
  | [], p => .ok () p
  | label :: rest, p =>
    match a.arrive labels label f (some source) p with
    | .ok () p => arriveAll labels f source rest p
    | .error e p => .error e p

theorem arriveAll_widening (labels : LabelTable) (f : Frame) (source : Line) (targets : List Nat)
    (p : Progress) :
    widening.arriveAll labels f source targets p =
      Progress.propagateAll labels f source targets p := by
  induction targets generalizing p with
  | nil => rfl
  | cons label rest ih =>
      simp only [arriveAll, Progress.propagateAll, ih]
      rfl

variable {a}

theorem advances_of_arriveAll {labels : LabelTable} {f : Frame} {source : Line}
    {targets : List Nat} {p q : Progress}
    (h : a.arriveAll labels f source targets p = .ok () q) : p.Advances q := by
  induction targets generalizing p with
  | nil =>
      cases h
      exact .refl _
  | cons label rest ih =>
      simp only [arriveAll] at h
      split at h
      · rename_i r hr
        exact (a.advances hr).trans (ih h)
      · cases h

end Arrival

namespace Analysis

variable (a : Arrival)

/-- Simulates instructions from number `i` to the end of the block. -/
def walkWith (body : Body) (thisClass : BinaryName) (i : Nat) (f : Frame) (p : Progress) :
    EStateM.Result CompileError Progress Unit :=
  if h : i < body.lines.size then
    let line := body.lines[i]
    match line.apply thisClass f with
    | .error e => .error e p
    | .ok f =>
      match a.arriveAll body.labels f line line.targets (p.simulated line f) with
      | .error e p => .error e p
      | .ok () p =>
        if !line.instruction.fallsThrough then .ok () p
        else if i + 1 = body.lines.size then .error (.fallsOffEnd line.id line.position) p
        else
          match body.labels.block? (i + 1) with
          | some next => a.arrive body.labels next f none p
          | none => walkWith body thisClass (i + 1) f p
  else .ok () p
termination_by body.lines.size - i

/-- Simulates the block at an instruction with the frame recorded there. -/
def simulateWith (body : Body) (thisClass : BinaryName) (leader : Nat) (p : Progress) :
    EStateM.Result CompileError Progress Unit :=
  match p.frame? leader with
  | none => .ok () p
  | some f => walkWith a body thisClass leader f (p.report (.simulating leader))

variable {a}

theorem advances_of_walkWith {body : Body} {thisClass : BinaryName} {i : Nat} {f : Frame}
    {p q : Progress} (h : walkWith a body thisClass i f p = .ok () q) : p.Advances q := by
  have hall : ∀ {line : Line} {f' : Frame} {p r : Progress},
      a.arriveAll body.labels f' line line.targets (p.simulated line f') = .ok () r →
      p.Advances r :=
    fun {line f' p _} hr => (Arrival.advances_of_arriveAll hr : (p.simulated line f').Advances _)
  fun_induction walkWith a body thisClass i f p with
  | case1 => cases h
  | case2 => cases h
  | case3 i f p hi line f' _ r hr =>
      cases h
      exact hall hr
  | case4 => cases h
  | case5 i f p hi line f' _ r hr _ _ next _ => exact (hall hr).trans (a.advances h)
  | case6 i f p hi line f' _ r hr _ _ _ ih => exact (hall hr).trans (ih h)
  | case7 =>
      cases h
      exact .refl _

theorem advances_of_simulateWith {body : Body} {thisClass : BinaryName} {leader : Nat}
    {p q : Progress} (h : simulateWith a body thisClass leader p = .ok () q) : p.Advances q := by
  simp only [simulateWith] at h
  split at h
  · cases h
    exact .refl _
  · exact (advances_of_walkWith h : (p.report (.simulating leader)).Advances _)

variable (a)

/-- Simulates pending blocks until there are none. -/
def runWith (body : Body) (thisClass : BinaryName) (p : Progress) :
    EStateM.Result CompileError Progress Unit :=
  match _hpop : p.pending.pop? with
  | none => .ok () p
  | some (leader, rest) =>
    match _hsim : simulateWith a body thisClass leader { p with pending := rest } with
    | .error e q => .error e q
    | .ok () q => runWith body thisClass q
termination_by (p.unrecorded, p.slack, p.pending.size)
decreasing_by
  rcases advances_of_simulateWith _hsim with ⟨hframes, hpending⟩ | hfurther
  · have hsize := Queue.size_lt_of_pop? _hpop
    simp only [Progress.unrecorded, Progress.slack, hframes, hpending]
    exact Prod.Lex.right _ (Prod.Lex.right _ hsize)
  · rcases hfurther with hlt | ⟨heq, hlt⟩
    · exact Prod.Lex.left _ _ hlt
    · have heq' : q.unrecorded = p.unrecorded := heq
      rw [heq']
      exact Prod.Lex.right _ (Prod.Lex.left _ _ hlt)

/-- The first pending block is simulated, and then those that are pending after it. -/
theorem runWith_eq (body : Body) (thisClass : BinaryName) (p : Progress) :
    runWith a body thisClass p =
    match p.pending.pop? with
    | none => .ok () p
    | some (leader, rest) =>
      match simulateWith a body thisClass leader { p with pending := rest } with
      | .error e q => .error e q
      | .ok () q => runWith a body thisClass q := by
  rw [runWith.eq_def]
  split
  · rename_i hpop
    simp only [hpop]
  · rename_i hpop
    simp only [hpop]
    split
    · rename_i hsim
      simp only [hsim]
    · rename_i hsim
      simp only [hsim]

/-- The analysis of a body that starts with a frame. -/
def ofBodyWith (body : Body) (thisClass : BinaryName) (initial : Frame) :
    Assembly Journal Analysis :=
  fun journal =>
    let journal := journal.report (.analysing body.lines.size initial)
    if body.lines.isEmpty then .error (.fallsOffEnd none {}) journal
    else
      let p := Progress.start body.lines.size initial journal
      match a.arrive body.labels LabelTable.start initial none p with
      | .error e p => .error e p.journal
      | .ok () p =>
        match runWith a body thisClass p with
        | .error e p => .error e p.journal
        | .ok () p =>
          let (journal, analysis) := conclude body p
          .ok analysis journal

theorem walkWith_widening (body : Body) (thisClass : BinaryName) (i : Nat) (f : Frame)
    (p : Progress) : walkWith .widening body thisClass i f p = walk body thisClass i f p := by
  fun_induction walk body thisClass i f p with
  | case1 i f p hi line e happly =>
      rw [walkWith, dif_pos hi]
      simp only [line] at happly
      simp only [happly]
  | case2 i f p hi line f' happly e r hr =>
      rw [walkWith, dif_pos hi]
      simp only [line] at happly hr
      simp only [happly, Arrival.arriveAll_widening, hr]
  | case3 i f p hi line f' happly r hr hstop =>
      rw [walkWith, dif_pos hi]
      simp only [line] at happly hr hstop
      simp only [happly, Arrival.arriveAll_widening, hr, if_pos hstop]
  | case4 i f p hi line f' happly r hr hfalls hend =>
      rw [walkWith, dif_pos hi]
      simp only [line] at happly hr hfalls
      simp only [happly, Arrival.arriveAll_widening, hr, if_neg hfalls, if_pos hend, line]
  | case5 i f p hi line f' happly r hr hfalls hend next hnext =>
      rw [walkWith, dif_pos hi]
      simp only [line] at happly hr hfalls
      simp only [happly, Arrival.arriveAll_widening, hr, if_neg hfalls, if_neg hend, hnext]
      rfl
  | case6 i f p hi line f' happly r hr hfalls hend hnone ih =>
      rw [walkWith, dif_pos hi]
      simp only [line] at happly hr hfalls
      simp only [happly, Arrival.arriveAll_widening, hr, if_neg hfalls, if_neg hend, hnone, ih]
  | case7 i f p hi => rw [walkWith, dif_neg hi]

theorem simulateWith_widening (body : Body) (thisClass : BinaryName) (leader : Nat)
    (p : Progress) : simulateWith .widening body thisClass leader p =
      simulate body thisClass leader p := by
  rw [simulateWith, simulate]
  cases p.frame? leader with
  | none => rfl
  | some f => exact walkWith_widening body thisClass leader f _

theorem runWith_widening (body : Body) (thisClass : BinaryName) (p : Progress) :
    runWith .widening body thisClass p = run body thisClass p := by
  fun_induction run body thisClass p with
  | case1 p hpop => rw [runWith_eq, hpop]
  | case2 p leader rest hpop e q hsim =>
      rw [runWith_eq, hpop]
      simp only [simulateWith_widening, hsim]
  | case3 p leader rest hpop q hsim ih =>
      rw [runWith_eq, hpop]
      simp only [simulateWith_widening, hsim, ih]

theorem ofBodyWith_widening (body : Body) (thisClass : BinaryName) (initial : Frame) :
    ofBodyWith .widening body thisClass initial = ofBody body thisClass initial := by
  funext journal
  simp only [ofBodyWith, ofBody, runWith_widening]
  rfl

end Analysis

end JvmAssembler
