import JvmAssembler.Proofs.Analysis.Course
import JvmAssembler.Proofs.Checked.Basic
import JvmAssembler.Proofs.Method.Layout

/-! The analysis looks up instructions, labels and locals by their numbers. For a body that is laid
out all of these numbers are in range, also where the analysis fails. -/

namespace JvmAssembler.Checked

/-- Breaks a value of two slots that has its second slot at an index. -/
def breakBefore (locals : Array Value) (i : Nat) : Option (Array Value) :=
  if 0 < i then do
    let first ← sub i 1
    let value ← locals[first]?
    if value.width = 2 then set locals first Value.unusable else some locals
  else some locals

/-- Makes the slot after an index unusable if a value takes it. -/
def coverAfter (locals : Array Value) (i width : Nat) : Option (Array Value) :=
  if width = 2 then set locals (i + 1) Value.unusable else some locals

/-- Writes a value into a local. -/
def setLocal (f : Frame) (index : UInt16) (value : Value) : Option Frame := do
  let i := index.toNat
  let locals ← breakBefore (Frame.extendLocals f.locals (i + value.width)) i
  let locals ← coverAfter locals i value.width
  let locals ← set locals i value
  return ⟨locals, f.stack⟩

theorem breakBefore_eq {locals : Array Value} {i : Nat} (h : i < locals.size) :
    breakBefore locals i = some
      (if 0 < i && (locals.getD (i - 1) Value.unusable).width == 2 then
        locals.setIfInBounds (i - 1) Value.unusable
      else locals) := by
  unfold breakBefore
  by_cases hpos : 0 < i
  · have hbefore : i - 1 < locals.size := by omega
    have hget : locals[i - 1]? = some (locals.getD (i - 1) Value.unusable) := by
      rw [Array.getD_eq_getD_getElem?, Array.getElem?_eq_getElem hbefore, Option.getD_some]
    rw [if_pos hpos, sub_eq hpos]
    simp only [Option.bind_eq_bind, Option.bind_some, hget, set_eq hbefore, hpos, decide_true,
      Bool.true_and, beq_iff_eq, apply_ite some]
  · rw [if_neg hpos]
    simp [hpos]

theorem coverAfter_eq {locals : Array Value} {i width : Nat} (h : i + width ≤ locals.size) :
    coverAfter locals i width = some
      (if width = 2 then locals.setIfInBounds (i + 1) Value.unusable else locals) := by
  unfold coverAfter
  split
  · exact set_eq (by omega) _
  · rfl

theorem size_ite_setIfInBounds {c : Prop} [Decidable c] (locals : Array Value) (i : Nat)
    (value : Value) : (if c then locals.setIfInBounds i value else locals).size = locals.size := by
  split
  · exact Array.size_setIfInBounds
  · rfl

theorem setLocal_eq (f : Frame) (index : UInt16) (value : Value) :
    setLocal f index value = some (f.setLocal index value) := by
  obtain ⟨locals, stack⟩ := f
  have hpos : 0 < value.width := value.type.width_pos
  have hsize : index.toNat + value.width ≤
      (Frame.extendLocals locals (index.toNat + value.width)).size := by
    rw [Frame.size_extendLocals]
    exact Nat.le_max_right _ _
  simp only [setLocal, Frame.setLocal, Option.bind_eq_bind]
  generalize Frame.extendLocals locals (index.toNat + value.width) = extended at hsize ⊢
  rw [breakBefore_eq (by omega), Option.bind_some]
  rw [coverAfter_eq (by rwa [size_ite_setIfInBounds]), Option.bind_some]
  rw [set_eq (by rw [size_ite_setIfInBounds, size_ite_setIfInBounds]; omega)]
  rfl

/-- Stores the value that was popped first. -/
def storePopped (groups : List (List Value)) (index : Option UInt16) (f : Frame) : Option Frame :=
  match index, (groups.getD 0 []).head? with
  | some index, some value => setLocal f index value
  | _, _ => some f

/-- The frame after an instruction. -/
def apply (thisClass : BinaryName) (line : Line) (f : Frame) :
    Option (Except CompileError Frame) :=
  match line.instruction.effect with
  | .unchanged => some (.ok f)
  | .change c =>
    match line.takeAll c.pops f.stack with
    | .error e => some (.error e)
    | .ok (groups, stack) => do
      let f := Line.initializeReceiver thisClass groups c.initializes { f with stack := stack }
      let f ← storePopped groups c.store f
      return c.pushes.foldlM (line.push groups) f

theorem storePopped_eq (groups : List (List Value)) (index : Option UInt16) (f : Frame) :
    storePopped groups index f = some (Line.storePopped groups index f) := by
  unfold storePopped Line.storePopped
  cases index with
  | none => rfl
  | some index =>
      cases (groups.getD 0 []).head? with
      | none => rfl
      | some value => exact setLocal_eq f index value

theorem apply_eq (thisClass : BinaryName) (line : Line) (f : Frame) :
    apply thisClass line f = some (line.apply thisClass f) := by
  unfold apply Line.apply
  cases line.instruction.effect with
  | unchanged => rfl
  | change c =>
      simp only [Line.applyChange]
      cases line.takeAll c.pops f.stack with
      | error e => rfl
      | ok taken =>
          simp only [storePopped_eq]
          rfl

/-- A frame arrives at a label. -/
def propagate (labels : LabelTable) (label : Nat) (f : Frame) (source : Option Line) :
    Checked CompileError Progress Unit := fun p =>
  labels.labels[label]?.map fun _ => p.propagate labels label f source

/-- A frame arrives at each of several labels in turn. -/
def propagateAll (labels : LabelTable) (f : Frame) (source : Line) :
    List Nat → Checked CompileError Progress Unit
  | [] => pure ()
  | label :: rest => do
    propagate labels label f (some source)
    propagateAll labels f source rest

section Arrivals

variable {labels : LabelTable} {f : Frame} {p : Progress}
  {r : EStateM.Result CompileError Progress Unit}

theorem propagate_eq {label : Nat} (h : label < labels.size) (f : Frame) (source : Option Line)
    (p : Progress) :
    propagate labels label f source p = some (p.propagate labels label f source) := by
  rw [propagate, LabelTable.getElem?_of_lt h, Option.map_some]

theorem propagate_of_checked {label : Nat} {source : Option Line}
    (h : propagate labels label f source p = some r) : p.propagate labels label f source = r := by
  obtain ⟨_, _, hr⟩ := Option.map_eq_some_iff.mp h
  exact hr

theorem propagateAll_eq {targets : List Nat} (h : ∀ label ∈ targets, label < labels.size)
    (f : Frame) (source : Line) (p : Progress) :
    propagateAll labels f source targets p =
      some (Progress.propagateAll labels f source targets p) := by
  induction targets generalizing p with
  | nil => rfl
  | cons label rest ih =>
      rw [propagateAll, bind_eq, propagate_eq (h label List.mem_cons_self), Option.bind_some,
        Progress.propagateAll]
      cases p.propagate labels label f (some source) with
      | error e q => rfl
      | ok _ q => exact ih (fun label hlabel => h label (List.mem_cons_of_mem _ hlabel)) q

theorem propagateAll_of_checked {source : Line} {targets : List Nat}
    (h : propagateAll labels f source targets p = some r) :
    Progress.propagateAll labels f source targets p = r := by
  induction targets generalizing p with
  | nil => exact Option.some.inj h
  | cons label rest ih =>
      rw [propagateAll, bind_eq] at h
      obtain ⟨first, hfirst, hrest⟩ := Option.bind_eq_some_iff.mp h
      rw [Progress.propagateAll, propagate_of_checked hfirst]
      cases first with
      | error e q => exact Option.some.inj hrest
      | ok _ q => exact ih hrest

end Arrivals

/-- Simulates instructions from number `i` to the end of the block. -/
def walk (body : Body) (thisClass : BinaryName) (i : Nat) (f : Frame) (p : Progress) :
    Option (EStateM.Result CompileError Progress Unit) :=
  if h : i < body.lines.size then
    let line := body.lines[i]
    match apply thisClass line f with
    | none => none
    | some (.error e) => some (.error e p)
    | some (.ok f) =>
      match propagateAll body.labels f line line.targets (p.simulated line f) with
      | none => none
      | some (.error e p) => some (.error e p)
      | some (.ok () p) =>
        if !line.instruction.fallsThrough then some (.ok () p)
        else if i + 1 = body.lines.size then some (.error (.fallsOffEnd line.id line.position) p)
        else
          match body.labels.block? (i + 1) with
          | some next => propagate body.labels next f none p
          | none => walk body thisClass (i + 1) f p
  else none
termination_by body.lines.size - i

section Walk

variable {body : Body} {thisClass : BinaryName} {i : Nat} {f : Frame} {p : Progress}

theorem executes_of_checked {f' : Frame} {q : Progress} (hi : i < body.lines.size)
    (happly : apply thisClass body.lines[i] f = some (.ok f'))
    (hjumps : propagateAll body.labels f' body.lines[i] body.lines[i].targets
      (p.simulated body.lines[i] f') = some (.ok () q)) :
    Analysis.Executes body thisClass i f p body.lines[i] f' q where
  hline := Array.getElem?_eq_getElem hi
  happly := by
    rw [apply_eq, Option.some.injEq] at happly
    exact happly
  hjumps := propagateAll_of_checked hjumps

theorem walk_of_checked {r : EStateM.Result CompileError Progress Unit}
    (h : walk body thisClass i f p = some r) : Analysis.walk body thisClass i f p = r := by
  fun_induction walk body thisClass i f p with
  | case1 => cases h
  | case2 i f p hi line e happly =>
      rw [apply_eq, Option.some.injEq] at happly
      rw [Analysis.walk, dif_pos hi]
      simp only [show body.lines[i].apply thisClass f = .error e from happly]
      exact Option.some.inj h
  | case3 => cases h
  | case4 i f p hi line f' happly e q hjumps =>
      rw [apply_eq, Option.some.injEq] at happly
      rw [Analysis.walk, dif_pos hi]
      simp only [show body.lines[i].apply thisClass f = .ok f' from happly,
        show Progress.propagateAll body.labels f' body.lines[i] body.lines[i].targets
          (p.simulated body.lines[i] f') = .error e q from propagateAll_of_checked hjumps]
      exact Option.some.inj h
  | case5 i f p hi line f' happly q hjumps hstops =>
      rw [Analysis.walk_of_executes (executes_of_checked hi happly hjumps), if_pos hstops]
      exact Option.some.inj h
  | case6 i f p hi line f' happly q hjumps hfalls hend =>
      rw [Analysis.walk_of_executes (executes_of_checked hi happly hjumps), if_neg hfalls,
        if_pos hend]
      exact Option.some.inj h
  | case7 i f p hi line f' happly q hjumps hfalls hend label hnext =>
      rw [Analysis.walk_of_executes (executes_of_checked hi happly hjumps), if_neg hfalls,
        if_neg hend, hnext]
      exact propagate_of_checked h
  | case8 i f p hi line f' happly q hjumps hfalls hend hnone ih =>
      rw [Analysis.walk_of_executes (executes_of_checked hi happly hjumps), if_neg hfalls,
        if_neg hend, hnone]
      exact ih h
  | case9 => cases h

/-- From an instruction on, all checks succeed. -/
theorem walk_eq (hlaid : body.LaidOut) (hi : i < body.lines.size) :
    walk body thisClass i f p = some (Analysis.walk body thisClass i f p) := by
  suffices h : (walk body thisClass i f p).isSome by
    obtain ⟨r, hr⟩ := Option.isSome_iff_exists.mp h
    rw [hr, walk_of_checked hr]
  fun_induction walk body thisClass i f p with
  | case1 i f p _ line hnone =>
      rw [apply_eq] at hnone
      cases hnone
  | case3 i f p hi line f' _ hnone =>
      have htargets : ∀ label ∈ line.targets, label < body.labels.size := fun label hlabel =>
        hlaid.target_lt (Array.getElem?_eq_getElem hi) hlabel
      rw [propagateAll_eq htargets] at hnone
      cases hnone
  | case7 i f p _ line f' _ q _ _ _ label hnext =>
      rw [propagate_eq (LabelTable.instruction_of_block? hnext).1]
      rfl
  | case8 i f p _ line f' _ q _ _ hend _ ih => exact ih (by omega)
  | case9 i f p hge => exact absurd hi hge
  | _ => rfl

end Walk

/-- Simulates the block at an instruction with the frame recorded there. -/
def simulate (body : Body) (thisClass : BinaryName) (leader : Nat) (p : Progress) :
    Option (EStateM.Result CompileError Progress Unit) :=
  match p.frame? leader with
  | none => some (.ok () p)
  | some f => walk body thisClass leader f (p.report (.simulating leader))

theorem simulate_of_checked {body : Body} {thisClass : BinaryName} {leader : Nat} {p : Progress}
    {r : EStateM.Result CompileError Progress Unit}
    (h : simulate body thisClass leader p = some r) :
    Analysis.simulate body thisClass leader p = r := by
  unfold Analysis.simulate
  cases hf : p.frame? leader with
  | none =>
      simp only [simulate, hf, Option.some.injEq] at h
      exact h
  | some f =>
      simp only [simulate, hf] at h
      exact walk_of_checked h

/-- Simulates pending blocks until there are none. -/
def run (body : Body) (thisClass : BinaryName) (p : Progress) :
    Option (EStateM.Result CompileError Progress Unit) :=
  match _hpop : p.pending.pop? with
  | none => some (.ok () p)
  | some (leader, rest) =>
    match _hsim : simulate body thisClass leader { p with pending := rest } with
    | none => none
    | some (.error e q) => some (.error e q)
    | some (.ok () q) => run body thisClass q
termination_by (p.unrecorded, p.slack, p.pending.size)
decreasing_by
  rcases Analysis.advances_of_simulate (simulate_of_checked _hsim) with ⟨hframes, hpending⟩ | hfurther
  · have hsize := Queue.size_lt_of_pop? _hpop
    simp only [Progress.unrecorded, Progress.slack, hframes, hpending]
    exact Prod.Lex.right _ (Prod.Lex.right _ hsize)
  · rcases hfurther with hlt | ⟨heq, hlt⟩
    · exact Prod.Lex.left _ _ hlt
    · have heq' : q.unrecorded = p.unrecorded := heq
      rw [heq']
      exact Prod.Lex.right _ (Prod.Lex.left _ _ hlt)

section Run

variable {body : Body} {thisClass : BinaryName} {p q : Progress}

theorem size_of_jumps {f : Frame} {line : Line}
    (h : Progress.propagateAll body.labels f line line.targets (p.simulated line f) = .ok () q) :
    q.frames.size = p.frames.size :=
  (Progress.sends_of_propagateAll h).keeps (I := fun q => q.frames.size = p.frames.size) rfl
    fun _ hsize harrives => harrives.size.trans hsize

theorem size_of_walk {i : Nat} {f : Frame} (h : Analysis.walk body thisClass i f p = .ok () q) :
    q.frames.size = p.frames.size := by
  fun_induction Analysis.walk body thisClass i f p with
  | case1 => cases h
  | case2 => cases h
  | case3 i f p hi line f' _ r hjumps =>
      cases h
      exact size_of_jumps hjumps
  | case4 => cases h
  | case5 i f p hi line f' _ r hjumps =>
      exact (Progress.arrives_of_propagate h).size.trans (size_of_jumps hjumps)
  | case6 i f p hi line f' _ r hjumps _ _ _ ih => exact (ih h).trans (size_of_jumps hjumps)
  | case7 =>
      cases h
      rfl

theorem size_of_simulate {leader : Nat}
    (h : Analysis.simulate body thisClass leader p = .ok () q) : q.frames.size = p.frames.size := by
  unfold Analysis.simulate at h
  split at h
  · cases h
    rfl
  · have hwalk := size_of_walk h
    exact hwalk

theorem simulate_eq (hlaid : body.LaidOut) (hsize : p.frames.size = body.lines.size)
    (leader : Nat) :
    simulate body thisClass leader p = some (Analysis.simulate body thisClass leader p) := by
  unfold simulate Analysis.simulate
  cases hframe : p.frame? leader with
  | none => rfl
  | some f => exact walk_eq hlaid (hsize ▸ Progress.lt_size_of_frame? hframe)

theorem run_eq (hlaid : body.LaidOut) (hsize : p.frames.size = body.lines.size) :
    run body thisClass p = some (Analysis.run body thisClass p) := by
  fun_induction run body thisClass p with
  | case1 p hpop =>
      rw [Analysis.run_eq]
      simp only [hpop]
  | case2 p leader rest hpop hsim =>
      have hpopped : ({ p with pending := rest } : Progress).frames.size = body.lines.size := hsize
      rw [simulate_eq hlaid hpopped] at hsim
      cases hsim
  | case3 p leader rest hpop e q hsim =>
      rw [Analysis.run_eq]
      simp only [hpop, simulate_of_checked hsim]
  | case4 p leader rest hpop q hsim ih =>
      have hrun : Analysis.run body thisClass p = Analysis.run body thisClass q := by
        conv_lhs => rw [Analysis.run_eq]
        simp only [hpop, simulate_of_checked hsim]
      rw [hrun]
      exact ih ((size_of_simulate (simulate_of_checked hsim)).trans hsize)

end Run

/-- The analysis of a body that starts with a frame. -/
def analysis (body : Body) (thisClass : BinaryName) (initial : Frame) :
    Checked CompileError Journal Analysis := fun journal =>
  let journal := journal.report (.analysing body.lines.size initial)
  if body.lines.isEmpty then some (.error (.fallsOffEnd none {}) journal)
  else
    let p := Progress.start body.lines.size initial journal
    match propagate body.labels LabelTable.start initial none p with
    | none => none
    | some (.error e p) => some (.error e p.journal)
    | some (.ok () p) =>
      match run body thisClass p with
      | none => none
      | some (.error e p) => some (.error e p.journal)
      | some (.ok () p) =>
        let (journal, analysis) := Analysis.conclude body p
        some (.ok analysis journal)

theorem analysis_agrees {body : Body} (hlaid : body.LaidOut) (thisClass : BinaryName)
    (initial : Frame) :
    Agrees (analysis body thisClass initial) (Analysis.ofBody body thisClass initial) := by
  intro journal
  unfold analysis Analysis.ofBody
  by_cases hempty : body.lines.isEmpty
  · rw [if_pos hempty, if_pos hempty]
  · rw [if_neg hempty, if_neg hempty]
    have harrives : ∀ p, propagate body.labels LabelTable.start initial none p =
        some (p.propagate body.labels LabelTable.start initial none) :=
      propagate_eq body.labels.size_pos initial none
    simp only [harrives]
    cases hstart : (Progress.start body.lines.size initial (journal.report
        (.analysing body.lines.size initial))).propagate body.labels LabelTable.start initial none with
    | error e p => rfl
    | ok _ p =>
        have hsize : p.frames.size = body.lines.size :=
          (Progress.arrives_of_propagate hstart).size.trans Array.size_replicate
        simp only [run_eq hlaid hsize]
        cases Analysis.run body thisClass p with
        | error e q => rfl
        | ok _ q => rfl

end JvmAssembler.Checked
