import JvmAssembler.Proofs.Analysis.Allocation
import JvmAssembler.Proofs.Analysis.Termination
import JvmAssembler.Proofs.Frame.Origin
import Mathlib.Data.List.Induction

/-! Where paths meet, the analysis goes on with one frame for all of them. Nothing is reported for
this reason alone: an error of the analysis is met on a path that is followed on its own, or by two
paths that come to one label.

The analysis comes to each instruction first on one path. Widening changes neither the shape of a
frame nor the instructions that produced its stack entries, so all frames at the instruction have
the origin of the frame that this path leads to. -/

namespace JvmAssembler

theorem Frame.depth_of_mismatch? {f g : Frame} {expected actual : Nat}
    (h : f.mismatch? g = some (.stackDepth expected actual)) :
    f.depth = expected ∧ g.depth = actual := by
  rw [mismatch?] at h
  split at h
  · cases h
    exact ⟨rfl, rfl⟩
  · split at h
    · cases h
    · simp at h

namespace Progress

variable {labels : LabelTable} {f : Frame} {p q r : Progress} {e : CompileError}

/-- Why a frame cannot arrive: there is no instruction, or another frame is recorded there. -/
theorem cases_of_propagate_error {label : Nat} {source : Option Line}
    (h : p.propagate labels label f source = .error e q) :
    let target := labels.get label
    p.frames[target.instruction]? = none ∧ e = noInstruction label target source ∨
      ∃ expected mismatch, p.frame? target.instruction = some expected ∧
        expected.mismatch? f = some mismatch ∧
        e = disagreement label target expected f mismatch := by
  simp only [propagate] at h
  split at h
  · rename_i hnone
    cases h
    exact .inl ⟨hnone, rfl⟩
  · cases h
  · rename_i expected hget
    split at h
    · rename_i mismatch hmismatch
      cases h
      exact .inr ⟨expected, mismatch, frame?_eq_some_iff.mpr hget, hmismatch, rfl⟩
    · split at h <;> cases h

/-- A frame that is sent to several labels arrives at some of them before it fails at one. -/
theorem exists_of_propagateAll_error {source : Line} {targets : List Nat}
    (h : propagateAll labels f source targets p = .error e r) :
    ∃ before label after q, targets = before ++ label :: after ∧
      propagateAll labels f source before p = .ok () q ∧
      q.propagate labels label f (some source) = .error e r := by
  induction targets generalizing p with
  | nil => cases h
  | cons label rest ih =>
      simp only [propagateAll] at h
      split at h
      · rename_i p' hfirst
        obtain ⟨before, label', after, q, rfl, hbefore, hfails⟩ := ih h
        refine ⟨label :: before, label', after, q, rfl, ?_, hfails⟩
        simp only [propagateAll, hfirst, hbefore]
      · rename_i hfirst
        cases h
        exact ⟨[], label, rest, p, rfl, rfl, hfirst⟩

theorem propagateAll_append_singleton {source : Line} {targets : List Nat} {label : Nat}
    (h : propagateAll labels f source (targets ++ [label]) p = .ok () r) :
    ∃ q, propagateAll labels f source targets p = .ok () q ∧
      q.propagate labels label f (some source) = .ok () r := by
  induction targets generalizing p with
  | nil =>
      simp only [List.nil_append, propagateAll] at h
      split at h
      · rename_i hfirst
        cases h
        exact ⟨p, rfl, hfirst⟩
      · cases h
  | cons first rest ih =>
      simp only [List.cons_append, propagateAll] at h
      split at h
      · rename_i hfirst
        obtain ⟨q, hq, hlast⟩ := ih h
        exact ⟨q, by simp only [propagateAll, hfirst, hq], hlast⟩
      · cases h

end Progress

namespace Analysis

open Progress

/-- In the course of the analysis an instruction is applied to a frame, and the frame after it is
brought to a label: by a jump, once it has arrived at the targets before, or by falling through into
the next block. -/
inductive Brings (body : Body) (thisClass : BinaryName) (initial : Frame) (journal : Journal)
    (i : Nat) (f f' : Frame) (label : Nat) : Option Line → Progress → Prop
  | jump {leader : Nat} {p q : Progress} {line : Line} {before after : List Nat}
      (hreaches : Reaches body thisClass initial journal (.instruction leader i f p))
      (hline : body.lines[i]? = some line) (happly : line.apply thisClass f = .ok f')
      (htargets : line.targets = before ++ label :: after)
      (hbefore : propagateAll body.labels f' line before (p.simulated line f') = .ok () q) :
      Brings body thisClass initial journal i f f' label (some line) q
  | fall {leader : Nat} {p q : Progress} {line : Line}
      (hreaches : Reaches body thisClass initial journal (.instruction leader i f p))
      (hexecutes : Executes body thisClass i f p line f' q)
      (hfalls : line.instruction.fallsThrough = true) (hend : i + 1 ≠ body.lines.size)
      (hnext : body.labels.block? (i + 1) = some label) :
      Brings body thisClass initial journal i f f' label none q

/-- The path on which the analysis comes to an instruction first. -/
inductive Discovers (body : Body) (thisClass : BinaryName) (initial : Frame) (journal : Journal) :
    List Nat → Nat → Prop
  | start : Discovers body thisClass initial journal [] 0
  /-- Inside a block there is one way only. -/
  | inside {passed : List Nat} {i : Nat} {line : Line}
      (h : Discovers body thisClass initial journal passed i)
      (hline : body.lines[i]? = some line) (hfalls : line.instruction.fallsThrough = true)
      (hnext : body.labels.block? (i + 1) = none) :
      Discovers body thisClass initial journal (passed ++ [i]) (i + 1)
  /-- A frame is brought to a block that has none yet. -/
  | first {passed : List Nat} {i label : Nat} {f f' : Frame} {source : Option Line} {q : Progress}
      (h : Discovers body thisClass initial journal passed i)
      (hbrings : Brings body thisClass initial journal i f f' label source q)
      (hnone : q.frames[(body.labels.get label).instruction]? = some none) :
      Discovers body thisClass initial journal (passed ++ [i]) (body.labels.get label).instruction

variable {body : Body} {thisClass : BinaryName} {initial : Frame} {journal : Journal}

theorem Brings.flows {i label : Nat} {f f' : Frame} {source : Option Line} {q : Progress}
    (h : Brings body thisClass initial journal i f f' label source q) :
    body.Flows i (body.labels.get label).instruction := by
  cases h with
  | jump _ hline _ htargets _ =>
      refine ⟨_, hline, .inr ⟨label, ?_, rfl⟩⟩
      rw [htargets]
      exact List.mem_append_right _ List.mem_cons_self
  | fall _ hexecutes hfalls _ hnext =>
      exact ⟨_, hexecutes.hline, .inl ⟨hfalls, (LabelTable.instruction_of_block? hnext).2⟩⟩

theorem Discovers.path {passed : List Nat} {i : Nat}
    (h : Discovers body thisClass initial journal passed i) : body.Path passed i := by
  induction h with
  | start => exact .start
  | inside _ hline hfalls _ ih => exact ih.step ⟨_, hline, .inl ⟨hfalls, rfl⟩⟩
  | first _ hbrings _ ih => exact ih.step hbrings.flows

/-- A frame at an instruction has the origin of the one that the path leads to on which the analysis
came to the instruction first. -/
def Traced (body : Body) (thisClass : BinaryName) (initial : Frame) (journal : Journal) (i : Nat)
    (f : Frame) : Prop :=
  ∃ passed g, Discovers body thisClass initial journal passed i ∧
    body.follow thisClass passed initial = .ok g ∧ g.SameOrigin f

theorem Traced.apply {i : Nat} {line : Line} {f f' : Frame}
    (h : Traced body thisClass initial journal i f) (hline : body.lines[i]? = some line)
    (happly : line.apply thisClass f = .ok f') :
    ∃ passed g g', Discovers body thisClass initial journal passed i ∧
      body.follow thisClass passed initial = .ok g ∧ line.apply thisClass g = .ok g' ∧
      body.follow thisClass (passed ++ [i]) initial = .ok g' ∧ g'.SameOrigin f' := by
  obtain ⟨passed, g, hdiscovers, hfollow, horigin⟩ := h
  have hparallel := line.apply_parallel thisClass horigin
  rw [happly] at hparallel
  cases hg : line.apply thisClass g with
  | error e =>
      rw [hg] at hparallel
      cases hparallel
  | ok g' =>
      rw [hg] at hparallel
      cases hparallel with
      | ok horigin' =>
          exact ⟨passed, g, g', hdiscovers, hfollow, hg,
            Body.follow_append_singleton hfollow hline hg, horigin'⟩

theorem Traced.join {i : Nat} {f f' : Frame} (h : Traced body thisClass initial journal i f)
    (hf' : f'.stack.start = 0) (hmismatch : f.mismatch? f' = none) :
    Traced body thisClass initial journal i (f.join f') := by
  obtain ⟨passed, g, hdiscovers, hfollow, horigin⟩ := h
  have hrelated := Frame.related_of_mismatch? horigin.shape.stack.start_right hf' hmismatch
  exact ⟨passed, g, hdiscovers, hfollow, horigin.trans (Frame.SameOrigin.join hrelated).symm⟩

/-- The frame that is brought to a label has a path of its own, and the recorded frames keep
theirs. -/
theorem Brings.meets {i label : Nat} {line : Line} {f f' : Frame} {source : Option Line}
    {q r : Progress} (h : Brings body thisClass initial journal i f f' label source q)
    (hq : q.Meets (Traced body thisClass initial journal))
    (hf : Traced body thisClass initial journal i f) (hline : body.lines[i]? = some line)
    (happly : line.apply thisClass f = .ok f')
    (harrives : q.propagate body.labels label f' source = .ok () r) :
    r.Meets (Traced body thisClass initial journal) := by
  obtain ⟨passed, g, g', hdiscovers, _, _, hfollow, horigin⟩ := hf.apply hline happly
  obtain ⟨journal', ⟨hget, rfl⟩ | ⟨expected, hexpected, hmismatch, ⟨_, rfl⟩ | ⟨_, rfl⟩⟩⟩ :=
    propagate_cases harrives
  · obtain ⟨hlt, _⟩ := Array.getElem?_eq_some_iff.mp hget
    exact hq.set hlt ⟨passed ++ [i], g', .first hdiscovers h hget, hfollow, horigin⟩ rfl
  · exact hq
  · exact hq.set (lt_size_of_frame? hexpected)
      ((hq _ _ hexpected).join horigin.shape.stack.start_right hmismatch) rfl

/-- Recorded frames have paths while an instruction sends a frame to its targets. -/
theorem Traced.sends {leader i : Nat} {line : Line} {f f' : Frame} {p q : Progress}
    (hreaches : Reaches body thisClass initial journal (.instruction leader i f p))
    (hp : p.Meets (Traced body thisClass initial journal))
    (hf : Traced body thisClass initial journal i f) (hline : body.lines[i]? = some line)
    (happly : line.apply thisClass f = .ok f') {before after : List Nat}
    (htargets : line.targets = before ++ after)
    (h : propagateAll body.labels f' line before (p.simulated line f') = .ok () q) :
    q.Meets (Traced body thisClass initial journal) := by
  induction before using List.reverseRecOn generalizing after q with
  | nil =>
      cases h
      exact hp
  | append_singleton before label ih =>
      obtain ⟨r, hbefore, hlast⟩ := propagateAll_append_singleton h
      rw [List.append_assoc, List.singleton_append] at htargets
      exact (Brings.jump hreaches hline happly htargets hbefore).meets (ih htargets hbefore) hf
        hline happly hlast

theorem Traced.executes {leader i : Nat} {line : Line} {f f' : Frame} {p q : Progress}
    (hreaches : Reaches body thisClass initial journal (.instruction leader i f p))
    (ha : (Point.instruction leader i f p).Meets (Traced body thisClass initial journal))
    (h : Executes body thisClass i f p line f' q) :
    q.Meets (Traced body thisClass initial journal) :=
  Traced.sends hreaches ha.1 ha.2 h.hline h.happly (List.append_nil _).symm h.hjumps

theorem Brings.exists_sends {i label : Nat} {f f' : Frame} {source : Option Line} {q : Progress}
    (h : Brings body thisClass initial journal i f f' label source q) :
    ∃ leader p line before after,
      Reaches body thisClass initial journal (.instruction leader i f p) ∧
      body.lines[i]? = some line ∧ line.apply thisClass f = .ok f' ∧
      line.targets = before ++ after ∧
      propagateAll body.labels f' line before (p.simulated line f') = .ok () q := by
  cases h with
  | jump hreaches hline happly htargets hbefore =>
      exact ⟨_, _, _, _, _, hreaches, hline, happly, htargets, hbefore⟩
  | fall hreaches hexecutes _ _ _ =>
      exact ⟨_, _, _, _, [], hreaches, hexecutes.hline, hexecutes.happly, (List.append_nil _).symm,
        hexecutes.hjumps⟩

theorem Brings.size_eq {i label : Nat} {f f' : Frame} {source : Option Line} {q : Progress}
    (h : Brings body thisClass initial journal i f f' label source q) :
    q.frames.size = body.lines.size := by
  obtain ⟨leader, p, line, before, _, hreaches, _, _, _, hbefore⟩ := h.exists_sends
  obtain ⟨hp, _⟩ := hreaches.placed
  exact (sends_of_propagateAll hbefore).keeps (I := fun q => q.frames.size = body.lines.size)
    hp.size fun _ hsize harrives => harrives.size.trans hsize

theorem Reaches.step_traced {a b : Point} (ha : Reaches body thisClass initial journal a)
    (hmeets : a.Meets (Traced body thisClass initial journal)) (h : Step body thisClass a b) :
    b.Meets (Traced body thisClass initial journal) := by
  cases h with
  | enter hpop hframe => exact ⟨hmeets, hmeets _ _ hframe⟩
  | skip hpop hframe => exact hmeets
  | next hexecutes hfalls hend hnext =>
      refine ⟨Traced.executes ha hmeets hexecutes, ?_⟩
      obtain ⟨passed, _, g', hdiscovers, _, _, hfollow, horigin⟩ :=
        hmeets.2.apply hexecutes.hline hexecutes.happly
      exact ⟨_, g', hdiscovers.inside hexecutes.hline hfalls hnext, hfollow, horigin⟩
  | fall hexecutes hfalls hend hnext harrives =>
      exact (Brings.fall ha hexecutes hfalls hend hnext).meets
        (Traced.executes ha hmeets hexecutes) hmeets.2 hexecutes.hline hexecutes.happly harrives
  | leave hexecutes hstops => exact Traced.executes ha hmeets hexecutes

/-- Every frame of the analysis has the origin of the frame of a path. -/
theorem Reaches.traced (hinitial : initial.stack.start = 0) {a : Point}
    (ha : Reaches body thisClass initial journal a) :
    a.Meets (Traced body thisClass initial journal) := by
  induction ha with
  | start h =>
      have hfresh : (Progress.start body.lines.size initial
          (journal.report (.analysing body.lines.size initial))).Meets
            (Traced body thisClass initial journal) := by
        intro i f hf
        rw [frame?_start] at hf
        cases hf
      refine hfresh.propagate (fun hf hg hmismatch => hf.join ?_ hmismatch) ?_ h
      · obtain ⟨_, _, _, _, horigin⟩ := hg
        exact horigin.shape.stack.start_right
      · rw [LabelTable.instruction_start]
        exact ⟨[], initial, .start, rfl, .refl hinitial⟩
  | step ha hstep ih => exact ha.step_traced ih hstep

theorem Brings.meets_traced (hinitial : initial.stack.start = 0) {i label : Nat} {f f' : Frame}
    {source : Option Line} {q : Progress}
    (h : Brings body thisClass initial journal i f f' label source q) :
    q.Meets (Traced body thisClass initial journal) := by
  obtain ⟨leader, p, line, before, after, hreaches, hline, happly, htargets, hbefore⟩ :=
    h.exists_sends
  obtain ⟨hp, hf⟩ := hreaches.traced hinitial
  exact Traced.sends hreaches hp hf hline happly htargets hbefore

/-! ### How the analysis stops -/

/-- How an analysis comes to an error: an instruction cannot be applied, a frame cannot arrive where
it is brought, or control goes on behind the last instruction. -/
inductive Stops (body : Body) (thisClass : BinaryName) (initial : Frame) (journal : Journal) :
    CompileError → Prop
  | fails {leader i : Nat} {f : Frame} {p : Progress} {line : Line} {e : CompileError}
      (hreaches : Reaches body thisClass initial journal (.instruction leader i f p))
      (hline : body.lines[i]? = some line) (happly : line.apply thisClass f = .error e) :
      Stops body thisClass initial journal e
  | blocked {i label : Nat} {f f' : Frame} {source : Option Line} {q r : Progress}
      {e : CompileError} (hbrings : Brings body thisClass initial journal i f f' label source q)
      (harrives : q.propagate body.labels label f' source = .error e r) :
      Stops body thisClass initial journal e
  | ends {leader i : Nat} {f f' : Frame} {p q : Progress} {line : Line}
      (hreaches : Reaches body thisClass initial journal (.instruction leader i f p))
      (hexecutes : Executes body thisClass i f p line f' q)
      (hfalls : line.instruction.fallsThrough = true) (hend : i + 1 = body.lines.size) :
      Stops body thisClass initial journal (.fallsOffEnd line.id line.position)

theorem Reaches.stops_of_walk {leader i : Nat} {f : Frame} {p q : Progress} {e : CompileError}
    (hreaches : Reaches body thisClass initial journal (.instruction leader i f p))
    (h : walk body thisClass i f p = .error e q) : Stops body thisClass initial journal e := by
  fun_induction walk body thisClass i f p with
  | case1 i f p hi line e' happly =>
      cases h
      exact .fails hreaches (Array.getElem?_eq_getElem hi) happly
  | case2 i f p hi line f' happly e' r hjumps =>
      cases h
      obtain ⟨before, label, after, q, htargets, hbefore, hfails⟩ :=
        exists_of_propagateAll_error hjumps
      exact .blocked (.jump hreaches (Array.getElem?_eq_getElem hi) happly htargets hbefore) hfails
  | case3 => cases h
  | case4 i f p hi line f' happly r hjumps hfalls hend =>
      cases h
      exact .ends hreaches ⟨Array.getElem?_eq_getElem hi, happly, hjumps⟩ (by simpa using hfalls)
        hend
  | case5 i f p hi line f' happly r hjumps hfalls hend next hnext =>
      exact .blocked (.fall hreaches ⟨Array.getElem?_eq_getElem hi, happly, hjumps⟩
        (by simpa using hfalls) hend hnext) h
  | case6 i f p hi line f' happly r hjumps hfalls hend hnext ih =>
      exact ih (hreaches.step (.next ⟨Array.getElem?_eq_getElem hi, happly, hjumps⟩
        (by simpa using hfalls) hend hnext)) h
  | case7 => cases h

theorem Reaches.stops_of_run {p q : Progress} {e : CompileError}
    (hreaches : Reaches body thisClass initial journal (.queue p))
    (h : run body thisClass p = .error e q) : Stops body thisClass initial journal e := by
  fun_induction run body thisClass p with
  | case1 => cases h
  | case2 p leader rest hpop e' r hsim =>
      cases h
      simp only [simulate] at hsim
      split at hsim
      · cases hsim
      · rename_i f hframe
        exact (hreaches.step (.enter hpop hframe)).stops_of_walk hsim
  | case3 p leader rest hpop r hsim ih =>
      exact ih (hreaches.trans (steps_of_simulate hreaches.placed hpop hsim)) h

/-- An analysis that fails has come to a point where it stops. -/
theorem stops_of_error {e : CompileError} {journal' : Journal} (hlines : body.lines ≠ #[])
    (h : ofBody body thisClass initial journal = .error e journal') :
    Stops body thisClass initial journal e := by
  have hsize : 0 < body.lines.size := Array.size_pos_iff.mpr hlines
  have hnonempty : body.lines.isEmpty = false := by
    simpa [Array.isEmpty] using hlines
  obtain ⟨first, hfirst, _⟩ := exists_propagate_start initial
    (journal.report (.analysing body.lines.size initial)) hsize
  simp only [ofBody, hnonempty, hfirst, Bool.false_eq_true, if_false] at h
  split at h
  · rename_i hrun
    cases h
    exact (Reaches.start hfirst).stops_of_run hrun
  · cases h

/-- A path is followed on its own to an instruction that the analysis applies to a frame of the same
origin. As many pops of the instruction go through on both frames. -/
structure Replays (body : Body) (thisClass : BinaryName) (initial : Frame) (journal : Journal)
    (passed : List Nat) (i : Nat) (line : Line) (g f : Frame) : Prop where
  path : body.Path passed i
  follow : body.follow thisClass passed initial = .ok g
  instruction : body.lines[i]? = some line
  reaches : ∃ leader p, Reaches body thisClass initial journal (.instruction leader i f p)
  origin : g.SameOrigin f
  pops : line.pops g = line.pops f

/-- Two paths come to a label: the one on which the analysis came there first, and another. The
frames that they lead to have the origin of those that the analysis compares. -/
structure Meet (body : Body) (thisClass : BinaryName) (initial : Frame) (journal : Journal)
    (label : Nat) (expected actual f g : Frame) : Prop where
  first : ∃ passed, body.Path passed (body.labels.get label).instruction ∧
    Discovers body thisClass initial journal passed (body.labels.get label).instruction ∧
    body.follow thisClass passed initial = .ok f
  other : ∃ passed, body.Path passed (body.labels.get label).instruction ∧
    body.follow thisClass passed initial = .ok g
  expected : f.SameOrigin expected
  actual : g.SameOrigin actual

/-- What an error of the analysis says goes wrong on paths, where no frames are merged. -/
inductive Genuine (body : Body) (thisClass : BinaryName) (initial : Frame) (journal : Journal) :
    CompileError → Prop
  /-- The path comes to the instruction with too few values. -/
  | stackUnderflow {passed : List Nat} {i : Nat} {line : Line} {g f : Frame}
      {expected : Expectation} (hreplays : Replays body thisClass initial journal passed i line g f)
      (hanalysis : line.apply thisClass f =
        .error (.stackUnderflow i line.position line.mnemonic expected))
      (hpath : line.apply thisClass g =
        .error (.stackUnderflow i line.position line.mnemonic expected)) :
      Genuine body thisClass initial journal
        (.stackUnderflow i line.position line.mnemonic expected)
  /-- The path comes to the instruction with a value of another shape than expected, which the same
  instruction has produced. -/
  | stackMismatch {passed : List Nat} {i : Nat} {line : Line} {g f : Frame}
      {producer : Option Nat} {expected : Expectation} {actual actual' : ValueType}
      (hreplays : Replays body thisClass initial journal passed i line g f)
      (hanalysis : line.apply thisClass f =
        .error (.stackMismatch i line.position line.mnemonic producer expected actual))
      (hpath : line.apply thisClass g =
        .error (.stackMismatch i line.position line.mnemonic producer expected actual'))
      (hactual : actual'.SameShape actual) :
      Genuine body thisClass initial journal
        (.stackMismatch i line.position line.mnemonic producer expected actual)
  /-- The path comes to the instruction with a local of another shape than expected. -/
  | localMismatch {passed : List Nat} {i : Nat} {line : Line} {g f : Frame} {index : UInt16}
      {expected : Expectation} {actual actual' : ValueType}
      (hreplays : Replays body thisClass initial journal passed i line g f)
      (hanalysis : line.apply thisClass f =
        .error (.localMismatch i line.position index expected actual))
      (hpath : line.apply thisClass g =
        .error (.localMismatch i line.position index expected actual'))
      (hactual : actual'.SameShape actual) :
      Genuine body thisClass initial journal (.localMismatch i line.position index expected actual)
  /-- The path goes through the instruction and jumps behind the last one. -/
  | unknownJump {passed : List Nat} {i label : Nat} {line : Line} {g : Frame}
      (hpath : body.Path (passed ++ [i]) (body.labels.get label).instruction)
      (hfollow : body.follow thisClass (passed ++ [i]) initial = .ok g)
      (hline : body.lines[i]? = some line) (hlabel : label ∈ line.targets)
      (hbehind : body.lines.size ≤ (body.labels.get label).instruction) :
      Genuine body thisClass initial journal
        (.unknownJump i line.position (body.labels.get label).name (some label))
  /-- The path goes through the last instruction and on. -/
  | fallsOffEnd {passed : List Nat} {i : Nat} {line : Line} {g : Frame}
      (hpath : body.Path (passed ++ [i]) (i + 1))
      (hfollow : body.follow thisClass (passed ++ [i]) initial = .ok g)
      (hline : body.lines[i]? = some line) (hfalls : line.instruction.fallsThrough = true)
      (hend : i + 1 = body.lines.size) :
      Genuine body thisClass initial journal (.fallsOffEnd (some i) line.position)
  /-- Two paths come to the label with stacks of different depths. -/
  | depthsDiffer {label : Nat} {expected actual f g : Frame}
      (hmeet : Meet body thisClass initial journal label expected actual f g)
      (hmismatch : f.mismatch? g = some (.stackDepth expected.depth actual.depth)) :
      Genuine body thisClass initial journal (.depthsDiffer label (body.labels.get label).name
        (body.labels.get label).position expected actual)
  /-- Two paths come to the label with different shapes in the slot that is reported. -/
  | framesDiffer {label : Nat} {expected actual f g : Frame} {mismatch : Mismatch}
      (hmeet : Meet body thisClass initial journal label expected actual f g)
      (hmismatch : f.mismatch? g = some mismatch) :
      Genuine body thisClass initial journal (.framesDiffer label (body.labels.get label).name
        (body.labels.get label).position expected actual mismatch)

/-- An instruction that fails in the analysis fails on a path. -/
theorem genuine_of_fails (hids : body.Numbered) (hinitial : initial.stack.start = 0)
    {leader i : Nat} {f : Frame} {p : Progress} {line : Line} {e : CompileError}
    (hreaches : Reaches body thisClass initial journal (.instruction leader i f p))
    (hline : body.lines[i]? = some line) (happly : line.apply thisClass f = .error e) :
    Genuine body thisClass initial journal e := by
  obtain ⟨passed, g, hdiscovers, hfollow, horigin⟩ := (hreaches.traced hinitial).2
  have hreplays : Replays body thisClass initial journal passed i line g f :=
    ⟨hdiscovers.path, hfollow, hline, ⟨leader, p, hreaches⟩, horigin, line.pops_eq horigin.shape⟩
  have hparallel := line.apply_parallel thisClass horigin
  rw [happly] at hparallel
  cases hg : line.apply thisClass g with
  | ok g' =>
      rw [hg] at hparallel
      cases hparallel
  | error e' =>
      rw [hg] at hparallel
      obtain ⟨hagrees, hproducer⟩ : e'.Agrees e ∧ e'.producer = e.producer := by
        cases hparallel with
        | error hagrees hproducer => exact ⟨hagrees, hproducer⟩
      obtain rfl : line.id = i := hids i line hline
      cases Line.reports_of_apply happly with
      | stackUnderflow expected =>
          cases hagrees with
          | same => exact .stackUnderflow hreplays happly hg
      | stackMismatch producer expected actual =>
          cases hagrees with
          | same => exact .stackMismatch hreplays happly hg (ValueType.sameShape_refl _)
          | @stackMismatch _ _ _ producer' _ _ actual' _ hactual =>
              obtain rfl : producer' = producer := hproducer
              exact .stackMismatch hreplays happly hg hactual
      | localMismatch index expected actual =>
          cases hagrees with
          | same => exact .localMismatch hreplays happly hg (ValueType.sameShape_refl _)
          | localMismatch hactual => exact .localMismatch hreplays happly hg hactual

/-- The path to an instruction goes on to the label that the frame after it is brought to. -/
theorem Brings.exists_follow (hinitial : initial.stack.start = 0) {i label : Nat} {f f' : Frame}
    {source : Option Line} {q : Progress}
    (h : Brings body thisClass initial journal i f f' label source q) :
    ∃ passed g, body.Path (passed ++ [i]) (body.labels.get label).instruction ∧
      body.follow thisClass (passed ++ [i]) initial = .ok g ∧ g.SameOrigin f' := by
  obtain ⟨leader, p, line, _, _, hreaches, hline, happly, _, _⟩ := h.exists_sends
  obtain ⟨passed, _, g, hdiscovers, _, _, hfollow, horigin⟩ :=
    (hreaches.traced hinitial).2.apply hline happly
  exact ⟨passed, g, hdiscovers.path.step h.flows, hfollow, horigin⟩

/-- A frame that cannot arrive in the analysis cannot do so on a path. -/
theorem genuine_of_blocked (hids : body.Numbered) (hinitial : initial.stack.start = 0)
    {i label : Nat} {f f' : Frame} {source : Option Line} {q r : Progress} {e : CompileError}
    (hbrings : Brings body thisClass initial journal i f f' label source q)
    (harrives : q.propagate body.labels label f' source = .error e r) :
    Genuine body thisClass initial journal e := by
  obtain ⟨passed, g, hpath, hfollow, horigin⟩ := hbrings.exists_follow hinitial
  rcases cases_of_propagate_error harrives with
    ⟨hnone, rfl⟩ | ⟨expected, mismatch, hexpected, hmismatch, rfl⟩
  · have hbehind : body.lines.size ≤ (body.labels.get label).instruction :=
      hbrings.size_eq ▸ Array.getElem?_eq_none_iff.mp hnone
    cases hbrings with
    | @jump leader p q line before after hreaches hline happly htargets hbefore =>
        obtain rfl : line.id = i := hids i line hline
        refine .unknownJump hpath hfollow hline ?_ hbehind
        rw [htargets]
        exact List.mem_append_right _ List.mem_cons_self
    | fall hreaches hexecutes hfalls hend hnext =>
        obtain ⟨_, _, hlt, _⟩ := hreaches.placed
        rw [(LabelTable.instruction_of_block? hnext).2] at hbehind
        omega
  · obtain ⟨first, h, hfirst, hfollow', horigin'⟩ := hbrings.meets_traced hinitial _ _ hexpected
    have hmeet : Meet body thisClass initial journal label expected f' h g :=
      ⟨⟨first, hfirst.path, hfirst, hfollow'⟩, ⟨_, hpath, hfollow⟩, horigin', horigin⟩
    have hsame : h.mismatch? g = some mismatch :=
      (Frame.mismatch?_congr horigin'.shape horigin.shape).trans hmismatch
    cases mismatch with
    | stackDepth e a =>
        obtain ⟨rfl, rfl⟩ := Frame.depth_of_mismatch? hmismatch
        exact .depthsDiffer hmeet hsame
    | stackEntry position => exact .framesDiffer hmeet hsame
    | localSlot index => exact .framesDiffer hmeet hsame

/-- **No false alarms.** What an error of the analysis says goes wrong on a path that is followed on
its own: the same pop or local of the instruction fails, with the same expectation and the same
instruction to blame, or control goes behind the last instruction. Where frames disagree at a label,
the frames of two paths do, the first of which is the one that came to the label first. -/
theorem genuine_of_error {locals : Array Value} {stack : List Value} {journal' : Journal}
    {e : CompileError} (hids : body.Numbered) (hlines : body.lines ≠ #[])
    (h : ofBody body thisClass ⟨locals, .ofList stack⟩ journal = .error e journal') :
    Genuine body thisClass ⟨locals, .ofList stack⟩ journal e := by
  have hinitial : (Frame.mk locals (.ofList stack)).stack.start = 0 := SlotVec.start_ofList stack
  cases stops_of_error hlines h with
  | fails hreaches hline happly => exact genuine_of_fails hids hinitial hreaches hline happly
  | blocked hbrings harrives => exact genuine_of_blocked hids hinitial hbrings harrives
  | @ends leader i f f' p q line hreaches hexecutes hfalls hend =>
      obtain rfl : line.id = i := hids i line hexecutes.hline
      obtain ⟨passed, _, g, hdiscovers, _, _, hfollow, _⟩ :=
        (hreaches.traced hinitial).2.apply hexecutes.hline hexecutes.happly
      exact .fallsOffEnd (hdiscovers.path.step ⟨line, hexecutes.hline, .inl ⟨hfalls, rfl⟩⟩) hfollow
        hexecutes.hline hfalls hend

end Analysis

/-- A local is null when a loop is entered and a number from the second round on. -/
def Body.clashingLoop : Body where
  lines := #[
    ⟨0, "aconst_null", {}, 0, 0, .operation .nullConst⟩,
    ⟨1, "astore_0", {}, 1, 0, .operation (.store .reference 0 .implicit)⟩,
    ⟨2, "iconst_0", {}, 2, 1, .operation (.intConst 0)⟩,
    ⟨3, "istore_0", {}, 3, 1, .operation (.store (.numeric .int) 0 .implicit)⟩,
    ⟨4, "goto", {}, 4, 1, .branch (.jump .goto 1)⟩]
  labels := (LabelTable.empty.declareAnonymous {} 2).2

open Analysis Body in
theorem Analysis.genuine_of_error_clashingLoop :
    clashingLoop.Numbered ∧ clashingLoop.lines ≠ #[] ∧
    ∃ name position expected actual f g journal,
      ofBody clashingLoop .javaString ⟨#[], .ofList []⟩ {} =
        .error (.framesDiffer 1 name position expected actual (.localSlot 0)) journal ∧
      Meet clashingLoop .javaString ⟨#[], .ofList []⟩ {} 1 expected actual f g ∧
      f.mismatch? g = some (.localSlot 0) := by
  have hids : clashingLoop.Numbered := by
    intro i line h
    obtain ⟨hlt, rfl⟩ := Array.getElem?_eq_some_iff.mp h
    rcases i with _ | _ | _ | _ | _ | i
    · rfl
    · rfl
    · rfl
    · rfl
    · rfl
    · exact absurd hlt (by simp [clashingLoop])
  have hlines : clashingLoop.lines ≠ #[] := by simp [clashingLoop]
  have hfails : Assembly.failsWith (fun e _ => match e with
      | .framesDiffer label _ _ _ _ mismatch => decide (label = 1 ∧ mismatch = .localSlot 0)
      | _ => false) (ofBody clashingLoop .javaString ⟨#[], .ofList []⟩) {} = true := by
    unfold ofBody
    iterate 3 rw [run_eq]
    decide +kernel
  obtain ⟨e, journal, h, hcheck⟩ := Assembly.exists_of_failsWith hfails
  cases e with
  | framesDiffer label name position expected actual mismatch =>
      obtain ⟨rfl, rfl⟩ := of_decide_eq_true hcheck
      cases genuine_of_error hids hlines h with
      | framesDiffer hmeet hmismatch =>
          exact ⟨hids, hlines, _, _, expected, actual, _, _, journal, h, hmeet, hmismatch⟩
  | _ => cases hcheck

end JvmAssembler
