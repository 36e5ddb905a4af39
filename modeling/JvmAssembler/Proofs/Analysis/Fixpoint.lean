import JvmAssembler.Analysis.Basic
import JvmAssembler.Proofs.Analysis.Flow
import JvmAssembler.Proofs.Frame.Monotone

/-! Recorded frames only widen, and a block whose frame was changed is pending. So a block is
pending, or it goes through with its recorded frame: every instruction can be applied, stack and
locals find room, and wherever control goes from the block the frame is below the recorded one. When
nothing is pending any more, this is true of all blocks that have a frame. -/

namespace JvmAssembler

namespace Progress

variable {body : Body} {thisClass : BinaryName} {p q r : Progress}

theorem frame?_eq_some_iff {i : Nat} {f : Frame} :
    p.frame? i = some f ↔ p.frames[i]? = some (some f) := by
  rw [frame?, Array.getD_eq_getD_getElem?]
  cases p.frames[i]? with
  | none => simp
  | some recorded => simp

/-- The instruction of a recorded frame is one of those that can have a frame. -/
theorem lt_size_of_frame? {i : Nat} {f : Frame} (h : p.frame? i = some f) : i < p.frames.size := by
  obtain ⟨hlt, _⟩ := Array.getElem?_eq_some_iff.mp (frame?_eq_some_iff.mp h)
  exact hlt

theorem frame?_set {i j : Nat} {f : Frame} {frames : Array (Option Frame)}
    (hframes : q.frames = frames.setIfInBounds i (some f)) (hi : i < frames.size) :
    q.frame? j = if i = j then some f else frames.getD j none := by
  rw [frame?, hframes, Array.getD_eq_getD_getElem?, Array.getD_eq_getD_getElem?,
    Array.getElem?_setIfInBounds]
  by_cases hij : i = j
  · subst hij
    rw [if_pos rfl, if_pos rfl, if_pos hi]
    rfl
  · rw [if_neg hij, if_neg hij]

/-- What an arrival does: it records the frame, finds it below the recorded one, or widens that. -/
theorem propagate_cases {labels : LabelTable} {label : Nat} {f : Frame} {source : Option Line}
    (h : p.propagate labels label f source = .ok () q) :
    let i := (labels.get label).instruction
    ∃ journal,
      (p.frames[i]? = some none ∧ q = { p.record i f with journal := journal }) ∨
      ∃ expected, p.frame? i = some expected ∧ expected.mismatch? f = none ∧
        (expected.widens f = false ∧ q = { p with journal := journal } ∨
          expected.widens f = true ∧
            q = { p.replaceFrame i (expected.join f) with journal := journal }) := by
  simp only [propagate] at h
  split at h
  · cases h
  · rename_i hget
    cases h
    exact ⟨_, .inl ⟨hget, rfl⟩⟩
  · rename_i expected hget
    split at h
    · cases h
    · rename_i hmismatch
      split at h
      · rename_i hwidens
        cases h
        exact ⟨_, .inr ⟨expected, frame?_eq_some_iff.mpr hget, hmismatch, .inr ⟨hwidens, rfl⟩⟩⟩
      · rename_i hwidens
        cases h
        refine ⟨_, .inr ⟨expected, frame?_eq_some_iff.mpr hget, hmismatch, .inl ⟨?_, rfl⟩⟩⟩
        exact Bool.eq_false_iff.mpr hwidens

/-- Every recorded frame has a property, which may depend on the instruction. -/
def Meets (p : Progress) (Q : Nat → Frame → Prop) : Prop := ∀ i f, p.frame? i = some f → Q i f

/-- A property of the frames at instructions that is kept where control goes on and where paths
meet. -/
structure FrameInvariant (body : Body) (thisClass : BinaryName) (Q : Nat → Frame → Prop) :
    Prop where
  step : ∀ {i j : Nat} {line : Line} {f f' : Frame}, body.lines[i]? = some line → Q i f →
    line.apply thisClass f = .ok f' → body.Flows i j → Q j f'
  join : ∀ {i : Nat} {f g : Frame}, Q i f → Q i g → f.mismatch? g = none → Q i (f.join g)

variable {Q : Nat → Frame → Prop}

theorem Meets.set {i : Nat} {f : Frame} (hp : p.Meets Q) (hi : i < p.frames.size) (hf : Q i f)
    (hframes : q.frames = p.frames.setIfInBounds i (some f)) : q.Meets Q := by
  intro j g hg
  rw [frame?_set hframes hi] at hg
  by_cases hij : i = j
  · subst hij
    rw [if_pos rfl] at hg
    cases hg
    exact hf
  · rw [if_neg hij] at hg
    exact hp j g hg

theorem Meets.propagate
    (hjoin : ∀ {i : Nat} {f g : Frame}, Q i f → Q i g → f.mismatch? g = none → Q i (f.join g))
    {labels : LabelTable} {label : Nat} {f : Frame} {source : Option Line} (hp : p.Meets Q)
    (hf : Q (labels.get label).instruction f)
    (h : p.propagate labels label f source = .ok () q) : q.Meets Q := by
  obtain ⟨journal, ⟨hget, rfl⟩ | ⟨expected, hexpected, hmismatch, ⟨_, rfl⟩ | ⟨_, rfl⟩⟩⟩ :=
    propagate_cases h
  · obtain ⟨hlt, _⟩ := Array.getElem?_eq_some_iff.mp hget
    exact hp.set hlt hf rfl
  · exact hp
  · exact hp.set (lt_size_of_frame? hexpected)
      (hjoin (hp _ _ hexpected) hf hmismatch) rfl

theorem Meets.propagateAll
    (hjoin : ∀ {i : Nat} {f g : Frame}, Q i f → Q i g → f.mismatch? g = none → Q i (f.join g))
    {labels : LabelTable} {targets : List Nat} {f : Frame} {source : Line} (hp : p.Meets Q)
    (hf : ∀ label ∈ targets, Q (labels.get label).instruction f)
    (h : propagateAll labels f source targets p = .ok () q) : q.Meets Q := by
  induction targets generalizing p with
  | nil =>
      cases h
      exact hp
  | cons label rest ih =>
      simp only [Progress.propagateAll] at h
      split at h
      · rename_i p' hp'
        have hfirst : p'.Meets Q := hp.propagate hjoin (hf label List.mem_cons_self) hp'
        exact ih hfirst (fun l hl => hf l (List.mem_cons_of_mem _ hl)) h
      · cases h

/-- An instruction that is applied sends frames with the property to its targets. -/
theorem Meets.jumps (hinv : FrameInvariant body thisClass Q) {i : Nat} {line : Line}
    {f f' : Frame} (hp : p.Meets Q) (hline : body.lines[i]? = some line) (hf : Q i f)
    (happly : line.apply thisClass f = .ok f')
    (h : Progress.propagateAll body.labels f' line line.targets (p.simulated line f') = .ok () q) :
    q.Meets Q := by
  have hsimulated : (p.simulated line f').Meets Q := hp
  refine hsimulated.propagateAll hinv.join ?_ h
  intro label hlabel
  exact hinv.step hline hf happly ⟨line, hline, .inr ⟨label, hlabel, rfl⟩⟩

theorem Meets.walk (hinv : FrameInvariant body thisClass Q) {i : Nat} {f : Frame}
    (hp : p.Meets Q) (hf : Q i f) (h : Analysis.walk body thisClass i f p = .ok () q) :
    q.Meets Q := by
  fun_induction Analysis.walk body thisClass i f p with
  | case1 => cases h
  | case2 => cases h
  | case3 i f p hi line f' happly r hr hstop =>
      cases h
      exact hp.jumps hinv (Array.getElem?_eq_getElem hi) hf happly hr
  | case4 => cases h
  | case5 i f p hi line f' happly r hr hfalls _ next hnext =>
      have hline : body.lines[i]? = some line := Array.getElem?_eq_getElem hi
      refine (hp.jumps hinv hline hf happly hr).propagate hinv.join ?_ h
      rw [(LabelTable.instruction_of_block? hnext).2]
      exact hinv.step hline hf happly ⟨line, hline, .inl ⟨by simpa using hfalls, rfl⟩⟩
  | case6 i f p hi line f' happly r hr hfalls _ _ ih =>
      have hline : body.lines[i]? = some line := Array.getElem?_eq_getElem hi
      refine ih (hp.jumps hinv hline hf happly hr) ?_ h
      exact hinv.step hline hf happly ⟨line, hline, .inl ⟨by simpa using hfalls, rfl⟩⟩
  | case7 =>
      cases h
      exact hp

theorem Meets.simulate (hinv : FrameInvariant body thisClass Q) {leader : Nat}
    (hp : p.Meets Q) (h : Analysis.simulate body thisClass leader p = .ok () q) : q.Meets Q := by
  simp only [Analysis.simulate] at h
  split at h
  · cases h
    exact hp
  · rename_i f hf
    have hreport : (p.report (.simulating leader)).Meets Q := hp
    exact hreport.walk hinv (hp leader f hf) h

theorem Meets.run (hinv : FrameInvariant body thisClass Q) (hp : p.Meets Q)
    (h : Analysis.run body thisClass p = .ok () q) : q.Meets Q := by
  fun_induction Analysis.run body thisClass p with
  | case1 =>
      cases h
      exact hp
  | case2 => cases h
  | case3 p leader rest hpop r hsim ih =>
      have hpopped : ({ p with pending := rest } : Progress).Meets Q := hp
      exact ih (hpopped.simulate hinv hsim) h

/-- The stacks of all recorded frames count their slots from 0. -/
abbrev Based (p : Progress) : Prop := p.Meets fun _ f => f.stack.start = 0

theorem start_of_apply {line : Line} {f f' : Frame} (hf : f.stack.start = 0)
    (happly : line.apply thisClass f = .ok f') : f'.stack.start = 0 := by
  obtain ⟨_, _, hrelated, _⟩ := Line.apply_related .le (.refl .le hf) happly
  exact hrelated.stack.start_right

theorem start_join {f g : Frame} : (f.join g).stack.start = 0 := SlotVec.start_ofList _

theorem frameInvariant_based (body : Body) (thisClass : BinaryName) :
    FrameInvariant body thisClass fun _ f => f.stack.start = 0 where
  step := fun _ hf happly _ => start_of_apply hf happly
  join := fun _ _ _ => start_join

/-- A frame is below the one recorded at an instruction. -/
def Holds (p : Progress) (i : Nat) (f : Frame) : Prop := ∃ g, p.frame? i = some g ∧ f.Below g

/-- Frames widen, the bounds grow, and blocks with another frame than before are pending. -/
structure Grows (p q : Progress) : Prop where
  size : q.frames.size = p.frames.size
  maxStack : p.maxStack ≤ q.maxStack
  maxLocals : p.maxLocals ≤ q.maxLocals
  holds : ∀ {i : Nat} {f : Frame}, p.Holds i f → q.Holds i f
  pending : ∀ {i : Nat}, i ∈ p.pending.toList → i ∈ q.pending.toList
  changed : ∀ {i : Nat} {g : Frame}, q.frame? i = some g →
    p.frame? i = some g ∨ i ∈ q.pending.toList

namespace Grows

theorem journal (p : Progress) (journal : Journal) : p.Grows { p with journal := journal } :=
  ⟨rfl, Nat.le_refl _, Nat.le_refl _, id, id, Or.inl⟩

theorem refl (p : Progress) : p.Grows p := journal p p.journal

theorem trans (hpq : p.Grows q) (hqr : q.Grows r) : p.Grows r where
  size := hqr.size.trans hpq.size
  maxStack := Nat.le_trans hpq.maxStack hqr.maxStack
  maxLocals := Nat.le_trans hpq.maxLocals hqr.maxLocals
  holds := fun h => hqr.holds (hpq.holds h)
  pending := fun h => hqr.pending (hpq.pending h)
  changed := by
    intro i g hg
    rcases hqr.changed hg with hq | hpending
    · rcases hpq.changed hq with hp | hpending
      · exact .inl hp
      · exact .inr (hqr.pending hpending)
    · exact .inr hpending

theorem simulated (p : Progress) (line : Line) (f : Frame) : p.Grows (p.simulated line f) :=
  ⟨rfl, Nat.le_max_left _ _, Nat.le_max_left _ _, id, id, Or.inl⟩

/-- A frame is put at an instruction, above the one that stands there. -/
theorem set {i : Nat} {f : Frame} (hi : i < p.frames.size)
    (hframes : q.frames = p.frames.setIfInBounds i (some f)) (hstack : q.maxStack = p.maxStack)
    (hlocals : q.maxLocals = p.maxLocals)
    (habove : ∀ g, p.frame? i = some g → ∀ h : Frame, h.Below g → h.Below f)
    (hpending : ∀ j ∈ p.pending.toList, j ∈ q.pending.toList) (hleader : i ∈ q.pending.toList) :
    p.Grows q where
  size := by rw [hframes, Array.size_setIfInBounds]
  maxStack := Nat.le_of_eq hstack.symm
  maxLocals := Nat.le_of_eq hlocals.symm
  pending := fun hj => hpending _ hj
  holds := by
    rintro j h ⟨g, hg, hbelow⟩
    by_cases hij : i = j
    · subst hij
      exact ⟨f, by rw [frame?_set hframes hi, if_pos rfl], habove g hg h hbelow⟩
    · exact ⟨g, by rw [frame?_set hframes hi, if_neg hij]; exact hg, hbelow⟩
  changed := by
    intro j g hg
    by_cases hij : i = j
    · subst hij
      exact .inr hleader
    · rw [frame?_set hframes hi, if_neg hij] at hg
      exact .inl hg

end Grows

theorem mem_pending_replaceFrame {i j : Nat} (f : Frame) :
    j ∈ (p.replaceFrame i f).pending.toList ↔ j = i ∨ j ∈ p.pending.toList := by
  simp only [replaceFrame]
  by_cases hcontains : p.pending.contains i = true
  · rw [if_pos hcontains]
    refine ⟨Or.inr, ?_⟩
    rintro (rfl | hj)
    · simpa [Queue.contains, Queue.toList] using hcontains
    · exact hj
  · rw [if_neg hcontains, Queue.toList_push, List.mem_append, List.mem_singleton, or_comm]

/-- After an arrival the recorded frame stands for the one that arrived. -/
theorem propagate_grows {labels : LabelTable} {label : Nat} {f : Frame} {source : Option Line}
    (hp : p.Based) (hf : f.stack.start = 0)
    (h : p.propagate labels label f source = .ok () q) :
    p.Grows q ∧ q.Holds (labels.get label).instruction f := by
  obtain ⟨journal, ⟨hget, rfl⟩ | ⟨expected, hexpected, hmismatch, hrest⟩⟩ := propagate_cases h
  · obtain ⟨hlt, hnone⟩ := Array.getElem?_eq_some_iff.mp hget
    refine ⟨.set hlt rfl rfl rfl ?_ ?_ ?_, f, ?_, .refl .le hf⟩
    · intro g hg
      rw [frame?_eq_some_iff, hget] at hg
      cases hg
    · intro j hj
      exact Queue.toList_push _ _ ▸ List.mem_append_left _ hj
    · exact Queue.toList_push _ _ ▸ List.mem_append_right _ (List.mem_singleton_self _)
    · exact (frame?_set rfl hlt).trans (if_pos rfl)
  · have hrelated : f.Related ValueType.SameShape expected :=
      (Frame.mismatch?_eq_none_iff (hp _ _ hexpected) hf).mp hmismatch
    rcases hrest with ⟨hwidens, rfl⟩ | ⟨_, rfl⟩
    · exact ⟨.journal p journal, expected, hexpected, Frame.below_of_not_widens hrelated hwidens⟩
    · have hlt := lt_size_of_frame? hexpected
      refine ⟨.set hlt rfl rfl rfl ?_ ?_ ?_, expected.join f, ?_, Frame.below_join_right hrelated⟩
      · intro g hg h hbelow
        rw [hexpected] at hg
        cases hg
        exact hbelow.trans (Frame.below_join_left hrelated)
      · intro j hj
        exact (mem_pending_replaceFrame (expected.join f)).mpr (.inr hj)
      · exact (mem_pending_replaceFrame (expected.join f)).mpr (.inl rfl)
      · exact (frame?_set rfl hlt).trans (if_pos rfl)

theorem propagateAll_grows {targets : List Nat} {f : Frame} {source : Line} (hp : p.Based)
    (hf : f.stack.start = 0) (h : propagateAll body.labels f source targets p = .ok () q) :
    p.Grows q ∧ ∀ label ∈ targets, q.Holds (body.labels.get label).instruction f := by
  induction targets generalizing p with
  | nil =>
      cases h
      exact ⟨.refl _, fun _ hmem => absurd hmem List.not_mem_nil⟩
  | cons label rest ih =>
      simp only [propagateAll] at h
      split at h
      · rename_i p' hp'
        obtain ⟨hgrows, hholds⟩ := propagate_grows hp hf hp'
        have hbased : p'.Based := hp.propagate (fun _ _ _ => start_join) hf hp'
        obtain ⟨hgrows', hholds'⟩ := ih hbased h
        refine ⟨hgrows.trans hgrows', ?_⟩
        intro l hl
        rcases List.mem_cons.mp hl with rfl | hl
        · exact hgrows'.holds hholds
        · exact hholds' l hl
      · cases h

/-! ### Blocks that go through -/

/-- The rest of a block, from an instruction that is entered with a frame, goes through: its
instructions can be applied, there is room for the frames, and frames that leave the block are below
the recorded ones. -/
inductive Passes (body : Body) (thisClass : BinaryName) (p : Progress) : Nat → Frame → Prop
  | step {i : Nat} {line : Line} {f f' : Frame}
      (hline : body.lines[i]? = some line)
      (happly : line.apply thisClass f = .ok f')
      (hstack : f'.depth ≤ p.maxStack)
      (hlocals : f'.locals.size ≤ p.maxLocals)
      (hjumps : ∀ label ∈ line.targets, p.Holds (body.labels.get label).instruction f')
      (henters : line.instruction.fallsThrough = true → (body.labels.block? (i + 1)).isSome →
        p.Holds (i + 1) f')
      (hcontinues : line.instruction.fallsThrough = true → body.labels.block? (i + 1) = none →
        Passes body thisClass p (i + 1) f') :
      Passes body thisClass p i f

theorem Passes.mono {i : Nat} {f : Frame} (h : p.Passes body thisClass i f)
    (hstack : p.maxStack ≤ q.maxStack) (hlocals : p.maxLocals ≤ q.maxLocals)
    (hholds : ∀ {i : Nat} {f : Frame}, p.Holds i f → q.Holds i f) :
    q.Passes body thisClass i f := by
  induction h with
  | step hline happly hdepth hsize hjumps henters _ ih =>
      exact .step hline happly (Nat.le_trans hdepth hstack) (Nat.le_trans hsize hlocals)
        (fun label hlabel => hholds (hjumps label hlabel))
        (fun hfalls hnext => hholds (henters hfalls hnext)) ih

/-- An instruction is applied and its jumps are made. -/
theorem jumps_grows {line : Line} {f f' : Frame} (hp : p.Based) (hf : f.stack.start = 0)
    (happly : line.apply thisClass f = .ok f')
    (h : propagateAll body.labels f' line line.targets (p.simulated line f') = .ok () q) :
    p.Grows q ∧ q.Based ∧ f'.depth ≤ q.maxStack ∧ f'.locals.size ≤ q.maxLocals ∧
      ∀ label ∈ line.targets, q.Holds (body.labels.get label).instruction f' := by
  have hf' := start_of_apply hf happly
  have hsimulated : (p.simulated line f').Based := hp
  obtain ⟨hgrows, hholds⟩ := propagateAll_grows hsimulated hf' h
  refine ⟨(Grows.simulated p line f').trans hgrows, ?_, ?_, ?_, hholds⟩
  · exact hsimulated.propagateAll (fun _ _ _ => start_join) (fun _ _ => hf') h
  · exact Nat.le_trans (Nat.le_max_right _ _) hgrows.maxStack
  · exact Nat.le_trans (Nat.le_max_right _ _) hgrows.maxLocals

theorem walk_passes {i : Nat} {f : Frame} (hp : p.Based) (hf : f.stack.start = 0)
    (hi : i < body.lines.size) (h : Analysis.walk body thisClass i f p = .ok () q) :
    p.Grows q ∧ q.Passes body thisClass i f := by
  fun_induction Analysis.walk body thisClass i f p with
  | case1 => cases h
  | case2 => cases h
  | case3 i f p hi line f' happly r hr hstop =>
      cases h
      obtain ⟨hgrows, _, hstack, hlocals, hjumps⟩ := jumps_grows hp hf happly hr
      have hstop : line.instruction.fallsThrough ≠ true := by simpa using hstop
      exact ⟨hgrows, .step (Array.getElem?_eq_getElem hi) happly hstack hlocals hjumps
        (fun hfalls => absurd hfalls hstop) (fun hfalls => absurd hfalls hstop)⟩
  | case4 => cases h
  | case5 i f p hi line f' happly r hr _ _ next hnext =>
      obtain ⟨hgrows, hbased, hstack, hlocals, hjumps⟩ := jumps_grows hp hf happly hr
      obtain ⟨hgrows', hholds⟩ := propagate_grows hbased (start_of_apply hf happly) h
      rw [(LabelTable.instruction_of_block? hnext).2] at hholds
      refine ⟨hgrows.trans hgrows', .step (Array.getElem?_eq_getElem hi) happly
        (Nat.le_trans hstack hgrows'.maxStack) (Nat.le_trans hlocals hgrows'.maxLocals)
        (fun label hlabel => hgrows'.holds (hjumps label hlabel)) (fun _ _ => hholds) ?_⟩
      intro _ hnone
      rw [hnone] at hnext
      cases hnext
  | case6 i f p hi line f' happly r hr _ hend hnone ih =>
      obtain ⟨hgrows, hbased, hstack, hlocals, hjumps⟩ := jumps_grows hp hf happly hr
      obtain ⟨hgrows', hpasses⟩ := ih hbased (start_of_apply hf happly) (by omega) h
      refine ⟨hgrows.trans hgrows', .step (Array.getElem?_eq_getElem hi) happly
        (Nat.le_trans hstack hgrows'.maxStack) (Nat.le_trans hlocals hgrows'.maxLocals)
        (fun label hlabel => hgrows'.holds (hjumps label hlabel)) ?_ (fun _ _ => hpasses)⟩
      intro _ hsome
      rw [hnone] at hsome
      cases hsome
  | case7 i f p hge => exact absurd hi hge

theorem simulate_passes {leader : Nat} (hp : p.Based) (hsize : p.frames.size = body.lines.size)
    (h : Analysis.simulate body thisClass leader p = .ok () q) :
    p.Grows q ∧ ∀ f, p.frame? leader = some f → q.Passes body thisClass leader f := by
  simp only [Analysis.simulate] at h
  split at h
  · rename_i hnone
    cases h
    refine ⟨.refl p, ?_⟩
    intro f hf
    rw [hnone] at hf
    cases hf
  · rename_i f hf
    have hlt : leader < body.lines.size := hsize ▸ lt_size_of_frame? hf
    have hreport : (p.report (.simulating leader)).Based := hp
    obtain ⟨hgrows, hpasses⟩ := walk_passes hreport (hp leader f hf) hlt h
    refine ⟨(Grows.journal p _).trans hgrows, ?_⟩
    intro f' hf'
    rw [hf] at hf'
    cases hf'
    exact hpasses

/-- Every block with a frame is pending or goes through. -/
def Sound (body : Body) (thisClass : BinaryName) (p : Progress) : Prop :=
  p.Meets fun i f => i ∈ p.pending.toList ∨ p.Passes body thisClass i f

/-- Once the block that is first in the queue was simulated, it goes through itself. -/
theorem Sound.simulate {leader : Nat} {rest : Queue Nat} (hsound : p.Sound body thisClass)
    (hp : p.Based) (hsize : p.frames.size = body.lines.size)
    (hpop : p.pending.pop? = some (leader, rest))
    (h : Analysis.simulate body thisClass leader { p with pending := rest } = .ok () q) :
    ({ p with pending := rest } : Progress).Grows q ∧ q.Sound body thisClass := by
  have hbased : ({ p with pending := rest } : Progress).Based := hp
  obtain ⟨hgrows, hleader⟩ := simulate_passes hbased hsize h
  refine ⟨hgrows, ?_⟩
  intro i f hf
  rcases hgrows.changed hf with hbefore | hpending
  · rcases hsound i f hbefore with hpending | hpasses
    · rw [Queue.toList_of_pop? hpop] at hpending
      rcases List.mem_cons.mp hpending with rfl | hrest
      · exact .inr (hleader f hbefore)
      · exact .inl (hgrows.pending hrest)
    · exact .inr (hpasses.mono hgrows.maxStack hgrows.maxLocals hgrows.holds)
  · exact .inl hpending

/-- Every block with a frame goes through. -/
def Settled (body : Body) (thisClass : BinaryName) (p : Progress) : Prop :=
  p.Meets (p.Passes body thisClass)

theorem run_settled (hsound : p.Sound body thisClass) (hp : p.Based)
    (hsize : p.frames.size = body.lines.size) (h : Analysis.run body thisClass p = .ok () q) :
    q.Settled body thisClass ∧ q.frames.size = body.lines.size ∧ p.maxLocals ≤ q.maxLocals ∧
      ∀ {i : Nat} {f : Frame}, p.Holds i f → q.Holds i f := by
  fun_induction Analysis.run body thisClass p with
  | case1 p hpop =>
      cases h
      refine ⟨?_, hsize, Nat.le_refl _, id⟩
      intro i f hf
      rcases hsound i f hf with hpending | hpasses
      · rw [Queue.toList_of_pop?_none hpop] at hpending
        cases hpending
      · exact hpasses
  | case2 => cases h
  | case3 p leader rest hpop r hsim ih =>
      have hbased : ({ p with pending := rest } : Progress).Based := hp
      obtain ⟨hgrows, hsound'⟩ := hsound.simulate hp hsize hpop hsim
      obtain ⟨hsettled, hsize', hlocals, hholds⟩ := ih hsound'
        (hbased.simulate (frameInvariant_based body thisClass) hsim) (hgrows.size.trans hsize) h
      exact ⟨hsettled, hsize', Nat.le_trans hgrows.maxLocals hlocals,
        fun hbefore => hholds (hgrows.holds hbefore)⟩

/-- A progress without pending blocks, and the analysis that is read off it. -/
structure Concludes (body : Body) (thisClass : BinaryName) (initial : Frame) (p : Progress)
    (analysis : Analysis) : Prop where
  settled : p.Settled body thisClass
  size : p.frames.size = body.lines.size
  start : p.Holds 0 initial
  initialLocals : initial.locals.size ≤ p.maxLocals
  meets : ∀ {Q : Nat → Frame → Prop}, FrameInvariant body thisClass Q → Q 0 initial → p.Meets Q
  frame? : ∀ {label : Nat}, label < body.labels.size →
    analysis.frame? label = p.frame? (body.labels.get label).instruction
  maxStack : analysis.maxStack = p.maxStack
  maxLocals : analysis.maxLocals = p.maxLocals

theorem frame?_start (count : Nat) (initial : Frame) (journal : Journal) (i : Nat) :
    (start count initial journal).frame? i = none := by
  rw [frame?, start, Array.getD_eq_getD_getElem?, Array.getElem?_replicate]
  split <;> rfl

theorem frame?_conclude {label : Nat} (h : label < body.labels.size) :
    (Analysis.conclude body p).2.frame? label =
      p.frame? (body.labels.get label).instruction := by
  rw [Analysis.frame?, Array.getD_eq_getD_getElem?]
  simp only [Analysis.conclude, Array.getElem?_map, LabelTable.getElem?_of_lt h]
  rfl

theorem frame?_of_conclude {label : Nat} {f : Frame}
    (h : (Analysis.conclude body p).2.frame? label = some f) :
    p.frame? (body.labels.get label).instruction = some f := by
  by_cases hlabel : label < body.labels.size
  · rw [frame?_conclude hlabel] at h
    exact h
  · rw [Analysis.frame?, Array.getD_eq_getD_getElem?, Array.getElem?_eq_none, Option.getD_none] at h
    · cases h
    · rw [Analysis.conclude, Array.size_map]
      exact Nat.not_lt.mp hlabel

/-- A successful analysis is read off a progress in which all recorded blocks go through. -/
theorem exists_concludes {initial : Frame} {journal journal' : Journal} {analysis : Analysis}
    (hinitial : initial.stack.start = 0)
    (h : Analysis.ofBody body thisClass initial journal = .ok analysis journal') :
    ∃ p : Progress, p.Concludes body thisClass initial analysis := by
  simp only [Analysis.ofBody] at h
  split at h
  · cases h
  · split at h
    · cases h
    · rename_i p₀ hstart
      split at h
      · cases h
      · rename_i p hrun
        cases h
        have hfresh : ∀ Q, (Progress.start body.lines.size initial
            (journal.report (.analysing body.lines.size initial))).Meets Q := by
          intro Q i f hf
          rw [frame?_start] at hf
          cases hf
        obtain ⟨hgrows, hholds⟩ := propagate_grows (hfresh _) hinitial hstart
        rw [LabelTable.instruction_start] at hholds
        have hmeets : ∀ {Q : Nat → Frame → Prop}, FrameInvariant body thisClass Q →
            Q 0 initial → p₀.Meets Q := by
          intro Q hinv hQ
          refine (hfresh Q).propagate hinv.join ?_ hstart
          rw [LabelTable.instruction_start]
          exact hQ
        have hsound : p₀.Sound body thisClass := by
          intro i f hf
          rcases hgrows.changed hf with hbefore | hpending
          · rw [frame?_start] at hbefore
            cases hbefore
          · exact .inl hpending
        have hsize : p₀.frames.size = body.lines.size :=
          hgrows.size.trans (Array.size_replicate ..)
        obtain ⟨hsettled, hsize', hlocals, hkept⟩ := run_settled hsound
          (hmeets (frameInvariant_based body thisClass) hinitial) hsize hrun
        exact ⟨p, {
          settled := hsettled
          size := hsize'
          start := hkept hholds
          initialLocals := Nat.le_trans hgrows.maxLocals hlocals
          meets := fun hinv hQ => (hmeets hinv hQ).run hinv hrun
          frame? := frame?_conclude
          maxStack := rfl
          maxLocals := rfl }⟩

/-- A frame that stands for those of all paths at an instruction: the rest of the block goes through
with it, and at the start of a block it is the recorded one. -/
structure Covers (body : Body) (thisClass : BinaryName) (p : Progress) (i : Nat) (g : Frame) :
    Prop where
  passes : p.Passes body thisClass i g
  recorded : (body.labels.block? i).isSome → p.frame? i = some g
  based : g.stack.start = 0

namespace Concludes

variable {initial : Frame} {analysis : Analysis}

theorem covers_of_holds (hp : p.Concludes body thisClass initial analysis) {i : Nat} {f : Frame}
    (h : p.Holds i f) : ∃ g, p.Covers body thisClass i g ∧ f.Below g := by
  obtain ⟨g, hg, hbelow⟩ := h
  exact ⟨g, ⟨hp.settled i g hg, fun _ => hg, hbelow.stack.start_right⟩, hbelow⟩

/-- Where control goes from an instruction that is covered: on in the block, where the frame after
the instruction covers the next one, or to a label, where it is below the recorded frame. -/
theorem covers_cases {i j : Nat} {line : Line} {g g' : Frame} (h : p.Covers body thisClass i g)
    (hline : body.lines[i]? = some line) (happly : line.apply thisClass g = .ok g')
    (hflows : body.Flows i j) :
    (j = i + 1 ∧ line.instruction.fallsThrough = true ∧ body.labels.block? (i + 1) = none ∧
      p.Covers body thisClass j g') ∨
    ∃ label, (label ∈ line.targets ∨ body.labels.block? (i + 1) = some label) ∧
      j = (body.labels.get label).instruction ∧ p.Holds j g' := by
  obtain ⟨line', hline', hwhere⟩ := hflows
  obtain ⟨hpassed, happlied, _, _, hjumps, henters, hcontinues⟩ := h.passes
  rw [hline, Option.some.injEq] at hline' hpassed
  subst hline' hpassed
  rw [happly, Except.ok.injEq] at happlied
  subst happlied
  rcases hwhere with ⟨hfalls, rfl⟩ | ⟨label, hlabel, rfl⟩
  · cases hblock : body.labels.block? (i + 1) with
    | none =>
        refine .inl ⟨rfl, hfalls, rfl, hcontinues hfalls hblock, ?_, start_of_apply h.based happly⟩
        intro hsome
        rw [hblock] at hsome
        cases hsome
    | some next =>
        refine .inr ⟨next, .inr rfl, ?_, henters hfalls (hblock ▸ rfl)⟩
        exact (LabelTable.instruction_of_block? hblock).2.symm
  · exact .inr ⟨label, .inl hlabel, rfl, hjumps label hlabel⟩

/-- A frame that covers an instruction leads to one that covers the next instruction on a path. -/
theorem covers_step (hp : p.Concludes body thisClass initial analysis) {i j : Nat} {line : Line}
    {g g' : Frame} (h : p.Covers body thisClass i g) (hline : body.lines[i]? = some line)
    (happly : line.apply thisClass g = .ok g') (hflows : body.Flows i j) :
    ∃ g'', p.Covers body thisClass j g'' ∧ g'.Below g'' := by
  rcases covers_cases h hline happly hflows with ⟨_, _, _, hcovers⟩ | ⟨_, _, _, hholds⟩
  · exact ⟨g', hcovers, .refl .le hcovers.based⟩
  · exact hp.covers_of_holds hholds

/-- There is a frame that covers each instruction that control can get to. -/
theorem exists_covers (hp : p.Concludes body thisClass initial analysis) {i : Nat}
    (h : body.Reachable i) : ∃ g, p.Covers body thisClass i g := by
  induction h with
  | refl =>
      obtain ⟨g, hcovers, _⟩ := hp.covers_of_holds hp.start
      exact ⟨g, hcovers⟩
  | tail _ hflows ih =>
      obtain ⟨g, hcovers⟩ := ih
      obtain ⟨hline, happly, _⟩ := hcovers.passes
      obtain ⟨g', hcovers', _⟩ := hp.covers_step hcovers hline happly hflows
      exact ⟨g', hcovers'⟩

/-- Control can get to each instruction that has a frame. -/
theorem reachable_of_frame? (hp : p.Concludes body thisClass initial analysis) {i : Nat}
    {f : Frame} (h : p.frame? i = some f) : body.Reachable i := by
  have hinv : FrameInvariant body thisClass fun i _ => body.Reachable i :=
    { step := fun _ hreachable _ hflows => hreachable.tail hflows
      join := fun hreachable _ _ => hreachable }
  exact hp.meets hinv .refl i f h

/-- A label has a frame exactly if control can get to it. -/
theorem isSome_frame?_iff (hp : p.Concludes body thisClass initial analysis) {label : Nat}
    (h : label < body.labels.size) :
    (analysis.frame? label).isSome ↔ body.Reachable (body.labels.get label).instruction := by
  rw [hp.frame? h]
  constructor
  · intro hsome
    obtain ⟨f, hf⟩ := Option.isSome_iff_exists.mp hsome
    exact hp.reachable_of_frame? hf
  · intro hreachable
    obtain ⟨g, hcovers⟩ := hp.exists_covers hreachable
    rw [hcovers.recorded (LabelTable.isSome_block? h)]
    rfl

end Concludes

end Progress

end JvmAssembler
