import JvmAssembler.Proofs.Analysis.Course
import JvmAssembler.Proofs.Frame.Balance
import Mathlib.Data.Finset.Card

/-! The frames of a successful analysis stay within the room that it finds for the stack. All visits
of an instruction find the same depth, and an instruction adds two slots at most, so the room is at
most two slots for each instruction, however often it is visited. -/

namespace JvmAssembler

/-- An empty stack counts its slots from 0. -/
theorem Frame.start_eq_zero {f : Frame} (h : f.depth = 0) : f.stack.start = 0 := by
  rw [depth, f.stack.next_eq] at h
  omega

namespace Progress

variable {p q : Progress}

/-- The arrival of a frame changes neither the room for the stack nor the one for locals. -/
theorem room_of_propagate {labels : LabelTable} {label : Nat} {f : Frame}
    {source : Option Line} (h : p.propagate labels label f source = .ok () q) :
    q.maxStack = p.maxStack ∧ q.maxLocals = p.maxLocals := by
  obtain ⟨journal, ⟨_, rfl⟩ | ⟨_, _, _, ⟨_, rfl⟩ | ⟨_, rfl⟩⟩⟩ := propagate_cases h <;>
    exact ⟨rfl, rfl⟩

theorem room_of_propagateAll {labels : LabelTable} {f : Frame} {source : Line}
    {targets : List Nat} (h : propagateAll labels f source targets p = .ok () q) :
    q.maxStack = p.maxStack ∧ q.maxLocals = p.maxLocals := by
  induction targets generalizing p with
  | nil =>
      cases h
      exact ⟨rfl, rfl⟩
  | cons label rest ih =>
      simp only [propagateAll] at h
      split at h
      · rename_i p' hfirst
        obtain ⟨hstack, hlocals⟩ := room_of_propagate hfirst
        exact ⟨(ih h).1.trans hstack, (ih h).2.trans hlocals⟩
      · cases h

end Progress

namespace Analysis

open Progress

variable {body : Body} {thisClass : BinaryName} {initial : Frame} {journal : Journal}
  {a b : Point}

theorem Executes.maxStack_eq {i : Nat} {f f' : Frame} {p q : Progress} {line : Line}
    (h : Executes body thisClass i f p line f' q) : q.maxStack = max p.maxStack f'.depth :=
  (room_of_propagateAll h.hjumps).1

theorem Executes.maxLocals_eq {i : Nat} {f f' : Frame} {p q : Progress} {line : Line}
    (h : Executes body thisClass i f p line f' q) :
    q.maxLocals = max p.maxLocals f'.locals.size :=
  (room_of_propagateAll h.hjumps).2

/-- The stack counts its slots from 0 and is not deeper than a bound. -/
def Shallow (bound : Nat) (f : Frame) : Prop := f.stack.start = 0 ∧ f.depth ≤ bound

theorem Shallow.mono {bound bound' : Nat} {f : Frame} (h : Shallow bound f) (hle : bound ≤ bound') :
    Shallow bound' f := ⟨h.1, Nat.le_trans h.2 hle⟩

theorem Shallow.join {bound : Nat} {f g : Frame} (hf : Shallow bound f) (hg : Shallow bound g)
    (hmismatch : f.mismatch? g = none) : Shallow bound (f.join g) := by
  have hshape := Frame.SameShape.join (Frame.related_of_mismatch? hf.1 hg.1 hmismatch)
  exact ⟨start_join, hshape.depth_eq ▸ hf.2⟩

/-- Recorded frames, and the one that an instruction is applied to, stay within the room. -/
def Point.Within (a : Point) : Prop := a.Meets fun _ => Shallow a.progress.maxStack

theorem Executes.within {i : Nat} {f f' : Frame} {p q : Progress} {line : Line}
    (h : Executes body thisClass i f p line f' q) (hp : p.Meets fun _ => Shallow p.maxStack)
    (hf : Shallow p.maxStack f) :
    (q.Meets fun _ => Shallow q.maxStack) ∧ Shallow q.maxStack f' := by
  have hroom := h.maxStack_eq
  have hf' : Shallow q.maxStack f' :=
    ⟨start_of_apply hf.1 h.happly, hroom ▸ Nat.le_max_right _ _⟩
  have hsimulated : (p.simulated line f').Meets fun _ => Shallow q.maxStack := fun j g hg =>
    (hp j g hg).mono (hroom ▸ Nat.le_max_left _ _)
  exact ⟨hsimulated.propagateAll (fun hg hg' => hg.join hg') (fun _ _ => hf') h.hjumps, hf'⟩

theorem Step.within (h : Step body thisClass a b) (ha : a.Within) : b.Within := by
  cases h with
  | enter hpop hframe => exact ⟨ha, ha _ _ hframe⟩
  | skip hpop hframe => exact ha
  | next hexecutes hfalls hend hnext => exact hexecutes.within ha.1 ha.2
  | @fall _ _ label _ f' _ q r _ hexecutes hfalls hend hnext harrives =>
      obtain ⟨hq, hf'⟩ := hexecutes.within ha.1 ha.2
      have hroom := (room_of_propagate harrives).1
      have hr : r.Meets fun _ => Shallow q.maxStack :=
        hq.propagate (fun hg hg' => hg.join hg') hf' harrives
      exact fun j g hg => (hr j g hg).mono (Nat.le_of_eq hroom.symm)
  | leave hexecutes hstops => exact (hexecutes.within ha.1 ha.2).1

theorem Reaches.within (hdepth : initial.depth = 0)
    (h : Reaches body thisClass initial journal a) : a.Within := by
  have hinitial : ∀ bound, Shallow bound initial := by
    intro bound
    exact ⟨Frame.start_eq_zero hdepth, hdepth ▸ Nat.zero_le bound⟩
  induction h with
  | start h =>
      have hfresh : (Progress.start body.lines.size initial
          (journal.report (.analysing body.lines.size initial))).Meets fun _ => Shallow 0 := by
        intro i f hf
        rw [frame?_start] at hf
        cases hf
      have hp := hfresh.propagate (fun hg hg' => hg.join hg') (hinitial 0) h
      exact fun i f hf => (hp i f hf).mono (Nat.zero_le _)
  | step _ hstep ih => exact hstep.within ih

/-- The depth of the frame that is recorded at an instruction. -/
def recordedDepth (q : Progress) (i : Nat) : Nat := (q.frame? i).elim 0 Frame.depth

/-- The depth that every visit of an instruction finds: what is recorded at the start of the block,
changed by the instructions of the block up to it. -/
def depthAt (body : Body) (q : Progress) : Nat → Nat
  | 0 => recordedDepth q 0
  | i + 1 =>
    if (body.labels.block? (i + 1)).isSome then recordedDepth q (i + 1)
    else (depthAt body q i + (body.lines[i]?).elim 0 (·.instruction.effect.slotDelta)).toNat

theorem depthAt_of_block {q : Progress} {i : Nat} (h : (body.labels.block? i).isSome) :
    depthAt body q i = recordedDepth q i := by
  cases i with
  | zero => rfl
  | succ i => rw [depthAt, if_pos h]

theorem depthAt_succ {q : Progress} {i : Nat} {line : Line}
    (hnext : body.labels.block? (i + 1) = none) (hline : body.lines[i]? = some line) :
    depthAt body q (i + 1) = (depthAt body q i + line.instruction.effect.slotDelta).toNat := by
  rw [depthAt, hnext, hline]
  rfl

theorem Reaches.depth_eq (hinitial : initial.stack.start = 0) {q : Progress}
    (hend : ∀ {a : Point}, Reaches body thisClass initial journal a →
      Relation.ReflTransGen (Step body thisClass) a (.queue q))
    {leader i : Nat} {f : Frame} {p : Progress}
    (ha : Reaches body thisClass initial journal (.instruction leader i f p)) :
    f.depth = depthAt body q i := by
  generalize hpoint : Point.instruction leader i f p = a at ha
  induction ha generalizing leader i f p with
  | start => cases hpoint
  | @step a b ha hstep ih =>
      cases hstep with
      | @enter p₀ leader₀ rest g hpop hframe =>
          cases hpoint
          obtain ⟨g', hg', hshape⟩ := ha.keepsShapes hinitial (hend ha) _ _ hframe
          have hstarts : (body.labels.block? leader).isSome := ha.placed.starts _ _ hframe
          rw [depthAt_of_block hstarts, recordedDepth, show q.frame? leader = some g' from hg']
          exact hshape.depth_eq
      | @next _ i₀ f₀ f' p₀ q₀ line hexecutes hfalls hlast hnext =>
          cases hpoint
          have hstart := (ha.meets (frameInvariant_based body thisClass) hinitial).2
          rw [depthAt_succ hnext hexecutes.hline, ← ih rfl]
          have hchange := Line.depth_of_apply hstart hexecutes.happly
          omega
      | skip => cases hpoint
      | fall => cases hpoint
      | leave => cases hpoint

/-- How many instructions start out below a depth. -/
def countBelow (depth : Nat → Nat) (size v : Nat) : Nat :=
  ((Finset.range size).filter (depth · < v)).card

theorem countBelow_le (depth : Nat → Nat) (size v : Nat) : countBelow depth size v ≤ size :=
  Nat.le_trans (Finset.card_filter_le _ _) (Nat.le_of_eq (Finset.card_range size))

theorem countBelow_lt {depth : Nat → Nat} {size i v : Nat} (hi : i < size) (hv : depth i < v) :
    countBelow depth size (depth i) < countBelow depth size v := by
  refine Finset.card_lt_card (Finset.ssubset_iff_of_subset ?_ |>.mpr ⟨i, ?_, ?_⟩)
  · intro j hj
    rw [Finset.mem_filter] at hj ⊢
    exact ⟨hj.1, Nat.lt_trans hj.2 hv⟩
  · exact Finset.mem_filter.mpr ⟨Finset.mem_range.mpr hi, hv⟩
  · intro hmem
    exact Nat.lt_irrefl _ (Finset.mem_filter.mp hmem).2

/-- Each depth up to a bound was climbed to by instructions below it, two slots at a time. -/
def Climbs (depth : Nat → Nat) (size bound : Nat) : Prop :=
  ∀ v, v ≤ bound → v ≤ 2 * countBelow depth size v

theorem Climbs.mono {depth : Nat → Nat} {size bound bound' : Nat} (h : Climbs depth size bound)
    (hle : bound' ≤ bound) : Climbs depth size bound' :=
  fun v hv => h v (Nat.le_trans hv hle)

theorem Climbs.le {depth : Nat → Nat} {size bound : Nat} (h : Climbs depth size bound) :
    bound ≤ 2 * size :=
  calc
    bound ≤ 2 * countBelow depth size bound := h bound (Nat.le_refl bound)
    _ ≤ 2 * size := Nat.mul_le_mul_left 2 (countBelow_le depth size bound)

/-- An instruction that climbs is below what it climbs to, so it counts there for the first time. -/
theorem Climbs.step {depth : Nat → Nat} {size i bound : Nat} (hi : i < size)
    (h : Climbs depth size (depth i)) (hbound : bound ≤ depth i + 2) : Climbs depth size bound := by
  intro v hv
  by_cases hle : v ≤ depth i
  · exact h v hle
  · have hlt := countBelow_lt hi (Nat.not_le.mp hle)
    have hbelow := h (depth i) (Nat.le_refl _)
    omega

theorem Reaches.climbs (hdepth : initial.depth = 0) {q : Progress}
    (hend : ∀ {a : Point}, Reaches body thisClass initial journal a →
      Relation.ReflTransGen (Step body thisClass) a (.queue q))
    (ha : Reaches body thisClass initial journal a) :
    Climbs (depthAt body q) body.lines.size a.progress.maxStack := by
  have hinitial := Frame.start_eq_zero hdepth
  have hexecuted : ∀ {leader i : Nat} {f f' : Frame} {p q' : Progress} {line : Line},
      Reaches body thisClass initial journal (.instruction leader i f p) →
      Executes body thisClass i f p line f' q' →
      Climbs (depthAt body q) body.lines.size p.maxStack →
      Climbs (depthAt body q) body.lines.size q'.maxStack := by
    intro leader i f f' p q' line hreached hexecutes hclimbs
    obtain ⟨_, _, hi, _⟩ := hreached.placed
    obtain ⟨hstart, hshallow⟩ := (hreached.within hdepth).2
    have hat := hreached.depth_eq hinitial hend
    have hafter : f'.depth ≤ depthAt body q i + 2 := by
      have hchange := Line.depth_of_apply hstart hexecutes.happly
      have hdelta := line.instruction.slotDelta_le
      omega
    have hclimbs' : Climbs (depthAt body q) body.lines.size f'.depth :=
      .step hi (hclimbs.mono (hat ▸ hshallow)) hafter
    rw [hexecutes.maxStack_eq]
    intro v hv
    by_cases hle : v ≤ p.maxStack
    · exact hclimbs v hle
    · exact hclimbs' v (by omega)
  induction ha with
  | start h =>
      intro v hv
      have hroom := (room_of_propagate h).1
      rw [Point.progress, hroom] at hv
      exact Nat.le_trans hv (Nat.zero_le _)
  | @step a b ha hstep ih =>
      cases hstep with
      | enter hpop hframe => exact ih
      | skip hpop hframe => exact ih
      | next hexecutes hfalls hlast hnext => exact hexecuted ha hexecutes ih
      | fall hexecutes hfalls hlast hnext harrives =>
          have hclimbs := hexecuted ha hexecutes ih
          rw [← (room_of_propagate harrives).1] at hclimbs
          exact hclimbs
      | leave hexecutes hstops => exact hexecuted ha hexecutes ih

section Successful

variable {analysis : Analysis} {journal' : Journal}

/-- The frame of a label is within the room for the stack. -/
theorem depth_le_maxStack (h : ofBody body thisClass initial journal = .ok analysis journal')
    (hdepth : initial.depth = 0) {label : Nat} {f : Frame}
    (hf : analysis.frame? label = some f) : f.depth ≤ analysis.maxStack := by
  obtain ⟨q, _, hreached, rfl, _⟩ := exists_conclusion h
  exact (hreached.within hdepth _ f (frame?_of_conclude hf)).2

/-- The room for the stack is at most two slots for each instruction. -/
theorem maxStack_le_two_mul (h : ofBody body thisClass initial journal = .ok analysis journal')
    (hdepth : initial.depth = 0) : analysis.maxStack ≤ 2 * body.lines.size := by
  obtain ⟨q, _, hreached, rfl, hend⟩ := exists_conclusion h
  exact (hreached.climbs hdepth hend).le

end Successful

end Analysis

end JvmAssembler
