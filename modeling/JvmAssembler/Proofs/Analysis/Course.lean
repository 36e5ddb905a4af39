import JvmAssembler.Proofs.Analysis.Fixpoint
import JvmAssembler.Proofs.Frame.Shape

/-! The analysis step by step: it takes a block from the queue, applies the instructions of the
block one after the other, and goes back to the queue at the end of the block. Every frame that an
instruction is ever applied to stands at one of these points, also if the analysis fails later on.
-/

namespace JvmAssembler

/-- Every label that can be jumped to starts a block. -/
theorem LabelTable.isSome_block?_get (t : LabelTable) (id : Nat) :
    (t.block? (t.get id).instruction).isSome := by
  by_cases h : id < t.size
  · exact isSome_block? h
  · have hget : t.get id = t.get start := by
      rw [get_eq_of_getElem? t.start_eq, get, Array.getD_eq_getD_getElem?,
        Array.getElem?_eq_none (Nat.not_lt.mp h)]
      rfl
    rw [hget]
    exact isSome_block? t.size_pos

namespace Progress

variable {p q r : Progress}

/-- What the arrival of a frame at an instruction does to the recorded frames. -/
structure Arrives (i : Nat) (f : Frame) (p q : Progress) : Prop where
  size : q.frames.size = p.frames.size
  others : ∀ {j : Nat}, j ≠ i → q.frame? j = p.frame? j
  here : (p.frame? i = none ∧ q.frame? i = some f) ∨
    ∃ g, p.frame? i = some g ∧ g.mismatch? f = none ∧
      (q.frame? i = some g ∨ q.frame? i = some (g.join f))

theorem arrives_of_propagate {labels : LabelTable} {label : Nat} {f : Frame}
    {source : Option Line} (h : p.propagate labels label f source = .ok () q) :
    Arrives (labels.get label).instruction f p q := by
  obtain ⟨journal, ⟨hget, rfl⟩ | ⟨expected, hexpected, hmismatch, ⟨_, rfl⟩ | ⟨_, rfl⟩⟩⟩ :=
    propagate_cases h
  · obtain ⟨hlt, _⟩ := Array.getElem?_eq_some_iff.mp hget
    have hnone : p.frame? (labels.get label).instruction = none := by
      rw [frame?, Array.getD_eq_getD_getElem?, hget]
      rfl
    refine ⟨Array.size_setIfInBounds, fun hj => ?_, .inl ⟨hnone, ?_⟩⟩
    · exact (frame?_set rfl hlt).trans (if_neg (Ne.symm hj))
    · exact (frame?_set rfl hlt).trans (if_pos rfl)
  · exact ⟨rfl, fun _ => rfl, .inr ⟨expected, hexpected, hmismatch, .inl hexpected⟩⟩
  · have hlt := lt_size_of_frame? hexpected
    refine ⟨Array.size_setIfInBounds, fun hj => ?_,
      .inr ⟨expected, hexpected, hmismatch, .inr ?_⟩⟩
    · exact (frame?_set rfl hlt).trans (if_neg (Ne.symm hj))
    · exact (frame?_set rfl hlt).trans (if_pos rfl)

/-- A frame arrives at several labels one after the other. -/
inductive Sends (labels : LabelTable) (f : Frame) : Progress → Progress → Prop
  | done (p : Progress) : Sends labels f p p
  | send {p q r : Progress} (label : Nat) (hfirst : Arrives (labels.get label).instruction f p q)
      (hrest : Sends labels f q r) : Sends labels f p r

theorem sends_of_propagateAll {labels : LabelTable} {f : Frame} {source : Line}
    {targets : List Nat} (h : propagateAll labels f source targets p = .ok () q) :
    Sends labels f p q := by
  induction targets generalizing p with
  | nil =>
      cases h
      exact .done _
  | cons label rest ih =>
      simp only [propagateAll] at h
      split at h
      · rename_i p' hfirst
        exact .send label (arrives_of_propagate hfirst) (ih h)
      · cases h

/-- What is kept by each arrival is kept by all. -/
theorem Sends.keeps {I : Progress → Prop} {labels : LabelTable} {f : Frame}
    (h : Sends labels f p q) (hp : I p)
    (harrives : ∀ {p q : Progress} (label : Nat), I p →
      Arrives (labels.get label).instruction f p q → I q) : I q := by
  induction h with
  | done => exact hp
  | send label hfirst _ ih => exact ih (harrives label hp hfirst)

/-- A block that has a frame keeps one. -/
theorem Arrives.isSome_frame? {i j : Nat} {f : Frame} (h : Arrives i f p q)
    (hj : (p.frame? j).isSome) : (q.frame? j).isSome := by
  by_cases hij : j = i
  · subst hij
    rcases h.here with ⟨_, hnew⟩ | ⟨_, _, _, hsame | hjoin⟩
    · exact Option.isSome_iff_exists.mpr ⟨_, hnew⟩
    · exact Option.isSome_iff_exists.mpr ⟨_, hsame⟩
    · exact Option.isSome_iff_exists.mpr ⟨_, hjoin⟩
  · rw [h.others hij]
    exact hj

/-- Recorded frames keep their shapes. -/
def KeepsShapes (p q : Progress) : Prop :=
  ∀ (i : Nat) (f : Frame), p.frame? i = some f → ∃ g, q.frame? i = some g ∧ f.SameShape g

namespace KeepsShapes

theorem of_frames_eq (hp : p.Based) (h : q.frames = p.frames) : p.KeepsShapes q := by
  intro i f hf
  refine ⟨f, ?_, .refl (hp i f hf)⟩
  rw [frame?, h]
  exact hf

theorem trans (hpq : p.KeepsShapes q) (hqr : q.KeepsShapes r) : p.KeepsShapes r := by
  intro i f hf
  obtain ⟨g, hg, hfg⟩ := hpq i f hf
  obtain ⟨h, hh, hgh⟩ := hqr i g hg
  exact ⟨h, hh, hfg.trans hgh⟩

end KeepsShapes

/-- A frame that arrives has the shape of what is recorded from then on, and recorded frames keep
their shapes. -/
theorem Arrives.keepsShapes {i : Nat} {f : Frame} (h : Arrives i f p q) (hp : p.Based)
    (hf : f.stack.start = 0) :
    p.KeepsShapes q ∧ ∃ g, q.frame? i = some g ∧ f.Related ValueType.SameShape g := by
  rcases h.here with ⟨hnone, hnew⟩ | ⟨g, hg, hmismatch, hafter⟩
  · refine ⟨?_, f, hnew, .refl .sameShape hf⟩
    intro j h' hj
    by_cases hij : j = i
    · subst hij
      rw [hnone] at hj
      cases hj
    · exact ⟨h', (h.others hij).trans hj, .refl (hp j h' hj)⟩
  · have hrelated := Frame.related_of_mismatch? (hp i g hg) hf hmismatch
    have hkept : ∃ g', q.frame? i = some g' ∧ g.SameShape g' := by
      rcases hafter with hsame | hjoin
      · exact ⟨g, hsame, .refl (hp i g hg)⟩
      · exact ⟨g.join f, hjoin, (Frame.SameShape.join hrelated).symm⟩
    obtain ⟨g', hg', hshape⟩ := hkept
    refine ⟨?_, g', hg', ?_⟩
    · intro j h' hj
      by_cases hij : j = i
      · subst hij
        rw [hg, Option.some.injEq] at hj
        exact ⟨g', hg', hj ▸ hshape⟩
      · exact ⟨h', (h.others hij).trans hj, .refl (hp j h' hj)⟩
    · exact hrelated.trans .sameShape (fun _ _ _ => .trans) hshape.related

theorem Arrives.based {i : Nat} {f : Frame} (h : Arrives i f p q) (hp : p.Based)
    (hf : f.stack.start = 0) : q.Based := by
  intro j g hg
  by_cases hij : j = i
  · subst hij
    obtain ⟨g', hg', hrelated⟩ := (h.keepsShapes hp hf).2
    rw [hg', Option.some.injEq] at hg
    exact hg ▸ hrelated.stack.start_right
  · exact hp j g ((h.others hij).symm.trans hg)

theorem Sends.keepsShapes {labels : LabelTable} {f : Frame} (h : Sends labels f p q)
    (hp : p.Based) (hf : f.stack.start = 0) : p.KeepsShapes q ∧ q.Based := by
  refine h.keeps (I := fun q => p.KeepsShapes q ∧ q.Based) ⟨.of_frames_eq hp rfl, hp⟩ ?_
  intro q r label hq harrives
  exact ⟨hq.1.trans (harrives.keepsShapes hq.2 hf).1, harrives.based hq.2 hf⟩

/-- Frames are recorded at instructions that start a block. -/
structure Placed (body : Body) (p : Progress) : Prop where
  size : p.frames.size = body.lines.size
  starts : p.Meets fun i _ => (body.labels.block? i).isSome

theorem Arrives.placed {body : Body} {label : Nat} {f : Frame} (hp : p.Placed body)
    (h : Arrives (body.labels.get label).instruction f p q) : q.Placed body where
  size := h.size.trans hp.size
  starts := by
    intro j g hg
    by_cases hj : j = (body.labels.get label).instruction
    · rw [hj]
      exact body.labels.isSome_block?_get label
    · rw [h.others hj] at hg
      exact hp.starts j g hg

theorem placed_start (body : Body) (initial : Frame) (journal : Journal) :
    (start body.lines.size initial journal).Placed body where
  size := Array.size_replicate
  starts := by
    intro i f hf
    rw [frame?_start] at hf
    cases hf

end Progress

namespace Body

/-- The instruction is in the block that starts at another one. -/
structure InBlock (body : Body) (leader i : Nat) : Prop where
  starts : (body.labels.block? leader).isSome
  le : leader ≤ i
  inside : ∀ j, leader < j → j ≤ i → body.labels.block? j = none

/-- An instruction is in one block only. -/
theorem InBlock.unique {body : Body} {leader leader' i : Nat} (h : body.InBlock leader i)
    (h' : body.InBlock leader' i) : leader = leader' := by
  have hle : ∀ {l l' : Nat}, body.InBlock l i → body.InBlock l' i → ¬l < l' := by
    intro l l' hl hl' hlt
    have hstarts := hl'.starts
    rw [hl.inside l' hlt hl'.le] at hstarts
    cases hstarts
  exact Nat.le_antisymm (Nat.not_lt.mp (hle h' h)) (Nat.not_lt.mp (hle h h'))

theorem InBlock.next {body : Body} {leader i : Nat} (h : body.InBlock leader i)
    (hnext : body.labels.block? (i + 1) = none) : body.InBlock leader (i + 1) where
  starts := h.starts
  le := Nat.le_succ_of_le h.le
  inside := by
    intro j hlt hle
    rcases Nat.le_succ_iff.mp hle with hle | rfl
    · exact h.inside j hlt hle
    · exact hnext

end Body

namespace Analysis

open Progress

/-! ### Points and steps -/

/-- What the analysis does next. -/
inductive Point where
  /-- It takes a block from the queue. -/
  | queue (p : Progress)
  /-- It applies an instruction of the block that starts at `leader` to a frame. -/
  | instruction (leader i : Nat) (f : Frame) (p : Progress)

def Point.progress : Point → Progress
  | queue p => p
  | instruction _ _ _ p => p

/-- An instruction is applied to a frame, and the frame after it is sent to its targets. -/
structure Executes (body : Body) (thisClass : BinaryName) (i : Nat) (f : Frame) (p : Progress)
    (line : Line) (f' : Frame) (q : Progress) : Prop where
  hline : body.lines[i]? = some line
  happly : line.apply thisClass f = .ok f'
  hjumps : propagateAll body.labels f' line line.targets (p.simulated line f') = .ok () q

/-- One step of the analysis. -/
inductive Step (body : Body) (thisClass : BinaryName) : Point → Point → Prop
  /-- A block that has a frame is entered with it. -/
  | enter {p : Progress} {leader : Nat} {rest : Queue Nat} {f : Frame}
      (hpop : p.pending.pop? = some (leader, rest)) (hframe : p.frame? leader = some f) :
      Step body thisClass (.queue p)
        (.instruction leader leader f
          (({ p with pending := rest } : Progress).report (.simulating leader)))
  /-- There is nothing to do for a block that has none. -/
  | skip {p : Progress} {leader : Nat} {rest : Queue Nat}
      (hpop : p.pending.pop? = some (leader, rest)) (hframe : p.frame? leader = none) :
      Step body thisClass (.queue p) (.queue { p with pending := rest })
  /-- Control goes on to the next instruction of the block. -/
  | next {leader i : Nat} {f f' : Frame} {p q : Progress} {line : Line}
      (hexecutes : Executes body thisClass i f p line f' q)
      (hfalls : line.instruction.fallsThrough = true) (hend : i + 1 ≠ body.lines.size)
      (hnext : body.labels.block? (i + 1) = none) :
      Step body thisClass (.instruction leader i f p) (.instruction leader (i + 1) f' q)
  /-- Control falls through into the next block. -/
  | fall {leader i label : Nat} {f f' : Frame} {p q r : Progress} {line : Line}
      (hexecutes : Executes body thisClass i f p line f' q)
      (hfalls : line.instruction.fallsThrough = true) (hend : i + 1 ≠ body.lines.size)
      (hnext : body.labels.block? (i + 1) = some label)
      (harrives : q.propagate body.labels label f' none = .ok () r) :
      Step body thisClass (.instruction leader i f p) (.queue r)
  /-- Control never goes on to the next instruction. -/
  | leave {leader i : Nat} {f f' : Frame} {p q : Progress} {line : Line}
      (hexecutes : Executes body thisClass i f p line f' q)
      (hstops : line.instruction.fallsThrough = false) :
      Step body thisClass (.instruction leader i f p) (.queue q)

/-- The points that an analysis comes to. -/
inductive Reaches (body : Body) (thisClass : BinaryName) (initial : Frame) (journal : Journal) :
    Point → Prop
  | start {p : Progress}
      (h : (Progress.start body.lines.size initial
        (journal.report (.analysing body.lines.size initial))).propagate body.labels
          LabelTable.start initial none = .ok () p) :
      Reaches body thisClass initial journal (.queue p)
  | step {a b : Point} (ha : Reaches body thisClass initial journal a)
      (hab : Step body thisClass a b) : Reaches body thisClass initial journal b

variable {body : Body} {thisClass : BinaryName} {initial : Frame} {journal : Journal}
  {a b : Point}

theorem Reaches.trans (ha : Reaches body thisClass initial journal a)
    (hab : Relation.ReflTransGen (Step body thisClass) a b) :
    Reaches body thisClass initial journal b := by
  induction hab with
  | refl => exact ha
  | tail _ hstep ih => exact ih.step hstep

/-- How the analysis ends from a point on. -/
def Point.outcome (body : Body) (thisClass : BinaryName) :
    Point → EStateM.Result CompileError Progress Unit
  | queue p => run body thisClass p
  | instruction _ i f p =>
    match walk body thisClass i f p with
    | .error e q => .error e q
    | .ok () q => run body thisClass q

theorem walk_of_executes {i : Nat} {f f' : Frame} {p q : Progress} {line : Line}
    (h : Executes body thisClass i f p line f' q) :
    walk body thisClass i f p =
      if !line.instruction.fallsThrough then .ok () q
      else if i + 1 = body.lines.size then .error (.fallsOffEnd line.id line.position) q
      else
        (body.labels.block? (i + 1)).elim (walk body thisClass (i + 1) f' q)
          fun next => q.propagate body.labels next f' none := by
  obtain ⟨hi, hline⟩ := Array.getElem?_eq_some_iff.mp h.hline
  rw [walk, dif_pos hi, hline]
  simp only [h.happly, h.hjumps]
  cases body.labels.block? (i + 1) <;> rfl

/-- A step leaves open nothing about the end of the analysis. -/
theorem outcome_of_step (h : Step body thisClass a b) :
    a.outcome body thisClass = b.outcome body thisClass := by
  cases h with
  | @enter p leader rest f hpop hframe =>
      have hpopped : ({ p with pending := rest } : Progress).frame? leader = some f := hframe
      rw [Point.outcome, run_eq]
      simp only [hpop, simulate, hpopped]
      rfl
  | @skip p leader rest hpop hframe =>
      have hpopped : ({ p with pending := rest } : Progress).frame? leader = none := hframe
      rw [Point.outcome, run_eq]
      simp only [hpop, simulate, hpopped]
      rfl
  | next hexecutes hfalls hend hnext =>
      simp only [Point.outcome, walk_of_executes hexecutes, hfalls, hend, hnext, Bool.not_true,
        Bool.false_eq_true, if_false, Option.elim_none]
  | fall hexecutes hfalls hend hnext harrives =>
      simp only [Point.outcome, walk_of_executes hexecutes, hfalls, hend, hnext, harrives,
        Bool.not_true, Bool.false_eq_true, if_false, Option.elim_some]
  | leave hexecutes hstops =>
      simp only [Point.outcome, walk_of_executes hexecutes, hstops, Bool.not_false, if_true]

theorem outcome_of_steps (h : Relation.ReflTransGen (Step body thisClass) a b) :
    a.outcome body thisClass = b.outcome body thisClass := by
  induction h with
  | refl => rfl
  | tail _ hstep ih => exact ih.trans (outcome_of_step hstep)

/-- The sent frame arrives at each target. -/
theorem Executes.sends {i : Nat} {f f' : Frame} {p q : Progress} {line : Line}
    (h : Executes body thisClass i f p line f' q) :
    Sends body.labels f' (p.simulated line f') q :=
  sends_of_propagateAll h.hjumps

/-- An instruction that is applied stands in the code, in a block that has a frame. -/
def Point.Placed (body : Body) : Point → Prop
  | queue p => p.Placed body
  | instruction leader i _ p =>
    p.Placed body ∧ (p.frame? leader).isSome ∧ i < body.lines.size ∧ body.InBlock leader i

theorem Step.placed (h : Step body thisClass a b) (ha : a.Placed body) : b.Placed body := by
  have hsent : ∀ {leader i : Nat} {f f' : Frame} {p q : Progress} {line : Line},
      Executes body thisClass i f p line f' q → p.Placed body → (p.frame? leader).isSome →
      q.Placed body ∧ (q.frame? leader).isSome := by
    intro leader i f f' p q line hexecutes hp hleader
    have hsimulated : (p.simulated line f').Placed body := ⟨hp.size, hp.starts⟩
    exact hexecutes.sends.keeps (I := fun q => q.Placed body ∧ (q.frame? leader).isSome)
      ⟨hsimulated, hleader⟩
      fun _ hq harrives => ⟨harrives.placed hq.1, harrives.isSome_frame? hq.2⟩
  cases h with
  | @enter p leader rest f hpop hframe =>
      have hp : p.Placed body := ha
      refine ⟨⟨hp.size, hp.starts⟩, Option.isSome_iff_exists.mpr ⟨f, hframe⟩, ?_, ?_⟩
      · rw [← hp.size]
        exact lt_size_of_frame? hframe
      · exact ⟨hp.starts leader f hframe, Nat.le_refl _, fun j hlt hle => absurd hlt (by omega)⟩
  | @skip p leader rest hpop hframe =>
      have hp : p.Placed body := ha
      exact ⟨hp.size, hp.starts⟩
  | next hexecutes hfalls hend hnext =>
      obtain ⟨hp, hleader, hlt, hblock⟩ := ha
      obtain ⟨hq, hleader'⟩ := hsent hexecutes hp hleader
      exact ⟨hq, hleader', by omega, hblock.next hnext⟩
  | fall hexecutes hfalls hend hnext harrives =>
      obtain ⟨hp, hleader, _, _⟩ := ha
      exact (arrives_of_propagate harrives).placed (hsent hexecutes hp hleader).1
  | leave hexecutes hstops =>
      obtain ⟨hp, hleader, _, _⟩ := ha
      exact (hsent hexecutes hp hleader).1

theorem Reaches.placed (h : Reaches body thisClass initial journal a) : a.Placed body := by
  induction h with
  | start h => exact (arrives_of_propagate h).placed (placed_start body initial _)
  | step _ hstep ih => exact hstep.placed ih

/-- The recorded frames and the one that an instruction is applied to have a property. -/
def Point.Meets (Q : Nat → Frame → Prop) : Point → Prop
  | queue p => p.Meets Q
  | instruction _ i f p => p.Meets Q ∧ Q i f

theorem Step.meets {Q : Nat → Frame → Prop} (hinv : FrameInvariant body thisClass Q)
    (h : Step body thisClass a b) (ha : a.Meets Q) : b.Meets Q := by
  cases h with
  | enter hpop hframe => exact ⟨ha, ha _ _ hframe⟩
  | skip hpop hframe => exact ha
  | next hexecutes hfalls hend hnext =>
      obtain ⟨hp, hf⟩ := ha
      refine ⟨hp.jumps hinv hexecutes.hline hf hexecutes.happly hexecutes.hjumps, ?_⟩
      exact hinv.step hexecutes.hline hf hexecutes.happly
        ⟨_, hexecutes.hline, .inl ⟨hfalls, rfl⟩⟩
  | fall hexecutes hfalls hend hnext harrives =>
      obtain ⟨hp, hf⟩ := ha
      refine (hp.jumps hinv hexecutes.hline hf hexecutes.happly hexecutes.hjumps).propagate
        hinv.join ?_ harrives
      rw [(LabelTable.instruction_of_block? hnext).2]
      exact hinv.step hexecutes.hline hf hexecutes.happly
        ⟨_, hexecutes.hline, .inl ⟨hfalls, rfl⟩⟩
  | leave hexecutes hstops =>
      obtain ⟨hp, hf⟩ := ha
      exact hp.jumps hinv hexecutes.hline hf hexecutes.happly hexecutes.hjumps

/-- What control flow and merging keep is true of all frames of the analysis. -/
theorem Reaches.meets {Q : Nat → Frame → Prop} (hinv : FrameInvariant body thisClass Q)
    (hinitial : Q 0 initial) (h : Reaches body thisClass initial journal a) : a.Meets Q := by
  induction h with
  | start h =>
      have hfresh : (Progress.start body.lines.size initial
          (journal.report (.analysing body.lines.size initial))).Meets Q := by
        intro i f hf
        rw [frame?_start] at hf
        cases hf
      refine hfresh.propagate hinv.join ?_ h
      rw [LabelTable.instruction_start]
      exact hinitial
  | step _ hstep ih => exact hstep.meets hinv ih

/-! ### The end of a successful analysis -/

theorem steps_of_walk (leader : Nat) {i : Nat} {f : Frame} {p q : Progress}
    (hi : i < body.lines.size) (h : walk body thisClass i f p = .ok () q) :
    Relation.ReflTransGen (Step body thisClass) (.instruction leader i f p) (.queue q) := by
  fun_induction walk body thisClass i f p with
  | case1 => cases h
  | case2 => cases h
  | case3 i f p hi line f' happly r hjumps hstops =>
      cases h
      exact .single (.leave ⟨Array.getElem?_eq_getElem hi, happly, hjumps⟩ (by simpa using hstops))
  | case4 => cases h
  | case5 i f p hi line f' happly r hjumps hfalls hend next hnext =>
      exact .single (.fall ⟨Array.getElem?_eq_getElem hi, happly, hjumps⟩ (by simpa using hfalls)
        hend hnext h)
  | case6 i f p hi line f' happly r hjumps hfalls hend hnext ih =>
      exact .head (.next ⟨Array.getElem?_eq_getElem hi, happly, hjumps⟩ (by simpa using hfalls)
        hend hnext) (ih (by omega) h)
  | case7 i f p hge => exact absurd hi hge

theorem placed_of_steps (hab : Relation.ReflTransGen (Step body thisClass) a b)
    (ha : a.Placed body) : b.Placed body := by
  induction hab with
  | refl => exact ha
  | tail _ hstep ih => exact hstep.placed ih

theorem steps_of_simulate {leader : Nat} {rest : Queue Nat} {p q : Progress} (hp : p.Placed body)
    (hpop : p.pending.pop? = some (leader, rest))
    (h : simulate body thisClass leader { p with pending := rest } = .ok () q) :
    Relation.ReflTransGen (Step body thisClass) (.queue p) (.queue q) := by
  simp only [simulate] at h
  split at h
  · rename_i hnone
    cases h
    exact .single (.skip hpop hnone)
  · rename_i f hframe
    have hlt : leader < body.lines.size := hp.size ▸ lt_size_of_frame? hframe
    exact .head (.enter hpop hframe) (steps_of_walk leader hlt h)

theorem steps_of_run {p q : Progress} (hp : p.Placed body)
    (h : run body thisClass p = .ok () q) :
    Relation.ReflTransGen (Step body thisClass) (.queue p) (.queue q) ∧
      q.pending.toList = [] := by
  fun_induction run body thisClass p with
  | case1 p hpop =>
      cases h
      exact ⟨.refl, Queue.toList_of_pop?_none hpop⟩
  | case2 => cases h
  | case3 p leader rest hpop r hsim ih =>
      have hblock := steps_of_simulate hp hpop hsim
      obtain ⟨hsteps, hempty⟩ := ih (placed_of_steps hblock hp) h
      exact ⟨hblock.trans hsteps, hempty⟩

/-- A successful analysis comes to a point where nothing is pending, from each point before, and its
result is read off there. -/
theorem exists_conclusion {analysis : Analysis} {journal' : Journal}
    (h : ofBody body thisClass initial journal = .ok analysis journal') :
    ∃ q : Progress, q.pending.toList = [] ∧ Reaches body thisClass initial journal (.queue q) ∧
      (conclude body q).2 = analysis ∧
      ∀ {a : Point}, Reaches body thisClass initial journal a →
        Relation.ReflTransGen (Step body thisClass) a (.queue q) := by
  simp only [ofBody] at h
  split at h
  · cases h
  · split at h
    · cases h
    · rename_i p₀ hstart
      split at h
      · cases h
      · rename_i q hrun
        cases h
        have hfirst : Reaches body thisClass initial journal (.queue p₀) := .start hstart
        have houtcome : ∀ {a : Point}, Reaches body thisClass initial journal a →
            a.outcome body thisClass = .ok () q := by
          intro a ha
          induction ha with
          | start h' =>
              rw [hstart] at h'
              cases h'
              exact hrun
          | step _ hstep ih => exact (outcome_of_step hstep).symm.trans ih
        obtain ⟨hsteps, hempty⟩ := steps_of_run hfirst.placed hrun
        refine ⟨q, hempty, hfirst.trans hsteps, rfl, ?_⟩
        intro a ha
        have hend := houtcome ha
        cases a with
        | queue p => exact (steps_of_run ha.placed hend).1
        | instruction leader i f p =>
            obtain ⟨_, _, hlt, _⟩ := ha.placed
            simp only [Point.outcome] at hend
            split at hend
            · cases hend
            · rename_i r hwalk
              have hsteps := steps_of_walk leader hlt hwalk
              exact hsteps.trans (steps_of_run (placed_of_steps hsteps ha.placed) hend).1

theorem exists_end {analysis : Analysis} {journal' : Journal}
    (h : ofBody body thisClass initial journal = .ok analysis journal') :
    ∃ q : Progress, q.pending.toList = [] ∧
      ∀ {a : Point}, Reaches body thisClass initial journal a →
        Relation.ReflTransGen (Step body thisClass) a (.queue q) := by
  obtain ⟨q, hempty, _, _, hend⟩ := exists_conclusion h
  exact ⟨q, hempty, hend⟩

theorem Step.keepsShapes (h : Step body thisClass a b)
    (ha : a.Meets fun _ f => f.stack.start = 0) : a.progress.KeepsShapes b.progress := by
  have hsent : ∀ {i : Nat} {f f' : Frame} {p q : Progress} {line : Line},
      Executes body thisClass i f p line f' q → p.Based → f.stack.start = 0 →
      p.KeepsShapes q ∧ q.Based := by
    intro i f f' p q line hexecutes hp hf
    have hsimulated : (p.simulated line f').Based := hp
    exact hexecutes.sends.keepsShapes hsimulated (start_of_apply hf hexecutes.happly)
  cases h with
  | enter hpop hframe => exact .of_frames_eq ha rfl
  | skip hpop hframe => exact .of_frames_eq ha rfl
  | next hexecutes hfalls hend hnext => exact (hsent hexecutes ha.1 ha.2).1
  | fall hexecutes hfalls hend hnext harrives =>
      obtain ⟨hkeeps, hbased⟩ := hsent hexecutes ha.1 ha.2
      exact hkeeps.trans ((arrives_of_propagate harrives).keepsShapes hbased
        (start_of_apply ha.2 hexecutes.happly)).1
  | leave hexecutes hstops => exact (hsent hexecutes ha.1 ha.2).1

theorem Reaches.keepsShapes (hinitial : initial.stack.start = 0)
    (ha : Reaches body thisClass initial journal a)
    (hab : Relation.ReflTransGen (Step body thisClass) a b) :
    a.progress.KeepsShapes b.progress := by
  have hbased := frameInvariant_based body thisClass
  induction hab with
  | refl =>
      have hmeets := ha.meets hbased hinitial
      cases a with
      | queue p => exact .of_frames_eq hmeets rfl
      | instruction leader i f p => exact .of_frames_eq hmeets.1 rfl
  | tail hsteps hstep ih =>
      exact ih.trans (hstep.keepsShapes ((ha.trans hsteps).meets hbased hinitial))

/-- A block that has a frame is pending, or it was entered with that frame. -/
theorem Reaches.entered (hinitial : initial.stack.start = 0)
    (ha : Reaches body thisClass initial journal a) {i : Nat} {f : Frame}
    (hf : a.progress.frame? i = some f) :
    i ∈ a.progress.pending.toList ∨
      ∃ p, Reaches body thisClass initial journal (.instruction i i f p) := by
  induction ha generalizing i f with
  | start h =>
      have hfresh : (Progress.start body.lines.size initial
          (journal.report (.analysing body.lines.size initial))).Based := by
        intro j g hg
        rw [frame?_start] at hg
        cases hg
      rcases (propagate_grows hfresh hinitial h).1.changed hf with hbefore | hpending
      · rw [frame?_start] at hbefore
        cases hbefore
      · exact .inl hpending
  | @step a b ha hstep ih =>
      have hgrown : ∀ {p q : Progress}, a.progress = p → p.Grows q → q.frame? i = some f →
          i ∈ q.pending.toList ∨
            ∃ p, Reaches body thisClass initial journal (.instruction i i f p) := by
        rintro p q rfl hgrows hq
        rcases hgrows.changed hq with hbefore | hpending
        · exact (ih hbefore).imp_left hgrows.pending
        · exact .inl hpending
      have hmeets := ha.meets (frameInvariant_based body thisClass) hinitial
      cases hstep with
      | @enter p leader rest g hpop hframe =>
          by_cases hi : i = leader
          · subst hi
            have hfg : some f = some g := hf.symm.trans hframe
            rw [Option.some.injEq] at hfg
            exact .inr ⟨_, hfg ▸ ha.step (.enter hpop hframe)⟩
          · refine (ih hf).imp_left fun hpending => ?_
            rw [Point.progress, Queue.toList_of_pop? hpop] at hpending
            exact (List.mem_cons.mp hpending).resolve_left hi
      | @skip p leader rest hpop hframe =>
          refine (ih hf).imp_left fun hpending => ?_
          rw [Point.progress, Queue.toList_of_pop? hpop] at hpending
          refine (List.mem_cons.mp hpending).resolve_left ?_
          rintro rfl
          exact absurd (hframe.symm.trans hf) (by simp)
      | next hexecutes hfalls hend hnext =>
          have hgrows := jumps_grows hmeets.1 hmeets.2 hexecutes.happly hexecutes.hjumps
          exact hgrown rfl hgrows.1 hf
      | fall hexecutes hfalls hend hnext harrives =>
          obtain ⟨hgrows, hbased, _⟩ :=
            jumps_grows hmeets.1 hmeets.2 hexecutes.happly hexecutes.hjumps
          have hgrows' := (propagate_grows hbased (start_of_apply hmeets.2 hexecutes.happly)
            harrives).1
          exact hgrown rfl (hgrows.trans hgrows') hf
      | leave hexecutes hstops =>
          have hgrows := jumps_grows hmeets.1 hmeets.2 hexecutes.happly hexecutes.hjumps
          exact hgrown rfl hgrows.1 hf

section Successful

variable {analysis : Analysis} {journal' : Journal}

/-- A successful analysis starts by recording the initial frame. -/
theorem exists_first (h : ofBody body thisClass initial journal = .ok analysis journal')
    (hinitial : initial.stack.start = 0) :
    ∃ p f, Reaches body thisClass initial journal (.queue p) ∧ p.frame? 0 = some f ∧
      initial.Related ValueType.SameShape f := by
  simp only [ofBody] at h
  split at h
  · cases h
  · split at h
    · cases h
    · rename_i p hstart
      have hfresh : (Progress.start body.lines.size initial
          (journal.report (.analysing body.lines.size initial))).Based := by
        intro j g hg
        rw [frame?_start] at hg
        cases hg
      obtain ⟨_, f, hf, hrelated⟩ := (arrives_of_propagate hstart).keepsShapes hfresh hinitial
      rw [LabelTable.instruction_start] at hf
      exact ⟨p, f, .start hstart, hf, hrelated⟩

/-- The frames recorded at an instruction in the course of a successful analysis have one shape. -/
theorem Reaches.sameShape (h : ofBody body thisClass initial journal = .ok analysis journal')
    (hinitial : initial.stack.start = 0) (ha : Reaches body thisClass initial journal a)
    (hb : Reaches body thisClass initial journal b) {i : Nat} {f g : Frame}
    (hf : a.progress.frame? i = some f) (hg : b.progress.frame? i = some g) : f.SameShape g := by
  obtain ⟨q, _, hend⟩ := exists_end h
  obtain ⟨f', hf', hff'⟩ := ha.keepsShapes hinitial (hend ha) i f hf
  obtain ⟨g', hg', hgg'⟩ := hb.keepsShapes hinitial (hend hb) i g hg
  rw [hf', Option.some.injEq] at hg'
  exact hff'.trans (hg' ▸ hgg'.symm)

/-- A block that gets a frame in a successful analysis is entered. -/
theorem Reaches.exists_entered (h : ofBody body thisClass initial journal = .ok analysis journal')
    (hinitial : initial.stack.start = 0) (ha : Reaches body thisClass initial journal a) {i : Nat}
    {f : Frame} (hf : a.progress.frame? i = some f) :
    ∃ g p, Reaches body thisClass initial journal (.instruction i i g p) := by
  obtain ⟨q, hempty, hend⟩ := exists_end h
  obtain ⟨g, hg, _⟩ := ha.keepsShapes hinitial (hend ha) i f hf
  rcases (ha.trans (hend ha)).entered hinitial hg with hpending | ⟨p, hp⟩
  · rw [Point.progress, hempty] at hpending
    cases hpending
  · exact ⟨g, p, hp⟩

/-- Where a successful analysis applies an instruction, the instruction goes through. Wherever
control goes from it, the analysis goes on there with the frame after it, or records a frame that
stands for it. -/
theorem Reaches.flows (h : ofBody body thisClass initial journal = .ok analysis journal')
    (hinitial : initial.stack.start = 0) {leader i : Nat} {f : Frame} {p : Progress}
    (ha : Reaches body thisClass initial journal (.instruction leader i f p)) :
    ∃ line f', body.lines[i]? = some line ∧ line.apply thisClass f = .ok f' ∧
      ∀ {j : Nat}, body.Flows i j →
        (j = i + 1 ∧ body.labels.block? j = none ∧
          ∃ q, Reaches body thisClass initial journal (.instruction leader j f' q)) ∨
        ((body.labels.block? j).isSome ∧ ∃ b g, Reaches body thisClass initial journal b ∧
          b.progress.frame? j = some g ∧ f'.Related ValueType.SameShape g) := by
  obtain ⟨hp, hf⟩ := ha.meets (frameInvariant_based body thisClass) hinitial
  obtain ⟨_, _, hend⟩ := exists_end h
  rcases Relation.ReflTransGen.cases_head (hend ha) with hsame | ⟨b, hstep, _⟩
  · cases hsame
  · have hb := ha.step hstep
    have hheld : ∀ {j : Nat} {f' : Frame}, (body.labels.block? j).isSome → b.progress.Holds j f' →
        (body.labels.block? j).isSome ∧ ∃ b g, Reaches body thisClass initial journal b ∧
          b.progress.frame? j = some g ∧ f'.Related ValueType.SameShape g := by
      rintro j f' hstarts ⟨g, hg, hbelow⟩
      exact ⟨hstarts, b, g, hb, hg, hbelow.imp fun _ _ => ValueType.sameShape_of_le⟩
    have hstarts := body.labels.isSome_block?_get
    cases hstep with
    | next hexecutes hfalls hend hnext =>
        obtain ⟨_, _, _, _, hjumps⟩ := jumps_grows hp hf hexecutes.happly hexecutes.hjumps
        refine ⟨_, _, hexecutes.hline, hexecutes.happly, ?_⟩
        rintro j ⟨line', hline', hwhere⟩
        rw [hexecutes.hline, Option.some.injEq] at hline'
        subst hline'
        rcases hwhere with ⟨_, rfl⟩ | ⟨label, hlabel, rfl⟩
        · exact .inl ⟨rfl, hnext, _, hb⟩
        · exact .inr (hheld (hstarts label) (hjumps label hlabel))
    | fall hexecutes hfalls hend hnext harrives =>
        obtain ⟨_, hbased, _, _, hjumps⟩ := jumps_grows hp hf hexecutes.happly hexecutes.hjumps
        obtain ⟨hgrows, hnextHolds⟩ :=
          propagate_grows hbased (start_of_apply hf hexecutes.happly) harrives
        refine ⟨_, _, hexecutes.hline, hexecutes.happly, ?_⟩
        rintro j ⟨line', hline', hwhere⟩
        rw [hexecutes.hline, Option.some.injEq] at hline'
        subst hline'
        rcases hwhere with ⟨_, rfl⟩ | ⟨label, hlabel, rfl⟩
        · rw [(LabelTable.instruction_of_block? hnext).2] at hnextHolds
          exact .inr (hheld (hnext ▸ rfl) hnextHolds)
        · exact .inr (hheld (hstarts label) (hgrows.holds (hjumps label hlabel)))
    | leave hexecutes hstops =>
        obtain ⟨_, _, _, _, hjumps⟩ := jumps_grows hp hf hexecutes.happly hexecutes.hjumps
        refine ⟨_, _, hexecutes.hline, hexecutes.happly, ?_⟩
        rintro j ⟨line', hline', hwhere⟩
        rw [hexecutes.hline, Option.some.injEq] at hline'
        subst hline'
        rcases hwhere with ⟨hfalls, _⟩ | ⟨label, hlabel, rfl⟩
        · rw [hstops] at hfalls
          cases hfalls
        · exact .inr (hheld (hstarts label) (hjumps label hlabel))

end Successful

end Analysis

end JvmAssembler
