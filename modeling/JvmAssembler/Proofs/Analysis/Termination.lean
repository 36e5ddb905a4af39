import JvmAssembler.Proofs.Analysis.Fixpoint

/-! A turn of the analysis takes the first pending block from the queue and simulates it. There is
no infinite sequence of turns: from every progress the analysis comes to an empty queue or to an
error.

The number of simulations has a bound. A block is put into the queue when it gets its first frame,
and again only when that frame is widened, which uses up slack. The slack of a frame is at most two
for each of its slots, and the slots are bounded by the room that the analysis reports. -/

namespace JvmAssembler

theorem ValueType.slack_le (t : ValueType) : t.slack ≤ 2 := by
  cases t <;> simp [slack]

theorem totalSlack_le (values : List Value) : totalSlack values ≤ 2 * values.length := by
  induction values with
  | nil => simp
  | cons v values ih =>
      have hv := v.type.slack_le
      rw [totalSlack_cons, List.length_cons]
      omega

theorem length_le_totalWidth (values : List Value) : values.length ≤ totalWidth values := by
  induction values with
  | nil => simp
  | cons v values ih =>
      have hv : 0 < width v := v.type.width_pos
      rw [totalWidth_cons, List.length_cons]
      omega

theorem Frame.slack_le (f : Frame) : f.slack ≤ 2 * (f.depth + f.locals.size) := by
  have hstack := totalSlack_le f.stack.toList
  have hlocals := totalSlack_le f.locals.toList
  have hdepth : f.stack.toList.length ≤ f.depth := by
    rw [Frame.depth, f.stack.next_eq_toList]
    exact Nat.le_trans (length_le_totalWidth _) (Nat.le_add_left _ _)
  rw [Array.length_toList] at hlocals
  rw [Frame.slack]
  omega

theorem total_set {α : Type} (measure : α → Nat) {l : List α} {i : Nat} {a : α} (b : α)
    (hget : l[i]? = some a) : total measure (l.set i b) + measure a = total measure l + measure b := by
  induction l generalizing i with
  | nil => cases hget
  | cons x l ih =>
      cases i with
      | zero =>
          cases hget
          rw [List.set_cons_zero, total_cons, total_cons]
          omega
      | succ i =>
          have hrest := ih hget
          rw [List.set_cons_succ, total_cons, total_cons]
          omega

namespace Progress

variable {p q : Progress}

/-- Slots that the stack and the locals have taken so far. -/
def room (p : Progress) : Nat := p.maxStack + p.maxLocals

/-- A bound for the simulations that are still to come, if no frame takes more than the room: those
that are pending, one for each time a recorded frame can be widened, and both for each instruction
that has no frame yet. -/
def potential (room : Nat) (p : Progress) : Nat :=
  p.pending.size + p.slack + p.unrecorded * (1 + 2 * room)

/-- The progress in which a computation ends. -/
def after : EStateM.Result CompileError Progress Unit → Progress
  | .ok _ q => q
  | .error _ q => q

theorem room_simulated (p : Progress) (line : Line) (f : Frame) :
    p.room ≤ (p.simulated line f).room ∧
      f.depth + f.locals.size ≤ (p.simulated line f).room :=
  ⟨Nat.add_le_add (Nat.le_max_left _ _) (Nat.le_max_left _ _),
    Nat.add_le_add (Nat.le_max_right _ _) (Nat.le_max_right _ _)⟩

theorem room_propagate (labels : LabelTable) (label : Nat) (f : Frame) (source : Option Line)
    (p : Progress) : (after (p.propagate labels label f source)).room = p.room := by
  simp only [propagate]
  split
  · rfl
  · rfl
  · split
    · rfl
    · split <;> rfl

theorem room_propagateAll (labels : LabelTable) (f : Frame) (source : Line) (targets : List Nat)
    (p : Progress) : (after (propagateAll labels f source targets p)).room = p.room := by
  induction targets generalizing p with
  | nil => rfl
  | cons label rest ih =>
      have hfirst := room_propagate labels label f (some source) p
      simp only [propagateAll]
      split
      · rename_i r hr
        rw [hr] at hfirst
        exact (ih r).trans hfirst
      · rename_i hr
        rw [hr] at hfirst
        exact hfirst

/-- What the first frame at an instruction adds. -/
theorem size_slack_record {i : Nat} {f : Frame} (hget : p.frames[i]? = some none) :
    (p.record i f).pending.size = p.pending.size + 1 ∧
      (p.record i f).slack = p.slack + f.slack ∧ (p.record i f).unrecorded < p.unrecorded := by
  have hlist : p.frames.toList[i]? = some none := by simpa using hget
  refine ⟨?_, ?_, ?_⟩
  · simp only [record, Queue.push, Queue.size, List.length_cons]
    omega
  · simpa [slack, record] using total_set (fun f => f.elim 0 Frame.slack) (some f) hlist
  · simp only [unrecorded, record, Array.toList_setIfInBounds]
    exact countP_set_lt hlist rfl rfl

/-- The first frame at an instruction is paid for by the instruction. -/
theorem potential_record {room i : Nat} {f : Frame} (hget : p.frames[i]? = some none)
    (hf : f.slack ≤ 2 * room) : (p.record i f).potential room ≤ p.potential room := by
  obtain ⟨hpending, hslack, hunrecorded⟩ := size_slack_record (f := f) hget
  have hpaid := Nat.mul_le_mul_right (1 + 2 * room) (Nat.succ_le_of_lt hunrecorded)
  rw [Nat.succ_mul] at hpaid
  simp only [potential]
  omega

/-- A wider frame is paid for by the slack that it uses up. -/
theorem potential_replaceFrame {room i : Nat} {f g : Frame}
    (hget : p.frames[i]? = some (some f)) (hlt : g.slack < f.slack) :
    (p.replaceFrame i g).potential room ≤ p.potential room := by
  have hpending : (p.replaceFrame i g).pending.size ≤ p.pending.size + 1 := by
    simp only [replaceFrame]
    split
    · exact Nat.le_succ _
    · simp only [Queue.push, Queue.size, List.length_cons]
      omega
  have hlist : p.frames.toList[i]? = some (some f) := by simpa using hget
  have hunrecorded : (p.replaceFrame i g).unrecorded = p.unrecorded := by
    simp only [unrecorded, replaceFrame, Array.toList_setIfInBounds]
    exact countP_set_eq hlist rfl
  have hslack : (p.replaceFrame i g).slack < p.slack := by
    simp only [slack, replaceFrame, Array.toList_setIfInBounds]
    exact total_set_lt _ hlist hlt
  simp only [potential, hunrecorded]
  omega

theorem potential_of_propagate {room label : Nat} {labels : LabelTable} {f : Frame}
    {source : Option Line} (hf : f.slack ≤ 2 * room)
    (h : p.propagate labels label f source = .ok () q) : q.potential room ≤ p.potential room := by
  obtain ⟨journal, ⟨hget, rfl⟩ | ⟨expected, hexpected, _, ⟨_, rfl⟩ | ⟨hwidens, rfl⟩⟩⟩ :=
    propagate_cases h
  · exact potential_record hget hf
  · exact Nat.le_refl _
  · exact potential_replaceFrame (frame?_eq_some_iff.mp hexpected) (Frame.slack_join_lt hwidens)

theorem potential_of_propagateAll {room : Nat} {labels : LabelTable} {f : Frame} {source : Line}
    {targets : List Nat} (hf : f.slack ≤ 2 * room)
    (h : propagateAll labels f source targets p = .ok () q) :
    q.potential room ≤ p.potential room := by
  induction targets generalizing p with
  | nil =>
      cases h
      exact Nat.le_refl _
  | cons label rest ih =>
      simp only [propagateAll] at h
      split at h
      · rename_i hfirst
        exact Nat.le_trans (ih h) (potential_of_propagate hf hfirst)
      · cases h

end Progress

namespace Analysis

open Progress

variable {body : Body} {thisClass : BinaryName} {p q : Progress}

/-! ### What a simulation can cost -/

/-- An instruction is applied and the frame after it is sent to its targets. -/
theorem room_of_jumps {line : Line} {f : Frame}
    (h : propagateAll body.labels f line line.targets (p.simulated line f) = .ok () q) :
    p.room ≤ q.room ∧ f.slack ≤ 2 * q.room := by
  have hroom := room_propagateAll body.labels f line line.targets (p.simulated line f)
  rw [h] at hroom
  replace hroom : q.room = (p.simulated line f).room := hroom
  obtain ⟨hgrows, hfits⟩ := room_simulated p line f
  have hslack := f.slack_le
  omega

theorem room_le_walk (body : Body) (thisClass : BinaryName) (i : Nat) (f : Frame) (p : Progress) :
    p.room ≤ (after (walk body thisClass i f p)).room := by
  fun_induction walk body thisClass i f p with
  | case1 => exact Nat.le_refl _
  | case2 i f p hi line f' _ e r hr =>
      have hroom := room_propagateAll body.labels f' line line.targets (p.simulated line f')
      rw [hr] at hroom
      exact Nat.le_trans (room_simulated p line f').1 (Nat.le_of_eq hroom.symm)
  | case3 i f p hi line f' _ r hr _ => exact (room_of_jumps hr).1
  | case4 i f p hi line f' _ r hr _ _ => exact (room_of_jumps hr).1
  | case5 i f p hi line f' _ r hr _ _ next _ =>
      rw [room_propagate]
      exact (room_of_jumps hr).1
  | case6 i f p hi line f' _ r hr _ _ _ ih => exact Nat.le_trans (room_of_jumps hr).1 ih
  | case7 => exact Nat.le_refl _

theorem room_le_simulate (body : Body) (thisClass : BinaryName) (leader : Nat) (p : Progress) :
    p.room ≤ (after (simulate body thisClass leader p)).room := by
  simp only [simulate]
  split
  · exact Nat.le_refl _
  · exact room_le_walk body thisClass leader _ (p.report _)

/-- The rest of a block costs nothing beyond what its arrivals are paid for. -/
theorem potential_of_walk {room i : Nat} {f : Frame} (hroom : q.room ≤ room)
    (h : walk body thisClass i f p = .ok () q) : q.potential room ≤ p.potential room := by
  fun_induction walk body thisClass i f p with
  | case1 => cases h
  | case2 => cases h
  | case3 i f p hi line f' _ r hr _ =>
      cases h
      have hslack := (room_of_jumps hr).2
      exact potential_of_propagateAll (p := p.simulated line f') (by omega) hr
  | case4 => cases h
  | case5 i f p hi line f' _ r hr _ _ next _ =>
      have hafter := room_propagate body.labels next f' none r
      rw [h] at hafter
      replace hafter : q.room = r.room := hafter
      have hslack : f'.slack ≤ 2 * room := by
        have hfits := (room_of_jumps hr).2
        omega
      exact Nat.le_trans (potential_of_propagate hslack h)
        (potential_of_propagateAll (p := p.simulated line f') hslack hr)
  | case6 i f p hi line f' _ r hr _ _ _ ih =>
      have hafter := room_le_walk body thisClass (i + 1) f' r
      rw [h] at hafter
      replace hafter : r.room ≤ q.room := hafter
      have hslack := (room_of_jumps hr).2
      exact Nat.le_trans (ih h)
        (potential_of_propagateAll (p := p.simulated line f') (by omega) hr)
  | case7 =>
      cases h
      exact Nat.le_refl _

theorem potential_of_simulate {room leader : Nat} (hroom : q.room ≤ room)
    (h : simulate body thisClass leader p = .ok () q) : q.potential room ≤ p.potential room := by
  simp only [simulate] at h
  split at h
  · cases h
    exact Nat.le_refl _
  · exact potential_of_walk (p := p.report _) hroom h

/-- The first pending block is simulated, and the loop goes on from there. -/
def unroll (body : Body) (thisClass : BinaryName)
    (loop : Progress → EStateM.Result CompileError Progress Unit) (p : Progress) :
    EStateM.Result CompileError Progress Unit :=
  match p.pending.pop? with
  | none => .ok () p
  | some (leader, rest) =>
    match simulate body thisClass leader { p with pending := rest } with
    | .error e q => .error e q
    | .ok () q => loop q

/-- One turn: the first pending block is simulated without an error. -/
def Turn (body : Body) (thisClass : BinaryName) (p q : Progress) : Prop :=
  ∃ leader rest, p.pending.pop? = some (leader, rest) ∧
    simulate body thisClass leader { p with pending := rest } = .ok () q

/-- The analysis comes from a progress to an outcome, an empty queue or an error, by a number of
simulations. -/
inductive Simulations (body : Body) (thisClass : BinaryName) :
    Nat → Progress → EStateM.Result CompileError Progress Unit → Prop
  | empty {p : Progress} (hpop : p.pending.pop? = none) : Simulations body thisClass 0 p (.ok () p)
  | fails {p q : Progress} {leader : Nat} {rest : Queue Nat} {e : CompileError}
      (hpop : p.pending.pop? = some (leader, rest))
      (hsim : simulate body thisClass leader { p with pending := rest } = .error e q) :
      Simulations body thisClass 1 p (.error e q)
  | turn {n : Nat} {p q : Progress} {outcome : EStateM.Result CompileError Progress Unit}
      (hturn : Turn body thisClass p q) (hrest : Simulations body thisClass n q outcome) :
      Simulations body thisClass (n + 1) p outcome

theorem Turn.unique {r : Progress} (hq : Turn body thisClass p q) (hr : Turn body thisClass p r) :
    q = r := by
  obtain ⟨leader, rest, hpop, hsim⟩ := hq
  obtain ⟨leader', rest', hpop', hsim'⟩ := hr
  rw [hpop, Option.some.injEq, Prod.mk.injEq] at hpop'
  obtain ⟨rfl, rfl⟩ := hpop'
  rw [hsim] at hsim'
  cases hsim'
  rfl

/-- No sequence of turns goes on for ever. -/
theorem wellFounded_turn (body : Body) (thisClass : BinaryName) :
    WellFounded fun q p => Turn body thisClass p q := by
  refine ⟨fun p => ?_⟩
  induction p using run.induct body thisClass with
  | case1 p hpop =>
      refine ⟨p, ?_⟩
      rintro q ⟨leader, rest, hpop', _⟩
      rw [hpop] at hpop'
      cases hpop'
  | case2 p leader rest hpop e q hsim =>
      refine ⟨p, ?_⟩
      rintro r ⟨leader', rest', hpop', hsim'⟩
      rw [hpop, Option.some.injEq, Prod.mk.injEq] at hpop'
      obtain ⟨rfl, rfl⟩ := hpop'
      rw [hsim] at hsim'
      cases hsim'
  | case3 p leader rest hpop q hsim ih =>
      refine ⟨p, ?_⟩
      intro r hturn
      have hq : Turn body thisClass p q := ⟨leader, rest, hpop, hsim⟩
      exact hturn.unique hq ▸ ih

theorem exists_simulations (body : Body) (thisClass : BinaryName) (p : Progress) :
    ∃ n, Simulations body thisClass n p (run body thisClass p) := by
  fun_induction run body thisClass p with
  | case1 p hpop => exact ⟨0, .empty hpop⟩
  | case2 p leader rest hpop e q hsim => exact ⟨1, .fails hpop hsim⟩
  | case3 p leader rest hpop q hsim ih =>
      obtain ⟨n, hn⟩ := ih
      exact ⟨n + 1, .turn ⟨leader, rest, hpop, hsim⟩ hn⟩

theorem run_eq_unroll (body : Body) (thisClass : BinaryName) (p : Progress) :
    run body thisClass p = unroll body thisClass (run body thisClass) p :=
  congrFun (congrFun (congrFun run_eq body) thisClass) p

/-- The loop is the only function that simulates the first pending block and goes on. -/
theorem eq_run_iff (loop : Progress → EStateM.Result CompileError Progress Unit) :
    (∀ p, loop p = unroll body thisClass loop p) ↔ loop = run body thisClass := by
  constructor
  · intro hloop
    funext p
    induction p using run.induct body thisClass with
    | case1 p hpop =>
        rw [hloop p, run_eq_unroll]
        simp only [unroll, hpop]
    | case2 p leader rest hpop e q hsim =>
        rw [hloop p, run_eq_unroll]
        simp only [unroll, hpop, hsim]
    | case3 p leader rest hpop q hsim ih =>
        rw [hloop p, run_eq_unroll]
        simp only [unroll, hpop, hsim]
        exact ih
  · rintro rfl p
    exact run_eq_unroll body thisClass p

theorem Turn.room_le (h : Turn body thisClass p q) : p.room ≤ q.room := by
  obtain ⟨leader, rest, _, hsim⟩ := h
  have hroom := room_le_simulate body thisClass leader { p with pending := rest }
  rw [hsim] at hroom
  exact hroom

theorem Turn.potential_lt {room : Nat} (h : Turn body thisClass p q) (hroom : q.room ≤ room) :
    q.potential room < p.potential room := by
  obtain ⟨leader, rest, hpop, hsim⟩ := h
  have hspent := potential_of_simulate hroom hsim
  have htaken := Queue.size_lt_of_pop? hpop
  have hpopped : ({ p with pending := rest } : Progress).potential room < p.potential room :=
    Nat.add_lt_add_right (Nat.add_lt_add_right htaken _) _
  omega

namespace Simulations

variable {n : Nat} {outcome : EStateM.Result CompileError Progress Unit}

theorem room_le (h : Simulations body thisClass n p outcome) : p.room ≤ (after outcome).room := by
  induction h with
  | empty => exact Nat.le_refl _
  | @fails p q leader rest e _ hsim =>
      have hroom := room_le_simulate body thisClass leader { p with pending := rest }
      rw [hsim] at hroom
      exact hroom
  | turn hturn _ ih => exact Nat.le_trans hturn.room_le ih

/-- Each simulation uses up some of the potential. -/
theorem le_potential {room : Nat} (h : Simulations body thisClass n p outcome)
    (hroom : (after outcome).room ≤ room) : n ≤ p.potential room := by
  induction h with
  | empty => exact Nat.zero_le _
  | @fails p q leader rest e hpop _ =>
      have htaken := Queue.size_lt_of_pop? hpop
      simp only [potential]
      omega
  | turn hturn hrest ih =>
      have hlt := hturn.potential_lt (Nat.le_trans hrest.room_le hroom)
      have hn := ih hroom
      omega

end Simulations

/-- What is told of an outcome of the loop. -/
def told (body : Body) : EStateM.Result CompileError Progress Unit →
    EStateM.Result CompileError Journal Analysis
  | .error e p => .error e p.journal
  | .ok () p => .ok (conclude body p).2 (conclude body p).1

theorem total_replicate {α : Type} (measure : α → Nat) (n : Nat) (a : α) :
    total measure (List.replicate n a) = n * measure a := by
  induction n with
  | zero => simp
  | succ n ih => rw [List.replicate_succ, total_cons, ih, Nat.succ_mul, Nat.add_comm]

/-- At first only the initial frame is recorded, and its block is pending. -/
theorem exists_propagate_start (initial : Frame) (journal : Journal)
    (hlines : 0 < body.lines.size) :
    ∃ first, (Progress.start body.lines.size initial journal).propagate body.labels
        LabelTable.start initial none = .ok () first ∧
      ∀ room, first.potential room ≤
        1 + initial.slack + (body.lines.size - 1) * (1 + 2 * room) := by
  have hget : (Progress.start body.lines.size initial journal).frames[0]? = some none := by
    simp [Progress.start, hlines]
  refine ⟨((Progress.start body.lines.size initial journal).report
    (.recording (body.labels.get LabelTable.start).name initial)).record 0 initial, ?_, ?_⟩
  · simp only [propagate, LabelTable.instruction_start, hget]
  · intro room
    obtain ⟨hpending, hslack, hunrecorded⟩ := size_slack_record (f := initial) hget
    have hnoSlack : (Progress.start body.lines.size initial journal).slack = 0 := by
      simp [Progress.slack, Progress.start, total_replicate]
    have hall : (Progress.start body.lines.size initial journal).unrecorded = body.lines.size := by
      simp [Progress.unrecorded, Progress.start, List.countP_replicate]
    rw [hall] at hunrecorded
    have hpaid := Nat.mul_le_mul_right (1 + 2 * room) (Nat.le_sub_one_of_lt hunrecorded)
    rw [hnoSlack, Nat.zero_add] at hslack
    exact Nat.add_le_add (Nat.le_of_eq (congrArg₂ (· + ·) hpending hslack)) hpaid

/-- The analysis comes to an end. Its turns cannot go on for ever, so that simulating pending blocks
as long as there are some is a function, and only one. It ends with an empty queue or an error after
a number of simulations that is bounded by the number of instructions and the room that they take. -/
theorem simulations_bounded (body : Body) (thisClass : BinaryName) (initial : Frame)
    (journal : Journal) :
    (WellFounded fun q p => Turn body thisClass p q) ∧
    (∀ loop : Progress → EStateM.Result CompileError Progress Unit,
      (∀ p, loop p = unroll body thisClass loop p) ↔ loop = run body thisClass) ∧
    (body.lines = #[] ∧ ofBody body thisClass initial journal =
        .error (.fallsOffEnd none {}) (journal.report (.analysing 0 initial)) ∨
      ∃ first n outcome,
        (Progress.start body.lines.size initial
          (journal.report (.analysing body.lines.size initial))).propagate body.labels
            LabelTable.start initial none = .ok () first ∧
        Simulations body thisClass n first outcome ∧
        n ≤ 1 + initial.slack + (body.lines.size - 1) * (1 + 2 * (after outcome).room) ∧
        ofBody body thisClass initial journal = told body outcome) := by
  refine ⟨wellFounded_turn body thisClass, eq_run_iff, ?_⟩
  rcases Nat.eq_zero_or_pos body.lines.size with hnone | hlines
  · refine .inl ⟨Array.eq_empty_of_size_eq_zero hnone, ?_⟩
    simp [ofBody, Array.isEmpty, hnone]
  · obtain ⟨first, hfirst, hpotential⟩ := exists_propagate_start initial
      (journal.report (.analysing body.lines.size initial)) hlines
    obtain ⟨n, hn⟩ := exists_simulations body thisClass first
    refine .inr ⟨first, n, _, hfirst, hn,
      Nat.le_trans (hn.le_potential (Nat.le_refl _)) (hpotential _), ?_⟩
    have hnonempty : body.lines.isEmpty = false := by
      simp [Array.isEmpty, Nat.pos_iff_ne_zero.mp hlines]
    simp only [ofBody, hnonempty, hfirst, Bool.false_eq_true, if_false]
    cases run body thisClass first <;> rfl

end Analysis

end JvmAssembler
