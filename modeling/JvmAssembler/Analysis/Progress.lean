import JvmAssembler.Body
import JvmAssembler.Frame.Slack
import JvmAssembler.Journal
import JvmAssembler.Queue

/-! The frames recorded at the starts of blocks and the blocks that are still to be simulated. A
frame that arrives at a block is recorded if it is the first, and otherwise checked against the
recorded one, whose references may be widened by it.

Each arrival either leaves frames and queue as they are, or it records a block or uses up slack.
This is what bounds the analysis. -/

namespace JvmAssembler

structure Progress where
  /-- The frame recorded at each instruction that starts a block. -/
  frames : Array (Option Frame)
  /-- Blocks that have a frame and are to be simulated. -/
  pending : Queue Nat
  maxStack : Nat
  maxLocals : Nat
  journal : Journal

namespace Progress

/-- Nothing is recorded yet. -/
def start (count : Nat) (initial : Frame) (journal : Journal) : Progress where
  frames := Array.replicate count none
  pending := {}
  maxStack := 0
  maxLocals := initial.locals.size
  journal := journal

def report (p : Progress) (event : Event) : Progress := { p with journal := p.journal.report event }

/-- The frame recorded at an instruction. -/
def frame? (p : Progress) (leader : Nat) : Option Frame := p.frames.getD leader none

/-- Notes the frame after an instruction. -/
def simulated (p : Progress) (line : Line) (f : Frame) : Progress :=
  let p := p.report (.simulated line.id line.mnemonic f)
  { p with maxStack := max p.maxStack f.depth, maxLocals := max p.maxLocals f.locals.size }

/-- Records the first frame at a block. -/
def record (p : Progress) (leader : Nat) (f : Frame) : Progress :=
  { p with frames := p.frames.setIfInBounds leader (some f), pending := p.pending.push leader }

/-- Puts a wider frame in the place of the recorded one, and has the block simulated again. -/
def replaceFrame (p : Progress) (leader : Nat) (f : Frame) : Progress :=
  { p with
    frames := p.frames.setIfInBounds leader (some f)
    pending := if p.pending.contains leader then p.pending else p.pending.push leader }

/-- Why control cannot go to a label behind the last instruction. The jump comes from a line, or
there is none where control falls through. -/
def noInstruction (label : Nat) (target : Label) : Option Line → CompileError
  | some line => .unknownJump line.id line.position target.name (some label)
  | none => .fallsOffEnd none target.position

/-- Why a frame cannot arrive at a label. -/
def disagreement (label : Nat) (target : Label) (expected actual : Frame) : Mismatch → CompileError
  | .stackDepth _ _ => .depthsDiffer label target.name target.position expected actual
  | mismatch => .framesDiffer label target.name target.position expected actual mismatch

/-- A frame arrives at a label, by a jump from a line or by falling through. -/
def propagate (labels : LabelTable) (label : Nat) (f : Frame) (source : Option Line)
    (p : Progress) : EStateM.Result CompileError Progress Unit :=
  let target := labels.get label
  match p.frames[target.instruction]? with
  | none => .error (noInstruction label target source) p
  | some none => .ok () ((p.report (.recording target.name f)).record target.instruction f)
  | some (some expected) =>
    let p := p.report (.checking target.name f)
    match expected.mismatch? f with
    | some mismatch => .error (disagreement label target expected f mismatch) p
    | none =>
      if expected.widens f then
        let joined := expected.join f
        .ok () ((p.report (.widened target.name joined)).replaceFrame target.instruction joined)
      else .ok () p

/-- A frame arrives at each of several labels in turn. -/
def propagateAll (labels : LabelTable) (f : Frame) (source : Line) :
    List Nat → Progress → EStateM.Result CompileError Progress Unit
  | [], p => .ok () p
  | label :: rest, p =>
    match p.propagate labels label f (some source) with
    | .ok () p => propagateAll labels f source rest p
    | .error e p => .error e p

/-- Number of instructions without a frame. -/
def unrecorded (p : Progress) : Nat := p.frames.toList.countP Option.isNone

/-- How often the recorded frames can still be widened. -/
def slack (p : Progress) : Nat := total (fun f => f.elim 0 Frame.slack) p.frames.toList

/-- The second progress is further: it has recorded more, or has less slack. -/
def Further (p q : Progress) : Prop :=
  q.unrecorded < p.unrecorded ∨ q.unrecorded = p.unrecorded ∧ q.slack < p.slack

/-- The second progress has the same frames and the same queue, or is further. -/
def Advances (p q : Progress) : Prop :=
  (q.frames = p.frames ∧ q.pending = p.pending) ∨ p.Further q

theorem Advances.refl (p : Progress) : p.Advances p := Or.inl ⟨rfl, rfl⟩

theorem further_of_frames_eq {p p' q : Progress} (h : p'.frames = p.frames) (hq : p'.Further q) :
    p.Further q := by
  unfold Further unrecorded slack at hq ⊢
  rw [h] at hq
  exact hq

theorem Further.trans {p q r : Progress} (hq : p.Further q) (hr : q.Further r) : p.Further r := by
  unfold Further at *
  omega

theorem Advances.trans {p q r : Progress} (hq : p.Advances q) (hr : q.Advances r) :
    p.Advances r := by
  rcases hq with ⟨hframes, hpending⟩ | hq
  · rcases hr with ⟨hframes', hpending'⟩ | hr
    · exact Or.inl ⟨hframes'.trans hframes, hpending'.trans hpending⟩
    · exact Or.inr (further_of_frames_eq hframes hr)
  · rcases hr with ⟨hframes', _⟩ | hr
    · refine Or.inr ?_
      unfold Further unrecorded slack at hq ⊢
      rw [hframes']
      exact hq
    · exact Or.inr (hq.trans hr)

theorem countP_set_lt {α : Type} {l : List α} {i : Nat} {a b : α} {p : α → Bool}
    (hget : l[i]? = some a) (ha : p a = true) (hb : p b = false) :
    (l.set i b).countP p < l.countP p := by
  induction l generalizing i with
  | nil => simp at hget
  | cons x l ih =>
      cases i with
      | zero =>
          simp only [List.getElem?_cons_zero, Option.some.injEq] at hget
          subst hget
          simp [ha, hb]
      | succ i =>
          simp only [List.getElem?_cons_succ] at hget
          have h := ih hget
          simp only [List.set_cons_succ, List.countP_cons]
          omega

theorem countP_set_eq {α : Type} {l : List α} {i : Nat} {a b : α} {p : α → Bool}
    (hget : l[i]? = some a) (h : p a = p b) : (l.set i b).countP p = l.countP p := by
  induction l generalizing i with
  | nil => simp at hget
  | cons x l ih =>
      cases i with
      | zero =>
          simp only [List.getElem?_cons_zero, Option.some.injEq] at hget
          subst hget
          simp [List.countP_cons, h]
      | succ i =>
          simp only [List.getElem?_cons_succ] at hget
          have h := ih hget
          simp only [List.set_cons_succ, List.countP_cons]
          omega

theorem further_record {p : Progress} {leader : Nat} {f : Frame}
    (h : p.frames[leader]? = some none) : p.Further (p.record leader f) := by
  have hget : p.frames.toList[leader]? = some none := by simpa using h
  refine Or.inl ?_
  simp only [unrecorded, record, Array.toList_setIfInBounds]
  exact countP_set_lt hget rfl rfl

theorem further_replaceFrame {p : Progress} {leader : Nat} {f g : Frame}
    (h : p.frames[leader]? = some (some f)) (hlt : g.slack < f.slack) :
    p.Further (p.replaceFrame leader g) := by
  have hget : p.frames.toList[leader]? = some (some f) := by simpa using h
  refine Or.inr ⟨?_, ?_⟩
  · simp only [unrecorded, replaceFrame, Array.toList_setIfInBounds]
    exact countP_set_eq hget rfl
  · simp only [slack, replaceFrame, Array.toList_setIfInBounds]
    exact total_set_lt _ hget hlt

/-- An arrival leaves frames and queue as they are, or brings the analysis further. -/
theorem advances_of_propagate {labels : LabelTable} {label : Nat} {f : Frame}
    {source : Option Line} {p q : Progress}
    (h : p.propagate labels label f source = .ok () q) : p.Advances q := by
  simp only [propagate] at h
  split at h
  · cases h
  · rename_i hget
    cases h
    exact Or.inr (further_record hget)
  · rename_i expected hget
    split at h
    · cases h
    · split at h
      · rename_i hwidens
        cases h
        exact Or.inr (further_replaceFrame hget (Frame.slack_join_lt hwidens))
      · cases h
        exact Or.inl ⟨rfl, rfl⟩

theorem advances_of_propagateAll {labels : LabelTable} {f : Frame} {source : Line}
    {targets : List Nat} {p q : Progress}
    (h : propagateAll labels f source targets p = .ok () q) : p.Advances q := by
  induction targets generalizing p with
  | nil =>
      cases h
      exact .refl _
  | cons label rest ih =>
      simp only [propagateAll] at h
      split at h
      · rename_i r hr
        exact (advances_of_propagate hr).trans (ih h)
      · cases h

end Progress

end JvmAssembler
