import JvmAssembler.Proofs.StackMap.Frames
import JvmAssembler.Proofs.StackMap.Targets

/-! One pass over the instructions carries a frame along. Where the stack map has a frame it is
taken on, and every jump leads to one. The pass accepts the instructions of an analysed body if it
is given the frames of the stack map. -/

namespace JvmAssembler

theorem Line.apply_throws (line : Line) (thisClass : BinaryName)
    (h : line.instruction = .branch .throws) :
    line.apply thisClass Body.throwing = .ok .empty := by
  have htake : line.take .object 1 [] Body.throwing.stack =
      .ok ([⟨.reference (.object .javaThrowable), none⟩], .empty) := by
    show line.take .object 1 [] (SlotVec.empty.push _) = _
    rw [take, if_neg Nat.one_ne_zero, SlotVec.pop?_push]
    show line.take .object 0 [_] .empty = _
    rw [take, if_pos rfl]
  have htakeAll : line.takeAll [.object] Body.throwing.stack =
      .ok ([[⟨.reference (.object .javaThrowable), none⟩]], .empty) := by
    rw [takeAll]
    show (line.take .object 1 [] Body.throwing.stack >>= _) = _
    rw [htake]
    rfl
  rw [apply, h]
  show (line.takeAll [.object] Body.throwing.stack >>= _) = _
  rw [htakeAll]
  rfl

/-- What a check of code knows: the class, where labels stand, and the frames of the stack map. -/
structure Checker where
  thisClass : BinaryName
  label? : Nat → Option Nat
  frame? : Nat → Option Frame

namespace Checker

/-- The frame at an instruction: that of the stack map if there is one, where a frame that falls in
has to be assignable to it. Without any frame, code is not accepted. -/
def enter : (entry falling : Option Frame) → Option Frame
  | none, falling => falling
  | some entry, none => some entry
  | some entry, some f => if f.assignable entry then some entry else none

/-- Does every jump of an instruction lead to a frame that the frame after it is assignable to? -/
def jumps (c : Checker) (line : Line) (f : Frame) : Bool :=
  line.targets.all fun label => ((c.label? label).bind c.frame?).any f.assignable

/-- Checks instructions in order, from the frame that falls into the first one, if one does. Nothing
falls off the end. -/
def accepts (c : Checker) : (falling : Option Frame) → List Line → Bool
  | falling, [] => falling.isNone
  | falling, line :: rest =>
    match enter (c.frame? line.offset) falling with
    | none => false
    | some f =>
      match line.apply c.thisClass f with
      | .error _ => false
      | .ok f =>
        c.jumps line f && c.accepts (if line.instruction.fallsThrough then some f else none) rest

variable {c : Checker}

theorem accepts_cons (line : Line) {falling : Option Frame} {f f' : Frame}
    (henter : enter (c.frame? line.offset) falling = some f)
    (happly : line.apply c.thisClass f = .ok f') (rest : List Line) :
    c.accepts falling (line :: rest) =
      (c.jumps line f' && c.accepts (if line.instruction.fallsThrough then some f' else none) rest) := by
  simp only [accepts, henter, happly]

theorem accepts_nops (line : Line) {falling : Option Frame} {f : Frame} {offset n : Nat}
    (henter : enter (c.frame? offset) falling = some f)
    (hnone : ∀ later, offset < later → later ≤ offset + n → c.frame? later = none)
    (rest : List Line) :
    c.accepts falling (line.nops offset (n + 1) ++ rest) = c.accepts (some f) rest := by
  induction n generalizing offset falling with
  | zero => exact accepts_cons (line.standIn offset "nop" (.operation .nop)) henter rfl rest
  | succ n ih =>
      have hnext : enter (c.frame? (offset + 1)) (some f) = some f := by
        rw [hnone (offset + 1) (by omega) (by omega)]
        rfl
      have hrest := ih hnext fun later hlt hle => hnone later (by omega) (by omega)
      exact (accepts_cons (line.standIn offset "nop" (.operation .nop)) henter rfl _).trans hrest

theorem accepts_athrow (line : Line) {falling : Option Frame} {f : Frame} {offset : Nat}
    (henter : enter (c.frame? offset) falling = some f)
    (hf : f.Related ValueType.Assignable Body.throwing) (rest : List Line) :
    c.accepts falling (line.standIn offset "athrow" (.branch .throws) :: rest) =
      c.accepts none rest := by
  have hthrowing := Line.apply_throws (line.standIn offset "athrow" (.branch .throws)) c.thisClass rfl
  obtain ⟨f', happly, _⟩ := Line.apply_related ValueType.shapeRelation_assignable hf hthrowing
  exact accepts_cons (line.standIn offset "athrow" (.branch .throws)) henter happly rest

/-- Replaced code is accepted with a throwable object on the stack. -/
theorem accepts_replaced (line : Line) (ends : Bool) {falling : Option Frame} {f : Frame}
    (henter : enter (c.frame? line.offset) falling = some f)
    (hf : f.Related ValueType.Assignable Body.throwing)
    (hnone : ∀ later, line.offset < later → later < line.stop → c.frame? later = none)
    (rest : List Line) :
    c.accepts falling (line.replaced ends ++ rest) =
      c.accepts (if ends then none else some f) rest := by
  have hpos : 0 < line.size := Instruction.sizeAt_pos _ _
  obtain ⟨n, hsize⟩ := Nat.exists_eq_add_one_of_ne_zero hpos.ne'
  have hstop : line.stop = line.offset + (n + 1) := by rw [Line.stop, hsize]
  rw [Line.replaced, hsize, Nat.add_sub_cancel]
  cases ends with
  | false => exact accepts_nops line henter (fun later hlt hle => hnone later hlt (by omega)) rest
  | true =>
      rw [if_pos rfl, if_pos rfl, List.append_assoc]
      cases n with
      | zero => exact accepts_athrow line henter hf rest
      | succ n =>
          have hlast : enter (c.frame? (line.offset + (n + 1))) (some f) = some f := by
            rw [hnone _ (by omega) (by omega)]
            rfl
          rw [accepts_nops line henter (fun later hlt hle => hnone later hlt (by omega))]
          exact accepts_athrow line hlast hf rest

end Checker

/-- A check of a body has the class and the labels of the body and the frames of the stack map, as
they are listed. -/
structure Checker.Serves (c : Checker) (body : Body) (thisClass : BinaryName) (analysis : Analysis) :
    Prop where
  thisClass_eq : c.thisClass = thisClass
  label?_eq : c.label? = body.labelOffset?
  frames : ∀ offset, Option.Rel Frame.Listed (c.frame? offset) (body.mapFrames analysis)[offset]?

/-- What can fall into an instruction of the body: a frame that can stand for one of the analysis, no
frame where control only jumps to or where replaced code starts, or the frame of replaced code. -/
inductive Progress.Ready (body : Body) (thisClass : BinaryName) (p : Progress) :
    Nat → Option Frame → Prop
  | falls {i : Nat} {f g : Frame} : body.Reachable i → p.Covers body thisClass i g →
      f.Related ValueType.Assignable g → Ready body thisClass p i (some f)
  | lands {i : Nat} : 0 < i →
      (∀ j previous, j + 1 = i → body.lines[j]? = some previous → body.Reachable j →
        previous.instruction.fallsThrough = false) →
      (¬ body.Reachable i → body.StartsBlock i) → Ready body thisClass p i none
  | replaced {i : Nat} {line : Line} {f : Frame} : body.lines[i]? = some line →
      ¬ body.Reachable i → ¬ body.StartsBlock i →
      f.Related ValueType.Assignable Body.throwing → Ready body thisClass p i (some f)

namespace Checker.Serves

variable {c : Checker} {body : Body} {thisClass : BinaryName} {initial : Frame}
  {analysis : Analysis} {p : Progress} {i : Nat} {line : Line} {falling : Option Frame}

theorem exists_listed (h : c.Serves body thisClass analysis) {offset : Nat} {f : Frame}
    (hf : (body.mapFrames analysis)[offset]? = some f) :
    ∃ g, c.frame? offset = some g ∧ g.Listed f := by
  have hrel := h.frames offset
  rw [hf] at hrel
  cases hg : c.frame? offset with
  | none =>
      rw [hg] at hrel
      cases hrel
  | some g =>
      rw [hg] at hrel
      cases hrel with
      | some hlisted => exact ⟨g, rfl, hlisted⟩

theorem frame?_eq_none (h : c.Serves body thisClass analysis) {offset : Nat}
    (hnone : (body.mapFrames analysis)[offset]? = none) : c.frame? offset = none := by
  have hrel := h.frames offset
  rw [hnone] at hrel
  cases hg : c.frame? offset with
  | none => rfl
  | some g =>
      rw [hg] at hrel
      cases hrel

/-- An instruction that can be reached is entered with a frame that can stand for one of the
analysis. -/
theorem exists_enter_reached (h : c.Serves body thisClass analysis) (hbody : body.LaidOut)
    (hp : p.Concludes body thisClass initial analysis) (hline : body.lines[i]? = some line)
    (hreachable : body.Reachable i) (hready : p.Ready body thisClass i falling) :
    ∃ f g, enter (c.frame? line.offset) falling = some f ∧ p.Covers body thisClass i g ∧
      f.Related ValueType.Assignable g := by
  cases hready with
  | falls _ hcovers hrelated =>
      cases hframe : (body.mapFrames analysis)[line.offset]? with
      | none =>
          rw [h.frame?_eq_none hframe]
          exact ⟨_, _, rfl, hcovers, hrelated⟩
      | some recorded =>
          obtain rfl := hbody.mapFrames_eq_of_covers hp hline hreachable hcovers hframe
          obtain ⟨entry, hentry, hlisted⟩ := h.exists_listed hframe
          refine ⟨entry, recorded, ?_, hcovers, hlisted.related hcovers.based⟩
          rw [hentry, enter, if_pos (hlisted.assignable hrelated)]
  | lands hpos hfalls _ =>
      obtain ⟨g, hcovers⟩ := hp.exists_covers hreachable
      obtain ⟨recorded, hframe⟩ := hbody.mapFrames_of_reachable hp hpos hreachable hfalls hline
      obtain rfl := hbody.mapFrames_eq_of_covers hp hline hreachable hcovers hframe
      obtain ⟨entry, hentry, hlisted⟩ := h.exists_listed hframe
      refine ⟨entry, recorded, ?_, hcovers, hlisted.related hcovers.based⟩
      rw [hentry, enter]
  | replaced _ hunreachable => exact absurd hreachable hunreachable

/-- An instruction that cannot be reached is entered with a throwable object on the stack. -/
theorem exists_enter_unreached (h : c.Serves body thisClass analysis) (hbody : body.LaidOut)
    (hp : p.Concludes body thisClass initial analysis) (hline : body.lines[i]? = some line)
    (hunreachable : ¬ body.Reachable i) (hready : p.Ready body thisClass i falling) :
    ∃ f, enter (c.frame? line.offset) falling = some f ∧
      f.Related ValueType.Assignable Body.throwing := by
  cases hready with
  | falls hreachable => exact absurd hreachable hunreachable
  | lands _ _ hstarts =>
      have hframe := hbody.mapFrames_of_unreachable hp hline hunreachable (hstarts hunreachable)
      obtain ⟨entry, hentry, hlisted⟩ := h.exists_listed hframe
      refine ⟨entry, ?_, hlisted.related rfl⟩
      rw [hentry, enter]
  | replaced _ _ hinside hrelated =>
      have hpos : 0 < line.size := Instruction.sizeAt_pos _ _
      have hwithin : line.offset ≤ line.offset ∧ line.offset < line.stop :=
        ⟨Nat.le_refl _, Nat.lt_add_of_pos_right hpos⟩
      have hnone := hbody.mapFrames_eq_none hp hline hunreachable hwithin fun _ => hinside
      rw [h.frame?_eq_none hnone]
      exact ⟨_, rfl, hrelated⟩

/-- Jumps lead to frames that are above those of the analysis. -/
theorem jumps_of_holds (h : c.Serves body thisClass analysis) (hbody : body.LaidOut)
    (hp : p.Concludes body thisClass initial analysis) (hline : body.lines[i]? = some line)
    {f g : Frame} (hrelated : f.Related ValueType.Assignable g)
    (hholds : ∀ label ∈ line.targets, p.Holds (body.labels.get label).instruction g) :
    c.jumps line f = true := by
  rw [jumps, List.all_eq_true]
  intro label hlabel
  obtain ⟨recorded, hrecorded, hbelow⟩ := hholds label hlabel
  have hlt : (body.labels.get label).instruction < body.lines.size :=
    hp.size ▸ Progress.lt_size_of_frame? hrecorded
  obtain ⟨target, htarget⟩ : ∃ target, body.lines[(body.labels.get label).instruction]? = some target :=
    ⟨_, Array.getElem?_eq_getElem hlt⟩
  have hframe := hbody.mapFrames_of_target hp hline hlabel htarget hrecorded
  obtain ⟨entry, hentry, hlisted⟩ := h.exists_listed hframe
  have hoffset : c.label? label = some target.offset := by
    rw [h.label?_eq, Body.labelOffset?, htarget, Option.map_some]
  have habove : f.Related ValueType.Assignable recorded :=
    hrelated.trans .le (fun _ _ _ hst htu => hst.trans_le htu) hbelow
  rw [hoffset, Option.bind_some, hentry]
  exact hlisted.assignable habove

/-- An instruction that can be reached is accepted if what follows is. -/
theorem step_reached (h : c.Serves body thisClass analysis) (hbody : body.LaidOut)
    (hp : p.Concludes body thisClass initial analysis) (hline : body.lines[i]? = some line)
    (hreachable : body.Reachable i) (hready : p.Ready body thisClass i falling) :
    ∃ next, p.Ready body thisClass (i + 1) next ∧
      ∀ rest, c.accepts falling (line :: rest) = c.accepts next rest := by
  obtain ⟨f, g, henter, hcovers, hrelated⟩ :=
    h.exists_enter_reached hbody hp hline hreachable hready
  obtain ⟨hpassed, happly, _, _, hholds, _⟩ := hcovers.passes
  rw [hline, Option.some.injEq] at hpassed
  subst hpassed
  obtain ⟨f', happly', hrelated', _⟩ :=
    Line.apply_related ValueType.shapeRelation_assignable hrelated happly
  have hjumps := h.jumps_of_holds hbody hp hline hrelated' hholds
  rw [← h.thisClass_eq] at happly'
  refine ⟨if line.instruction.fallsThrough then some f' else none, ?_, fun rest => ?_⟩
  · by_cases hfalls : line.instruction.fallsThrough = true
    · rw [if_pos hfalls]
      have hflows : body.Flows i (i + 1) := ⟨line, hline, .inl ⟨hfalls, rfl⟩⟩
      obtain ⟨g', hcovers', hbelow⟩ := hp.covers_step hcovers hline happly hflows
      exact .falls (hreachable.tail hflows) hcovers'
        (hrelated'.trans .le (fun _ _ _ hst htu => hst.trans_le htu) hbelow)
    · rw [if_neg hfalls]
      refine .lands i.succ_pos ?_ ?_
      · rintro j previous ⟨⟩ hprevious _
        rw [hline, Option.some.injEq] at hprevious
        rw [← hprevious]
        exact Bool.eq_false_iff.mpr hfalls
      · rintro hunreachable j previous next ⟨⟩ hprevious hnext hblock
        rw [← hbody.isSome_frame?_block_iff hp hnext, ← hblock,
          hbody.isSome_frame?_block_iff hp hprevious] at hunreachable
        exact hunreachable hreachable
  · rw [accepts_cons line henter happly', hjumps, Bool.true_and]

/-- After replaced code nothing falls on where its block ends, and a throwable object does where it
goes on. -/
theorem ready_after_replaced (hbody : body.LaidOut)
    (hp : p.Concludes body thisClass initial analysis) (hline : body.lines[i]? = some line)
    (hunreachable : ¬ body.Reachable i) {f : Frame}
    (hrelated : f.Related ValueType.Assignable Body.throwing) :
    p.Ready body thisClass (i + 1)
      (if Body.endsBlock line (body.lines.toList.drop (i + 1)) then none else some f) := by
  have hhead : (body.lines.toList.drop (i + 1)).head? = body.lines[i + 1]? := by
    rw [List.head?_drop, Array.getElem?_toList]
  rw [Body.endsBlock, hhead]
  have hfalls : ∀ j previous, j + 1 = i + 1 → body.lines[j]? = some previous → body.Reachable j →
      previous.instruction.fallsThrough = false := by
    rintro j previous ⟨⟩ _ hreachable
    exact absurd hreachable hunreachable
  cases hnext : body.lines[i + 1]? with
  | none =>
      refine .lands i.succ_pos hfalls fun _ => ?_
      rintro j previous next ⟨⟩ _ hnext'
      rw [hnext] at hnext'
      cases hnext'
  | some next =>
      by_cases hblock : line.block = next.block
      · have hunreachable' : ¬ body.Reachable (i + 1) := by
          rw [← hbody.isSome_frame?_block_iff hp hnext, ← hblock,
            hbody.isSome_frame?_block_iff hp hline]
          exact hunreachable
        rw [if_neg (by simp [hblock])]
        refine .replaced hnext hunreachable' ?_ hrelated
        intro hstarts
        exact hstarts i line next rfl hline hnext hblock
      · rw [if_pos (by simp [hblock])]
        refine .lands i.succ_pos hfalls fun _ => ?_
        rintro j previous next' ⟨⟩ hprevious hnext'
        rw [hline, Option.some.injEq] at hprevious
        rw [hnext, Option.some.injEq] at hnext'
        rw [← hprevious, ← hnext']
        exact hblock

/-- What an instruction that cannot be reached is replaced by is accepted if what follows is. -/
theorem step_replaced (h : c.Serves body thisClass analysis) (hbody : body.LaidOut)
    (hp : p.Concludes body thisClass initial analysis) (hline : body.lines[i]? = some line)
    (hunreachable : ¬ body.Reachable i) (hready : p.Ready body thisClass i falling) :
    ∃ next, p.Ready body thisClass (i + 1) next ∧ ∀ rest,
      c.accepts falling
        (line.replaced (Body.endsBlock line (body.lines.toList.drop (i + 1))) ++ rest) =
        c.accepts next rest := by
  obtain ⟨f, henter, hrelated⟩ := h.exists_enter_unreached hbody hp hline hunreachable hready
  have hnone : ∀ later, line.offset < later → later < line.stop → c.frame? later = none := by
    intro later hlt hstop
    refine h.frame?_eq_none (hbody.mapFrames_eq_none hp hline hunreachable
      ⟨Nat.le_of_lt hlt, hstop⟩ fun heq => ?_)
    omega
  exact ⟨_, ready_after_replaced hbody hp hline hunreachable hrelated,
    accepts_replaced line _ henter hrelated hnone⟩

/-- The code of a body is accepted from each instruction on. -/
theorem accepts_emitted (h : c.Serves body thisClass analysis) (hbody : body.LaidOut)
    (hp : p.Concludes body thisClass initial analysis) {rest : List Line}
    (hrest : body.lines.toList.drop i = rest) (hready : p.Ready body thisClass i falling) :
    c.accepts falling
      (Body.emittedLines (fun block => (analysis.frame? block).isSome) rest) = true := by
  induction rest generalizing i falling with
  | nil =>
      have hend : body.lines[i]? = none := by
        rw [← Array.getElem?_toList, ← List.head?_drop, hrest]
        rfl
      cases hready with
      | falls _ hcovers =>
          obtain ⟨hline, _⟩ := hcovers.passes
          rw [hend] at hline
          cases hline
      | lands => rfl
      | replaced hline =>
          rw [hend] at hline
          cases hline
  | cons line rest ih =>
      have hline : body.lines[i]? = some line := by
        rw [← Array.getElem?_toList, ← List.head?_drop, hrest]
        rfl
      have hdrop : body.lines.toList.drop (i + 1) = rest := by
        rw [← List.tail_drop, hrest]
        rfl
      have hreached := hbody.isSome_frame?_block_iff hp hline
      rw [Body.emittedLines]
      by_cases hreachable : body.Reachable i
      · obtain ⟨next, hnext, haccepts⟩ := h.step_reached hbody hp hline hreachable hready
        rw [if_pos (hreached.mpr hreachable), List.singleton_append, haccepts]
        exact ih hdrop hnext
      · obtain ⟨next, hnext, haccepts⟩ := h.step_replaced hbody hp hline hreachable hready
        rw [if_neg fun hsome => hreachable (hreached.mp hsome), ← hdrop, haccepts, hdrop]
        exact ih hdrop hnext

end Checker.Serves

end JvmAssembler
