import JvmAssembler.Proofs.Analysis.Course
import JvmAssembler.Proofs.Analysis.PathSoundness
import JvmAssembler.Proofs.Frame.Join

/-! The frames that a successful analysis records at blocks go together with the code: a block that
is simulated from its frame sends nothing to another block that is not below the frame there. They
are the least frames of their outline that do. Since they are also joins of frames that arrive, in
some order, every other order leads to the same types. -/

namespace JvmAssembler

/-- A type that fits into another has its shape, if the outlines around are the same. -/
theorem ValueType.le_of_outline {s s' t t' : ValueType} (hshape : s.SameShape t) (hs : s ≤ s')
    (ht : t' = .top ∨ t ≤ t') (htops : s' = .top ↔ t' = .top) : s'.SameShape t' ∧ t ≤ t' := by
  rcases ht with rfl | hle
  · obtain rfl : s' = .top := htops.mpr rfl
    obtain rfl : s = .top := eq_top_of_le_top hs
    obtain rfl : t = .top := eq_top_of_sameShape hshape
    exact ⟨sameShape_refl _, le_refl _⟩
  · refine ⟨?_, hle⟩
    exact (SameShape.symm (sameShape_of_le hs)).trans (hshape.trans (sameShape_of_le hle))

theorem values_of_outline {xs xs' ys ys' : List Value} (hshape : SameShapes xs ys)
    (hx : ValuesRelated (· ≤ ·) xs xs')
    (hy : List.Forall₂ (fun v w => w.type = .top ∨ v.type ≤ w.type) ys ys')
    (htops : List.Forall₂ (fun v w => v.type = .top ↔ w.type = .top) xs' ys') :
    SameShapes xs' ys' ∧ ValuesRelated (· ≤ ·) ys ys' := by
  induction hshape generalizing xs' ys' with
  | nil =>
      cases hx
      cases hy
      exact ⟨.nil, .nil⟩
  | cons hhead _ ih =>
      cases hx with
      | cons hx hxs =>
          cases hy with
          | cons hy hys =>
              cases htops with
              | cons htop htops =>
                  obtain ⟨hshape, hle⟩ := ValueType.le_of_outline hhead hx hy htop
                  obtain ⟨hshapes, hles⟩ := ih hxs hys htops
                  exact ⟨.cons hshape hshapes, .cons hle hles⟩

/-- Where frames of one shape go to frames of one outline, these have one shape as well. -/
theorem Frame.below_of_outline {f f' g g' : Frame} (hshape : f.SameShape g) (hf : f.Below f')
    (hg : g.FitsInto g') (houtline : f'.SameOutline g') : f'.SameShape g' ∧ g.Below g' := by
  obtain ⟨hstack, hbelow⟩ :=
    values_of_outline hshape.stack.values hf.stack.values hg.stack houtline.stack
  have hstart : g'.stack.start = 0 := houtline.start.symm.trans hf.stack.start_right
  refine ⟨⟨⟨hf.stack.start_right, hstart, hstack⟩, ?_⟩,
    ⟨hshape.stack.start_right, hstart, hbelow⟩, hg.locals⟩
  obtain ⟨hsize, hslots⟩ := forall₂_toList_iff.mp houtline.locals
  refine forall₂_toList_iff.mpr ⟨hsize, ?_⟩
  intro i v' w' hv' hw'
  have htops : v'.type = .top ↔ w'.type = .top := hslots i v' w' hv' hw'
  rcases hf.locals i v' hv' with htop | ⟨v, hv, hle⟩
  · rw [htop, htops.mp htop]
    exact ValueType.sameShape_refl _
  · obtain ⟨w, hw, hvw⟩ := hshape.getElem?_locals hv
    have hfits : w'.type = .top ∨ w.type ≤ w'.type := by
      refine (hg.locals i w' hw').imp_right ?_
      rintro ⟨u, hu, hle'⟩
      rw [hw, Option.some.injEq] at hu
      exact hu ▸ hle'
    exact (ValueType.le_of_outline hvw hle hfits htops).1

namespace Analysis

open Progress

/-- The frame at the block that starts at an instruction. -/
def blockFrame? (body : Body) (analysis : Analysis) (i : Nat) : Option Frame :=
  (body.labels.block? i).bind analysis.frame?

/-- The frame in front of an instruction, if its block is simulated from a given frame. -/
inductive At (body : Body) (thisClass : BinaryName) (frames : Nat → Option Frame) :
    Nat → Frame → Prop
  | enter {i : Nat} {f : Frame} (h : frames i = some f) : At body thisClass frames i f
  | next {i : Nat} {line : Line} {f f' : Frame} (h : At body thisClass frames i f)
      (hline : body.lines[i]? = some line) (happly : line.apply thisClass f = .ok f')
      (hfalls : line.instruction.fallsThrough = true)
      (hnext : body.labels.block? (i + 1) = none) : At body thisClass frames (i + 1) f'

/-- Frames for blocks that go together with the code: the initial frame fits into that of the first
block, and what a block that is simulated from its frame sends to another one fits into the frame
there. -/
structure Admits (body : Body) (thisClass : BinaryName) (initial : Frame)
    (frames : Nat → Option Frame) : Prop where
  start : ∃ g, frames 0 = some g ∧ initial.FitsInto g
  edges : ∀ {i j : Nat} {line : Line} {f f' : Frame}, At body thisClass frames i f →
    body.lines[i]? = some line → line.apply thisClass f = .ok f' → body.Flows i j →
    (body.labels.block? j).isSome → ∃ g, frames j = some g ∧ f'.FitsInto g

/-- The frames that can be put together for an instruction: those of paths, and joins of them in any
order. -/
inductive Gathers (body : Body) (thisClass : BinaryName) (initial : Frame) : Nat → Frame → Prop
  | start : Gathers body thisClass initial 0 initial
  | step {i j : Nat} {line : Line} {f f' : Frame} (h : Gathers body thisClass initial i f)
      (hline : body.lines[i]? = some line) (happly : line.apply thisClass f = .ok f')
      (hflows : body.Flows i j) : Gathers body thisClass initial j f'
  | join {i : Nat} {f g : Frame} (hf : Gathers body thisClass initial i f)
      (hg : Gathers body thisClass initial i g) (h : f.mismatch? g = none) :
      Gathers body thisClass initial i (f.join g)

variable {body : Body} {thisClass : BinaryName} {initial : Frame} {analysis : Analysis}
  {frames : Nat → Option Frame}

theorem frameInvariant_gathers (body : Body) (thisClass : BinaryName) (initial : Frame) :
    FrameInvariant body thisClass (Gathers body thisClass initial) where
  step := fun hline hf happly hflows => hf.step hline happly hflows
  join := .join

/-- What is put together has every property that control flow and joins keep. -/
theorem Gathers.meets {Q : Nat → Frame → Prop} (hinv : FrameInvariant body thisClass Q)
    (hinitial : Q 0 initial) {i : Nat} {f : Frame} (h : Gathers body thisClass initial i f) :
    Q i f := by
  induction h with
  | start => exact hinitial
  | step _ hline happly hflows ih => exact hinv.step hline ih happly hflows
  | join _ _ hmismatch ihf ihg => exact hinv.join ihf ihg hmismatch

/-- There is one frame at most in front of each instruction. -/
theorem At.unique (hstarts : ∀ i f, frames i = some f → (body.labels.block? i).isSome) {i : Nat}
    {f g : Frame} (hf : At body thisClass frames i f) (hg : At body thisClass frames i g) :
    f = g := by
  have hinside : ∀ {i : Nat} {f : Frame}, frames i = some f → body.labels.block? i ≠ none := by
    intro i f hframe hnone
    have hsome := hstarts i f hframe
    rw [hnone] at hsome
    cases hsome
  induction hf generalizing g with
  | enter hframe =>
      cases hg with
      | enter hframe' => exact Option.some.inj (hframe.symm.trans hframe')
      | next _ _ _ _ hnext => exact absurd hnext (hinside hframe)
  | next _ hline happly _ hnext ih =>
      cases hg with
      | enter hframe => exact absurd hnext (hinside hframe)
      | next hg hline' happly' _ _ =>
          obtain rfl := ih hg
          rw [hline, Option.some.injEq] at hline'
          subst hline'
          exact Except.ok.inj (happly.symm.trans happly')

end Analysis

namespace Progress.Concludes

open Analysis

variable {body : Body} {thisClass : BinaryName} {initial : Frame} {analysis : Analysis}
  {p : Progress} {frames : Nat → Option Frame}

theorem blockFrame?_eq (hp : p.Concludes body thisClass initial analysis) {i : Nat}
    (h : (body.labels.block? i).isSome) : analysis.blockFrame? body i = p.frame? i := by
  obtain ⟨label, hlabel⟩ := Option.isSome_iff_exists.mp h
  obtain ⟨hlt, hinstruction⟩ := LabelTable.instruction_of_block? hlabel
  rw [blockFrame?, hlabel, Option.bind_some, hp.frame? hlt, hinstruction]

theorem isSome_of_blockFrame? {i : Nat} {f : Frame} (h : analysis.blockFrame? body i = some f) :
    (body.labels.block? i).isSome := by
  cases hblock : body.labels.block? i with
  | none =>
      rw [blockFrame?, hblock] at h
      cases h
  | some label => rfl

theorem isSome_blockFrame?_iff (hp : p.Concludes body thisClass initial analysis) (i : Nat) :
    (analysis.blockFrame? body i).isSome ↔
      (body.labels.block? i).isSome ∧ body.Reachable i := by
  cases hblock : body.labels.block? i with
  | none => simp [blockFrame?, hblock]
  | some label =>
      obtain ⟨hlt, hinstruction⟩ := LabelTable.instruction_of_block? hblock
      rw [blockFrame?, hblock, Option.bind_some, hp.isSome_frame?_iff hlt, hinstruction]
      simp

/-- The frames of the analysis cover the instructions of the blocks that are simulated from them. -/
theorem covers_of_at (hp : p.Concludes body thisClass initial analysis)
    (hinitial : initial.stack.start = 0) {i : Nat} {f : Frame}
    (h : At body thisClass (analysis.blockFrame? body) i f) : p.Covers body thisClass i f := by
  induction h with
  | enter hframe =>
      rw [hp.blockFrame?_eq (isSome_of_blockFrame? hframe)] at hframe
      exact ⟨hp.settled _ _ hframe, fun _ => hframe,
        hp.meets (frameInvariant_based body thisClass) hinitial _ _ hframe⟩
  | next _ hline happly hfalls hnext ih =>
      rcases covers_cases ih hline happly ⟨_, hline, .inl ⟨hfalls, rfl⟩⟩ with
        ⟨_, _, _, hcovers⟩ | ⟨label, _, hinstruction, _⟩
      · exact hcovers
      · have hsome := body.labels.isSome_block?_get label
        rw [← hinstruction, hnext] at hsome
        cases hsome

theorem exists_blockFrame? (hp : p.Concludes body thisClass initial analysis) {j : Nat} {f : Frame}
    (hblock : (body.labels.block? j).isSome) (h : p.Holds j f) :
    ∃ g, analysis.blockFrame? body j = some g ∧ p.Covers body thisClass j g ∧ f.Below g := by
  obtain ⟨g, hcovers, hbelow⟩ := hp.covers_of_holds h
  exact ⟨g, (hp.blockFrame?_eq hblock).trans (hcovers.recorded hblock), hcovers, hbelow⟩

/-- The frames of the analysis go together with the code. -/
theorem admits (hp : p.Concludes body thisClass initial analysis)
    (hinitial : initial.stack.start = 0) :
    Admits body thisClass initial (analysis.blockFrame? body) where
  start := by
    have hblock := body.labels.isSome_block?_get LabelTable.start
    rw [LabelTable.instruction_start] at hblock
    obtain ⟨g, hg, _, hbelow⟩ := hp.exists_blockFrame? hblock hp.start
    exact ⟨g, hg, hbelow.fitsInto⟩
  edges := by
    intro i j line f f' hat hline happly hflows hblock
    rcases covers_cases (hp.covers_of_at hinitial hat) hline happly hflows with
      ⟨rfl, _, hnone, _⟩ | ⟨_, _, _, hholds⟩
    · rw [hnone] at hblock
      cases hblock
    · obtain ⟨g, hg, _, hbelow⟩ := hp.exists_blockFrame? hblock hholds
      exact ⟨g, hg, hbelow.fitsInto⟩

/-- In front of an instruction, the simulation from given frames has a frame of the shape that the
analysis has there, and it is above another frame. -/
def Bounded (body : Body) (thisClass : BinaryName) (p : Progress) (frames : Nat → Option Frame)
    (i : Nat) (f : Frame) : Prop :=
  ∃ k h, p.Covers body thisClass i k ∧ At body thisClass frames i h ∧ k.SameShape h ∧ f.Below h

theorem bounded_start (hp : p.Concludes body thisClass initial analysis)
    (hinitial : initial.stack.start = 0)
    (houtline : ∀ i, Option.Rel Frame.SameOutline (analysis.blockFrame? body i) (frames i))
    (hadmits : Admits body thisClass initial frames) :
    Bounded body thisClass p frames 0 initial := by
  have hblock := body.labels.isSome_block?_get LabelTable.start
  rw [LabelTable.instruction_start] at hblock
  obtain ⟨k, hk, hcovers, hbelow⟩ := hp.exists_blockFrame? hblock hp.start
  obtain ⟨h, hh, hfits⟩ := hadmits.start
  have hkh := houtline 0
  rw [hk, hh] at hkh
  cases hkh with
  | some hkh =>
      obtain ⟨hshape, hbelow'⟩ := Frame.below_of_outline (.refl hinitial) hbelow hfits hkh
      exact ⟨k, h, hcovers, .enter hh, hshape, hbelow'⟩

/-- One instruction keeps a frame under the simulation from given frames. -/
theorem bounded_step (hp : p.Concludes body thisClass initial analysis)
    (houtline : ∀ i, Option.Rel Frame.SameOutline (analysis.blockFrame? body i) (frames i))
    (hadmits : Admits body thisClass initial frames) {i j : Nat} {line : Line} {f f' : Frame}
    (hline : body.lines[i]? = some line) (hf : Bounded body thisClass p frames i f)
    (happly : line.apply thisClass f = .ok f') (hflows : body.Flows i j) :
    Bounded body thisClass p frames j f' := by
  obtain ⟨k, h, hcovers, hat, hshape, hbelow⟩ := hf
  obtain ⟨hline', hk, _⟩ := hcovers.passes
  rw [hline, Option.some.injEq] at hline'
  subst hline'
  obtain ⟨h', hh, hshape'⟩ := Line.exists_apply hshape.symm hk
  obtain ⟨f'', hf'', hbelow', _⟩ := Line.apply_related .le hbelow hh
  obtain rfl : f'' = f' := Except.ok.inj (hf''.symm.trans happly)
  rcases covers_cases hcovers hline hk hflows with
    ⟨rfl, hfalls, hnone, hcovers'⟩ | ⟨label, _, rfl, hholds⟩
  · exact ⟨_, h', hcovers', hat.next hline hh hfalls hnone, hshape'.symm, hbelow'⟩
  · have hblock := body.labels.isSome_block?_get label
    obtain ⟨k', hk', hcovers', hkk'⟩ := hp.exists_blockFrame? hblock hholds
    obtain ⟨g, hg, hfits⟩ := hadmits.edges hat hline hh hflows hblock
    have hkg := houtline (body.labels.get label).instruction
    rw [hk', hg] at hkg
    cases hkg with
    | some hkg =>
        obtain ⟨hshape'', hhg⟩ := Frame.below_of_outline hshape'.symm hkk' hfits hkg
        exact ⟨k', g, hcovers', .enter hg, hshape'', Frame.Below.trans hbelow' hhg⟩

theorem isSome_of_outline
    (houtline : ∀ i, Option.Rel Frame.SameOutline (analysis.blockFrame? body i) (frames i)) (i : Nat)
    (f : Frame) (h : frames i = some f) : (body.labels.block? i).isSome := by
  have hrel := houtline i
  rw [h] at hrel
  cases hframe : analysis.blockFrame? body i with
  | none =>
      rw [hframe] at hrel
      cases hrel
  | some g => exact isSome_of_blockFrame? hframe

theorem frameInvariant_bounded (hp : p.Concludes body thisClass initial analysis)
    (houtline : ∀ i, Option.Rel Frame.SameOutline (analysis.blockFrame? body i) (frames i))
    (hadmits : Admits body thisClass initial frames) :
    FrameInvariant body thisClass (Bounded body thisClass p frames) where
  step := hp.bounded_step houtline hadmits
  join := by
    rintro i f g ⟨k, h, hcovers, hat, hshape, hf⟩ ⟨_, h', _, hat', _, hg⟩ _
    obtain rfl : h = h' := hat.unique (isSome_of_outline houtline) hat'
    exact ⟨k, h, hcovers, hat, hshape, Frame.join_below hf hg⟩

/-- What is put together for a block is below every frame there that goes together with the code. -/
theorem below_of_gathers (hp : p.Concludes body thisClass initial analysis)
    (hinitial : initial.stack.start = 0)
    (houtline : ∀ i, Option.Rel Frame.SameOutline (analysis.blockFrame? body i) (frames i))
    (hadmits : Admits body thisClass initial frames) {i : Nat} {f g : Frame}
    (hf : Gathers body thisClass initial i f) (hg : frames i = some g) : f.Below g := by
  obtain ⟨_, h, _, hat, _, hbelow⟩ := hf.meets (hp.frameInvariant_bounded houtline hadmits)
    (hp.bounded_start hinitial houtline hadmits)
  obtain rfl : h = g := hat.unique (isSome_of_outline houtline) (.enter hg)
  exact hbelow

theorem gathers (hp : p.Concludes body thisClass initial analysis) {i : Nat} {f : Frame}
    (h : analysis.blockFrame? body i = some f) : Gathers body thisClass initial i f := by
  rw [hp.blockFrame?_eq (isSome_of_blockFrame? h)] at h
  exact hp.meets (frameInvariant_gathers body thisClass initial) .start i f h

end Progress.Concludes

theorem optionRel_imp {α β : Type} {R S : α → β → Prop} {x : Option α} {y : Option β}
    (h : Option.Rel R x y) (himp : ∀ a b, x = some a → y = some b → R a b → S a b) :
    Option.Rel S x y := by
  cases h with
  | none => exact .none
  | some hab => exact .some (himp _ _ rfl rfl hab)

namespace Analysis

open Progress

variable {body : Body} {thisClass : BinaryName} {analysis : Analysis}

/-- **Widening is never more than needed.** A successful analysis has a frame at exactly those blocks
that control can get to. The frames go together with the code and are joins of frames that arrive.
They are below all frames for the same blocks, of the same outlines, that go together with the code.
So if such frames are joins of frames that arrive as well, in whatever order, the types in them are
the same. -/
theorem blockFrames_least {locals : Array Value} {stack : List Value} {journal journal' : Journal}
    (h : ofBody body thisClass ⟨locals, .ofList stack⟩ journal = .ok analysis journal') :
    (∀ i, (analysis.blockFrame? body i).isSome ↔
      (body.labels.block? i).isSome ∧ body.Reachable i) ∧
    Admits body thisClass ⟨locals, .ofList stack⟩ (analysis.blockFrame? body) ∧
    (∀ i f, analysis.blockFrame? body i = some f →
      Gathers body thisClass ⟨locals, .ofList stack⟩ i f) ∧
    ∀ frames : Nat → Option Frame,
      (∀ i, Option.Rel Frame.SameOutline (analysis.blockFrame? body i) (frames i)) →
      Admits body thisClass ⟨locals, .ofList stack⟩ frames →
      (∀ i, Option.Rel Frame.Under (analysis.blockFrame? body i) (frames i)) ∧
      ((∀ i f, frames i = some f → Gathers body thisClass ⟨locals, .ofList stack⟩ i f) →
        ∀ i, Option.Rel (fun f g => f.types = g.types) (analysis.blockFrame? body i)
          (frames i)) := by
  have hinitial : (Frame.mk locals (.ofList stack)).stack.start = 0 := SlotVec.start_ofList stack
  obtain ⟨p, hp⟩ := exists_concludes hinitial h
  have hadmitted := hp.admits hinitial
  refine ⟨hp.isSome_blockFrame?_iff, hadmitted, fun i f => hp.gathers, ?_⟩
  intro frames houtline hadmits
  have hunder : ∀ i, ∀ {f g : Frame}, analysis.blockFrame? body i = some f → frames i = some g →
      f.SameOutline g → f.Under g := fun i f g hf hg hfg =>
    (hp.below_of_gathers hinitial houtline hadmits (hp.gathers hf) hg).under hfg
  refine ⟨fun i => optionRel_imp (houtline i) fun f g => hunder i, ?_⟩
  intro hgathers i
  refine optionRel_imp (houtline i) fun f g hf hg hfg => ?_
  have hself : ∀ i, Option.Rel Frame.SameOutline (analysis.blockFrame? body i)
      (analysis.blockFrame? body i) := by
    intro i
    cases analysis.blockFrame? body i with
    | none => exact .none
    | some f => exact .some (.refl f)
  have hover := hp.below_of_gathers hinitial hself hadmitted (hgathers i g hg) hf
  exact (hunder i hf hg hfg).types_eq (hover.under hfg.symm)

open Body in
theorem blockFrames_least_wideningLoop :
    ∃ analysis journal f,
      ofBody wideningLoop .javaString ⟨#[], .ofList []⟩ {} = .ok analysis journal ∧
      analysis.blockFrame? wideningLoop 2 = some f ∧
      f.types = ([.reference (.object .javaString)], []) ∧
      Gathers wideningLoop .javaString ⟨#[], .ofList []⟩ 2 f ∧
      Admits wideningLoop .javaString ⟨#[], .ofList []⟩ (analysis.blockFrame? wideningLoop) := by
  have hsatisfies : Assembly.satisfies (fun analysis =>
      (analysis.blockFrame? wideningLoop 2).map Frame.types ==
        some ([.reference (.object .javaString)], []))
      (ofBody wideningLoop .javaString ⟨#[], .ofList []⟩) {} = true := by
    unfold ofBody
    iterate 4 rw [run_eq]
    decide +kernel
  obtain ⟨analysis, journal, h, hcheck⟩ := Assembly.exists_of_satisfies hsatisfies
  obtain ⟨f, hf, htypes⟩ := Option.map_eq_some_iff.mp (eq_of_beq hcheck)
  obtain ⟨_, hadmits, hgathers, _⟩ := blockFrames_least h
  exact ⟨analysis, journal, f, h, hf, htypes, hgathers 2 f hf, hadmits⟩

end Analysis

end JvmAssembler
