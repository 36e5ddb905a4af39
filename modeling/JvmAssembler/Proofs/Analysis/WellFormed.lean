import JvmAssembler.Proofs.Analysis.Course
import JvmAssembler.Proofs.Frame.WellFormed
import JvmAssembler.Proofs.Method.Failure
import JvmAssembler.Proofs.StackMap.Targets

/-! Every frame of an analysis that starts with a well-formed frame is well formed, whether the
analysis succeeds or fails: those recorded at blocks, those before and after each instruction, those
that the journal reports and those that an error tells of. -/

namespace JvmAssembler

/-- The frame that an event tells of. -/
def Event.frame? : Event → Option Frame
  | analysing _ f | recording _ f | checking _ f | widened _ f | simulated _ _ f => some f
  | _ => none

/-- The frames that an error tells of. -/
def CompileError.frames : CompileError → List Frame
  | depthsDiffer _ _ _ expected actual | framesDiffer _ _ _ expected actual _ => [expected, actual]
  | _ => []

theorem CompileError.OfInstruction.frames_eq {e : CompileError} (h : e.OfInstruction) :
    e.frames = [] := by
  cases e with
  | stackUnderflow | stackMismatch | localMismatch => rfl
  | _ => exact h.elim

namespace Journal

/-- The frames that were reported since an earlier journal have a property. -/
def Adds (P : Frame → Prop) (before after : Journal) : Prop :=
  ∀ event ∈ after.events, event ∈ before.events ∨ ∀ f, event.frame? = some f → P f

variable {P : Frame → Prop} {before after : Journal}

theorem Adds.refl (journal : Journal) : journal.Adds P journal := fun _ h => .inl h

theorem Adds.report (h : before.Adds P after) {event : Event}
    (hevent : ∀ f, event.frame? = some f → P f) : before.Adds P (after.report event) := by
  unfold Journal.report
  split
  · intro other hother
    rcases Array.mem_push.mp hother with hother | rfl
    · exact h other hother
    · exact .inr hevent
  · exact h

end Journal

variable {P : Frame → Prop} {before : Journal}

/-- A property of frames that instructions and joins keep. -/
structure FrameProperty (thisClass : BinaryName) (P : Frame → Prop) : Prop where
  apply : ∀ {line : Line} {f f' : Frame}, P f → line.apply thisClass f = .ok f' → P f'
  join : ∀ {f g : Frame}, P f → P g → f.mismatch? g = none → P (f.join g)

theorem Frame.WellFormed.frameProperty (thisClass : BinaryName) :
    FrameProperty thisClass WellFormed where
  apply := WellFormed.apply
  join := fun hf _ _ => hf.join

namespace FrameProperty

variable {thisClass : BinaryName}

/-- A property of frames that hangs on nothing else is kept wherever control goes. -/
theorem frameInvariant (h : FrameProperty thisClass P) (body : Body) :
    Progress.FrameInvariant body thisClass fun _ => P where
  step := fun _ hf happly _ => h.apply hf happly
  join := h.join

end FrameProperty

namespace Progress

/-- All frames that are recorded, or were reported since an earlier journal, have a property. -/
structure Shows (P : Frame → Prop) (before : Journal) (p : Progress) : Prop where
  recorded : p.Meets fun _ => P
  reported : before.Adds P p.journal

/-- Whichever way work on a progress ends, all frames have a property. -/
def Leaves (P : Frame → Prop) (before : Journal) :
    EStateM.Result CompileError Progress Unit → Prop
  | .ok () p => p.Shows P before
  | .error e p => p.Shows P before ∧ ∀ f ∈ e.frames, P f

variable {p : Progress} {body : Body} {thisClass : BinaryName} {f : Frame}

theorem Shows.report (h : p.Shows P before) (event : Event)
    (hevent : ∀ f, event.frame? = some f → P f) : (p.report event).Shows P before :=
  ⟨h.recorded, h.reported.report hevent⟩

/-- One more frame is reported. -/
theorem Shows.reportFrame (h : p.Shows P before) (event : Event) (hf : P f)
    (hevent : event.frame? = some f) : (p.report event).Shows P before := by
  refine h.report event fun g hg => ?_
  rw [hevent, Option.some.injEq] at hg
  exact hg ▸ hf

theorem Shows.set {q : Progress} {i : Nat} (h : p.Shows P before) (hi : i < p.frames.size)
    (hf : P f) (hframes : q.frames = p.frames.setIfInBounds i (some f))
    (hjournal : q.journal = p.journal) : q.Shows P before where
  recorded := h.recorded.set hi hf hframes
  reported := by
    rw [hjournal]
    exact h.reported

theorem leaves_propagate (hkept : FrameProperty thisClass P) (labels : LabelTable) (label : Nat)
    (source : Option Line) (hp : p.Shows P before) (hf : P f) :
    Leaves P before (p.propagate labels label f source) := by
  unfold propagate
  dsimp only
  split
  · refine ⟨hp, fun g hg => ?_⟩
    cases source <;> cases hg
  · rename_i hget
    obtain ⟨hlt, _⟩ := Array.getElem?_eq_some_iff.mp hget
    exact (hp.reportFrame _ hf rfl).set hlt hf rfl rfl
  · rename_i expected hget
    obtain ⟨hlt, _⟩ := Array.getElem?_eq_some_iff.mp hget
    have hexpected : P expected := hp.recorded _ expected (frame?_eq_some_iff.mpr hget)
    have hchecking := hp.reportFrame (.checking (labels.get label).name f) hf rfl
    split
    · rename_i mismatch _
      refine ⟨hchecking, fun g hg => ?_⟩
      have hmem : g ∈ [expected, f] := by
        cases mismatch <;> exact hg
      rcases List.mem_cons.mp hmem with rfl | hmem
      · exact hexpected
      · rw [List.mem_singleton.mp hmem]
        exact hf
    · rename_i hmismatch
      have hjoined : P (expected.join f) := hkept.join hexpected hf hmismatch
      split
      · exact (hchecking.reportFrame _ hjoined rfl).set hlt hjoined rfl rfl
      · exact hchecking

theorem leaves_propagateAll (hkept : FrameProperty thisClass P) (labels : LabelTable)
    (source : Line) (targets : List Nat) (hp : p.Shows P before) (hf : P f) :
    Leaves P before (propagateAll labels f source targets p) := by
  induction targets generalizing p with
  | nil => exact hp
  | cons label rest ih =>
      have hfirst := leaves_propagate hkept labels label (some source) hp hf
      rw [propagateAll]
      split
      · rename_i q hq
        rw [hq] at hfirst
        exact ih hfirst
      · rename_i e q hq
        rw [hq] at hfirst
        exact hfirst

end Progress

namespace Analysis

open Progress

variable {body : Body} {thisClass : BinaryName} {initial : Frame} {journal : Journal}

/-- All frames that come up while a block is simulated have a property, if the first one has. -/
theorem leaves_walk (hkept : FrameProperty thisClass P) {i : Nat} {f : Frame} {p : Progress}
    (hp : p.Shows P before) (hf : P f) : Leaves P before (walk body thisClass i f p) := by
  have hexecutes : ∀ {line : Line} {f f' : Frame} {p : Progress}, p.Shows P before → P f →
      line.apply thisClass f = .ok f' →
      P f' ∧ Leaves P before
        (propagateAll body.labels f' line line.targets (p.simulated line f')) := by
    intro line f f' p hp hf happly
    have hf' := hkept.apply hf happly
    have hreported := hp.reportFrame (.simulated line.id line.mnemonic f') hf' rfl
    have hsimulated : (p.simulated line f').Shows P before :=
      ⟨hreported.recorded, hreported.reported⟩
    exact ⟨hf', leaves_propagateAll hkept _ _ _ hsimulated hf'⟩
  fun_induction walk body thisClass i f p with
  | case1 i f p hi line e he =>
      refine ⟨hp, ?_⟩
      rw [(line.fails_apply thisClass f e he).frames_eq]
      exact fun _ hg => absurd hg List.not_mem_nil
  | case2 i f p hi line f' happly e q hq => exact hq ▸ (hexecutes hp hf happly).2
  | case3 i f p hi line f' happly q hq hstops => exact hq ▸ (hexecutes hp hf happly).2
  | case4 i f p hi line f' happly q hq hfalls hend =>
      have hleaves := (hexecutes hp hf happly).2
      rw [hq] at hleaves
      exact ⟨hleaves, fun _ hg => absurd hg List.not_mem_nil⟩
  | case5 i f p hi line f' happly q hq hfalls hend next hnext =>
      obtain ⟨hf', hleaves⟩ := hexecutes hp hf happly
      rw [hq] at hleaves
      exact leaves_propagate hkept _ _ _ hleaves hf'
  | case6 i f p hi line f' happly q hq hfalls hend hnext ih =>
      obtain ⟨hf', hleaves⟩ := hexecutes hp hf happly
      rw [hq] at hleaves
      exact ih hleaves hf'
  | case7 => exact hp

theorem leaves_simulate (hkept : FrameProperty thisClass P) (body : Body) (leader : Nat)
    {p : Progress} (hp : p.Shows P before) : Leaves P before (simulate body thisClass leader p) := by
  unfold simulate
  split
  · exact hp
  · rename_i f hf
    have hreported := hp.report (.simulating leader) fun g hg => by cases hg
    exact leaves_walk hkept hreported (hp.recorded leader f hf)

theorem leaves_run (hkept : FrameProperty thisClass P) (body : Body) {p : Progress}
    (hp : p.Shows P before) : Leaves P before (run body thisClass p) := by
  fun_induction run body thisClass p with
  | case1 => exact hp
  | case2 p leader rest hpop e q hq =>
      have hpopped : ({ p with pending := rest } : Progress).Shows P before :=
        ⟨hp.recorded, hp.reported⟩
      exact hq ▸ leaves_simulate hkept body leader hpopped
  | case3 p leader rest hpop q hq ih =>
      have hpopped : ({ p with pending := rest } : Progress).Shows P before :=
        ⟨hp.recorded, hp.reported⟩
      have hleaves := leaves_simulate hkept body leader hpopped
      rw [hq] at hleaves
      exact ih hleaves

theorem adds_reportUnreached (p : Progress) (sizes : Array Nat) (id : Nat) (label : Label)
    (h : before.Adds P journal) :
    before.Adds P (reportUnreached body p sizes journal id label) := by
  unfold reportUnreached
  split
  · exact h.report fun g hg => by cases hg
  · exact h

theorem adds_conclude {p : Progress} (hp : p.Shows P before) :
    before.Adds P (conclude body p).1 ∧
      ∀ label f, (conclude body p).2.frame? label = some f → P f := by
  have hunreached : ∀ (labels : List (Label × Nat)) (journal : Journal), before.Adds P journal →
      before.Adds P (labels.foldl (fun journal entry =>
        reportUnreached body p (blockSizes body) journal entry.2 entry.1) journal) := by
    intro labels
    induction labels with
    | nil => exact fun _ h => h
    | cons entry labels ih => exact fun _ h => ih _ (adds_reportUnreached p _ _ _ h)
  refine ⟨(hunreached _ _ hp.reported).report fun g hg => (by cases hg), ?_⟩
  exact fun label f hf => hp.recorded _ f (frame?_of_conclude hf)

/-- The frames that an analysis gives, tells of in an error or reports have a property, if the first
one has. -/
theorem adds_ofBody (hkept : FrameProperty thisClass P) (hinitial : P initial) :
    (∀ analysis journal', ofBody body thisClass initial journal = .ok analysis journal' →
      journal.Adds P journal' ∧ ∀ label f, analysis.frame? label = some f → P f) ∧
    ∀ e journal', ofBody body thisClass initial journal = .error e journal' →
      journal.Adds P journal' ∧ ∀ f ∈ e.frames, P f := by
  have hreported : journal.Adds P (journal.report (.analysing body.lines.size initial)) := by
    refine (Journal.Adds.refl journal).report fun g hg => ?_
    cases hg
    exact hinitial
  have hstart : (Progress.start body.lines.size initial
      (journal.report (.analysing body.lines.size initial))).Shows P journal := by
    refine ⟨fun i f hf => ?_, hreported⟩
    rw [frame?_start] at hf
    cases hf
  have hfirst := leaves_propagate hkept body.labels LabelTable.start none hstart hinitial
  unfold ofBody
  dsimp only
  split
  · refine ⟨fun _ _ h => (by cases h), ?_⟩
    rintro e journal' ⟨⟩
    exact ⟨hreported, fun _ hg => absurd hg List.not_mem_nil⟩
  · split
    · rename_i e q hq
      rw [hq] at hfirst
      refine ⟨fun _ _ h => (by cases h), ?_⟩
      rintro e journal' ⟨⟩
      exact ⟨hfirst.1.reported, hfirst.2⟩
    · rename_i q hq
      rw [hq] at hfirst
      have hrun := leaves_run hkept body hfirst
      split
      · rename_i e r hr
        rw [hr] at hrun
        refine ⟨fun _ _ h => (by cases h), ?_⟩
        rintro e journal' ⟨⟩
        exact ⟨hrun.1.reported, hrun.2⟩
      · rename_i r hr
        rw [hr] at hrun
        refine ⟨?_, fun _ _ h => (by cases h)⟩
        rintro analysis journal' ⟨⟩
        exact adds_conclude hrun

theorem wellFormed_onEntry (owner : BinaryName) (isStatic : Bool) (s : Signature) :
    (Frame.onEntry owner isStatic s).WellFormed := by
  have hstack := Frame.stack_onEntry owner isStatic s
  refine Frame.wellFormed_iff.mpr ⟨(Body.lists_onEntry ⟨#[], .empty⟩ owner isStatic s).1, ?_, ?_⟩
  · intro v hv
    rw [hstack] at hv
    cases hv
  · rw [hstack]
    rfl

/-- **Every frame of an analysis is well formed.** Methods are entered with a well-formed frame. From
a well-formed frame, all frames that are recorded at blocks in the course of the analysis are well
formed, and so are those before and after each instruction, also if the analysis fails later on; so
are the frames that it gives for labels, those that its error tells of, and all that it reports. -/
theorem frames_wellFormed :
    (∀ owner isStatic s, (Frame.onEntry owner isStatic s).WellFormed) ∧
    ∀ (body : Body) (thisClass : BinaryName) (initial : Frame) (journal : Journal),
      initial.WellFormed →
      (∀ {a : Point}, Reaches body thisClass initial journal a →
        a.Meets fun _ f => f.WellFormed) ∧
      (∀ {leader i : Nat} {f f' : Frame} {p : Progress} {line : Line},
        Reaches body thisClass initial journal (.instruction leader i f p) →
        body.lines[i]? = some line → line.apply thisClass f = .ok f' → f'.WellFormed) ∧
      (∀ analysis journal', ofBody body thisClass initial journal = .ok analysis journal' →
        journal.Adds Frame.WellFormed journal' ∧
          ∀ label f, analysis.frame? label = some f → f.WellFormed) ∧
      ∀ e journal', ofBody body thisClass initial journal = .error e journal' →
        journal.Adds Frame.WellFormed journal' ∧ ∀ f ∈ e.frames, f.WellFormed := by
  refine ⟨wellFormed_onEntry, ?_⟩
  intro body thisClass initial journal hinitial
  have hkept := Frame.WellFormed.frameProperty thisClass
  have hmeets : ∀ {a : Point}, Reaches body thisClass initial journal a →
      a.Meets fun _ f => f.WellFormed := fun h => h.meets (hkept.frameInvariant body) hinitial
  refine ⟨hmeets, ?_, adds_ofBody hkept hinitial⟩
  intro leader i f f' p line hreaches _ happly
  exact (hmeets hreaches).2.apply happly

end Analysis

/-- Each round of a loop leaves a long in two locals and then takes the second one away from it. -/
def Body.splittingLoop : Body where
  lines := #[
    ⟨0, "lconst_0", {}, 0, 0, .operation (.longConst 0)⟩,
    ⟨1, "lstore_0", {}, 1, 0, .operation (.store (.numeric .long) 0 .implicit)⟩,
    ⟨2, "iconst_0", {}, 2, 0, .operation (.intConst 0)⟩,
    ⟨3, "istore_1", {}, 3, 0, .operation (.store (.numeric .int) 1 .implicit)⟩,
    ⟨4, "goto", {}, 4, 0, .branch (.jump .goto 0)⟩]
  labels := .empty

open Analysis Body in
theorem Analysis.frames_wellFormed_splittingLoop :
    Frame.empty.WellFormed ∧
    (∃ leader f p line f', splittingLoop.lines[0]? = some line ∧
      Reaches splittingLoop .javaObject .empty ⟨.trace, #[]⟩ (.instruction leader 0 f p) ∧
      line.apply .javaObject f = .ok f' ∧ f.WellFormed ∧ f'.WellFormed) ∧
    ∃ analysis journal,
      ofBody splittingLoop .javaObject .empty ⟨.trace, #[]⟩ = .ok analysis journal ∧
      Journal.Adds Frame.WellFormed ⟨.trace, #[]⟩ journal ∧
      ∀ label f, analysis.frame? label = some f → f.WellFormed := by
  have hempty : Frame.empty.WellFormed := by
    refine Frame.wellFormed_iff.mpr ⟨fun i v hv => ?_, fun v hv => (by cases hv), rfl⟩
    simp [Frame.empty] at hv
  obtain ⟨hmeets, hafter, hgives, _⟩ :=
    frames_wellFormed.2 splittingLoop .javaObject .empty ⟨.trace, #[]⟩ hempty
  have hqueued : Reaches splittingLoop .javaObject .empty ⟨.trace, #[]⟩ (.queue _) :=
    .start rfl
  have hentered := hqueued.step (.enter rfl rfl)
  have hsucceeds :
      Assembly.succeeds (ofBody splittingLoop .javaObject .empty) ⟨.trace, #[]⟩ = true := by
    unfold ofBody
    iterate 2 rw [run_eq]
    decide +kernel
  obtain ⟨analysis, journal, h⟩ := Assembly.exists_of_succeeds hsucceeds
  exact ⟨hempty, ⟨_, _, _, _, _, rfl, hentered, rfl, (hmeets hentered).2, hafter hentered rfl rfl⟩,
    analysis, journal, h, hgives analysis journal h⟩

end JvmAssembler
