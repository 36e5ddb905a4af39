import JvmAssembler.Proofs.Analysis.Arrival
import JvmAssembler.Proofs.Analysis.Fixpoint
import JvmAssembler.Proofs.Frame.Shape

/-! The analysis that widens and the one that only checks are run side by side. Their recorded
frames have the same shapes, and what is pending in the second is pending in the first, in the same
order. A block that is pending in both is simulated in both, with the same outcome. One that is
pending in the first alone is simulated there again: in the second a simulation of it would change
nothing, so in the first it finds no error, and no block that was not found before. -/

namespace JvmAssembler

namespace Queue

variable {α : Type}

theorem pop?_eq_none {q : Queue α} (h : q.toList = []) : q.pop? = none := by
  cases hpop : q.pop? with
  | none => rfl
  | some top =>
      rw [toList_of_pop? hpop] at h
      cases h

theorem exists_pop? {q : Queue α} {a : α} {l : List α} (h : q.toList = a :: l) :
    ∃ rest, q.pop? = some (a, rest) ∧ rest.toList = l := by
  cases hpop : q.pop? with
  | none =>
      rw [toList_of_pop?_none hpop] at h
      cases h
  | some top =>
      rw [toList_of_pop? hpop] at h
      cases h
      exact ⟨top.2, rfl, rfl⟩

end Queue

namespace Progress

variable {p q r : Progress} {f g : Frame}

/-- The second analysis has frames of the same shapes, and its pending blocks are pending in the
first one, in the same order. -/
structure Tracks (p q : Progress) : Prop where
  frames : ∀ i : Nat, Option.Rel (Option.Rel Frame.SameShape) p.frames[i]? q.frames[i]?
  maxStack : p.maxStack = q.maxStack
  maxLocals : p.maxLocals = q.maxLocals
  pending : q.pending.toList.Sublist p.pending.toList
  nodup : p.pending.toList.Nodup
  recorded : ∀ i ∈ p.pending.toList, p.frames[i]? ≠ some none

theorem rel_setIfInBounds {frames frames' : Array (Option Frame)} {i : Nat}
    (hi : i < frames.size) (hframe : frames'[i]? = some (some g)) (hfg : f.SameShape g)
    (hothers : ∀ j, i ≠ j → Option.Rel (Option.Rel Frame.SameShape) frames[j]? frames'[j]?)
    (j : Nat) :
    Option.Rel (Option.Rel Frame.SameShape) (frames.setIfInBounds i (some f))[j]? frames'[j]? := by
  rw [Array.getElem?_setIfInBounds]
  by_cases hij : i = j
  · subst hij
    rw [if_pos rfl, if_pos hi, hframe]
    exact .some (.some hfg)
  · rw [if_neg hij]
    exact hothers j hij

theorem getElem?_setIfInBounds_ne_none {frames : Array (Option Frame)} {i j : Nat}
    (h : j = i ∨ frames[j]? ≠ some none) :
    (frames.setIfInBounds i (some f))[j]? ≠ some none := by
  rw [Array.getElem?_setIfInBounds]
  split
  · split
    · exact fun heq => Option.some_ne_none f (Option.some.inj heq)
    · exact fun heq => Option.some_ne_none none heq.symm
  · rename_i hij
    exact h.resolve_left (fun heq => hij heq.symm)

theorem nodup_append_singleton {l : List Nat} {i : Nat} (hl : l.Nodup) (hi : i ∉ l) :
    (l ++ [i]).Nodup := by
  rw [List.nodup_append]
  refine ⟨hl, List.pairwise_singleton _ _, ?_⟩
  intro a ha b hb heq
  rw [List.mem_singleton.mp hb] at heq
  exact hi (heq ▸ ha)

theorem toList_pending_replaceFrame (p : Progress) (i : Nat) (f : Frame) :
    (p.replaceFrame i f).pending.toList =
      if i ∈ p.pending.toList then p.pending.toList else p.pending.toList ++ [i] := by
  have hcontains : p.pending.contains i = true ↔ i ∈ p.pending.toList := by
    simp [Queue.contains, Queue.toList]
  by_cases hmem : i ∈ p.pending.toList
  · rw [if_pos hmem, replaceFrame, if_pos (hcontains.mpr hmem)]
  · rw [if_neg hmem, replaceFrame, if_neg (fun h => hmem (hcontains.mp h)), Queue.toList_push]

namespace Tracks

theorem withJournals (h : p.Tracks q) (journal journal' : Journal) :
    ({ p with journal := journal } : Progress).Tracks { q with journal := journal' } :=
  { h with }

/-- There is no instruction, or no frame was recorded at it, or both analyses have one. -/
theorem frames_cases (h : p.Tracks q) (i : Nat) :
    (p.frames[i]? = none ∧ q.frames[i]? = none) ∨
      (p.frames[i]? = some none ∧ q.frames[i]? = some none) ∨
      ∃ f g : Frame, p.frames[i]? = some (some f) ∧ q.frames[i]? = some (some g) ∧
        f.SameShape g := by
  have hrel := h.frames i
  generalize p.frames[i]? = x at hrel ⊢
  generalize q.frames[i]? = y at hrel ⊢
  cases hrel with
  | none => exact .inl ⟨rfl, rfl⟩
  | some hrel =>
      cases hrel with
      | none => exact .inr (.inl ⟨rfl, rfl⟩)
      | @some f g hfg => exact .inr (.inr ⟨f, g, rfl, rfl, hfg⟩)

theorem frame?_rel (h : p.Tracks q) (i : Nat) :
    Option.Rel Frame.SameShape (p.frame? i) (q.frame? i) := by
  rw [frame?, frame?, Array.getD_eq_getD_getElem?, Array.getD_eq_getD_getElem?]
  rcases h.frames_cases i with ⟨hp, hq⟩ | ⟨hp, hq⟩ | ⟨f, g, hp, hq, hfg⟩
  · rw [hp, hq]
    exact .none
  · rw [hp, hq]
    exact .none
  · rw [hp, hq]
    exact .some hfg

theorem simulated (h : p.Tracks q) (line : Line) (hfg : f.SameShape g) :
    (p.simulated line f).Tracks (q.simulated line g) :=
  { h with
    maxStack := congrArg₂ max h.maxStack hfg.depth_eq
    maxLocals := congrArg₂ max h.maxLocals hfg.size_eq }

/-- The first frame arrives at a block. -/
theorem record {i : Nat} (h : p.Tracks q) (hp : p.frames[i]? = some none)
    (hq : q.frames[i]? = some none) (hfg : f.SameShape g) (journal journal' : Journal) :
    ({ p.record i f with journal := journal } : Progress).Tracks
      { q.record i g with journal := journal' } where
  frames := by
    obtain ⟨hlt, _⟩ := Array.getElem?_eq_some_iff.mp hp
    obtain ⟨hlt', _⟩ := Array.getElem?_eq_some_iff.mp hq
    refine rel_setIfInBounds hlt ?_ hfg ?_
    · exact Array.getElem?_setIfInBounds_self_of_lt hlt'
    · intro j hij
      rw [Progress.record, Array.getElem?_setIfInBounds_ne hij]
      exact h.frames j
  maxStack := h.maxStack
  maxLocals := h.maxLocals
  pending := by
    simp only [Progress.record, Queue.toList_push]
    exact h.pending.append (.refl [i])
  nodup := by
    simp only [Progress.record, Queue.toList_push]
    have hfresh : i ∉ p.pending.toList := fun hmem => h.recorded i hmem hp
    exact nodup_append_singleton h.nodup hfresh
  recorded := by
    simp only [Progress.record, Queue.toList_push]
    intro j hj
    refine getElem?_setIfInBounds_ne_none ?_
    rcases List.mem_append.mp hj with hmem | hmem
    · exact .inr (h.recorded j hmem)
    · exact .inl (List.mem_singleton.mp hmem)

/-- The first analysis widens the frame of a block, and simulates it again. -/
theorem replaceFrame {i : Nat} {mine theirs : Frame} (h : p.Tracks q)
    (hp : p.frames[i]? = some (some mine)) (hq : q.frames[i]? = some (some theirs))
    (hf : f.SameShape theirs) (journal journal' : Journal) :
    ({ p.replaceFrame i f with journal := journal } : Progress).Tracks
      { q with journal := journal' } where
  frames := by
    obtain ⟨hlt, _⟩ := Array.getElem?_eq_some_iff.mp hp
    exact rel_setIfInBounds hlt hq hf fun j _ => h.frames j
  maxStack := h.maxStack
  maxLocals := h.maxLocals
  pending := by
    simp only [toList_pending_replaceFrame]
    split
    · exact h.pending
    · exact h.pending.trans (List.sublist_append_left _ _)
  nodup := by
    simp only [toList_pending_replaceFrame]
    split
    · exact h.nodup
    · rename_i hmem
      exact nodup_append_singleton h.nodup hmem
  recorded := by
    intro j hj
    refine getElem?_setIfInBounds_ne_none ?_
    exact ((mem_pending_replaceFrame f).mp hj).imp_right (h.recorded j)

end Tracks

/-- Both analyses go on side by side, or both end with errors that agree. -/
inductive Agree : EStateM.Result CompileError Progress Unit →
    EStateM.Result CompileError Progress Unit → Prop
  | ok {p q : Progress} (h : p.Tracks q) : Agree (.ok () p) (.ok () q)
  | error {e e' : CompileError} {p q : Progress} (h : e.Agrees e') :
      Agree (.error e p) (.error e' q)

theorem disagreement_agrees {expected expected' : Frame} (label : Nat) (target : Label)
    (hexpected : expected.SameShape expected') (hfg : f.SameShape g) (mismatch : Mismatch) :
    (disagreement label target expected f mismatch).Agrees
      (disagreement label target expected' g mismatch) := by
  cases mismatch with
  | stackDepth => exact .depthsDiffer hexpected hfg
  | _ => exact .framesDiffer hexpected hfg

theorem propagate_agree (h : p.Tracks q) (hfg : f.SameShape g) (labels : LabelTable)
    (label : Nat) (source : Option Line) :
    Agree (p.propagate labels label f source) (q.check labels label g source) := by
  rw [propagate, check]
  rcases h.frames_cases (labels.get label).instruction with
    ⟨hp, hq⟩ | ⟨hp, hq⟩ | ⟨expected, expected', hp, hq, hexpected⟩
  · simp only [hp, hq]
    exact .error (.same _)
  · simp only [hp, hq]
    exact .ok (h.record hp hq hfg _ _)
  · have hsame := Frame.mismatch?_congr hexpected hfg
    cases hmismatch : expected'.mismatch? g with
    | some mismatch =>
        simp only [hp, hq, hsame, hmismatch]
        exact .error (disagreement_agrees label _ hexpected hfg mismatch)
    | none =>
        simp only [hp, hq, hsame, hmismatch]
        split
        · have hrelated : f.Related ValueType.SameShape expected :=
            Frame.related_of_mismatch? hexpected.stack.start_left hfg.stack.start_left
              (hsame.trans hmismatch)
          have hjoin := (Frame.SameShape.join hrelated).trans hexpected
          exact .ok (h.replaceFrame hp hq hjoin _ _)
        · exact .ok (h.withJournals _ _)

theorem arriveAll_agree (h : p.Tracks q) (hfg : f.SameShape g) (labels : LabelTable)
    (source : Line) (targets : List Nat) :
    Agree (Arrival.widening.arriveAll labels f source targets p)
      (Arrival.checking.arriveAll labels g source targets q) := by
  induction targets generalizing p q with
  | nil => exact .ok h
  | cons label rest ih =>
      have hfirst := propagate_agree h hfg labels label (some source)
      rw [Arrival.arriveAll, Arrival.arriveAll]
      change Agree (Arrival.widening.arrive labels label f (some source) p)
        (Arrival.checking.arrive labels label g (some source) q) at hfirst
      generalize Arrival.widening.arrive labels label f (some source) p = x at hfirst ⊢
      generalize Arrival.checking.arrive labels label g (some source) q = y at hfirst ⊢
      cases hfirst with
      | ok h => exact ih h
      | error h => exact .error h

theorem walk_agree (body : Body) (thisClass : BinaryName) (i : Nat) {p q : Progress}
    {f g : Frame} (h : p.Tracks q) (hfg : f.SameShape g) :
    Agree (Analysis.walkWith .widening body thisClass i f p)
      (Analysis.walkWith .checking body thisClass i g q) := by
  rw [Analysis.walkWith, Analysis.walkWith]
  by_cases hi : i < body.lines.size
  · rw [dif_pos hi, dif_pos hi]
    generalize body.lines[i] = line
    dsimp only
    have happly := line.apply_alike thisClass hfg
    generalize line.apply thisClass f = x at happly ⊢
    generalize line.apply thisClass g = y at happly ⊢
    cases happly with
    | error he => exact .error he
    | @ok f' g' hfg' =>
        have hjumps := arriveAll_agree (h.simulated line hfg') hfg' body.labels line line.targets
        dsimp only
        generalize Arrival.widening.arriveAll body.labels f' line line.targets _ = x at hjumps ⊢
        generalize Arrival.checking.arriveAll body.labels g' line line.targets _ = y at hjumps ⊢
        cases hjumps with
        | error he => exact .error he
        | ok h' =>
            dsimp only
            split
            · exact .ok h'
            · split
              · exact .error (.same _)
              · cases body.labels.block? (i + 1) with
                | some next => exact propagate_agree h' hfg' body.labels next none
                | none => exact walk_agree body thisClass (i + 1) h' hfg'
  · rw [dif_neg hi, dif_neg hi]
    exact .ok h
termination_by body.lines.size - i

/-- A block that has a frame in both analyses is simulated with the same outcome. -/
theorem simulate_agree (body : Body) (thisClass : BinaryName) (leader : Nat) (h : p.Tracks q) :
    Agree (Analysis.simulateWith .widening body thisClass leader p)
      (Analysis.simulateWith .checking body thisClass leader q) := by
  have hrel := h.frame?_rel leader
  rw [Analysis.simulateWith, Analysis.simulateWith]
  generalize p.frame? leader = x at hrel ⊢
  generalize q.frame? leader = y at hrel ⊢
  cases hrel with
  | none => exact .ok h
  | some hfg => exact walk_agree body thisClass leader (h.withJournals _ _) hfg

/-! ### Blocks that were checked -/

/-- Recorded frames are kept, and the bounds grow. -/
structure Keeps (p q : Progress) : Prop where
  frames : ∀ {i : Nat} {f : Frame}, p.frame? i = some f → q.frame? i = some f
  maxStack : p.maxStack ≤ q.maxStack
  maxLocals : p.maxLocals ≤ q.maxLocals

theorem Keeps.trans (hpq : p.Keeps q) (hqr : q.Keeps r) : p.Keeps r where
  frames := fun h => hqr.frames (hpq.frames h)
  maxStack := Nat.le_trans hpq.maxStack hqr.maxStack
  maxLocals := Nat.le_trans hpq.maxLocals hqr.maxLocals

theorem Keeps.refl (p : Progress) : p.Keeps p := ⟨id, Nat.le_refl _, Nat.le_refl _⟩

/-- Recorded frames are kept, and blocks that get a frame are pending. -/
structure Records (p q : Progress) : Prop where
  keeps : p.Keeps q
  pending : ∀ {i : Nat}, i ∈ p.pending.toList → i ∈ q.pending.toList
  added : ∀ {i : Nat} {f : Frame}, q.frame? i = some f →
    p.frame? i = some f ∨ i ∈ q.pending.toList

theorem Records.withJournal (p : Progress) (journal : Journal) :
    p.Records { p with journal := journal } := ⟨⟨id, Nat.le_refl _, Nat.le_refl _⟩, id, .inl⟩

theorem Records.trans (hpq : p.Records q) (hqr : q.Records r) : p.Records r where
  keeps := hpq.keeps.trans hqr.keeps
  pending := fun h => hqr.pending (hpq.pending h)
  added := by
    intro i f hf
    rcases hqr.added hf with hq | hpending
    · exact (hpq.added hq).imp_right hqr.pending
    · exact .inr hpending

/-- A step that, once it has succeeded, changes nothing when it is done again. -/
def Lasting (step : Progress → EStateM.Result CompileError Progress Unit) : Prop :=
  ∀ p q : Progress, step p = .ok () q → p.Records q ∧
    ∀ r : Progress, q.Keeps r → ∃ journal, step r = .ok () { r with journal := journal }

namespace Lasting

variable {step step' : Progress → EStateM.Result CompileError Progress Unit}

theorem congr (h : Lasting step) (heq : ∀ p, step' p = step p) : Lasting step' := funext heq ▸ h

theorem error (e : CompileError) : Lasting (.error e) := by
  intro p q h
  cases h

theorem ok : Lasting (.ok ()) := by
  intro p q h
  cases h
  exact ⟨.withJournal p p.journal, fun r _ => ⟨r.journal, rfl⟩⟩

theorem andThen (h : Lasting step) (h' : Lasting step') : Lasting fun p =>
    match step p with
    | .error e q => .error e q
    | .ok () q => step' q := by
  intro p r hr
  dsimp only at hr
  split at hr
  · cases hr
  · rename_i q hq
    obtain ⟨hrecords, hagain⟩ := h p q hq
    obtain ⟨hrecords', hagain'⟩ := h' q r hr
    refine ⟨hrecords.trans hrecords', ?_⟩
    intro t ht
    obtain ⟨journal, hstep⟩ := hagain t (hrecords'.keeps.trans ht)
    have hjournal : r.Keeps { t with journal := journal } := ⟨ht.frames, ht.maxStack, ht.maxLocals⟩
    obtain ⟨journal', hstep'⟩ := hagain' _ hjournal
    exact ⟨journal', by simp only [hstep, hstep']⟩

theorem report (event : Event) : Lasting fun p => .ok () (p.report event) := by
  intro p q h
  cases h
  exact ⟨.withJournal p _, fun r _ => ⟨_, rfl⟩⟩

/-- The frame after an instruction needs no more room the second time. -/
theorem simulated (line : Line) (f : Frame) : Lasting fun p => .ok () (p.simulated line f) := by
  intro p q h
  cases h
  refine ⟨⟨⟨id, Nat.le_max_left _ _, Nat.le_max_left _ _⟩, id, .inl⟩, ?_⟩
  intro r hkeeps
  have hstack : max r.maxStack f.depth = r.maxStack :=
    Nat.max_eq_left (Nat.le_trans (Nat.le_max_right _ _) hkeeps.maxStack)
  have hlocals : max r.maxLocals f.locals.size = r.maxLocals :=
    Nat.max_eq_left (Nat.le_trans (Nat.le_max_right _ _) hkeeps.maxLocals)
  refine ⟨(r.report (.simulated line.id line.mnemonic f)).journal, ?_⟩
  simp only [Progress.simulated, Progress.report, hstack, hlocals]

end Lasting

theorem check_of_frame? {labels : LabelTable} {label : Nat} {expected : Frame}
    (hframe : p.frame? (labels.get label).instruction = some expected)
    (hmismatch : expected.mismatch? f = none) (source : Option Line) :
    ∃ journal, p.check labels label f source = .ok () { p with journal := journal } := by
  rw [frame?_eq_some_iff] at hframe
  simp only [check, hframe, hmismatch]
  exact ⟨_, rfl⟩

theorem check_lasting (labels : LabelTable) (label : Nat) (f : Frame) (source : Option Line) :
    Lasting (check labels label f source) := by
  intro p q h
  obtain ⟨journal, ⟨hget, rfl⟩ | ⟨expected, hget, hmismatch, rfl⟩⟩ := check_cases h
  · obtain ⟨hlt, _⟩ := Array.getElem?_eq_some_iff.mp hget
    have hframe : ∀ j, ({ p.record (labels.get label).instruction f with journal := journal } :
        Progress).frame? j = if (labels.get label).instruction = j then some f else p.frame? j :=
      fun j => frame?_set rfl hlt
    have hfresh : p.frame? (labels.get label).instruction = none := by
      rw [frame?, Array.getD_eq_getD_getElem?, hget]
      rfl
    refine ⟨⟨⟨?_, Nat.le_refl _, Nat.le_refl _⟩, ?_, ?_⟩, ?_⟩
    · intro j g hg
      rw [hframe, if_neg (fun heq => by rw [← heq, hfresh] at hg; cases hg)]
      exact hg
    · intro j hj
      exact Queue.toList_push _ _ ▸ List.mem_append_left _ hj
    · intro j g hg
      by_cases hij : (labels.get label).instruction = j
      · subst hij
        exact .inr (Queue.toList_push _ _ ▸ List.mem_append_right _ (List.mem_singleton_self _))
      · rw [hframe, if_neg hij] at hg
        exact .inl hg
    · intro r hkeeps
      exact check_of_frame? (hkeeps.frames ((hframe _).trans (if_pos rfl))) f.mismatch?_self source
  · refine ⟨.withJournal p journal, ?_⟩
    intro r hkeeps
    exact check_of_frame? (hkeeps.frames (frame?_eq_some_iff.mpr hget)) hmismatch source

theorem arriveAll_lasting (labels : LabelTable) (f : Frame) (source : Line) (targets : List Nat) :
    Lasting (Arrival.checking.arriveAll labels f source targets) := by
  induction targets with
  | nil => exact .ok
  | cons label rest ih =>
      refine ((check_lasting labels label f (some source)).andThen ih).congr fun p => ?_
      rw [Arrival.arriveAll, Arrival.checking]
      dsimp only
      cases p.check labels label f (some source) <;> rfl

/-- The rest of a block that was walked through to its end can be walked through again. -/
theorem walk_lasting (body : Body) (thisClass : BinaryName) (i : Nat) (f : Frame) :
    Lasting (Analysis.walkWith .checking body thisClass i f) := by
  by_cases hi : i < body.lines.size
  · cases happly : body.lines[i].apply thisClass f with
    | error e =>
        refine (Lasting.error e).congr fun p => ?_
        rw [Analysis.walkWith, dif_pos hi]
        simp only [happly]
    | ok f' =>
        generalize hline : body.lines[i] = line at happly
        have hrest : Lasting fun p =>
            if !line.instruction.fallsThrough then .ok () p
            else if i + 1 = body.lines.size then .error (.fallsOffEnd line.id line.position) p
            else (body.labels.block? (i + 1)).elim
              (Analysis.walkWith .checking body thisClass (i + 1) f' p)
              (fun next => p.check body.labels next f' none) := by
          by_cases hstop : (!line.instruction.fallsThrough) = true
          · simp only [if_pos hstop]
            exact .ok
          · simp only [if_neg hstop]
            by_cases hend : i + 1 = body.lines.size
            · simp only [if_pos hend]
              exact .error _
            · simp only [if_neg hend]
              cases body.labels.block? (i + 1) with
              | some next => exact check_lasting body.labels next f' none
              | none => exact walk_lasting body thisClass (i + 1) f'
        have hjumps := (Lasting.simulated line f').andThen
          (arriveAll_lasting body.labels f' line line.targets)
        refine (hjumps.andThen hrest).congr fun p => ?_
        rw [Analysis.walkWith, dif_pos hi]
        simp only [hline, happly]
        cases body.labels.block? (i + 1) <;> rfl
  · exact Lasting.ok.congr fun p => by rw [Analysis.walkWith, dif_neg hi]
termination_by body.lines.size - i

/-- A simulation of the block does nothing, now and when more frames are recorded. -/
def Repeats (body : Body) (thisClass : BinaryName) (q : Progress) (leader : Nat) : Prop :=
  ∀ r : Progress, q.Keeps r → ∃ journal,
    Analysis.simulateWith .checking body thisClass leader r = .ok () { r with journal := journal }

variable {body : Body} {thisClass : BinaryName}

theorem Repeats.mono {leader : Nat} (h : q.Repeats body thisClass leader) (hkeeps : q.Keeps r) :
    r.Repeats body thisClass leader :=
  fun _ hkeeps' => h _ (hkeeps.trans hkeeps')

/-- A block that was simulated without an error is done. -/
theorem simulate_records {leader : Nat}
    (h : Analysis.simulateWith .checking body thisClass leader p = .ok () q) :
    p.Records q ∧ ((p.frame? leader).isSome → q.Repeats body thisClass leader) := by
  rw [Analysis.simulateWith] at h
  cases hframe : p.frame? leader with
  | none =>
      rw [hframe] at h
      cases h
      exact ⟨.withJournal p p.journal, fun hsome => by cases hsome⟩
  | some f =>
      simp only [hframe] at h
      have hlasting := (Lasting.report (.simulating leader)).andThen
        (walk_lasting body thisClass leader f)
      obtain ⟨hrecords, hagain⟩ := hlasting p q h
      refine ⟨hrecords, fun _ r hkeeps => ?_⟩
      obtain ⟨journal, hstep⟩ := hagain r hkeeps
      refine ⟨journal, ?_⟩
      rw [Analysis.simulateWith, hkeeps.frames (hrecords.keeps.frames hframe)]
      exact hstep

/-- Every block with a frame is pending or done. -/
def Steady (body : Body) (thisClass : BinaryName) (q : Progress) : Prop :=
  ∀ i f, q.frame? i = some f → i ∈ q.pending.toList ∨ q.Repeats body thisClass i

theorem Steady.simulate {leader : Nat} {rest : Queue Nat} (hsteady : q.Steady body thisClass)
    (hpop : q.pending.pop? = some (leader, rest))
    (h : Analysis.simulateWith .checking body thisClass leader { q with pending := rest } =
      .ok () r) : r.Steady body thisClass := by
  obtain ⟨hrecords, hdone⟩ := simulate_records h
  intro i f hf
  rcases hrecords.added hf with hbefore | hpending
  · rcases hsteady i f hbefore with hpending | hrepeats
    · rw [Queue.toList_of_pop? hpop] at hpending
      rcases List.mem_cons.mp hpending with rfl | hrest
      · exact .inr (hdone (Option.isSome_iff_exists.mpr ⟨f, hbefore⟩))
      · exact .inl (hrecords.pending hrest)
    · have hkeeps : q.Keeps r := ⟨hrecords.keeps.frames, hrecords.keeps.maxStack,
        hrecords.keeps.maxLocals⟩
      exact .inr (hrepeats.mono hkeeps)
  · exact .inl hpending

/-! ### The whole analysis -/

/-- The first analysis simulates a block. Either the second one does the same, or the block was done
before and the second one stays where it is. -/
theorem step_agree {leader : Nat} {rest : Queue Nat} (h : p.Tracks q)
    (hsteady : q.Steady body thisClass) (hpop : p.pending.pop? = some (leader, rest)) :
    (∃ rest', q.pending.pop? = some (leader, rest') ∧
      Agree (Analysis.simulateWith .widening body thisClass leader { p with pending := rest })
        (Analysis.simulateWith .checking body thisClass leader { q with pending := rest' })) ∨
    ∃ p', Analysis.simulateWith .widening body thisClass leader { p with pending := rest } =
      .ok () p' ∧ p'.Tracks q := by
  have hlist := Queue.toList_of_pop? hpop
  have hnodup := h.nodup
  have hpending := h.pending
  rw [hlist] at hnodup hpending
  obtain ⟨hleader, hnodup⟩ := List.nodup_cons.mp hnodup
  have hrecorded : ∀ i ∈ rest.toList, p.frames[i]? ≠ some none :=
    fun i hi => h.recorded i (hlist ▸ List.mem_cons_of_mem _ hi)
  have hpopped : ∀ {q' : Progress}, q'.frames = q.frames → q'.maxStack = q.maxStack →
      q'.maxLocals = q.maxLocals → q'.pending.toList.Sublist rest.toList →
      ({ p with pending := rest } : Progress).Tracks q' :=
    fun hframes hstack hlocals hsublist =>
      ⟨hframes ▸ h.frames, hstack ▸ h.maxStack, hlocals ▸ h.maxLocals, hsublist, hnodup, hrecorded⟩
  rcases List.sublist_cons_iff.mp hpending with hstale | ⟨rest', hq, hsublist⟩
  · right
    have hagree := simulate_agree body thisClass leader (hpopped rfl rfl rfl hstale)
    have hdone : ∃ journal, Analysis.simulateWith .checking body thisClass leader q =
        .ok () { q with journal := journal } := by
      cases hframe : q.frame? leader with
      | none => exact ⟨q.journal, by rw [Analysis.simulateWith, hframe]⟩
      | some f =>
          have hnot : leader ∉ q.pending.toList := fun hmem => hleader (hstale.subset hmem)
          exact (hsteady leader f hframe).resolve_left hnot q (.refl q)
    obtain ⟨journal, hdone⟩ := hdone
    rw [hdone] at hagree
    generalize Analysis.simulateWith .widening body thisClass leader _ = x at hagree ⊢
    cases hagree with
    | @ok p' _ htracks => exact ⟨p', rfl, htracks.withJournals p'.journal q.journal⟩
  · left
    obtain ⟨rest'', hpop', htoList⟩ := Queue.exists_pop? hq
    refine ⟨rest'', hpop', simulate_agree body thisClass leader (hpopped rfl rfl rfl ?_)⟩
    exact htoList ▸ hsublist

/-- The two analyses agree to the end. The one that widens takes at least as many steps, so its steps
are followed. -/
theorem run_agree (h : p.Tracks q) (hsteady : q.Steady body thisClass) :
    Agree (Analysis.runWith .widening body thisClass p)
      (Analysis.runWith .checking body thisClass q) := by
  fun_induction Analysis.runWith .widening body thisClass p generalizing q with
  | case1 p hpop =>
      have hnone : q.pending.toList = [] := by
        have hsublist := h.pending
        rw [Queue.toList_of_pop?_none hpop] at hsublist
        exact List.sublist_nil.mp hsublist
      rw [Analysis.runWith_eq, Queue.pop?_eq_none hnone]
      exact .ok h
  | case2 p leader rest hpop e p' hsim =>
      rcases step_agree h hsteady hpop with ⟨rest', hpop', hagree⟩ | ⟨p'', hsim', _⟩
      · rw [Analysis.runWith_eq .checking, hpop']
        dsimp only
        rw [hsim] at hagree
        generalize Analysis.simulateWith .checking body thisClass leader _ = y at hagree ⊢
        cases hagree with
        | error he => exact .error he
      · rw [hsim] at hsim'
        cases hsim'
  | case3 p leader rest hpop p' hsim ih =>
      rcases step_agree h hsteady hpop with ⟨rest', hpop', hagree⟩ | ⟨p'', hsim', htracks⟩
      · rw [Analysis.runWith_eq .checking, hpop']
        dsimp only
        rw [hsim] at hagree
        generalize hsim' : Analysis.simulateWith .checking body thisClass leader _ = y at hagree ⊢
        cases hagree with
        | ok htracks => exact ih htracks (hsteady.simulate hpop' hsim')
      · rw [hsim] at hsim'
        cases hsim'
        exact ih htracks hsteady

theorem tracks_start (count : Nat) (initial : Frame) (journal : Journal) :
    (start count initial journal).Tracks (start count initial journal) where
  frames := by
    intro i
    rw [start, Array.getElem?_replicate]
    split
    · exact .some .none
    · exact .none
  maxStack := rfl
  maxLocals := rfl
  pending := .refl _
  nodup := .nil
  recorded := fun _ hmem => absurd hmem List.not_mem_nil

theorem steady_of_check_start {count : Nat} {initial : Frame} {journal : Journal}
    {labels : LabelTable} {label : Nat}
    (h : (start count initial journal).check labels label initial none = .ok () q) :
    q.Steady body thisClass := by
  obtain ⟨hrecords, _⟩ := check_lasting labels label initial none _ _ h
  intro i f hf
  rcases hrecords.added hf with hbefore | hpending
  · rw [frame?_start] at hbefore
    cases hbefore
  · exact .inl hpending

end Progress

namespace Analysis

variable {body : Body} {thisClass : BinaryName}

/-- The same verdict on a body. Both analyses succeed, with frames at the same labels, of the same
shapes, and with the same bounds. Or they both fail, with errors that agree. -/
inductive SameVerdict : EStateM.Result CompileError Journal Analysis →
    EStateM.Result CompileError Journal Analysis → Prop
  | ok {a b : Analysis} {journal journal' : Journal}
      (labels : a.labelFrames.size = b.labelFrames.size)
      (frames : ∀ label, Option.Rel Frame.SameShape (a.frame? label) (b.frame? label))
      (maxStack : a.maxStack = b.maxStack)
      (maxLocals : a.maxLocals = b.maxLocals) : SameVerdict (.ok a journal) (.ok b journal')
  | error {e e' : CompileError} {journal journal' : Journal} (h : e.Agrees e') :
      SameVerdict (.error e journal) (.error e' journal')

theorem sameVerdict_conclude {p q : Progress} (h : p.Tracks q) (journal journal' : Journal) :
    SameVerdict (.ok (conclude body p).2 journal) (.ok (conclude body q).2 journal') := by
  refine .ok ?_ ?_ h.maxStack h.maxLocals
  · simp only [conclude, Array.size_map]
  · intro label
    simp only [frame?, conclude, Array.getD_eq_getD_getElem?, Array.getElem?_map]
    cases body.labels.labels[label]? with
    | none => exact .none
    | some target => exact h.frame?_rel target.instruction

/-- **Widening references never affects the verdict.** The analysis that only checks frames, and
simulates each block once with the frame that reached it first, succeeds exactly if the analysis
that widens does, with frames of the same shapes at the same labels and the same bounds. If they
fail, it is for the same reason, at the same instruction or label. -/
theorem verdict_of_widening_eq_checking (body : Body) (thisClass : BinaryName)
    (locals : Array Value) (stack : List Value) (journal : Journal) :
    SameVerdict (ofBody body thisClass ⟨locals, .ofList stack⟩ journal)
      (ofBodyWith .checking body thisClass ⟨locals, .ofList stack⟩ journal) := by
  generalize hinitial : Frame.mk locals (.ofList stack) = initial
  have hshape : initial.SameShape initial :=
    .refl (hinitial ▸ SlotVec.start_ofList stack)
  rw [← ofBodyWith_widening, ofBodyWith, ofBodyWith]
  dsimp only
  split
  · exact .error (.same _)
  · have hstart := Progress.propagate_agree (Progress.tracks_start body.lines.size initial
      (journal.report (.analysing body.lines.size initial))) hshape body.labels
        LabelTable.start none
    change Progress.Agree (Arrival.widening.arrive ..) (Arrival.checking.arrive ..) at hstart
    generalize Arrival.widening.arrive body.labels LabelTable.start initial none _ = x at hstart ⊢
    generalize hfirst : Arrival.checking.arrive body.labels LabelTable.start initial none _ = y
      at hstart ⊢
    cases hstart with
    | error he => exact .error he
    | ok htracks =>
        have hsteady : Progress.Steady body thisClass _ := Progress.steady_of_check_start hfirst
        have hrun := Progress.run_agree htracks hsteady
        dsimp only
        generalize runWith .widening body thisClass _ = x at hrun ⊢
        generalize runWith .checking body thisClass _ = y at hrun ⊢
        cases hrun with
        | error he => exact .error he
        | ok htracks' => exact sameVerdict_conclude htracks' _ _

end Analysis

end JvmAssembler
