import JvmAssembler.Proofs.Analysis.Fixpoint

/-! A path that is simulated on its own, without ever merging its frame into another, never fails,
never leaves the code, finds enough room, and stays below the frames recorded at the labels it
passes. -/

namespace JvmAssembler

open Progress

variable {body : Body} {thisClass : BinaryName} {initial : Frame} {p : Progress}
  {analysis : Analysis}

/-- The frame of a path stays below one of the analysis, and its locals find room. What is true of
recorded frames and is kept inside of blocks is true of the frame of the analysis. -/
theorem Progress.Concludes.follow_invariant (hp : p.Concludes body thisClass initial analysis)
    {P : Nat → Frame → Prop} (hstart : ∀ g, p.frame? 0 = some g → P 0 g)
    (hlabels : ∀ {i : Nat} {line : Line} {label : Nat}, body.lines[i]? = some line →
      (label ∈ line.targets ∨ body.labels.block? (i + 1) = some label) →
      ∀ g, p.frame? (body.labels.get label).instruction = some g →
        P (body.labels.get label).instruction g)
    (hinside : ∀ {i : Nat} {line : Line} {g g' : Frame}, body.lines[i]? = some line → P i g →
      line.apply thisClass g = .ok g' → line.instruction.fallsThrough = true →
      body.labels.block? (i + 1) = none → P (i + 1) g')
    {passed : List Nat} {i : Nat} (hpath : body.Path passed i) :
    ∃ f g, body.follow thisClass passed initial = .ok f ∧ p.Covers body thisClass i g ∧
      f.Below g ∧ f.locals.size ≤ p.maxLocals ∧ P i g := by
  have hrecorded : ∀ {j : Nat} {f : Frame}, (∀ g, p.frame? j = some g → P j g) → p.Holds j f →
      ∃ g, p.Covers body thisClass j g ∧ f.Below g ∧ P j g := by
    rintro j f hj ⟨g, hg, hbelow⟩
    exact ⟨g, ⟨hp.settled j g hg, fun _ => hg, hbelow.stack.start_right⟩, hbelow, hj g hg⟩
  induction hpath with
  | start =>
      obtain ⟨g, hcovers, hbelow, hP⟩ := hrecorded hstart hp.start
      exact ⟨initial, g, rfl, hcovers, hbelow, hp.initialLocals, hP⟩
  | step _ hflows ih =>
      obtain ⟨f, g, hfollow, hcovers, hbelow, hlocals, hP⟩ := ih
      obtain ⟨hline, happly, _, hlocals', _⟩ := hcovers.passes
      obtain ⟨f', happly', hbelow', hsize⟩ := Line.apply_related .le hbelow happly
      have hfollow' := Body.follow_append_singleton hfollow hline happly'
      have hroom := Nat.le_trans hsize (Nat.max_le.mpr ⟨hlocals, hlocals'⟩)
      rcases covers_cases hcovers hline happly hflows with
        ⟨rfl, hfalls, hnone, hcovers'⟩ | ⟨label, hlabel, rfl, hholds⟩
      · exact ⟨f', _, hfollow', hcovers', hbelow', hroom, hinside hline hP happly hfalls hnone⟩
      · obtain ⟨g'', hcovers'', hbelow'', hP''⟩ := hrecorded (hlabels hline hlabel) hholds
        exact ⟨f', g'', hfollow', hcovers'', Frame.Below.trans hbelow' hbelow'', hroom, hP''⟩

theorem Progress.Concludes.follow (hp : p.Concludes body thisClass initial analysis)
    {passed : List Nat} {i : Nat} (hpath : body.Path passed i) :
    ∃ f g, body.follow thisClass passed initial = .ok f ∧ p.Covers body thisClass i g ∧
      f.Below g ∧ f.locals.size ≤ p.maxLocals := by
  obtain ⟨f, g, hfollow, hcovers, hbelow, hlocals, _⟩ :=
    hp.follow_invariant (P := fun _ _ => True) (fun _ _ => trivial) (fun _ _ _ _ => trivial)
      (fun _ _ _ _ _ => trivial) hpath
  exact ⟨f, g, hfollow, hcovers, hbelow, hlocals⟩

/-- Every path from an empty stack goes through on its own, under the bounds of the analysis and
below the frames at labels. -/
theorem Analysis.path_sound {journal journal' : Journal} (hinitial : initial.depth = 0)
    (h : Analysis.ofBody body thisClass initial journal = .ok analysis journal')
    {passed : List Nat} {i : Nat} (hpath : body.Path passed i) :
    ∃ line f f', body.lines[i]? = some line ∧
      body.follow thisClass passed initial = .ok f ∧
      line.apply thisClass f = .ok f' ∧
      f'.depth ≤ analysis.maxStack ∧ f'.locals.size ≤ analysis.maxLocals ∧
      ∀ label < body.labels.size, (body.labels.get label).instruction = i →
        ∃ recorded, analysis.frame? label = some recorded ∧
          recorded.mismatch? f = none ∧ f.Below recorded := by
  have hbased : initial.stack.start = 0 := by
    rw [Frame.depth, initial.stack.next_eq] at hinitial
    omega
  obtain ⟨p, hp⟩ := exists_concludes hbased h
  obtain ⟨f, g, hfollow, hcovers, hbelow, hlocals⟩ := hp.follow hpath
  obtain ⟨hline, happly, hdepth, hlocals', _⟩ := hcovers.passes
  obtain ⟨f', happly', hbelow', hsize⟩ := Line.apply_related .le hbelow happly
  refine ⟨_, f, f', hline, hfollow, happly', ?_, ?_, ?_⟩
  · rw [hbelow'.depth_eq .le, hp.maxStack]
    exact hdepth
  · rw [hp.maxLocals]
    exact Nat.le_trans hsize (Nat.max_le.mpr ⟨hlocals, hlocals'⟩)
  · rintro label hlabel rfl
    refine ⟨g, ?_, ?_, hbelow⟩
    · rw [hp.frame? hlabel]
      exact hcovers.recorded (LabelTable.isSome_block? hlabel)
    · exact (Frame.mismatch?_eq_none_iff hbelow.stack.start_right hbelow.stack.start_left).mpr
        (hbelow.imp fun _ _ => ValueType.sameShape_of_le)

/-- A local is null when a loop is entered and a string from the second round on. -/
def Body.wideningLoop : Body where
  lines := #[
    ⟨0, "aconst_null", {}, 0, 0, .operation .nullConst⟩,
    ⟨1, "astore_0", {}, 1, 0, .operation (.store .reference 0 .implicit)⟩,
    ⟨2, "ldc", {}, 2, 1, .operation (.ldc .narrow (.string "again"))⟩,
    ⟨3, "astore_0", {}, 4, 1, .operation (.store .reference 0 .implicit)⟩,
    ⟨4, "goto", {}, 5, 1, .branch (.jump .goto 1)⟩]
  labels := (LabelTable.empty.declareAnonymous {} 2).2

open Body in
theorem Analysis.path_sound_wideningLoop :
    ∃ analysis journal f recorded,
      Analysis.ofBody wideningLoop .javaString .empty {} = .ok analysis journal ∧
      wideningLoop.Path [0, 1, 2, 3, 4] 2 ∧
      wideningLoop.follow .javaString [0, 1, 2, 3, 4] .empty = .ok f ∧
      analysis.frame? 1 = some recorded ∧ f.Below recorded := by
  have hsucceeds : Assembly.succeeds (Analysis.ofBody wideningLoop .javaString .empty) {} = true := by
    unfold Analysis.ofBody
    iterate 4 rw [Analysis.run_eq]
    decide +kernel
  obtain ⟨analysis, journal, h⟩ := Assembly.exists_of_succeeds hsucceeds
  have hpath : wideningLoop.Path [0, 1, 2, 3, 4] 2 :=
    .step (.step (.step (.step (.step .start ⟨_, rfl, .inl ⟨rfl, rfl⟩⟩)
      ⟨_, rfl, .inl ⟨rfl, rfl⟩⟩) ⟨_, rfl, .inl ⟨rfl, rfl⟩⟩) ⟨_, rfl, .inl ⟨rfl, rfl⟩⟩)
      ⟨_, rfl, .inr ⟨1, List.mem_singleton_self 1, rfl⟩⟩
  obtain ⟨_, f, _, _, hfollow, _, _, _, hlabels⟩ := Analysis.path_sound rfl h hpath
  obtain ⟨recorded, hrecorded, _, hbelow⟩ := hlabels 1 (by decide) rfl
  exact ⟨analysis, journal, f, recorded, h, hpath, hfollow, hrecorded, hbelow⟩

end JvmAssembler
