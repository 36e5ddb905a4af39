import JvmAssembler.Proofs.Frame.Contents
import JvmAssembler.Proofs.Method.Reachability

/-! There is a frame where a jump leads to, and where replaced code starts, and nowhere else. Frames
hold uninitialized objects only of allocations that can be reached. -/

namespace JvmAssembler

namespace StackMap

theorem getElem?_foldl_insertIfNew (frames : Std.TreeMap Nat Frame) (targets : List (Nat × Frame))
    (offset : Nat) :
    (targets.foldl (fun frames target => frames.insertIfNew target.1 target.2) frames)[offset]? =
      frames[offset]?.or ((targets.find? (·.1 == offset)).map Prod.snd) := by
  induction targets generalizing frames with
  | nil => simp
  | cons target targets ih =>
      rw [List.foldl_cons, ih, Std.TreeMap.getElem?_insertIfNew, List.find?_cons]
      by_cases hoffset : target.1 = offset
      · subst hoffset
        cases hframe : frames[target.1]? <;>
          simp [hframe, Std.TreeMap.mem_iff_isSome_getElem?]
      · have hbeq : (target.1 == offset) = false := beq_eq_false_iff_ne.mpr hoffset
        simp [hoffset, hbeq]

/-- Of several frames at one offset the first counts. -/
theorem getElem?_byOffset (targets : List (Nat × Frame)) (offset : Nat) :
    (byOffset targets)[offset]? = (targets.find? (·.1 == offset)).map Prod.snd := by
  rw [byOffset, getElem?_foldl_insertIfNew, Std.TreeMap.getElem?_emptyc, Option.none_or]

theorem mem_of_getElem?_byOffset {targets : List (Nat × Frame)} {offset : Nat} {f : Frame}
    (h : (byOffset targets)[offset]? = some f) : (offset, f) ∈ targets := by
  rw [getElem?_byOffset, Option.map_eq_some_iff] at h
  obtain ⟨⟨found, _⟩, hfind, rfl⟩ := h
  have hbeq := List.find?_some hfind
  have hoffset : found = offset := eq_of_beq hbeq
  rw [← hoffset]
  exact List.mem_of_find?_eq_some hfind

theorem exists_getElem?_byOffset {targets : List (Nat × Frame)} {offset : Nat} {f : Frame}
    (h : (offset, f) ∈ targets) : ∃ g, (byOffset targets)[offset]? = some g := by
  rw [getElem?_byOffset]
  apply Option.isSome_iff_exists.mp
  rw [Option.isSome_map, List.find?_isSome]
  exact ⟨(offset, f), h, beq_self_eq_true _⟩

end StackMap

namespace Body

variable {body : Body}

/-- An instruction is not in the block of the one before. -/
def StartsBlock (body : Body) (i : Nat) : Prop :=
  ∀ j previous line, j + 1 = i → body.lines[j]? = some previous → body.lines[i]? = some line →
    previous.block ≠ line.block

theorem exists_block_iff {first : Line} :
    (∃ block ∈ body.blocks, block.head? = some first) ↔
      ∃ i, body.lines[i]? = some first ∧ body.StartsBlock i := by
  obtain ⟨⟨lines⟩, labels⟩ := body
  simp only [blocks, StartsBlock, List.getElem?_toArray]
  cases lines with
  | nil => simp
  | cons line lines =>
      rw [exists_run_iff]
      constructor
      · rintro (rfl | ⟨j, previous, hprevious, hfirst, hne⟩)
        · exact ⟨0, rfl, fun j _ _ hj => absurd hj (Nat.succ_ne_zero j)⟩
        · refine ⟨j + 1, hfirst, ?_⟩
          rintro _ other found ⟨⟩ hother hfound
          rw [hprevious, Option.some.injEq] at hother
          rw [List.getElem?_cons_succ, hfirst, Option.some.injEq] at hfound
          rw [← hother, ← hfound]
          exact ne_of_beq_false hne
      · rintro ⟨i, hi, hstarts⟩
        cases i with
        | zero => exact .inl (Option.some.inj hi).symm
        | succ j =>
            have hj : j < (line :: lines).length := by
              obtain ⟨hlt, _⟩ := List.getElem?_eq_some_iff.mp hi
              omega
            have hprevious : (line :: lines)[j]? = some (line :: lines)[j] :=
              List.getElem?_eq_getElem hj
            have hne := hstarts j _ first rfl hprevious hi
            exact .inr ⟨j, _, hprevious, hi, beq_eq_false_iff_ne.mpr hne⟩

theorem mem_unreachedRanges_iff {analysis : Analysis} {offset : Nat} :
    (∃ stop, (offset, stop) ∈ body.unreachedRanges analysis) ↔
      ∃ block ∈ body.blocks, ∃ first, block.head? = some first ∧
        analysis.frame? first.block = none ∧ first.offset = offset := by
  simp only [unreachedRanges, List.mem_filterMap]
  constructor
  · rintro ⟨stop, block, hblock, hrange⟩
    split at hrange
    · rename_i first last hfirst _
      split at hrange
      · rename_i hnone
        cases hrange
        exact ⟨block, hblock, first, hfirst, Option.isNone_iff_eq_none.mp hnone, rfl⟩
      · cases hrange
    · cases hrange
  · rintro ⟨block, hblock, first, hfirst, hnone, rfl⟩
    obtain ⟨rest, rfl⟩ := List.head?_eq_some_iff.mp hfirst
    refine ⟨((first :: rest).getLast (List.cons_ne_nil _ _)).stop, first :: rest, hblock, ?_⟩
    rw [hfirst, List.getLast?_eq_some_getLast (List.cons_ne_nil _ _)]
    simp [hnone]

theorem mem_mapTargets_iff {analysis : Analysis} {offset : Nat} {f : Frame} :
    (offset, f) ∈ body.mapTargets analysis (body.unreachedRanges analysis) ↔
      (∃ line ∈ body.lines.toList, ∃ label ∈ line.targets,
        body.labelOffset? label = some offset ∧ analysis.frame? label = some f) ∨
      (∃ stop, (offset, stop) ∈ body.unreachedRanges analysis) ∧ f = throwing := by
  rw [mapTargets, List.mem_append, List.mem_filterMap, List.mem_map]
  constructor
  · rintro (⟨label, hlabel, htarget⟩ | ⟨⟨start, stop⟩, hrange, htarget⟩)
    · obtain ⟨line, hline, hlabel⟩ := List.mem_flatMap.mp hlabel
      simp only [Option.bind_eq_bind, Option.bind_eq_some_iff] at htarget
      obtain ⟨_, hoffset, _, hframe, hpair⟩ := htarget
      cases hpair
      exact .inl ⟨line, hline, label, hlabel, hoffset, hframe⟩
    · cases htarget
      exact .inr ⟨⟨stop, hrange⟩, rfl⟩
  · rintro (⟨line, hline, label, hlabel, hoffset, hframe⟩ | ⟨⟨stop, hrange⟩, rfl⟩)
    · refine .inl ⟨label, List.mem_flatMap.mpr ⟨line, hline, hlabel⟩, ?_⟩
      simp [hoffset, hframe]
    · exact .inr ⟨(offset, stop), hrange, rfl⟩

/-- The frames of the stack map. -/
def mapFrames (body : Body) (analysis : Analysis) : Std.TreeMap Nat Frame :=
  StackMap.byOffset (body.mapTargets analysis (body.unreachedRanges analysis))

namespace LaidOut

variable {thisClass : BinaryName} {initial : Frame} {analysis : Analysis} {p : Progress}
  {i : Nat} {line : Line} {f : Frame}

/-- A frame of the stack map stands at a label and is the one recorded there, or it is that of
replaced code and stands where a block starts. -/
theorem mapFrames_cases (h : body.LaidOut) (hp : p.Concludes body thisClass initial analysis)
    {offset : Nat} (hf : (body.mapFrames analysis)[offset]? = some f) :
    ∃ i line, body.lines[i]? = some line ∧ line.offset = offset ∧
      ((body.labels.block? i).isSome ∧ p.frame? i = some f ∨
        ¬ body.Reachable i ∧ body.StartsBlock i ∧ f = throwing) := by
  rcases mem_mapTargets_iff.mp (StackMap.mem_of_getElem?_byOffset hf) with
    ⟨source, hsource, label, hlabel, hoffset, hframe⟩ | ⟨hrange, rfl⟩
  · obtain ⟨j, hj⟩ := List.mem_iff_getElem?.mp hsource
    have hlt := h.target_lt (Array.getElem?_toList.symm.trans hj) hlabel
    obtain ⟨line, hline, rfl⟩ := Option.map_eq_some_iff.mp hoffset
    rw [hp.frame? hlt] at hframe
    exact ⟨_, line, hline, rfl, .inl ⟨LabelTable.isSome_block? hlt, hframe⟩⟩
  · obtain ⟨block, hblock, first, hfirst, hnone, rfl⟩ := mem_unreachedRanges_iff.mp hrange
    obtain ⟨i, hi, hstarts⟩ := exists_block_iff.mp ⟨block, hblock, hfirst⟩
    refine ⟨i, first, hi, rfl, .inr ⟨?_, hstarts, rfl⟩⟩
    rw [← h.isSome_frame?_block_iff hp hi, hnone]
    exact nofun

theorem frame?_of_mapFrames (h : body.LaidOut) (hp : p.Concludes body thisClass initial analysis)
    (hline : body.lines[i]? = some line) (hreachable : body.Reachable i)
    (hf : (body.mapFrames analysis)[line.offset]? = some f) :
    (body.labels.block? i).isSome ∧ p.frame? i = some f := by
  obtain ⟨j, other, hother, hoffset, hcases⟩ := h.mapFrames_cases hp hf
  obtain rfl := h.eq_of_offset_eq hother hline hoffset
  rcases hcases with hlabel | ⟨hunreachable, _⟩
  · exact hlabel
  · exact absurd hreachable hunreachable

/-- The stack map agrees with every frame that stands for those of all paths. -/
theorem mapFrames_eq_of_covers (h : body.LaidOut) (hp : p.Concludes body thisClass initial analysis)
    (hline : body.lines[i]? = some line) (hreachable : body.Reachable i) {g : Frame}
    (hcovers : p.Covers body thisClass i g)
    (hf : (body.mapFrames analysis)[line.offset]? = some f) : f = g := by
  obtain ⟨hlabel, hframe⟩ := h.frame?_of_mapFrames hp hline hreachable hf
  exact Option.some.inj (hframe.symm.trans (hcovers.recorded hlabel))

/-- Where a jump leads to, the stack map has the frame recorded there. -/
theorem mapFrames_of_target (h : body.LaidOut) (hp : p.Concludes body thisClass initial analysis)
    {j : Nat} {source : Line} (hsource : body.lines[j]? = some source) {label : Nat}
    (hlabel : label ∈ source.targets)
    (hline : body.lines[(body.labels.get label).instruction]? = some line)
    (hf : p.frame? (body.labels.get label).instruction = some f) :
    (body.mapFrames analysis)[line.offset]? = some f := by
  have hoffset : body.labelOffset? label = some line.offset := by
    rw [labelOffset?, hline]
    rfl
  have hframe : analysis.frame? label = some f := by
    rw [hp.frame? (h.target_lt hsource hlabel)]
    exact hf
  have hmem : source ∈ body.lines.toList :=
    List.mem_of_getElem? (Array.getElem?_toList.trans hsource)
  obtain ⟨g, hg⟩ := StackMap.exists_getElem?_byOffset
    (mem_mapTargets_iff.mpr (.inl ⟨source, hmem, label, hlabel, hoffset, hframe⟩))
  have hrecorded := (h.frame?_of_mapFrames hp hline (hp.reachable_of_frame? hf) hg).2
  rw [hf] at hrecorded
  cases hrecorded
  exact hg

/-- Where control gets only by a jump, the stack map has a frame. -/
theorem mapFrames_of_reachable (h : body.LaidOut) (hp : p.Concludes body thisClass initial analysis)
    (hpos : 0 < i) (hreachable : body.Reachable i)
    (hfalls : ∀ j previous, j + 1 = i → body.lines[j]? = some previous → body.Reachable j →
      previous.instruction.fallsThrough = false) (hline : body.lines[i]? = some line) :
    ∃ f, (body.mapFrames analysis)[line.offset]? = some f := by
  rcases hreachable.cases_tail with heq | ⟨j, hj, source, hsource, ⟨hfalls', rfl⟩ | ⟨label, hlabel, rfl⟩⟩
  · omega
  · rw [hfalls j source rfl hsource hj] at hfalls'
    cases hfalls'
  · have hsome := (hp.isSome_frame?_iff (h.target_lt hsource hlabel)).mpr hreachable
    rw [hp.frame? (h.target_lt hsource hlabel)] at hsome
    obtain ⟨f, hf⟩ := Option.isSome_iff_exists.mp hsome
    exact ⟨f, h.mapFrames_of_target hp hsource hlabel hline hf⟩

theorem mapFrames_of_unreachable (h : body.LaidOut)
    (hp : p.Concludes body thisClass initial analysis) (hline : body.lines[i]? = some line)
    (hunreachable : ¬ body.Reachable i) (hstarts : body.StartsBlock i) :
    (body.mapFrames analysis)[line.offset]? = some throwing := by
  obtain ⟨block, hblock, hfirst⟩ := exists_block_iff.mpr ⟨i, hline, hstarts⟩
  have hnone : analysis.frame? line.block = none := by
    rw [← Option.not_isSome_iff_eq_none, h.isSome_frame?_block_iff hp hline]
    exact hunreachable
  have hrange := mem_unreachedRanges_iff.mpr ⟨block, hblock, line, hfirst, hnone, rfl⟩
  obtain ⟨g, hg⟩ := StackMap.exists_getElem?_byOffset (mem_mapTargets_iff.mpr (.inr ⟨hrange, rfl⟩))
  have hg : (body.mapFrames analysis)[line.offset]? = some g := hg
  obtain ⟨j, other, hother, hoffset, ⟨_, hframe⟩ | ⟨_, _, rfl⟩⟩ := h.mapFrames_cases hp hg
  · obtain rfl := h.eq_of_offset_eq hother hline hoffset
    exact absurd (hp.reachable_of_frame? hframe) hunreachable
  · exact hg

/-- Replaced code has a frame at most where its block starts. -/
theorem mapFrames_eq_none (h : body.LaidOut) (hp : p.Concludes body thisClass initial analysis)
    (hline : body.lines[i]? = some line) (hunreachable : ¬ body.Reachable i) {offset : Nat}
    (hwithin : line.offset ≤ offset ∧ offset < line.stop)
    (hinside : offset = line.offset → ¬ body.StartsBlock i) :
    (body.mapFrames analysis)[offset]? = none := by
  rw [← Option.not_isSome_iff_eq_none, Option.isSome_iff_exists]
  rintro ⟨f, hf⟩
  obtain ⟨j, other, hother, rfl, hcases⟩ := h.mapFrames_cases hp hf
  have hij : j = i := by
    rcases Nat.lt_trichotomy j i with hlt | hij | hlt
    · have hle := h.stop_le_offset hother hline hlt
      have hpos : 0 < other.size := Instruction.sizeAt_pos _ _
      rw [Line.stop] at hle
      omega
    · exact hij
    · have hle := h.stop_le_offset hline hother hlt
      omega
  subst hij
  rw [hline, Option.some.injEq] at hother
  subst hother
  rcases hcases with ⟨_, hframe⟩ | ⟨_, hstarts, _⟩
  · exact hunreachable (hp.reachable_of_frame? hframe)
  · exact hinside rfl hstarts

end LaidOut

/-- An instruction that can be reached allocates an object of a class. -/
def AllocatedAt (body : Body) (owner : BinaryName) (site : Nat) : Prop :=
  body.Reachable site ∧ ∃ line, body.lines[site]? = some line ∧ line.Allocates owner

/-- What the stack map can list: second slots are unusable, and uninitialized objects come from
allocations that can be reached. -/
def Lists (body : Body) (f : Frame) : Prop := f.Paired ∧ f.SitesIn body.AllocatedAt

theorem LaidOut.frameInvariant_lists (h : body.LaidOut) (thisClass : BinaryName) :
    Progress.FrameInvariant body thisClass fun i f => body.Reachable i ∧ body.Lists f where
  step := by
    rintro i j line f f' hline ⟨hreachable, hpaired, hsites⟩ happly hflows
    refine ⟨hreachable.tail hflows, hpaired.apply happly, hsites.apply ?_ happly⟩
    intro owner hallocates
    rw [h.id_eq hline]
    exact ⟨hreachable, line, hline, hallocates⟩
  join := by
    rintro i f g ⟨hreachable, hpaired, hsites⟩ _ _
    exact ⟨hreachable, hpaired.join, hsites.join⟩

theorem lists_empty (body : Body) : body.Lists .empty := by
  refine ⟨?_, ?_, ?_⟩
  · intro i v hv
    cases hv
  · intro i v hv
    cases hv
  · intro v hv
    cases hv

theorem lists_throwing (body : Body) : body.Lists throwing :=
  ⟨body.lists_empty.1.of_locals_eq rfl, body.lists_empty.2.push trivial⟩

theorem LaidOut.lists_of_mapFrames (h : body.LaidOut) {thisClass : BinaryName} {initial : Frame}
    {analysis : Analysis} {p : Progress} (hp : p.Concludes body thisClass initial analysis)
    (hinitial : body.Lists initial) {offset : Nat} {f : Frame}
    (hf : (body.mapFrames analysis)[offset]? = some f) : body.Lists f := by
  obtain ⟨i, _, _, _, ⟨_, hframe⟩ | ⟨_, _, rfl⟩⟩ := h.mapFrames_cases hp hf
  · exact (hp.meets (h.frameInvariant_lists thisClass) ⟨.refl, hinitial⟩ i f hframe).2
  · exact body.lists_throwing

theorem Lists.setLocal {f : Frame} (h : body.Lists f) (index : UInt16) {value : Value}
    (hvalue : value.type.SitesIn body.AllocatedAt) : body.Lists (f.setLocal index value) :=
  ⟨h.1.setLocal index value, h.2.setLocal index hvalue⟩

theorem Lists.setParameters {f : Frame} (h : body.Lists f) (index : Nat) (types : List FieldType) :
    body.Lists (f.setParameters index types) := by
  induction types generalizing f index with
  | nil => exact h
  | cons type rest ih =>
      refine ih (h.setLocal _ ?_) _
      cases type <;> trivial

theorem lists_onEntry (body : Body) (owner : BinaryName) (isStatic : Bool) (s : Signature) :
    body.Lists (Frame.onEntry owner isStatic s) := by
  unfold Frame.onEntry
  split
  · exact body.lists_empty.setParameters _ _
  · refine (body.lists_empty.setLocal _ ?_).setParameters _ _
    unfold Frame.receiver
    split <;> trivial

end Body

end JvmAssembler
