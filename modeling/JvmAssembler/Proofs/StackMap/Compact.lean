import JvmAssembler.Proofs.StackMap.Decode
import JvmAssembler.Proofs.StackMap.ReadBack
import JvmAssembler.Proofs.StackMap.Targets

/-! The table for frames at given offsets reads back as one frame for each offset, in ascending
order, and no entry of it can be written in fewer bytes. -/

namespace JvmAssembler

/-- Number of bytes in a stack map. -/
def VerificationType.size {κ σ : Type} : VerificationType κ σ → Nat
  | object _ | uninitialized _ => 3
  | _ => 1

namespace ResolvedType

theorem length_bytes (type : ResolvedType) : (bytes type).length = type.size := by
  cases type with
  | numeric kind => cases kind <;> rfl
  | object index | uninitialized offset => simp [bytes, VerificationType.size]
  | _ => rfl

theorem length_flatMap_bytes (types : List ResolvedType) :
    (types.flatMap bytes).length = total VerificationType.size types := by
  induction types with
  | nil => rfl
  | cons type types ih =>
      rw [List.flatMap_cons, List.length_append, length_bytes, ih, total_cons]

theorem length_counted_bytes (types : List ResolvedType) :
    (Bytes.counted (types.map bytes)).length = 2 + total VerificationType.size types := by
  rw [Bytes.counted, List.length_append, Bytes.length_ofUInt16, ← List.flatMap_def,
    length_flatMap_bytes]

end ResolvedType

namespace MapEntry

section Size

variable {κ σ : Type}

/-- Number of bytes of a tag that can tell a distance below 64. -/
def tagSize (delta : UInt16) : Nat := if delta ≤ 63 then 1 else 3

/-- Number of bytes in a stack map. -/
def size : MapEntry (VerificationType κ σ) → Nat
  | same delta => tagSize delta
  | oneStack delta type => tagSize delta + type.size
  | chop _ _ => 3
  | append _ locals => 3 + total VerificationType.size locals
  | full _ locals stack =>
    7 + total VerificationType.size locals + total VerificationType.size stack

theorem tagSize_le (delta : UInt16) : tagSize delta ≤ 3 := by
  unfold tagSize
  split <;> decide

end Size

theorem length_of_encode {entry : MapEntry ResolvedType} {bytes : List UInt8}
    (h : entry.encode = .ok bytes) : bytes.length = entry.size := by
  cases entry with
  | same delta =>
      cases h
      rw [size, tagSize]
      split <;> simp
  | oneStack delta type =>
      cases h
      rw [List.length_append, ResolvedType.length_bytes, size, tagSize]
      split <;> simp
  | chop delta count =>
      rw [encode] at h
      split at h
      · cases h
        simp [size]
      · cases h
  | append delta locals =>
      simp only [encode] at h
      split at h
      · cases h
        rw [List.length_append, ResolvedType.length_flatMap_bytes, List.length_cons,
          Bytes.length_ofUInt16, size]
      · cases h
  | full delta locals stack =>
      cases h
      rw [List.length_append, List.length_append, ResolvedType.length_counted_bytes,
        ResolvedType.length_counted_bytes, List.length_cons, Bytes.length_ofUInt16, size]
      omega

theorem hasTag_of_encode {entry : MapEntry ResolvedType} {bytes : List UInt8}
    (h : entry.encode = .ok bytes) : entry.HasTag := by
  cases entry with
  | chop delta count =>
      rw [encode] at h
      split at h
      · assumption
      · cases h
  | append delta locals =>
      simp only [encode] at h
      split at h
      · assumption
      · cases h
  | _ => trivial

section Between

variable {κ σ : Type} [DecidableEq κ] [DecidableEq σ] (delta : UInt16)
  (previous locals stack : List (VerificationType κ σ))

theorem between_same : between delta previous previous [] = same delta := by
  rw [between, if_pos ⟨List.isPrefixOf_iff_prefix.mpr List.prefix_rfl, by omega⟩, if_pos rfl]

theorem between_oneStack (type : VerificationType κ σ) :
    between delta previous previous [type] = oneStack delta type := if_pos rfl

/-- Locals that are cut off can be told by their number, or there were none. -/
theorem size_between_take_le {count : Nat} (hcount : count ≤ 3) :
    (between delta previous (previous.take (previous.length - count)) []).size ≤ 3 := by
  have hlength : (previous.take (previous.length - count)).length = previous.length - count := by
    rw [List.length_take]
    omega
  rw [between, if_pos ⟨List.isPrefixOf_iff_prefix.mpr (List.take_prefix _ _), by omega⟩]
  split
  · exact tagSize_le delta
  · exact Nat.le_refl 3

theorem between_append {more : List (VerificationType κ σ)} (hpos : 1 ≤ more.length)
    (hle : more.length ≤ 3) :
    between delta previous (previous ++ more) [] = append delta more := by
  have hlength : (previous ++ more).length = previous.length + more.length := List.length_append
  have hnot : ¬ (previous ++ more).isPrefixOf previous = true := by
    intro hbegins
    have hshorter := (List.isPrefixOf_iff_prefix.mp hbegins).length_le
    omega
  rw [between, if_neg (fun h => hnot h.1),
    if_pos ⟨List.isPrefixOf_iff_prefix.mpr (List.prefix_append _ _), by omega⟩, List.drop_left]

theorem total_drop_le {α : Type} (f : α → Nat) (values : List α) (count : Nat) :
    total f (values.drop count) ≤ total f values := by
  have htotal := congrArg (total f) (values.take_append_drop count)
  rw [total_append] at htotal
  omega

/-- Listing all types takes no fewer bytes. -/
theorem size_between_le_full :
    (between delta previous locals stack).size ≤ (full delta locals stack).size := by
  have htag := tagSize_le delta
  have hdrop := total_drop_le VerificationType.size locals previous.length
  unfold between
  split
  · split
    · split <;> simp only [size] <;> omega
    · split <;> simp only [size] <;> omega
  · split <;> simp only [size, total_cons, total_nil] <;> omega
  · exact Nat.le_refl _

variable {delta previous locals stack}

/-- No entry for the same distance, locals and stack is shorter. -/
theorem size_between_le {other : MapEntry (VerificationType κ σ)} (hdelta : other.delta = delta)
    (hlocals : other.localsAfter previous = locals) (hstack : other.stack = stack)
    (htag : other.HasTag) : (between delta previous locals stack).size ≤ other.size := by
  subst hdelta hlocals hstack
  cases other with
  | same delta => exact (congrArg size (between_same delta previous)).le
  | oneStack delta type => exact (congrArg size (between_oneStack delta previous type)).le
  | chop delta count => exact size_between_take_le delta previous htag.2
  | append delta more => exact (congrArg size (between_append delta previous htag.1 htag.2)).le
  | full delta locals stack => exact size_between_le_full delta previous locals stack

end Between

/-- The entry that is written, from the indices of classes in the pool and the offsets of
allocations in code. -/
def resolved (classIndex : RefType → UInt16) (siteOffset : Nat → UInt16)
    (entry : MapEntry SymbolicType) : MapEntry ResolvedType :=
  traverse (m := Id) (VerificationType.traverse (m := Id) classIndex siteOffset) entry

section Resolved

variable (classIndex : RefType → UInt16) (siteOffset : Nat → UInt16)

theorem size_traverse (type : SymbolicType) :
    (VerificationType.traverse (m := Id) classIndex siteOffset type).size = type.size := by
  cases type <;> rfl

theorem total_size_mapM (types : List SymbolicType) :
    total VerificationType.size
        (types.mapM (m := Id) (VerificationType.traverse (m := Id) classIndex siteOffset)) =
      total VerificationType.size types := by
  have hmap : types.mapM (m := Id) (VerificationType.traverse (m := Id) classIndex siteOffset) =
      types.map (VerificationType.traverse (m := Id) classIndex siteOffset) := List.idRun_mapM
  rw [hmap]
  clear hmap
  induction types with
  | nil => rfl
  | cons type types ih => rw [List.map_cons, total_cons, total_cons, size_traverse, ih]

theorem size_resolved (entry : MapEntry SymbolicType) :
    (entry.resolved classIndex siteOffset).size = entry.size := by
  cases entry with
  | same delta | chop delta count => rfl
  | oneStack delta type =>
      exact congrArg (tagSize delta + ·) (size_traverse classIndex siteOffset type)
  | append delta locals => exact congrArg (3 + ·) (total_size_mapM classIndex siteOffset locals)
  | full delta locals stack =>
      exact congrArg₂ (7 + · + ·) (total_size_mapM classIndex siteOffset locals)
        (total_size_mapM classIndex siteOffset stack)

theorem hasTag_resolved (entry : MapEntry SymbolicType) :
    (entry.resolved classIndex siteOffset).HasTag ↔ entry.HasTag := by
  cases entry with
  | append delta locals =>
      have hlength : (locals.mapM (m := Id)
          (VerificationType.traverse (m := Id) classIndex siteOffset)).length = locals.length :=
        (congrArg List.length List.idRun_mapM).trans (List.length_map _)
      show 1 ≤ List.length _ ∧ List.length _ ≤ 3 ↔ _
      rw [hlength]
      rfl
  | _ => exact Iff.rfl

end Resolved

/-- An entry can be written, and no entry that stands for the same offset, locals and stack is
written in fewer bytes. -/
def Shortest (previous : Option Nat) (locals : List SymbolicType) (entry : MapEntry SymbolicType) :
    Prop :=
  ∀ (classIndex : RefType → UInt16) (siteOffset : Nat → UInt16),
    ∃ bytes, (entry.resolved classIndex siteOffset).encode = .ok bytes ∧
      bytes.length = entry.size ∧
      ∀ (other : MapEntry SymbolicType) (others : List UInt8),
        other.offsetAfter previous = entry.offsetAfter previous →
        other.localsAfter locals = entry.localsAfter locals → other.stack = entry.stack →
        (other.resolved classIndex siteOffset).encode = .ok others → bytes.length ≤ others.length

theorem delta_eq_of_offsetAfter_eq {τ : Type} {previous : Option Nat} {entry other : MapEntry τ}
    (h : other.offsetAfter previous = entry.offsetAfter previous) : other.delta = entry.delta := by
  apply UInt16.toNat_inj.mp
  cases previous with
  | none => exact h
  | some before =>
      simp only [offsetAfter] at h
      omega

theorem shortest_between (previous : Option Nat) (delta : UInt16)
    (before locals stack : List SymbolicType) :
    (between delta before locals stack).Shortest previous before := by
  intro classIndex siteOffset
  have hentry := (hasTag_resolved classIndex siteOffset _).mpr
    (hasTag_between delta before locals stack)
  obtain ⟨bytes, hbytes⟩ := exists_encode hentry
  have hlength := (length_of_encode hbytes).trans (size_resolved classIndex siteOffset _)
  refine ⟨bytes, hbytes, hlength, fun other others hoffset hlocals hstack hothers => ?_⟩
  have hdelta := delta_eq_of_offsetAfter_eq hoffset
  rw [delta_between] at hdelta
  rw [localsAfter_between] at hlocals
  rw [stack_between] at hstack
  have htag := (hasTag_resolved classIndex siteOffset other).mp (hasTag_of_encode hothers)
  calc bytes.length = (between delta before locals stack).size := hlength
    _ ≤ other.size := size_between_le hdelta hlocals hstack htag
    _ = (other.resolved classIndex siteOffset).size :=
        (size_resolved classIndex siteOffset other).symm
    _ = others.length := (length_of_encode hothers).symm

end MapEntry

namespace StackMap

/-- Each entry is the shortest one after those before it. -/
def EachShortest (previous : Option Nat) (locals : List SymbolicType) :
    List (MapEntry SymbolicType) → Prop
  | [] => True
  | entry :: rest =>
    entry.Shortest previous locals ∧
      EachShortest (some (entry.offsetAfter previous)) (entry.localsAfter locals) rest

-- Of the entry before only the locals matter here: entries for one offset have one distance from it.
theorem eachShortest_entries (start previous : Option Nat) (locals : List SymbolicType)
    (targets : List (Nat × Frame)) :
    EachShortest start locals ((entries previous locals targets).map Prod.snd) := by
  induction targets generalizing start previous locals with
  | nil => trivial
  | cons target targets ih =>
      obtain ⟨offset, f⟩ := target
      have hlocals : (entryAfter previous locals offset f).localsAfter locals =
          localTypes f.locals.toList := MapEntry.localsAfter_between _ _ _ _
      refine ⟨MapEntry.shortest_between start _ locals _ _, ?_⟩
      rw [hlocals]
      exact ih _ _ _

theorem map_fst_entries (previous : Option Nat) (locals : List SymbolicType)
    (targets : List (Nat × Frame)) :
    (entries previous locals targets).map Prod.fst = targets.map Prod.fst := by
  induction targets generalizing previous locals with
  | nil => rfl
  | cons target targets ih => exact congrArg (target.1 :: ·) (ih _ _)

variable {targets : List (Nat × Frame)} {offset : Nat} {f : Frame}

theorem mem_toList_byOffset_iff :
    (offset, f) ∈ (byOffset targets).toList ↔
      targets.find? (·.1 == offset) = some (offset, f) := by
  rw [Std.TreeMap.mem_toList_iff_getElem?_eq_some, getElem?_byOffset, Option.map_eq_some_iff]
  constructor
  · rintro ⟨⟨found, g⟩, hfind, rfl⟩
    have hbeq := List.find?_some hfind
    have hfound : found = offset := eq_of_beq hbeq
    rwa [hfound] at hfind
  · intro hfind
    exact ⟨(offset, f), hfind, rfl⟩

theorem exists_mem_toList_byOffset_iff :
    (∃ f, (offset, f) ∈ (byOffset targets).toList) ↔ ∃ f, (offset, f) ∈ targets := by
  constructor
  · rintro ⟨f, hf⟩
    exact ⟨f, List.mem_of_find?_eq_some (mem_toList_byOffset_iff.mp hf)⟩
  · rintro ⟨f, hf⟩
    obtain ⟨g, hg⟩ := exists_getElem?_byOffset hf
    exact ⟨g, Std.TreeMap.mem_toList_iff_getElem?_eq_some.mpr hg⟩

section Runs

variable {α : Type}

/-- Of neighbours at one offset the first is kept. -/
abbrev keepFirst (items : List (Nat × α)) : List (Nat × α) :=
  items.eraseRepsBy fun a b => a.1 == b.1

theorem loop_eq_append (a : Nat × α) (items kept : List (Nat × α)) :
    List.eraseRepsBy.loop (fun a b => a.1 == b.1) a items kept =
      kept.reverse ++ keepFirst (a :: items) := by
  induction items generalizing a kept with
  | nil => simp [keepFirst, List.eraseRepsBy, List.eraseRepsBy.loop]
  | cons b items ih =>
      rw [keepFirst, List.eraseRepsBy, List.eraseRepsBy.loop, List.eraseRepsBy.loop]
      cases a.1 == b.1 with
      | true => exact ih a kept
      | false =>
          simp only [ih b]
          simp

theorem keepFirst_cons_cons (a b : Nat × α) (items : List (Nat × α)) :
    keepFirst (a :: b :: items) =
      if a.1 = b.1 then keepFirst (a :: items) else a :: keepFirst (b :: items) := by
  rw [keepFirst, List.eraseRepsBy, List.eraseRepsBy.loop]
  by_cases h : a.1 = b.1
  · rw [if_pos h, beq_iff_eq.mpr h]
    rfl
  · rw [if_neg h, beq_eq_false_iff_ne.mpr h]
    exact loop_eq_append b items [a]

theorem head_le_of_mem {a : Nat × α} {items : List (Nat × α)}
    (h : (a :: items).Pairwise fun a b => a.1 ≤ b.1) {b : Nat × α} (hb : b ∈ a :: items) :
    a.1 ≤ b.1 := by
  rcases List.mem_cons.mp hb with rfl | hb
  · exact Nat.le_refl _
  · exact List.rel_of_pairwise_cons h hb

/-- Where offsets ascend, what is kept at an offset is what a search for it finds. -/
theorem mem_keepFirst_iff {items : List (Nat × α)} (h : items.Pairwise fun a b => a.1 ≤ b.1)
    {item : Nat × α} :
    item ∈ keepFirst items ↔ items.find? (·.1 == item.1) = some item := by
  cases items with
  | nil => exact iff_of_false List.not_mem_nil (Option.some_ne_none item).symm
  | cons a items =>
      induction items generalizing a with
      | nil =>
          rw [List.find?_singleton]
          show item ∈ [a] ↔ _
          rw [List.mem_singleton]
          by_cases hoffset : a.1 = item.1
          · simp [hoffset, eq_comm]
          · simp only [hoffset, beq_iff_eq, if_false, reduceCtorEq, iff_false]
            rintro rfl
            exact hoffset rfl
      | cons b items ih =>
          obtain ⟨ha, hrest⟩ := List.pairwise_cons.mp h
          rw [keepFirst_cons_cons, List.find?_cons]
          split
          · rename_i hab
            rw [ih a (h.sublist (.cons_cons a (List.sublist_cons_self b items))), List.find?_cons,
              List.find?_cons, hab]
            cases b.1 == item.1 <;> rfl
          · rename_i hab
            rw [List.mem_cons, ih b hrest]
            by_cases hoffset : a.1 = item.1
            · have hnone : (b :: items).find? (·.1 == item.1) ≠ some item := by
                intro hfind
                have hle := head_le_of_mem hrest (List.mem_of_find?_eq_some hfind)
                have hba := ha b List.mem_cons_self
                omega
              rw [beq_iff_eq.mpr hoffset, or_iff_left hnone]
              simp [eq_comm]
            · rw [beq_eq_false_iff_ne.mpr hoffset]
              refine or_iff_right ?_
              rintro rfl
              exact hoffset rfl

theorem pairwise_keepFirst {items : List (Nat × α)} (h : items.Pairwise fun a b => a.1 ≤ b.1) :
    (keepFirst items).Pairwise fun a b => a.1 < b.1 := by
  cases items with
  | nil => exact .nil
  | cons a items =>
      induction items generalizing a with
      | nil => exact List.pairwise_singleton _ a
      | cons b items ih =>
          obtain ⟨ha, hrest⟩ := List.pairwise_cons.mp h
          rw [keepFirst_cons_cons]
          split
          · exact ih a (h.sublist (.cons_cons a (List.sublist_cons_self b items)))
          · refine List.pairwise_cons.mpr ⟨fun c hc => ?_, ih b hrest⟩
            have hba := ha b List.mem_cons_self
            have hle := head_le_of_mem hrest
              (List.mem_of_find?_eq_some ((mem_keepFirst_iff hrest).mp hc))
            omega

theorem offset_trans (a b c : Nat × α) (hab : decide (a.1 ≤ b.1) = true)
    (hbc : decide (b.1 ≤ c.1) = true) : decide (a.1 ≤ c.1) = true :=
  decide_eq_true (Nat.le_trans (of_decide_eq_true hab) (of_decide_eq_true hbc))

theorem offset_total (a b : Nat × α) : (decide (a.1 ≤ b.1) || decide (b.1 ≤ a.1)) = true := by
  rw [Bool.or_eq_true, decide_eq_true_iff, decide_eq_true_iff]
  exact Nat.le_total a.1 b.1

/-- A stable sort by offset does not change what a search for an offset finds. -/
theorem find?_mergeSort (items : List (Nat × α)) (offset : Nat) :
    (items.mergeSort fun a b => a.1 ≤ b.1).find? (·.1 == offset) =
      items.find? (·.1 == offset) := by
  have hsorted : (items.filter (·.1 == offset)).Pairwise fun a b => decide (a.1 ≤ b.1) = true := by
    refine List.pairwise_filter.mpr (List.pairwise_of_forall fun a b ha hb => ?_)
    rw [eq_of_beq ha, eq_of_beq hb]
    exact decide_eq_true (Nat.le_refl _)
  have hsublist := (List.sublist_mergeSort offset_trans offset_total hsorted
    List.filter_sublist).filter (·.1 == offset)
  have hlength := ((List.mergeSort_perm items fun a b => a.1 ≤ b.1).filter (·.1 == offset)).length_eq
  rw [List.filter_filter] at hsublist
  simp only [Bool.and_self] at hsublist
  rw [← List.head?_filter, ← List.head?_filter, hsublist.eq_of_length hlength.symm]

end Runs

/-- Frames by their offsets are what a stable sort by offset gives, where of neighbours at one offset
the first is kept. -/
theorem toList_byOffset (targets : List (Nat × Frame)) :
    (byOffset targets).toList = keepFirst (targets.mergeSort fun a b => a.1 ≤ b.1) := by
  have hsorted : (targets.mergeSort fun a b => a.1 ≤ b.1).Pairwise fun a b => a.1 ≤ b.1 :=
    (List.pairwise_mergeSort offset_trans offset_total targets).imp fun h => of_decide_eq_true h
  have hleft := pairwise_toList (byOffset targets)
  have hright := pairwise_keepFirst hsorted
  refine List.Perm.eq_of_pairwise (fun a b _ _ hab hba => absurd hab (Nat.lt_asymm hba)) hleft hright
    ((List.perm_ext_iff_of_nodup (hleft.imp ?_) (hright.imp ?_)).mpr ?_)
  · rintro a b hlt rfl
    exact Nat.lt_irrefl _ hlt
  · rintro a b hlt rfl
    exact Nat.lt_irrefl _ hlt
  · rintro ⟨offset, f⟩
    rw [mem_toList_byOffset_iff, mem_keepFirst_iff hsorted, find?_mergeSort]

theorem lt_of_mem_toList_byOffset (h : ∀ target ∈ targets, target.1 ≤ 65535) :
    ∀ target ∈ (byOffset targets).toList, target.1 < 65536 := by
  intro target htarget
  have hmem := List.mem_of_find?_eq_some (mem_toList_byOffset_iff.mp htarget)
  exact Nat.lt_succ_of_le (h target hmem)

/-- The offsets, locals and stacks that a table stands for in a method with a frame on entry. -/
def contents (initial : Frame) (table : List (Nat × MapEntry SymbolicType)) :
    List (Nat × List SymbolicType × List SymbolicType) :=
  expand none (localTypes initial.locals.toList) (table.map Prod.snd)

theorem contents_build (initial : Frame) (h : ∀ target ∈ targets, target.1 ≤ 65535) :
    contents initial (build initial targets) = (byOffset targets).toList.map listed := by
  refine expand_entries (pairwise_toList _) (lt_of_mem_toList_byOffset h) fun before hbefore => ?_
  cases hbefore

/-- A table stands for the frames at given offsets, with the shortest entry for each. -/
structure Describes (initial : Frame) (targets : List (Nat × Frame))
    (table : List (Nat × MapEntry SymbolicType)) : Prop where
  ascending : ((contents initial table).map Prod.fst).Pairwise (· < ·)
  offsets : table.map Prod.fst = (contents initial table).map Prod.fst
  mem_offsets_iff : ∀ offset, offset ∈ (contents initial table).map Prod.fst ↔
    ∃ f, (offset, f) ∈ targets
  /-- Of several frames at one offset the first counts. -/
  mem_contents_iff : ∀ offset locals stack, (offset, locals, stack) ∈ contents initial table ↔
    ∃ f, targets.find? (·.1 == offset) = some (offset, f) ∧
      locals = localTypes f.locals.toList ∧ stack = stackTypes f
  shortest : EachShortest none (localTypes initial.locals.toList) (table.map Prod.snd)

/-- The table for frames at given offsets lists each offset once, in ascending order, with the types
of the first frame given for it, and none of its entries can be written in fewer bytes. -/
theorem build_describes (initial : Frame) (h : ∀ target ∈ targets, target.1 ≤ 65535) :
    Describes initial targets (build initial targets) := by
  have hfst : (contents initial (build initial targets)).map Prod.fst =
      (byOffset targets).toList.map Prod.fst :=
    (congrArg _ (contents_build initial h)).trans List.map_map
  refine ⟨?_, ?_, fun offset => ?_, fun offset locals stack => ?_, ?_⟩
  · rw [hfst]
    exact List.pairwise_map.mpr (pairwise_toList _)
  · rw [hfst]
    exact map_fst_entries none _ _
  · rw [hfst, ← exists_mem_toList_byOffset_iff, List.mem_map]
    constructor
    · rintro ⟨⟨found, f⟩, hf, rfl⟩
      exact ⟨f, hf⟩
    · rintro ⟨f, hf⟩
      exact ⟨(offset, f), hf, rfl⟩
  · rw [contents_build initial h, List.mem_map]
    constructor
    · rintro ⟨⟨found, f⟩, hf, hlisted⟩
      cases hlisted
      exact ⟨f, mem_toList_byOffset_iff.mp hf, rfl, rfl⟩
    · rintro ⟨f, hfind, rfl, rfl⟩
      exact ⟨(offset, f), mem_toList_byOffset_iff.mpr hfind, rfl⟩
  · exact eachShortest_entries none none _ _

/-- Targets out of order, two of them at one offset, with the largest offset that can be written. -/
def crossing : List (Nat × Frame) :=
  [(65535, ⟨#[⟨.numeric .long, none⟩, Value.unusable, ⟨.null, none⟩],
      .ofList [⟨.anyObject, none⟩]⟩),
    (64, ⟨#[⟨.numeric .long, none⟩, Value.unusable], .ofList []⟩),
    (65535, .empty), (0, ⟨#[⟨.numeric .int, none⟩], .ofList []⟩)]

theorem build_describes_crossing :
    (∀ target ∈ crossing, target.1 ≤ 65535) ∧
      Describes .empty crossing (build .empty crossing) := by
  have hle : ∀ target ∈ crossing, target.1 ≤ 65535 := by
    simp [crossing]
  exact ⟨hle, build_describes .empty hle⟩

end StackMap

end JvmAssembler
