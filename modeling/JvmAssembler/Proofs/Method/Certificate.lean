import JvmAssembler.Proofs.Method.Code
import JvmAssembler.Proofs.StackMap.Check
import JvmAssembler.Proofs.StackMap.Decode

/-! The stack map of a compiled method is decoded, and the code is checked against it in one pass.
The pass accepts every method that compiles. -/

namespace JvmAssembler

namespace Line

/-- The class of the object that an instruction allocates. -/
def allocated? (line : Line) : Option BinaryName :=
  match line.instruction with
  | .operation (.classUse .new (.classRef (.object owner))) => some owner
  | _ => none

theorem Allocates.allocated? {line : Line} {owner : BinaryName} (h : line.Allocates owner) :
    line.allocated? = some owner := by
  rw [Line.allocated?, h]

theorem allocated?_of_mem_nops {line other : Line} {offset n : Nat}
    (h : other ∈ line.nops offset n) : other.allocated? = none := by
  induction n generalizing offset with
  | zero => cases h
  | succ n ih =>
      rcases List.mem_cons.mp h with rfl | h
      · rfl
      · exact ih h

theorem allocated?_of_mem_replaced {line other : Line} {ends : Bool}
    (h : other ∈ line.replaced ends) : other.allocated? = none := by
  unfold replaced at h
  split at h
  · rcases List.mem_append.mp h with h | h
    · exact allocated?_of_mem_nops h
    · rw [List.mem_singleton.mp h]
      rfl
  · exact allocated?_of_mem_nops h

/-- Replaced code starts where the instruction was. -/
theorem exists_mem_replaced (line : Line) (ends : Bool) :
    ∃ found ∈ line.replaced ends, found.offset = line.offset := by
  have hpos : 0 < line.size := Instruction.sizeAt_pos _ _
  obtain ⟨n, hsize⟩ := Nat.exists_eq_add_one_of_ne_zero hpos.ne'
  rw [replaced, hsize, Nat.add_sub_cancel]
  cases ends with
  | false => exact ⟨_, List.mem_cons_self, rfl⟩
  | true =>
      cases n with
      | zero => exact ⟨_, List.mem_cons_self, rfl⟩
      | succ n => exact ⟨_, List.mem_cons_self, rfl⟩

end Line

namespace Body

variable {reached : Nat → Bool} {lines : List Line} {line : Line}

theorem mem_emittedLines (hline : line ∈ lines) (hreached : reached line.block = true) :
    line ∈ emittedLines reached lines := by
  induction lines with
  | nil => cases hline
  | cons first rest ih =>
      rw [emittedLines]
      rcases List.mem_cons.mp hline with rfl | hline
      · rw [if_pos hreached]
        exact List.mem_append_left _ List.mem_cons_self
      · exact List.mem_append_right _ (ih hline)

/-- Replaced code does not allocate anything. -/
theorem mem_of_mem_emittedLines (hline : line ∈ emittedLines reached lines)
    (hallocated : line.allocated?.isSome) : line ∈ lines := by
  induction lines with
  | nil => cases hline
  | cons first rest ih =>
      rw [emittedLines] at hline
      rcases List.mem_append.mp hline with hline | hline
      · split at hline
        · rw [List.mem_singleton.mp hline]
          exact List.mem_cons_self
        · rw [Line.allocated?_of_mem_replaced hline] at hallocated
          cases hallocated
      · exact List.mem_cons_of_mem _ (ih hline)

theorem exists_mem_emittedLines (reached : Nat → Bool) (hline : line ∈ lines) :
    ∃ found ∈ emittedLines reached lines, found.offset = line.offset := by
  induction lines with
  | nil => cases hline
  | cons first rest ih =>
      rw [emittedLines]
      rcases List.mem_cons.mp hline with rfl | hline
      · by_cases hreached : reached line.block = true
        · rw [if_pos hreached]
          exact ⟨line, List.mem_append_left _ List.mem_cons_self, rfl⟩
        · rw [if_neg hreached]
          obtain ⟨found, hfound, hoffset⟩ := line.exists_mem_replaced (endsBlock line rest)
          exact ⟨found, List.mem_append_left _ hfound, hoffset⟩
      · obtain ⟨found, hfound, hoffset⟩ := ih hline
        exact ⟨found, List.mem_append_right _ hfound, hoffset⟩

end Body

namespace StackMap

/-- The first instruction with a property that allocates an object. -/
def allocation? (p : Line → Bool) (lines : List Line) : Option Line :=
  lines.find? fun line => p line && line.allocated?.isSome

/-- The number of the instruction that allocates an object at an offset. -/
def site? (lines : List Line) (offset : UInt16) : Option Nat :=
  (allocation? (fun line => line.offset == offset.toNat) lines).map Line.id

/-- The class of the object that an instruction with a number allocates. -/
def owner? (lines : List Line) (site : Nat) : Option BinaryName :=
  (allocation? (fun line => line.id == site) lines).bind Line.allocated?

theorem allocation?_eq_some {p : Line → Bool} {lines : List Line} {line : Line} {owner : BinaryName}
    (hline : line ∈ lines) (hp : p line = true) (hallocates : line.Allocates owner)
    (hunique : ∀ other ∈ lines, p other = true → other.allocated?.isSome → other = line) :
    allocation? p lines = some line := by
  have hholds : (p line && line.allocated?.isSome) = true := by
    rw [hp, hallocates.allocated?]
    rfl
  cases hfind : allocation? p lines with
  | none => exact absurd hholds (List.find?_eq_none.mp hfind line hline)
  | some found =>
      have hfound := List.find?_some hfind
      rw [Bool.and_eq_true] at hfound
      rw [hunique found (List.mem_of_find?_eq_some hfind) hfound.1 hfound.2]

/-- The frames of a stack map with their offsets. -/
def decode? (pool : ConstantPool) (lines : List Line) (initial : Frame)
    (stackMap : List (MapEntry ResolvedType)) : Option (List (Nat × Frame)) := do
  let entries ← stackMap.mapM (MapEntry.symbolic? pool (site? lines))
  (expand none (localTypes initial.locals.toList) entries).mapM fun (offset, locals, stack) =>
    return (offset, ← frame? (owner? lines) locals stack)

/-- The frames that are listed in a table come out of it, as they are listed. -/
theorem exists_frames {S : BinaryName → Nat → Prop} {owner? : Nat → Option BinaryName}
    (howner : ∀ owner site, S owner site → owner? site = some owner)
    {targets : List (Nat × Frame)}
    (htargets : ∀ target ∈ targets, target.2.Paired ∧ target.2.SitesIn S) :
    ∃ frames, ((targets.map listed).mapM fun (offset, locals, stack) =>
        return (offset, ← frame? owner? locals stack)) = some frames ∧
      List.Forall₂ (fun entry target => entry.1 = target.1 ∧ entry.2.Listed target.2)
        frames targets := by
  induction targets with
  | nil => exact ⟨[], rfl, .nil⟩
  | cons target targets ih =>
      obtain ⟨hpaired, hsites⟩ := htargets target List.mem_cons_self
      obtain ⟨g, hg, hlisted⟩ := exists_frame? howner hpaired hsites
      obtain ⟨frames, hframes, hall⟩ := ih fun t ht => htargets t (List.mem_cons_of_mem _ ht)
      refine ⟨(target.1, g) :: frames, ?_, .cons ⟨rfl, hlisted⟩ hall⟩
      rw [List.map_cons, List.mapM_cons, hframes]
      simp [listed, hg]

theorem lookup_related {frames targets : List (Nat × Frame)}
    (h : List.Forall₂ (fun entry target => entry.1 = target.1 ∧ entry.2.Listed target.2)
      frames targets) (offset : Nat) :
    Option.Rel Frame.Listed (frames.lookup offset) (targets.lookup offset) := by
  induction h with
  | nil => exact .none
  | @cons entry target _ _ hfirst _ ih =>
      rw [List.lookup_cons, List.lookup_cons, hfirst.1]
      split
      · exact .some hfirst.2
      · exact ih

theorem lookup_toList (frames : Std.TreeMap Nat Frame) (offset : Nat) :
    frames.toList.lookup offset = frames[offset]? := by
  cases hlookup : frames.toList.lookup offset with
  | some f =>
      obtain ⟨before, after, hsplit, _⟩ := List.lookup_eq_some_iff.mp hlookup
      have hmem : (offset, f) ∈ frames.toList := by
        rw [hsplit]
        exact List.mem_append_right _ List.mem_cons_self
      exact (Std.TreeMap.mem_toList_iff_getElem?_eq_some.mp hmem).symm
  | none =>
      symm
      rw [← Option.not_isSome_iff_eq_none, Option.isSome_iff_exists]
      rintro ⟨f, hf⟩
      have hne := List.lookup_eq_none_iff.mp hlookup _
        (Std.TreeMap.mem_toList_iff_getElem?_eq_some.mpr hf)
      simp at hne

end StackMap

namespace CompiledMethod

/-- Does the stack map decode to frames at instructions, and does the code pass the check against
them? -/
def verifies (compiled : CompiledMethod) (pool : ConstantPool) (owner : BinaryName)
    (isStatic : Bool) : Bool :=
  let lines := compiled.emitted
  let initial := Frame.onEntry owner isStatic compiled.signature
  match StackMap.decode? pool lines initial compiled.stackMap with
  | none => false
  | some frames =>
    (frames.all fun entry => lines.any fun line => line.offset == entry.1)
      && Checker.accepts ⟨owner, compiled.body.labelOffset?, fun offset => frames.lookup offset⟩
        (some initial) lines

end CompiledMethod

/-- The instructions of the code of an analysed body. -/
abbrev Body.emitted (body : Body) (analysis : Analysis) : List Line :=
  emittedLines (fun block => (analysis.frame? block).isSome) body.lines.toList

namespace Body.LaidOut

variable {body : Body} {thisClass : BinaryName} {initial : Frame} {analysis : Analysis}
  {p : Progress} {owner : BinaryName} {site : Nat}

/-- Whatever tells the instructions of a body apart finds an allocation in its code. -/
theorem allocation?_eq_some (h : body.LaidOut) (hp : p.Concludes body thisClass initial analysis)
    {line : Line} (hreachable : body.Reachable site) (hline : body.lines[site]? = some line)
    (hallocates : line.Allocates owner) {P : Line → Bool} (hP : P line = true)
    (hunique : ∀ i other, body.lines[i]? = some other → P other = true → i = site) :
    StackMap.allocation? P (body.emitted analysis) = some line := by
  have hmem : line ∈ body.lines.toList := List.mem_of_getElem? (Array.getElem?_toList.trans hline)
  have hreached := (h.isSome_frame?_block_iff hp hline).mpr hreachable
  refine StackMap.allocation?_eq_some (mem_emittedLines hmem hreached) hP hallocates ?_
  intro other hother hPother hallocated
  obtain ⟨i, hi⟩ := List.mem_iff_getElem?.mp (mem_of_mem_emittedLines hother hallocated)
  have hi : body.lines[i]? = some other := Array.getElem?_toList.symm.trans hi
  obtain rfl := hunique i other hi hPother
  exact Option.some.inj (hi.symm.trans hline)

theorem owner?_eq (h : body.LaidOut) (hp : p.Concludes body thisClass initial analysis)
    (hallocated : body.AllocatedAt owner site) :
    StackMap.owner? (body.emitted analysis) site = some owner := by
  obtain ⟨hreachable, line, hline, hallocates⟩ := hallocated
  have hfound := h.allocation?_eq_some hp hreachable hline hallocates
    (P := fun line => line.id == site) (beq_iff_eq.mpr (h.id_eq hline)) (by
      intro i other hother hid
      rw [← h.id_eq hother]
      exact eq_of_beq hid)
  rw [StackMap.owner?, hfound, Option.bind_some]
  exact hallocates.allocated?

theorem site?_eq (h : body.LaidOut) (hp : p.Concludes body thisClass initial analysis)
    (hsize : body.codeSize ≤ maxCodeSize) (hallocated : body.AllocatedAt owner site) :
    StackMap.site? (body.emitted analysis) (body.siteOffset site) = some site := by
  obtain ⟨hreachable, line, hline, hallocates⟩ := hallocated
  have hoffset : (body.siteOffset site).toNat = line.offset := by
    have hstop := h.stop_le hline
    have hmax : maxCodeSize = 65535 := rfl
    rw [Line.stop] at hstop
    rw [siteOffset, hline]
    exact UInt16.toNat_ofNat_of_lt' (by omega : line.offset < 65536)
  have hfound := h.allocation?_eq_some hp hreachable hline hallocates
    (P := fun line => line.offset == (body.siteOffset site).toNat) (beq_iff_eq.mpr hoffset.symm) (by
      intro i other hother heq
      exact h.eq_of_offset_eq hother hline ((eq_of_beq heq).trans hoffset))
  rw [StackMap.site?, hfound, Option.map_some, h.id_eq hline]

/-- An uninitialized object that the stack map lists comes from an allocation. -/
theorem exists_allocatedAt (h : body.LaidOut) (hp : p.Concludes body thisClass initial analysis)
    (hinitial : body.Lists initial) {entry : Nat × MapEntry SymbolicType}
    (hentry : entry ∈ StackMap.build initial
      (body.mapTargets analysis (body.unreachedRanges analysis)))
    {site : Nat} (htype : .uninitialized site ∈ entry.2.types) :
    ∃ owner, body.AllocatedAt owner site := by
  obtain ⟨⟨offset, f⟩, hmem, hlisted⟩ := StackMap.mem_types_of_mem_entries hentry htype
  have hframe : (body.mapFrames analysis)[offset]? = some f :=
    Std.TreeMap.mem_toList_iff_getElem?_eq_some.mp hmem
  obtain ⟨_, hsites⟩ := h.lists_of_mapFrames hp hinitial hframe
  obtain ⟨v, hv, hverification⟩ : ∃ v : Value, v.type.SitesIn body.AllocatedAt ∧
      .uninitialized site = v.type.verification := by
    rcases List.mem_append.mp hlisted with hlocal | hstack
    · obtain ⟨v, hv, htype⟩ := StackMap.exists_of_mem_localTypes hlocal
      obtain ⟨i, hi⟩ := List.mem_iff_getElem?.mp hv
      exact ⟨v, hsites.locals i v (Array.getElem?_toList.symm.trans hi), htype⟩
    · obtain ⟨v, hv, htype⟩ := List.mem_map.mp hstack
      exact ⟨v, hsites.stack v hv, htype.symm⟩
  cases hv' : v.type with
  | uninitialized owner found =>
      rw [hv'] at hverification hv
      cases hverification
      exact ⟨owner, hv⟩
  | _ =>
      rw [hv'] at hverification
      cases hverification

/-- The places of all allocations that the stack map lists are found. -/
theorem locates (h : body.LaidOut) (hp : p.Concludes body thisClass initial analysis)
    (hsize : body.codeSize ≤ maxCodeSize) (hinitial : body.Lists initial)
    {entry : Nat × MapEntry SymbolicType} (hentry : entry ∈ StackMap.build initial
      (body.mapTargets analysis (body.unreachedRanges analysis)))
    {type : SymbolicType} (htype : type ∈ entry.2.types) :
    body.Locates (StackMap.site? (body.emitted analysis)) type := by
  rintro site rfl
  obtain ⟨owner, hallocated⟩ := h.exists_allocatedAt hp hinitial hentry htype
  exact h.site?_eq hp hsize hallocated

theorem offset_lt_of_mapFrames (h : body.LaidOut)
    (hp : p.Concludes body thisClass initial analysis) (hsize : body.codeSize ≤ maxCodeSize)
    {target : Nat × Frame} (htarget : target ∈ (body.mapFrames analysis).toList) :
    target.1 < 65536 := by
  obtain ⟨i, line, hline, hoffset, _⟩ :=
    h.mapFrames_cases hp (Std.TreeMap.mem_toList_iff_getElem?_eq_some.mp htarget)
  have hstop := h.stop_le hline
  have hmax : maxCodeSize = 65535 := rfl
  rw [Line.stop] at hstop
  omega

/-- The stack map decodes to the frames that it was made from, as they are listed. -/
theorem exists_decode? (h : body.LaidOut) (hp : p.Concludes body thisClass initial analysis)
    (hsize : body.codeSize ≤ maxCodeSize) (hinitial : body.Lists initial)
    {stackMap : List (MapEntry ResolvedType)} {pool : ConstantPool}
    (hread : stackMap.mapM (MapEntry.symbolic? pool (StackMap.site? (body.emitted analysis))) =
      some ((StackMap.build initial
        (body.mapTargets analysis (body.unreachedRanges analysis))).map Prod.snd)) :
    ∃ frames, StackMap.decode? pool (body.emitted analysis) initial stackMap = some frames ∧
      List.Forall₂ (fun entry target => entry.1 = target.1 ∧ entry.2.Listed target.2) frames
        (body.mapFrames analysis).toList := by
  have hexpand : StackMap.expand none (StackMap.localTypes initial.locals.toList)
      ((StackMap.build initial
        (body.mapTargets analysis (body.unreachedRanges analysis))).map Prod.snd) =
      (body.mapFrames analysis).toList.map StackMap.listed :=
    StackMap.expand_entries (StackMap.pairwise_toList _)
      (fun _ htarget => h.offset_lt_of_mapFrames hp hsize htarget) nofun
  have hlists : ∀ target ∈ (body.mapFrames analysis).toList, body.Lists target.2 := by
    intro target htarget
    exact h.lists_of_mapFrames hp hinitial
      (Std.TreeMap.mem_toList_iff_getElem?_eq_some.mp htarget)
  obtain ⟨frames, hframes, hall⟩ :=
    StackMap.exists_frames (fun _ _ hallocated => h.owner?_eq hp hallocated) hlists
  refine ⟨frames, ?_, hall⟩
  rw [StackMap.decode?, hread, Option.bind_eq_bind, Option.bind_some, hexpand]
  exact hframes

end Body.LaidOut

namespace WrittenMethod

variable {m : WrittenMethod} {settings : Settings} {compiled : CompiledMethod}

/-- The stack map of a compiled method decodes, and the code passes the check against it. -/
theorem Compiles.verifies {analysis : Analysis} {encoded : List (Line × List UInt8)}
    {s₀ s₁ s₂ : ClassState} (h : m.Compiles settings compiled analysis encoded s₀ s₁ s₂) :
    compiled.verifies s₂.pool m.owner m.isStatic = true := by
  obtain ⟨p, hp⟩ := h.exists_concludes
  have hbody := h.laidOut
  have hinitial := compiled.body.lists_onEntry m.owner m.isStatic compiled.signature
  have hemitted : compiled.emitted = compiled.body.emitted analysis := by
    rw [CompiledMethod.emitted, h.reaches_eq]
  obtain ⟨_, hrestored⟩ := Body.table_restored
    (fun _ hentry _ htype => hbody.locates hp h.codeSize hinitial hentry htype) h.emitted.stackMap_eq
  have hext := (Body.readable_of_encode hbody h.codeSize h.emitted.encode_eq).1
  obtain ⟨frames, hdecode, hall⟩ :=
    hbody.exists_decode? hp h.codeSize hinitial (hrestored s₂.pool hext)
  simp only [CompiledMethod.verifies, hemitted, hdecode, Bool.and_eq_true, List.all_eq_true]
  constructor
  · intro entry hentry
    obtain ⟨⟨offset, f⟩, htarget, hoffset, _⟩ := exists_of_mem_right hall.flip hentry
    obtain ⟨i, line, hline, hline', _⟩ :=
      hbody.mapFrames_cases hp (Std.TreeMap.mem_toList_iff_getElem?_eq_some.mp htarget)
    obtain ⟨found, hfound, hfound'⟩ := Body.exists_mem_emittedLines
      (fun block => (analysis.frame? block).isSome)
      (List.mem_of_getElem? (Array.getElem?_toList.trans hline))
    refine List.any_eq_true.mpr ⟨found, hfound, beq_iff_eq.mpr ?_⟩
    rw [hfound', hline', hoffset]
  · obtain ⟨g, hcovers, hbelow⟩ := hp.covers_of_holds hp.start
    have hready : p.Ready compiled.body m.owner 0
        (some (Frame.onEntry m.owner m.isStatic compiled.signature)) :=
      .falls .refl hcovers (hbelow.imp fun s _ hle => (s.assignable_refl).trans_le hle)
    refine Checker.Serves.accepts_emitted ⟨rfl, rfl, ?_⟩ hbody hp rfl hready
    intro offset
    rw [← StackMap.lookup_toList]
    exact StackMap.lookup_related hall offset

/-- Every method that compiles passes the check from the frame that its signature gives on entry: its
stack map decodes to frames at instructions, and one pass over the instructions that its code decodes
to accepts them. -/
theorem stackMap_certifies_code {s s' : ClassState} (h : m.compile settings s = .ok compiled s') :
    m.signature = .ok compiled.signature ∧
    compiled.verifies s'.pool m.owner m.isStatic = true ∧
    ∃ decoded, Decode.all 0 compiled.code = some decoded ∧
      List.Forall₂ (Line.Shows compiled.body s'.pool) compiled.emitted decoded := by
  obtain ⟨analysis, encoded, s₀, s₁, s₂, hcompiles, _, hpool⟩ := exists_compiles h
  rw [hpool]
  exact ⟨hcompiles.signature, hcompiles.verifies, hcompiles.exists_decoded⟩

theorem stackMap_certifies_code_sample :
    ∃ compiled s', sample.compile {} ⟨.empty, {}⟩ = .ok compiled s' ∧
      compiled.verifies s'.pool sample.owner sample.isStatic = true := by
  obtain ⟨compiled, s', h⟩ := exists_compile_sample
  exact ⟨compiled, s', h, (stackMap_certifies_code h).2.1⟩

end WrittenMethod

end JvmAssembler
