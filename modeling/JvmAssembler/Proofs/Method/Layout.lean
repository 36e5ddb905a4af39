import JvmAssembler.Method.Layout
import JvmAssembler.Proofs.Method.Evaluate
import Mathlib.Algebra.GroupWithZero.Nat

/-! Instructions are numbered in their order, their offsets are running sums of their sizes, and
blocks are runs of instructions: a block starts at a label, and only its last instruction is a
branch. -/

namespace JvmAssembler

namespace LabelTable

theorem size_declareAnonymous (t : LabelTable) (position : Position) (n : Nat) :
    (t.declareAnonymous position n).2.size = t.size + 1 := Array.size_push _

theorem block?_declareAnonymous {t : LabelTable} {n : Nat} (h : t.block? n = none)
    (position : Position) (i : Nat) :
    (t.declareAnonymous position n).2.block? i = if n = i then some t.size else t.block? i := by
  have hfresh : ¬ n ∈ t.blocks := by
    rw [Std.TreeMap.mem_iff_isSome_getElem?]
    have hnone : t.blocks[n]? = none := h
    simp [hnone]
  show (t.blocks.insertIfNew n t.size)[i]? = _
  simp only [Std.TreeMap.getElem?_insertIfNew, Std.compare_eq_iff_eq]
  by_cases hi : n = i
  · rw [if_pos ⟨hi, hfresh⟩, if_pos hi]
  · rw [if_neg fun hand => hi hand.1, if_neg hi]
    rfl

theorem isSome_block?_zero (t : LabelTable) : (t.block? 0).isSome := by
  have h := isSome_block? t.size_pos
  rw [show (t.get 0).instruction = 0 from t.instruction_start] at h
  exact h

end LabelTable

namespace Body

/-- The block of a further instruction is named by a label in front of it, or it is the block of the
instruction before, which is no branch. -/
theorem nextBlock_spec (lines : Array Line) (labels : LabelTable) (position : Position) :
    let next := nextBlock lines labels position
    labels.size ≤ next.2.size ∧
    (∀ i, i ≠ lines.size → next.2.block? i = labels.block? i) ∧
    (next.2.block? lines.size = some next.1 ∨
      next.2.block? lines.size = none ∧ ∃ last, lines.back? = some last ∧
        last.instruction.branch? = none ∧ next.1 = last.block) := by
  unfold nextBlock
  split
  · rename_i label hlabel
    exact ⟨Nat.le_refl _, fun _ _ => rfl, .inl hlabel⟩
  · rename_i hnone hback
    have hempty : lines.size = 0 := by
      rw [Array.back?_eq_none_iff] at hback
      rw [hback]
      rfl
    rw [hempty] at hnone
    have hzero := labels.isSome_block?_zero
    rw [hnone] at hzero
    cases hzero
  · rename_i last hnone hback
    split
    · refine ⟨?_, ?_, .inl ?_⟩
      · rw [LabelTable.size_declareAnonymous]
        exact Nat.le_succ _
      · intro i hi
        rw [LabelTable.block?_declareAnonymous hnone, if_neg hi.symm]
      · rw [LabelTable.block?_declareAnonymous hnone, if_pos rfl]
        rfl
    · rename_i hbranch
      exact ⟨Nat.le_refl _, fun _ _ => rfl,
        .inr ⟨hnone, last, hback, Option.not_isSome_iff_eq_none.mp hbranch, rfl⟩⟩

/-- What is true of every body that is laid out. -/
structure LaidOut (body : Body) : Prop where
  /-- Instructions are numbered in their order. -/
  id_eq : ∀ {i : Nat} {line : Line}, body.lines[i]? = some line → line.id = i
  /-- Offsets are running sums. -/
  offset_eq : ∀ {i : Nat} {line : Line}, body.lines[i]? = some line →
    line.offset = ((body.lines.toList.take i).map Line.size).sum
  /-- A label in front of an instruction names its block. -/
  leads : ∀ {i block : Nat} {line : Line}, body.lines[i]? = some line →
    body.labels.block? i = some block → line.block = block
  /-- Without a label, an instruction belongs to the block of the one before, which is no branch. -/
  continues : ∀ {i : Nat} {previous line : Line}, body.lines[i]? = some previous →
    body.lines[i + 1]? = some line → body.labels.block? (i + 1) = none →
    line.block = previous.block ∧ previous.instruction.branch? = none
  regular : ∀ {i : Nat} {line : Line}, body.lines[i]? = some line →
    line.instruction.Regular body.labels.size

theorem laidOut_empty (labels : LabelTable) : LaidOut ⟨#[], labels⟩ where
  id_eq := nofun
  offset_eq := nofun
  leads := nofun
  continues := nofun
  regular := nofun

theorem LaidOut.target_lt {body : Body} (h : body.LaidOut) {i label : Nat} {line : Line}
    (hline : body.lines[i]? = some line) (hlabel : label ∈ line.targets) :
    label < body.labels.size := by
  have hregular := h.regular hline
  rw [Line.targets] at hlabel
  cases hinsn : line.instruction with
  | operation op =>
      rw [hinsn] at hlabel
      cases hlabel
  | branch b =>
      rw [hinsn] at hlabel hregular
      exact hregular.1 label hlabel

theorem LaidOut.linesSize_eq {body : Body} (h : body.LaidOut) :
    linesSize body.lines = (body.lines.toList.map Line.size).sum := by
  cases hback : body.lines.back? with
  | none =>
      rw [linesSize, hback, Array.back?_eq_none_iff.mp hback]
      rfl
  | some last =>
      have hlast : body.lines.toList.dropLast ++ [last] = body.lines.toList :=
        List.dropLast_append_getLast? last ((Array.getLast?_toList body.lines).trans hback)
      have hoffset : last.offset = (body.lines.toList.dropLast.map Line.size).sum := by
        rw [List.dropLast_eq_take, Array.length_toList]
        exact h.offset_eq (Array.back?_eq_getElem?.symm.trans hback)
      rw [linesSize, hback, ← hlast, List.map_append, List.sum_append, ← hoffset]
      rfl

/-- Instructions follow each other. -/
theorem LaidOut.stop_le_offset {body : Body} (h : body.LaidOut) {i j : Nat} {line later : Line}
    (hline : body.lines[i]? = some line) (hlater : body.lines[j]? = some later) (hlt : i < j) :
    line.stop ≤ later.offset := by
  have hget : body.lines.toList[i]? = some line := Array.getElem?_toList.trans hline
  have htake : (body.lines.toList.take j).take (i + 1) = body.lines.toList.take i ++ [line] := by
    rw [List.take_take, Nat.min_eq_left hlt, List.take_add_one, hget]
    rfl
  have hsum := congrArg (fun lines => (lines.map Line.size).sum)
    (List.take_append_drop (i + 1) (body.lines.toList.take j))
  simp only [htake, List.map_append, List.sum_append, List.map_cons, List.sum_cons, List.map_nil,
    List.sum_nil] at hsum
  rw [Line.stop, h.offset_eq hline, h.offset_eq hlater]
  omega

theorem LaidOut.eq_of_offset_eq {body : Body} (h : body.LaidOut) {i j : Nat} {line other : Line}
    (hline : body.lines[i]? = some line) (hother : body.lines[j]? = some other)
    (heq : line.offset = other.offset) : i = j := by
  have hpos : 0 < line.size := Instruction.sizeAt_pos _ _
  have hpos' : 0 < other.size := Instruction.sizeAt_pos _ _
  rcases Nat.lt_trichotomy i j with hlt | hij | hlt
  · have hle := h.stop_le_offset hline hother hlt
    rw [Line.stop] at hle
    omega
  · exact hij
  · have hle := h.stop_le_offset hother hline hlt
    rw [Line.stop] at hle
    omega

theorem getElem?_push_cases {lines : Array Line} {new line : Line} {i : Nat}
    (h : (lines.push new)[i]? = some line) :
    (i = lines.size ∧ line = new) ∨ (i < lines.size ∧ lines[i]? = some line) := by
  rw [Array.getElem?_push] at h
  split at h
  · rename_i hi
    cases h
    exact .inl ⟨hi, rfl⟩
  · obtain ⟨hlt, _⟩ := Array.getElem?_eq_some_iff.mp h
    exact .inr ⟨hlt, h⟩

theorem take_push {lines : Array Line} {new : Line} {i : Nat} (h : i ≤ lines.size) :
    (lines.push new).toList.take i = lines.toList.take i := by
  rw [Array.toList_push, List.take_append_of_le_length (by rwa [Array.length_toList])]

theorem LaidOut.push {body : Body} (h : body.LaidOut) (mnemonic : String) (position : Position)
    {instruction : SymbolicInstruction} (hregular : instruction.Regular body.labels.size) :
    (body.push mnemonic position instruction).LaidOut := by
  have hsum := h.linesSize_eq
  obtain ⟨lines, labels⟩ := body
  obtain ⟨hsize, hothers, hblock⟩ := nextBlock_spec lines labels position
  constructor
  · intro i line hline
    rcases getElem?_push_cases hline with ⟨rfl, rfl⟩ | ⟨_, hline⟩
    · rfl
    · exact h.id_eq hline
  · intro i line hline
    show line.offset = (((lines.push _).toList.take i).map Line.size).sum
    rcases getElem?_push_cases hline with ⟨rfl, rfl⟩ | ⟨hlt, hline⟩
    · rw [take_push (Nat.le_refl _), List.take_of_length_le (Nat.le_of_eq Array.length_toList)]
      exact hsum
    · rw [take_push (Nat.le_of_lt hlt)]
      exact h.offset_eq hline
  · intro i block line hline hi
    rcases getElem?_push_cases hline with ⟨rfl, rfl⟩ | ⟨hlt, hline⟩
    · rcases hblock with hsome | ⟨hnone, _⟩
      · exact Option.some.inj (hsome.symm.trans hi)
      · exact absurd (hnone.symm.trans hi) nofun
    · exact h.leads hline ((hothers i (Nat.ne_of_lt hlt)).symm.trans hi)
  · intro i previous line hprevious hline hi
    have hprevious : lines[i]? = some previous := by
      rcases getElem?_push_cases hprevious with ⟨rfl, _⟩ | ⟨_, hprevious⟩
      · rcases getElem?_push_cases hline with ⟨hnext, _⟩ | ⟨hlt, _⟩ <;> omega
      · exact hprevious
    rcases getElem?_push_cases hline with ⟨hnext, rfl⟩ | ⟨hlt, hline⟩
    · rcases hblock with hsome | ⟨_, last, hlast, hbranch, heq⟩
      · rw [← hnext] at hsome
        exact absurd (hi.symm.trans hsome) nofun
      · rw [Array.back?_eq_getElem?, ← hnext, Nat.add_sub_cancel, hprevious,
          Option.some.injEq] at hlast
        rw [hlast]
        exact ⟨heq, hbranch⟩
    · exact h.continues hprevious hline ((hothers (i + 1) (Nat.ne_of_lt hlt)).symm.trans hi)
  · intro i line hline
    rcases getElem?_push_cases hline with ⟨rfl, rfl⟩ | ⟨_, hline⟩
    · exact hregular.mono hsize
    · exact (h.regular hline).mono hsize

theorem laidOut_evaluateNext (returns : ReturnType) {body : Body} (h : body.LaidOut)
    (insn : WrittenInstruction) : Yields LaidOut (body.evaluateNext returns insn) := by
  refine .bind (insn.regular_evaluate _) fun instruction hregular => ?_
  exact .of_bind fun _ => .pure (h.push _ _ hregular)

theorem laidOut_foldlM (returns : ReturnType) (instructions : List WrittenInstruction)
    {body : Body} (h : body.LaidOut) :
    Yields LaidOut (instructions.foldlM (evaluateNext returns) body) := by
  induction instructions generalizing body with
  | nil => exact .pure h
  | cons insn rest ih =>
      rw [List.foldlM_cons]
      exact .bind (laidOut_evaluateNext returns h insn) fun _ hnext => ih hnext

theorem laidOut_addReturn {body : Body} (h : body.LaidOut) (start : Position) :
    Yields LaidOut (body.addReturn start) := by
  refine .of_bind fun _ => .of_bind fun _ => .pure (h.push _ _ ?_)
  exact ⟨fun _ hlabel => absurd hlabel List.not_mem_nil, trivial⟩

/-- All instructions have a property. -/
def Each (P : SymbolicInstruction → Prop) (body : Body) : Prop :=
  ∀ line ∈ body.lines.toList, P line.instruction

section Each

variable {P : SymbolicInstruction → Prop} {body : Body}

theorem Each.push (h : body.Each P) (mnemonic : String) (position : Position)
    {instruction : SymbolicInstruction} (hinsn : P instruction) :
    (body.push mnemonic position instruction).Each P := by
  intro line hline
  rcases List.mem_append.mp (Array.toList_push ▸ hline) with hline | hline
  · exact h line hline
  · rw [List.mem_singleton.mp hline]
    exact hinsn

theorem each_foldlM (returns : ReturnType) {instructions : List WrittenInstruction}
    (hevaluate : ∀ insn ∈ instructions, ∀ scope, Yields P (insn.evaluate scope))
    (h : body.Each P) : Yields (Each P) (instructions.foldlM (evaluateNext returns) body) := by
  induction instructions generalizing body with
  | nil => exact .pure h
  | cons insn rest ih =>
      rw [List.foldlM_cons]
      have hrest := fun insn hinsn => hevaluate insn (List.mem_cons_of_mem _ hinsn)
      refine .bind (.bind (hevaluate insn List.mem_cons_self _) fun instruction hinsn => ?_)
        fun _ => ih hrest
      exact .of_bind fun _ => .pure (h.push _ _ hinsn)

end Each

end Body

namespace WrittenMethod

variable {m : WrittenMethod} {settings : Settings} {s : Signature}

/-- What is known of the descriptor of a method that has a signature. -/
theorem signature_spec (h : m.signature = .ok s) :
    MethodDescriptor.ofString m.descriptor = .ok s.descriptor ∧
      s.descriptor.argumentSlots (!m.isStatic) ≤ maxArgumentSlots := by
  obtain ⟨name, _, h⟩ := exists_of_bind_eq_ok h
  obtain ⟨descriptor, hdescriptor, h⟩ := exists_of_bind_eq_ok h
  dsimp only at h
  split at h
  · cases h
  · split at h
    · cases h
    · rename_i hslots
      cases h
      exact ⟨eq_ok_of_mapError hdescriptor, Nat.le_of_not_gt hslots⟩

/-- A property of all instructions that are evaluated, and of the return that may be added. -/
theorem each_evaluate {P : SymbolicInstruction → Prop}
    (hevaluate : ∀ insn ∈ m.instructions, ∀ scope, Yields P (insn.evaluate scope))
    (hreturn : P (.branch (.returns none))) (labels : LabelTable) :
    Yields (Body.Each P) (m.evaluate settings s labels) := by
  have hempty : Body.Each P ⟨#[], labels⟩ := fun line hline => absurd hline List.not_mem_nil
  refine .bind (Body.each_foldlM _ hevaluate hempty) fun body hbody => ?_
  split
  · exact .of_bind fun _ => .of_bind fun _ => .pure (hbody.push _ _ hreturn)
  · exact .pure hbody

theorem laidOut_evaluate (labels : LabelTable) :
    Yields Body.LaidOut (m.evaluate settings s labels) := by
  refine .bind (Body.laidOut_foldlM _ _ (Body.laidOut_empty labels)) fun body h => ?_
  split
  · exact Body.laidOut_addReturn h _
  · exact .pure h

theorem exists_of_layout {journal journal' : Journal} {body : Body}
    (h : m.layout settings s journal = .ok body journal') :
    body.codeSize ≤ maxCodeSize ∧
      ∃ labels state state', LabelTable.empty.declareAll 0 m.body = .ok labels ∧
        m.evaluate settings s labels state = .ok body state' := by
  simp only [layout] at h
  split at h
  · cases h
  · rename_i hlabels
    split at h
    · cases h
    · rename_i hevaluate
      split at h
      · cases h
      · rename_i hsize
        cases h
        exact ⟨Nat.le_of_not_gt hsize, _, _, _, hlabels, hevaluate⟩

/-- The layout of a method gives bodies that are laid out and not too long. -/
theorem laidOut_of_layout {journal journal' : Journal} {body : Body}
    (h : m.layout settings s journal = .ok body journal') :
    body.LaidOut ∧ body.codeSize ≤ maxCodeSize := by
  obtain ⟨hsize, labels, state, state', _, hevaluate⟩ := exists_of_layout h
  exact ⟨laidOut_evaluate _ _ _ _ hevaluate, hsize⟩

theorem each_of_layout {P : SymbolicInstruction → Prop}
    (hevaluate : ∀ insn ∈ m.instructions, ∀ scope, Yields P (insn.evaluate scope))
    (hreturn : P (.branch (.returns none))) : Yields (Body.Each P) (m.layout settings s) := by
  intro journal body journal' h
  obtain ⟨_, labels, state, state', _, hbody⟩ := exists_of_layout h
  exact each_evaluate hevaluate hreturn labels state body state' hbody

end WrittenMethod

end JvmAssembler
