import JvmAssembler.Proofs.Failure
import JvmAssembler.Proofs.Method.FieldWidths
import JvmAssembler.Proofs.Method.LocalAccess

/-! An instruction of one byte can add two slots to the stack, so there is room in a method for code
whose stack is deeper than 16 bits can tell. Such code is compiled. If it jumps while the stack is
deep, the count of the stack entries in the stack map is written modulo 2^16, and the stack map
cannot be read back. -/

namespace JvmAssembler

namespace Body

/-- No label is made up for an instruction that a label stands in front of, or that does not follow a
branch. -/
theorem labels_push (body : Body) (mnemonic : String) (position : Position)
    (instruction : SymbolicInstruction)
    (h : (body.labels.block? body.lines.size).isSome ∨
      ∀ line ∈ body.lines.toList, line.instruction.branch? = none) :
    (body.push mnemonic position instruction).labels = body.labels := by
  obtain ⟨lines, labels⟩ := body
  show (nextBlock lines labels position).2 = labels
  unfold nextBlock
  split
  · rfl
  · rfl
  · rename_i last hnone hlast
    rcases h with hsome | hplain
    · rw [hnone] at hsome
      cases hsome
    · have hmem : last ∈ lines.toList := List.mem_of_getLast? (Array.getLast?_toList lines ▸ hlast)
      rw [hplain last hmem]
      rfl

theorem size_eq_length {body : Body} {instructions : List SymbolicInstruction}
    (h : body.lines.toList.map Line.instruction = instructions) :
    body.lines.size = instructions.length := by
  rw [← h, List.length_map, Array.length_toList]

theorem exists_evaluateNext {returns : ReturnType} {body : Body} {insn : WrittenInstruction}
    {instruction : SymbolicInstruction} {s : LocalState}
    (h : insn.evaluate ⟨returns, body.labels, body.lines.size⟩ s = .ok instruction s)
    (hlabels : (body.labels.block? body.lines.size).isSome ∨
      ∀ line ∈ body.lines.toList, line.instruction.branch? = none) :
    ∃ body' s', evaluateNext returns body insn s = .ok body' s' ∧
      body'.lines.toList.map Line.instruction =
        body.lines.toList.map Line.instruction ++ [instruction] ∧
      body'.labels = body.labels := by
  refine ⟨body.push insn.mnemonic insn.position instruction,
    ⟨s.table, s.journal.report (.instruction body.lines.size insn.mnemonic body.codeSize)⟩, ?_, ?_,
    body.labels_push _ _ _ hlabels⟩
  · rw [evaluateNext, bind_eq_of_ok h]
    rfl
  · simp [push]

/-- Instructions that evaluate without a look at the method, one after the other. -/
theorem exists_evaluateAll (returns : ReturnType) {insns : List WrittenInstruction}
    {instructions : List SymbolicInstruction}
    (h : List.Forall₂ (fun insn instruction => instruction.branch? = none ∧
      ∀ scope s, WrittenInstruction.evaluate insn scope s = .ok instruction s) insns instructions)
    (body : Body) (hbody : ∀ line ∈ body.lines.toList, line.instruction.branch? = none)
    (s : LocalState) :
    ∃ body' s', insns.foldlM (evaluateNext returns) body s = .ok body' s' ∧
      body'.lines.toList.map Line.instruction =
        body.lines.toList.map Line.instruction ++ instructions ∧
      body'.labels = body.labels := by
  induction h generalizing body s with
  | nil => exact ⟨body, s, rfl, (List.append_nil _).symm, rfl⟩
  | @cons insn instruction insns instructions hfirst _ ih =>
      obtain ⟨hplain, hevaluate⟩ := hfirst
      obtain ⟨body₁, s₁, hnext, hlines₁, hlabels₁⟩ :=
        exists_evaluateNext (hevaluate ⟨returns, body.labels, body.lines.size⟩ s) (.inr hbody)
      have hbody₁ : ∀ line ∈ body₁.lines.toList, line.instruction.branch? = none := by
        intro line hline
        have hmem := List.mem_map_of_mem (f := Line.instruction) hline
        rw [hlines₁, List.mem_append, List.mem_singleton] at hmem
        rcases hmem with hold | hnew
        · obtain ⟨old, hold, heq⟩ := List.mem_map.mp hold
          rw [← heq]
          exact hbody old hold
        · rw [hnew]
          exact hplain
      obtain ⟨body', s', hrest, hlines, hlabels⟩ := ih body₁ hbody₁ s₁
      refine ⟨body', s', ?_, ?_, hlabels.trans hlabels₁⟩
      · rw [List.foldlM_cons, bind_eq_of_ok hnext]
        exact hrest
      · rw [hlines, hlines₁, List.append_assoc]
        rfl

/-- Nothing is added after an instruction that control does not go on from. -/
theorem needsReturn_eq_false {body : Body} {instructions : List SymbolicInstruction}
    {last : SymbolicInstruction}
    (h : body.lines.toList.map Line.instruction = instructions ++ [last])
    (hlast : last.fallsThrough = false) (hblock : body.labels.block? body.lines.size = none) :
    body.needsReturn = false := by
  have hback := congrArg List.getLast? h
  rw [List.getLast?_map, List.getLast?_concat, Option.map_eq_some_iff] at hback
  obtain ⟨line, hline, rfl⟩ := hback
  rw [needsReturn, hblock, ← Array.getLast?_toList, hline]
  simpa using hlast

end Body

theorem LabelTable.declareAll_instructions (t : LabelTable) (count : Nat)
    (insns : List WrittenInstruction) (rest : List Statement) :
    t.declareAll count (insns.map .instruction ++ rest) =
      t.declareAll (count + insns.length) rest := by
  induction insns generalizing count with
  | nil => rfl
  | cons insn insns ih =>
      rw [List.map_cons, List.cons_append, declareAll, ih, List.length_cons]
      congr 1
      omega

theorem WrittenInstruction.evaluate_plain (insn : WrittenInstruction)
    (instruction : Instruction Empty Empty)
    (h : Template.ofMnemonic? insn.mnemonic = some (.plain instruction))
    (hoperands : insn.expectPlain 0 = .ok ()) (scope : Evaluate.Scope) (s : LocalState) :
    insn.evaluate scope s = .ok (.ofPlain instruction) s := by
  rw [evaluate, h]
  show (Template.evaluate scope insn (.plain instruction)) s = _
  rw [Template.evaluate, hoperands]
  rfl

namespace WrittenMethod

namespace DeepStack

/-- A constant is put on the stack twice, and both are copied again and again. Then there is a
jump. -/
def written (n : Nat) : List WrittenInstruction :=
  List.replicate 2 { mnemonic := "iconst_0" } ++ List.replicate n { mnemonic := "dup2" }

def writtenJump : WrittenInstruction := { mnemonic := "goto", operands := #[.label "done"] }

def writtenReturn : WrittenInstruction := { mnemonic := "return" }

end DeepStack

/-- A method that jumps with many values on the stack. -/
def deepStack (n : Nat) : WrittenMethod := ofBody
  ((DeepStack.written n ++ [DeepStack.writtenJump]).map .instruction ++
    [.label "done" {}, .instruction DeepStack.writtenReturn])

namespace DeepStack

abbrev constant : SymbolicInstruction := .operation (.intConst 0)

abbrev copy : SymbolicInstruction := .operation (.stack .dup2)

/-- The instructions in front of the jump. -/
def straight (n : Nat) : List SymbolicInstruction :=
  List.replicate 2 constant ++ List.replicate n copy

/-- The labels of the method: its start, and the target of the jump. -/
structure Labels (n : Nat) (t : LabelTable) : Prop where
  labels_eq : t.labels = #[LabelTable.startLabel, ⟨"done", {}, n + 3, false⟩]
  lookup? : t.lookup? "done" = some 1

theorem Labels.block?_eq {n : Nat} {t : LabelTable} (h : Labels n t) (i : Nat) :
    t.block? i = if i = 0 then some 0 else if i = n + 3 then some 1 else none := by
  show t.blocks[i]? = _
  rw [t.blocks_eq, h.labels_eq, List.findIdx?_toArray, List.findIdx?_cons, List.findIdx?_cons]
  by_cases hzero : i = 0
  · subst hzero
    rfl
  · by_cases hdone : i = n + 3
    · subst hdone
      simp [LabelTable.startLabel]
    · simp [LabelTable.startLabel, hzero, hdone, Ne.symm hzero, Ne.symm hdone]

theorem Labels.instruction_get {n : Nat} {t : LabelTable} (h : Labels n t) :
    (t.get 1).instruction = n + 3 := by
  rw [LabelTable.get, h.labels_eq]
  rfl

theorem Labels.size_eq {n : Nat} {t : LabelTable} (h : Labels n t) : t.size = 2 := by
  rw [LabelTable.size, h.labels_eq]
  rfl

theorem exists_labels (n : Nat) :
    ∃ t, LabelTable.empty.declareAll 0 (deepStack n).body = .ok t ∧ Labels n t := by
  have hdeclare : ∃ t, LabelTable.empty.declare "done" {} (n + 3) = .ok (1, t) ∧ Labels n t := by
    rw [LabelTable.declare, if_neg]
    · exact ⟨_, rfl, rfl, Std.TreeMap.getElem?_insert_self⟩
    · exact Bool.eq_false_iff.mp Std.TreeMap.contains_emptyc
  obtain ⟨t, hdeclare, ht⟩ := hdeclare
  refine ⟨t, ?_, ht⟩
  have hlength : 0 + (written n ++ [writtenJump]).length = n + 3 := by
    simp only [written, List.length_append, List.length_replicate, List.length_singleton]
    omega
  rw [deepStack, ofBody, LabelTable.declareAll_instructions, hlength, LabelTable.declareAll, hdeclare]
  rfl

theorem forall₂_straight (n : Nat) :
    List.Forall₂ (fun insn instruction => instruction.branch? = none ∧
      ∀ scope s, WrittenInstruction.evaluate insn scope s = .ok instruction s)
      (written n) (straight n) := by
  have hconstant := WrittenInstruction.evaluate_plain { mnemonic := "iconst_0" }
    (.operation (.intConst 0)) (by decide +kernel) rfl
  have hcopy := WrittenInstruction.evaluate_plain { mnemonic := "dup2" }
    (.operation (.stack .dup2)) (by decide +kernel) rfl
  refine List.rel_append ?_ ?_
  · exact .cons ⟨rfl, hconstant⟩ (.cons ⟨rfl, hconstant⟩ .nil)
  · induction n with
    | zero => exact .nil
    | succ n ih => exact .cons ⟨rfl, hcopy⟩ ih

/-- The body of the method. -/
structure IsBody (n : Nat) (body : Body) : Prop where
  instructions : body.lines.toList.map Line.instruction =
    straight n ++ [.branch (.jump .goto 1), .branch (.returns none)]
  labels : Labels n body.labels
  laidOut : body.LaidOut

theorem length_straight (n : Nat) : (straight n).length = n + 2 := by
  rw [straight, List.length_append, List.length_replicate, List.length_replicate, Nat.add_comm]

theorem branch?_of_mem_straight {n : Nat} {instruction : SymbolicInstruction}
    (h : instruction ∈ straight n) : instruction.branch? = none := by
  rcases List.mem_append.mp h with h | h
  · rw [List.eq_of_mem_replicate h]
    rfl
  · rw [List.eq_of_mem_replicate h]
    rfl

theorem evaluate_jump (scope : Evaluate.Scope) (h : scope.labels.lookup? "done" = some 1)
    (s : LocalState) : writtenJump.evaluate scope s = .ok (.branch (.jump .goto 1)) s := by
  have htemplate : Template.ofMnemonic? writtenJump.mnemonic = some (.jump .goto) := by
    decide +kernel
  have htarget : Evaluate.target scope writtenJump 0 = .ok 1 := by
    have hlabel : writtenJump.label 0 = .ok "done" := rfl
    simp only [Evaluate.target, hlabel, h, bind, Except.bind]
    rfl
  have hjump : Evaluate.jump scope writtenJump .goto = .ok (.jump .goto 1) := by
    show (do return Branch.jump .goto (← Evaluate.target scope writtenJump 0)) = _
    rw [htarget]
    rfl
  rw [WrittenInstruction.evaluate, htemplate]
  show (Template.evaluate scope writtenJump (.jump .goto)) s = _
  rw [Template.evaluate, hjump]
  rfl

theorem evaluate_return (scope : Evaluate.Scope) (h : scope.returns = .void) (s : LocalState) :
    writtenReturn.evaluate scope s = .ok (.branch (.returns none)) s := by
  have htemplate : Template.ofMnemonic? writtenReturn.mnemonic = some (.returns none) := by
    decide +kernel
  have hreturn : Evaluate.returnFrom scope writtenReturn none = .ok (.returns none) := by
    rw [Evaluate.returnFrom, h]
    rfl
  rw [WrittenInstruction.evaluate, htemplate]
  show (Template.evaluate scope writtenReturn (.returns none)) s = _
  rw [Template.evaluate, hreturn]
  rfl

theorem instructions_deepStack (n : Nat) :
    (deepStack n).instructions = written n ++ [writtenJump, writtenReturn] := by
  simp [instructions, deepStack, ofBody, List.filterMap_append, List.filterMap_map]

theorem exists_evaluate (n : Nat) {sig : Signature} (hreturns : sig.descriptor.returns = none)
    {t : LabelTable} (ht : Labels n t) (s : LocalState) :
    ∃ body s', (deepStack n).evaluate {} sig t s = .ok body s' ∧ IsBody n body := by
  obtain ⟨body, s₁, hstraight, hlines, hlabels⟩ := Body.exists_evaluateAll .void
    (forall₂_straight n) ⟨#[], t⟩ (fun _ h => absurd h List.not_mem_nil) s
  have hplain : ∀ line ∈ body.lines.toList, line.instruction.branch? = none := by
    intro line hline
    have hmem := List.mem_map_of_mem (f := Line.instruction) hline
    rw [hlines] at hmem
    exact branch?_of_mem_straight hmem
  have hlookup : body.labels.lookup? "done" = some 1 := hlabels ▸ ht.lookup?
  obtain ⟨body₁, s₂, hjump, hlines₁, hlabels₁⟩ := Body.exists_evaluateNext
    (evaluate_jump ⟨.void, body.labels, body.lines.size⟩ hlookup s₁) (.inr hplain)
  rw [hlines, List.map_nil, List.nil_append] at hlines₁
  have hsize₁ : body₁.lines.size = n + 3 := by
    rw [Body.size_eq_length hlines₁, List.length_append, length_straight]
    rfl
  have ht₁ : Labels n body₁.labels := (hlabels₁.trans hlabels) ▸ ht
  obtain ⟨body₂, s₃, hreturn, hlines₂, hlabels₂⟩ := Body.exists_evaluateNext
    (evaluate_return ⟨.void, body₁.labels, body₁.lines.size⟩ rfl s₂)
    (.inl (by simp [ht₁.block?_eq, hsize₁]))
  have ht₂ : Labels n body₂.labels := hlabels₂ ▸ ht₁
  have hsize₂ : body₂.lines.size = n + 4 := by
    rw [Body.size_eq_length hlines₂, List.length_append, List.length_map, Array.length_toList, hsize₁]
    rfl
  have hneeds : body₂.needsReturn = false :=
    Body.needsReturn_eq_false hlines₂ rfl (by simp [ht₂.block?_eq, hsize₂])
  have hfold : (deepStack n).instructions.foldlM (Body.evaluateNext .void) ⟨#[], t⟩ s =
      .ok body₂ s₃ := by
    rw [instructions_deepStack, List.foldlM_append, bind_eq_of_ok hstraight, List.foldlM_cons,
      bind_eq_of_ok hjump, List.foldlM_cons, bind_eq_of_ok hreturn]
    rfl
  have hevaluate : (deepStack n).evaluate {} sig t s = .ok body₂ s₃ := by
    have hvoid : ReturnType.ofOption sig.descriptor.returns = .void := by
      rw [hreturns]
      rfl
    simp only [evaluate, hvoid]
    rw [bind_eq_of_ok hfold, hneeds, Bool.and_false]
    rfl
  refine ⟨body₂, s₃, hevaluate, ?_, ht₂, laidOut_evaluate _ _ _ _ hevaluate⟩
  rw [hlines₂, hlines₁, List.append_assoc]
  rfl

namespace IsBody

variable {n : Nat} {body : Body}

theorem size_eq (h : IsBody n body) : body.lines.size = n + 4 := by
  rw [Body.size_eq_length h.instructions, List.length_append, length_straight]
  rfl

theorem codeSize_eq (h : IsBody n body) : body.codeSize = n + 6 := by
  have hsizes : ∀ line ∈ body.lines.toList, line.size = line.instruction.sizeAt 0 := by
    intro line hline
    have hmem := List.mem_map_of_mem (f := Line.instruction) hline
    rw [h.instructions, List.mem_append, List.mem_cons, List.mem_singleton] at hmem
    rw [Line.size]
    rcases hmem with hstraight | hjump | hreturn
    · have hplain := branch?_of_mem_straight hstraight
      cases hinsn : line.instruction with
      | operation op => rfl
      | branch b =>
          rw [hinsn] at hplain
          cases hplain
    · rw [hjump]
      rfl
    · rw [hreturn]
      rfl
  calc
    body.codeSize = (body.lines.toList.map Line.size).sum := h.laidOut.linesSize_eq
    _ = ((body.lines.toList.map Line.instruction).map fun insn => insn.sizeAt 0).sum := by
      rw [List.map_congr_left hsizes, List.map_map]
      rfl
    _ = n + 6 := by
      rw [h.instructions, straight]
      simp [Instruction.sizeAt, Operation.size, Branch.sizeAt, Jump.size]
      omega

end IsBody

theorem exists_layout {n : Nat} (hsize : n + 6 ≤ maxCodeSize) {sig : Signature}
    (hreturns : sig.descriptor.returns = none) (journal : Journal) :
    ∃ body journal', (deepStack n).layout {} sig journal = .ok body journal' ∧ IsBody n body := by
  obtain ⟨t, hdeclare, ht⟩ := exists_labels n
  obtain ⟨body, ⟨table, journal'⟩, hevaluate, hbody⟩ :=
    exists_evaluate n hreturns ht ⟨(deepStack n).arguments {} sig, journal⟩
  refine ⟨body, journal', ?_, hbody⟩
  have hfits : ¬ body.codeSize > maxCodeSize := by
    rw [hbody.codeSize_eq]
    exact Nat.not_lt.mpr hsize
  simp only [layout, hdeclare, hevaluate, if_neg hfits]

/-! ### Analysis -/

section Analysis

variable {n : Nat} {body : Body} {thisClass : BinaryName}

theorem IsBody.exists_line (h : IsBody n body) {i : Nat} {instruction : SymbolicInstruction}
    (hi : (straight n ++ [.branch (.jump .goto 1), .branch (.returns none)])[i]? =
      some instruction) :
    ∃ line, body.lines[i]? = some line ∧ line.instruction = instruction := by
  rw [← h.instructions, List.getElem?_map, Array.getElem?_toList] at hi
  exact Option.map_eq_some_iff.mp hi

theorem IsBody.exists_constant (h : IsBody n body) {i : Nat} (hi : i < 2) :
    ∃ line, body.lines[i]? = some line ∧ line.instruction = constant := by
  apply h.exists_line
  rw [straight, List.append_assoc, List.getElem?_append_left (by simpa using hi),
    List.getElem?_replicate, if_pos hi]

theorem IsBody.exists_copy (h : IsBody n body) {i : Nat} (hle : 2 ≤ i) (hlt : i < n + 2) :
    ∃ line, body.lines[i]? = some line ∧ line.instruction = copy := by
  apply h.exists_line
  rw [straight, List.append_assoc, List.getElem?_append_right (by simpa using hle),
    List.getElem?_append_left (by simp; omega), List.getElem?_replicate, if_pos (by simp; omega)]

theorem IsBody.exists_jump (h : IsBody n body) :
    ∃ line, body.lines[n + 2]? = some line ∧ line.instruction = .branch (.jump .goto 1) := by
  apply h.exists_line
  rw [List.getElem?_append_right (by rw [length_straight]), length_straight, Nat.sub_self]
  rfl

theorem IsBody.exists_return (h : IsBody n body) :
    ∃ line, body.lines[n + 3]? = some line ∧ line.instruction = .branch (.returns none) := by
  apply h.exists_line
  rw [List.getElem?_append_right (by rw [length_straight]; omega), length_straight,
    Nat.add_sub_add_left]
  rfl

/-- The constant as the first or the second instruction puts it on the stack. -/
abbrev zero (producer : Nat) : Value := ⟨.numeric .int, producer⟩

/-- The two constants, a number of times. -/
def stacked : Nat → Frame
  | 0 => .empty
  | k + 1 => ((stacked k).push (zero 0)).push (zero 1)

theorem depth_stacked (k : Nat) : (stacked k).depth = 2 * k := by
  induction k with
  | zero => rfl
  | succ k ih =>
      show (stacked k).depth + 1 + 1 = 2 * (k + 1)
      omega

theorem apply_constant (thisClass : BinaryName) {line : Line} (h : line.instruction = constant)
    (f : Frame) :
    line.apply thisClass f = .ok (f.push ⟨.numeric .int, line.id⟩) := by
  rw [Line.apply, h]
  rfl

theorem apply_copy (thisClass : BinaryName) {line : Line} (h : line.instruction = copy)
    {v w : Value} (hv : v.width = 1) (hw : w.width = 1) (f : Frame) :
    line.apply thisClass ((f.push v).push w) = .ok ((((f.push v).push w).push v).push w) := by
  have htake : line.take (.slots 2) 2 [] ((f.push v).push w).stack = .ok ([v, w], f.stack) := by
    rw [Line.take, if_neg (by decide)]
    simp only [Frame.push, SlotVec.pop?_push, Line.fits, hw]
    rw [if_pos (by decide), Line.take, if_neg (by decide)]
    simp only [SlotVec.pop?_push, Line.fits, hv]
    rw [if_pos (by decide), Line.take, if_pos (by decide)]
  have htakeAll : line.takeAll [.slots 2] ((f.push v).push w).stack = .ok ([[v, w]], f.stack) := by
    rw [Line.takeAll]
    show (line.take (.slots 2) 2 [] ((f.push v).push w).stack >>= _) = _
    rw [htake]
    rfl
  rw [Line.apply, h]
  show (line.takeAll [.slots 2] ((f.push v).push w).stack >>= _) = _
  rw [htakeAll]
  rfl

/-- An operation inside the first block. -/
theorem IsBody.step_operation (h : IsBody n body) {i : Nat} (hi : i < n + 2) {f f' : Frame}
    (p : Progress) {line : Line} {op : SymbolicOperation} (hline : body.lines[i]? = some line)
    (hop : line.instruction = .operation op) (happly : line.apply thisClass f = .ok f') :
    Analysis.Step body thisClass (.instruction 0 i f p)
      (.instruction 0 (i + 1) f' (p.simulated line f')) := by
  have htargets : line.targets = [] := by
    rw [Line.targets, hop]
    rfl
  refine .next ⟨hline, happly, ?_⟩ ?_ ?_ ?_
  · rw [htargets]
    rfl
  · rw [hop]
    rfl
  · rw [h.size_eq]
    omega
  · rw [h.labels.block?_eq, if_neg (by omega), if_neg (by omega)]

/-- The two constants are put on the stack. -/
theorem IsBody.exists_constants (h : IsBody n body) (thisClass : BinaryName) {p : Progress}
    (hmax : p.maxStack = 0) :
    ∃ q, Relation.ReflTransGen (Analysis.Step body thisClass)
        (.instruction 0 0 .empty p) (.instruction 0 2 (stacked 1) q) ∧
      q.frames = p.frames ∧ q.pending = p.pending ∧ q.maxStack = 2 := by
  obtain ⟨line, hline, hinsn⟩ := h.exists_constant (i := 0) (by decide)
  obtain ⟨line', hline', hinsn'⟩ := h.exists_constant (i := 1) (by decide)
  have happly := apply_constant thisClass hinsn .empty
  have happly' := apply_constant thisClass hinsn' (Frame.empty.push (zero 0))
  rw [h.laidOut.id_eq hline] at happly
  rw [h.laidOut.id_eq hline'] at happly'
  have hstep := h.step_operation (by omega) p hline hinsn happly
  have hstep' := h.step_operation (by omega) (p.simulated line (Frame.empty.push (zero 0)))
    hline' hinsn' happly'
  refine ⟨_, .tail (.single hstep) hstep', rfl, rfl, ?_⟩
  show max (max p.maxStack 1) 2 = 2
  rw [hmax]
  rfl

/-- They are copied a number of times. -/
theorem IsBody.exists_copies (h : IsBody n body) {p : Progress} (hmax : p.maxStack = 2) {k : Nat}
    (hk : k ≤ n) :
    ∃ q, Relation.ReflTransGen (Analysis.Step body thisClass)
        (.instruction 0 2 (stacked 1) p) (.instruction 0 (k + 2) (stacked (k + 1)) q) ∧
      q.frames = p.frames ∧ q.pending = p.pending ∧ q.maxStack = 2 * (k + 1) := by
  induction k with
  | zero => exact ⟨p, .refl, rfl, rfl, hmax⟩
  | succ k ih =>
      obtain ⟨q, hsteps, hframes, hpending, hmax'⟩ := ih (by omega)
      obtain ⟨line, hline, hinsn⟩ := h.exists_copy (i := k + 2) (by omega) (by omega)
      have happly := apply_copy (v := zero 0) (w := zero 1) thisClass hinsn rfl rfl (stacked k)
      have hstep := h.step_operation (by omega) q hline hinsn happly
      refine ⟨_, .tail hsteps hstep, hframes, hpending, ?_⟩
      show max q.maxStack (stacked (k + 2)).depth = 2 * (k + 2)
      rw [hmax', depth_stacked]
      omega

/-- The jump brings all of them to the return. -/
theorem IsBody.step_jump (h : IsBody n body) {f : Frame} {p : Progress}
    (hframe : p.frames[n + 3]? = some none) :
    ∃ q, Analysis.Step body thisClass (.instruction 0 (n + 2) f p) (.queue q) ∧
      q.frames = p.frames.setIfInBounds (n + 3) (some f) ∧
      q.pending = p.pending.push (n + 3) ∧ q.maxStack = max p.maxStack f.depth := by
  obtain ⟨line, hline, hinsn⟩ := h.exists_jump
  have happly : line.apply thisClass f = .ok f := by
    rw [Line.apply, hinsn]
    rfl
  have htargets : line.targets = [1] := by
    rw [Line.targets, hinsn]
    rfl
  have harrives : ∃ q, (p.simulated line f).propagate body.labels 1 f (some line) = .ok () q ∧
      q.frames = p.frames.setIfInBounds (n + 3) (some f) ∧
      q.pending = p.pending.push (n + 3) ∧ q.maxStack = max p.maxStack f.depth := by
    have hget : (p.simulated line f).frames[n + 3]? = some none := hframe
    simp only [Progress.propagate, h.labels.instruction_get, hget]
    exact ⟨_, rfl, rfl, rfl, rfl⟩
  obtain ⟨q, harrives, hq⟩ := harrives
  refine ⟨q, .leave ⟨hline, happly, ?_⟩ ?_, hq⟩
  · rw [htargets]
    simp only [Progress.propagateAll, harrives]
  · rw [hinsn]
    rfl

theorem IsBody.step_return (h : IsBody n body) {f : Frame} {p : Progress} :
    ∃ q, Analysis.Step body thisClass (.instruction (n + 3) (n + 3) f p) (.queue q) ∧
      q.frames = p.frames ∧ q.pending = p.pending ∧ q.maxStack = max p.maxStack f.depth := by
  obtain ⟨line, hline, hinsn⟩ := h.exists_return
  have happly : line.apply thisClass f = .ok f := by
    rw [Line.apply, hinsn]
    rfl
  have htargets : line.targets = [] := by
    rw [Line.targets, hinsn]
    rfl
  refine ⟨p.simulated line f, .leave ⟨hline, happly, ?_⟩ ?_, rfl, rfl, rfl⟩
  · rw [htargets]
    rfl
  · rw [hinsn]
    rfl

/-- The analysis of the method comes to its end, with all values on the stack at the jump. -/
theorem IsBody.exists_run (h : IsBody n body) (thisClass : BinaryName) {p : Progress}
    (hpending : p.pending = Queue.push {} 0) (hmax : p.maxStack = 0)
    (hframes : p.frames = (Array.replicate (n + 4) none).setIfInBounds 0 (some .empty)) :
    ∃ q, Analysis.run body thisClass p = .ok () q ∧ q.maxStack = 2 * (n + 1) ∧
      q.frame? 0 = some .empty ∧ q.frame? (n + 3) = some (stacked (n + 1)) := by
  have hpop : p.pending.pop? = some (0, {}) := by
    rw [hpending]
    rfl
  have hentry : p.frame? 0 = some .empty := Progress.frame?_set hframes (by simp)
  obtain ⟨q₁, hconstants, hframes₁, hpending₁, hmax₁⟩ := h.exists_constants thisClass
    (p := ({ p with pending := {} } : Progress).report (.simulating 0)) hmax
  obtain ⟨q₂, hcopies, hframes₂, hpending₂, hmax₂⟩ := h.exists_copies hmax₁ (Nat.le_refl n)
  have hopen : q₂.frames[n + 3]? = some none := by
    rw [hframes₂, hframes₁]
    show p.frames[n + 3]? = some none
    rw [hframes, Array.getElem?_setIfInBounds_ne (by omega), Array.getElem?_replicate,
      if_pos (by omega)]
  obtain ⟨q₃, hjump, hframes₃, hpending₃, hmax₃⟩ := h.step_jump hopen
  have hpop₃ : q₃.pending.pop? = some (n + 3, {}) := by
    rw [hpending₃, hpending₂, hpending₁]
    rfl
  have hframe₃ : q₃.frame? (n + 3) = some (stacked (n + 1)) :=
    (Progress.frame?_set hframes₃ (Array.getElem?_eq_some_iff.mp hopen).1).trans (if_pos rfl)
  obtain ⟨q₄, hreturn, hframes₄, hpending₄, hmax₄⟩ := h.step_return
  refine ⟨q₄, ?_, ?_, ?_, ?_⟩
  · have hsteps := Analysis.outcome_of_steps <|
      ((((hconstants.head (.enter hpop hentry)).trans hcopies).tail hjump).tail
        (.enter hpop₃ hframe₃)).tail hreturn
    have hnone : q₄.pending.pop? = none := by
      rw [hpending₄]
      rfl
    rw [Analysis.Point.outcome, Analysis.Point.outcome] at hsteps
    rw [hsteps, Analysis.run_eq]
    simp only [hnone]
  · rw [hmax₄]
    show max q₃.maxStack (stacked (n + 1)).depth = 2 * (n + 1)
    rw [hmax₃, hmax₂, depth_stacked]
    omega
  · rw [Progress.frame?, hframes₄]
    show q₃.frame? 0 = some .empty
    rw [Progress.frame?_set hframes₃ (Array.getElem?_eq_some_iff.mp hopen).1, if_neg (by omega),
      hframes₂, hframes₁]
    exact hentry
  · rw [Progress.frame?, hframes₄]
    exact hframe₃

/-- What the analysis of the method says. -/
structure IsAnalysis (n : Nat) (analysis : Analysis) : Prop where
  maxStack_eq : analysis.maxStack = 2 * (n + 1)
  frame?_zero : analysis.frame? 0 = some .empty
  frame?_one : analysis.frame? 1 = some (stacked (n + 1))

theorem IsBody.exists_analysis (h : IsBody n body) (thisClass : BinaryName) (journal : Journal) :
    ∃ analysis journal', Analysis.ofBody body thisClass .empty journal = .ok analysis journal' ∧
      IsAnalysis n analysis := by
  have hempty : body.lines.isEmpty = false := by
    rw [Array.isEmpty_eq_false_iff, ← Array.size_pos_iff, h.size_eq]
    omega
  have hfirst : (body.labels.get LabelTable.start).instruction = 0 := by
    rw [LabelTable.get, h.labels.labels_eq]
    rfl
  have hstart : ∃ p, (Progress.start body.lines.size .empty
        (journal.report (.analysing body.lines.size .empty))).propagate body.labels
          LabelTable.start .empty none = .ok () p ∧
      p.pending = Queue.push {} 0 ∧ p.maxStack = 0 ∧
      p.frames = (Array.replicate (n + 4) none).setIfInBounds 0 (some .empty) := by
    have hget : (Array.replicate (n + 4) (none : Option Frame))[0]? = some none := by
      rw [Array.getElem?_replicate, if_pos (by omega)]
    rw [h.size_eq]
    simp only [Progress.propagate, hfirst, Progress.start, hget]
    exact ⟨_, rfl, rfl, rfl, rfl⟩
  obtain ⟨p, hstart, hpending, hmax, hframes⟩ := hstart
  obtain ⟨q, hrun, hmax', hzero, hone⟩ := h.exists_run thisClass hpending hmax hframes
  refine ⟨(Analysis.conclude body q).2, (Analysis.conclude body q).1, ?_, hmax', ?_, ?_⟩
  · simp only [Analysis.ofBody, hempty, hstart, hrun, Bool.false_eq_true, if_false]
  · rw [Progress.frame?_conclude (by rw [h.labels.size_eq]; exact Nat.zero_lt_two)]
    exact (congrArg q.frame? hfirst).trans hzero
  · rw [Progress.frame?_conclude (by rw [h.labels.size_eq]; exact Nat.one_lt_two),
      h.labels.instruction_get, hone]

end Analysis

/-! ### Emission -/

section Emission

variable {n : Nat} {body : Body} {analysis : Analysis}

theorem IsBody.block_lt (h : IsBody n body) {i : Nat} {line : Line}
    (hline : body.lines[i]? = some line) : line.block < 2 := by
  induction i generalizing line with
  | zero =>
      have hblock : body.labels.block? 0 = some 0 := h.labels.block?_eq 0
      rw [h.laidOut.leads hline hblock]
      exact Nat.zero_lt_two
  | succ i ih =>
      by_cases hreturn : i + 1 = n + 3
      · have hblock : body.labels.block? (i + 1) = some 1 := by
          rw [h.labels.block?_eq, if_neg (Nat.succ_ne_zero i), if_pos hreturn]
        rw [h.laidOut.leads hline hblock]
        exact Nat.one_lt_two
      · have hblock : body.labels.block? (i + 1) = none := by
          rw [h.labels.block?_eq, if_neg (Nat.succ_ne_zero i), if_neg hreturn]
        obtain ⟨hlt, _⟩ := Array.getElem?_eq_some_iff.mp hline
        have hprevious : body.lines[i]? = some body.lines[i] :=
          Array.getElem?_eq_getElem (Nat.lt_of_succ_lt hlt)
        rw [(h.laidOut.continues hprevious hline hblock).1]
        exact ih hprevious

/-- All code is reached. -/
theorem IsBody.unreachedRanges_eq (h : IsBody n body) (ha : IsAnalysis n analysis) :
    body.unreachedRanges analysis = [] := by
  rw [List.eq_nil_iff_forall_not_mem]
  rintro ⟨offset, stop⟩ hrange
  obtain ⟨block, hblock, first, hfirst, hnone, _⟩ := Body.mem_unreachedRanges_iff.mp ⟨stop, hrange⟩
  obtain ⟨i, hi, _⟩ := Body.exists_block_iff.mp ⟨block, hblock, hfirst⟩
  have hlt := h.block_lt hi
  rcases (by omega : first.block = 0 ∨ first.block = 1) with heq | heq
  · rw [heq, ha.frame?_zero] at hnone
    cases hnone
  · rw [heq, ha.frame?_one] at hnone
    cases hnone

theorem IsBody.flatMap_targets (h : IsBody n body) :
    body.lines.toList.flatMap Line.targets = [1] := by
  have hstraight : (straight n).flatMap
      (fun insn => (insn.branch?.map Branch.targets).getD []) = [] := by
    rw [List.flatMap_eq_nil_iff]
    intro insn hinsn
    rw [branch?_of_mem_straight hinsn]
    rfl
  calc
    body.lines.toList.flatMap Line.targets =
        (body.lines.toList.map Line.instruction).flatMap
          (fun insn => (insn.branch?.map Branch.targets).getD []) := by
      rw [List.flatMap_map]
      rfl
    _ = [1] := by
      rw [h.instructions, List.flatMap_append, hstraight]
      rfl

/-- The label in front of the return, just behind the jump. -/
theorem IsBody.labelOffset?_eq (h : IsBody n body) {line : Line}
    (hline : body.lines[n + 2]? = some line) : body.labelOffset? 1 = some (line.offset + 3) := by
  obtain ⟨target, htarget, _⟩ := h.exists_return
  obtain ⟨jump, hjump, hinsn⟩ := h.exists_jump
  cases hline.symm.trans hjump
  have hsize : line.size = 3 := by
    rw [Line.size, hinsn]
    rfl
  rw [Body.labelOffset?, h.labels.instruction_get, htarget, Option.map_some,
    h.laidOut.offset_eq htarget, h.laidOut.offset_eq hline, List.take_add_one, Array.getElem?_toList, hline]
  simp [hsize]

theorem locals_stacked (k : Nat) : (stacked k).locals = #[] := by
  induction k with
  | zero => rfl
  | succ k ih => exact ih

theorem stackTypes_stacked (k : Nat) :
    StackMap.stackTypes (stacked k) = List.replicate (2 * k) (.numeric .int) := by
  induction k with
  | zero => rfl
  | succ k ih =>
      rw [StackMap.stackTypes] at ih ⊢
      rw [stacked, Frame.push, Frame.push, SlotVec.toList_push, SlotVec.toList_push, List.map_append,
        List.map_append, ih, Nat.mul_succ, List.replicate_succ', List.replicate_succ']
      rfl

theorem IsBody.exists_encode (h : IsBody n body) {i : Nat} {line : Line}
    (hline : body.lines[i]? = some line) (s : ClassState) :
    ∃ bytes s', line.encode body s = .ok bytes s' := by
  have hlt : i < n + 4 := by
    rw [← h.size_eq]
    exact (Array.getElem?_eq_some_iff.mp hline).1
  by_cases hconstant : i < 2
  · obtain ⟨_, hfound, hinsn⟩ := h.exists_constant hconstant
    cases hline.symm.trans hfound
    rw [Line.encode, Line.resolve, hinsn]
    exact ⟨_, _, rfl⟩
  · by_cases hcopy : i < n + 2
    · obtain ⟨_, hfound, hinsn⟩ := h.exists_copy (Nat.not_lt.mp hconstant) hcopy
      cases hline.symm.trans hfound
      rw [Line.encode, Line.resolve, hinsn]
      exact ⟨_, _, rfl⟩
    · rcases (by omega : i = n + 2 ∨ i = n + 3) with rfl | rfl
      · obtain ⟨_, hfound, hinsn⟩ := h.exists_jump
        cases hline.symm.trans hfound
        have hdistance : line.distance body 1 = .ok 3 := by
          rw [Line.distance, h.labelOffset?_eq hline]
          simp
        have hresolve : line.resolveBranch body (.jump .goto 1) = .ok (.jump .goto 3) := by
          show (do
            let resolved ← (do return Branch.jump .goto (← line.distance body 1))
            _) = _
          rw [hdistance]
          rfl
        rw [Line.encode, Line.resolve, hinsn]
        simp only [hresolve]
        exact ⟨_, _, rfl⟩
      · obtain ⟨_, hfound, hinsn⟩ := h.exists_return
        cases hline.symm.trans hfound
        rw [Line.encode, Line.resolve, hinsn]
        exact ⟨_, _, rfl⟩

/-- The stack map has one entry, for the label. -/
theorem IsBody.exists_build (h : IsBody n body) (ha : IsAnalysis n analysis) (initial : Frame) :
    ∃ offset delta, StackMap.build initial
        (body.mapTargets analysis (body.unreachedRanges analysis)) =
      [(offset, .full delta [] (List.replicate (2 * (n + 1)) (.numeric .int)))] := by
  obtain ⟨line, hline, _⟩ := h.exists_jump
  have htargets : body.mapTargets analysis (body.unreachedRanges analysis) =
      [(line.offset + 3, stacked (n + 1))] := by
    rw [Body.mapTargets, h.unreachedRanges_eq ha, h.flatMap_targets]
    simp [h.labelOffset?_eq hline, ha.frame?_one]
  have hbyOffset : (StackMap.byOffset [(line.offset + 3, stacked (n + 1))]).toList =
      [(line.offset + 3, stacked (n + 1))] := rfl
  have hlocals : StackMap.localTypes (stacked (n + 1)).locals.toList = [] := by
    rw [locals_stacked, StackMap.localTypes, StackMap.reversedTypes]
    rfl
  rw [htargets, StackMap.build, hbyOffset, StackMap.entries, StackMap.entries, StackMap.entryAfter,
    stackTypes_stacked, hlocals]
  exact ⟨_, _, rfl⟩

/-- Nothing is added to the pool for numbers. -/
theorem exists_resolveEntry (body : Body) (offset : Nat) (delta : UInt16) (count : Nat)
    (s : ClassState) :
    ∃ entry s', body.resolveEntry
      (offset, .full delta [] (List.replicate count (.numeric .int))) s = .ok entry s' := by
  have hnumbers : ∀ type ∈ List.replicate count (.numeric .int : SymbolicType), ∀ s : ClassState,
      ∃ resolved s', type.traverse
        (fun type => Emission.interning (ConstantPool.internClass type))
        (fun site => (return body.siteOffset site : Emission UInt16)) s = .ok resolved s' := by
    intro type htype s
    rw [List.eq_of_mem_replicate htype]
    exact ⟨_, s, rfl⟩
  obtain ⟨types, s', htypes⟩ := exists_mapM_eq_result hnumbers
    ⟨s.pool, s.journal.report
      (.mapEntry offset (.full delta [] (List.replicate count (.numeric .int))))⟩
  exact ⟨.full delta [] types, s', bind_eq_of_ok htypes⟩

theorem IsBody.exists_emit (h : IsBody n body) (ha : IsAnalysis n analysis) (initial : Frame)
    (s : ClassState) :
    ∃ code stackMap s', body.emit initial analysis s = .ok (code, stackMap) s' := by
  obtain ⟨offset, delta, hbuild⟩ := h.exists_build ha initial
  obtain ⟨stackMap, s₁, hstackMap⟩ : ∃ stackMap s₁,
      (StackMap.build initial (body.mapTargets analysis (body.unreachedRanges analysis))).mapM
        body.resolveEntry s = .ok stackMap s₁ := by
    apply exists_mapM_eq_result
    intro entry hentry s
    rw [hbuild, List.mem_singleton] at hentry
    subst hentry
    exact exists_resolveEntry body offset delta (2 * (n + 1)) s
  obtain ⟨encoded, s₂, hencoded⟩ : ∃ encoded s₂, body.encode s₁ = .ok encoded s₂ := by
    apply exists_mapM_eq_result
    intro line hline s
    obtain ⟨i, hi⟩ := List.mem_iff_getElem?.mp hline
    obtain ⟨bytes, s', hbytes⟩ := h.exists_encode (Array.getElem?_toList.symm.trans hi) s
    exact ⟨_, _, bind_eq_of_ok hbytes⟩
  refine ⟨Body.code analysis encoded, stackMap, s₂, ?_⟩
  rw [Body.emit, bind_eq_of_ok hstackMap, bind_eq_of_ok hencoded, h.unreachedRanges_eq ha]
  rfl

end Emission

theorem exists_signature (n : Nat) :
    ∃ sig, (deepStack n).signature = .ok sig ∧ sig.descriptor = ⟨[], none⟩ := by
  have hsignature : (deepStack n).signature = (ofBody []).signature := rfl
  have hdescriptor : (ofBody []).signature.toOption.map Signature.descriptor =
      some ⟨[], none⟩ := by
    decide +kernel
  rw [hsignature]
  cases hfound : (ofBody []).signature with
  | error e =>
      rw [hfound] at hdescriptor
      cases hdescriptor
  | ok sig =>
      rw [hfound] at hdescriptor
      exact ⟨sig, rfl, Option.some.inj hdescriptor⟩

end DeepStack

open DeepStack in
/-- The method compiles as long as its code is not too long, whatever depth its stack has. -/
theorem exists_compile_deepStack {n : Nat} (h : n + 6 ≤ maxCodeSize) :
    ∃ compiled s', (deepStack n).compile {} ⟨.empty, {}⟩ = .ok compiled s' ∧
      compiled.maxStack = 2 * (n + 1) ∧
      ∃ entry ∈ compiled.stackMap, entry.stack.length = 2 * (n + 1) := by
  obtain ⟨sig, hsignature, hdescriptor⟩ := exists_signature n
  have hentry : Frame.onEntry (deepStack n).owner (deepStack n).isStatic sig = .empty := by
    have hstatic : (deepStack n).isStatic = true := by
      show (ofBody []).isStatic = true
      decide +kernel
    rw [Frame.onEntry, hstatic, hdescriptor]
    rfl
  obtain ⟨body, journal, hlayout, hbody⟩ := exists_layout h (by rw [hdescriptor])
    (({} : Journal).report (.compiling (deepStack n).owner sig.name (deepStack n).descriptor))
  obtain ⟨analysis, journal', hanalysis, ha⟩ :=
    hbody.exists_analysis (deepStack n).owner journal
  obtain ⟨code, stackMap, s', hemit⟩ := hbody.exists_emit ha .empty ⟨.empty, journal'⟩
  have hprepare : (deepStack n).prepare {} {} = .ok ⟨sig, body, analysis⟩ journal' := by
    rw [prepare, hsignature]
    show ((deepStack n).layout {} sig >>= _) _ = _
    rw [bind_eq_of_ok hlayout, hentry, bind_eq_of_ok hanalysis]
    rfl
  have hfinish : ∃ compiled s', (deepStack n).finish ⟨sig, body, analysis⟩ ⟨.empty, journal'⟩ =
      .ok compiled s' := by
    rw [finish, hentry, bind_eq_of_ok hemit]
    exact ⟨_, _, rfl⟩
  obtain ⟨compiled, s'', hfinish⟩ := hfinish
  obtain ⟨rfl, rfl, _, _, _, _, hcompiles, _⟩ := compiles_of_finish hprepare hfinish
  refine ⟨compiled, s'', ?_, ?_, ?_⟩
  · rw [compile_eq, bind_eq_of_ok (Emission.journaling_of_ok hprepare _), hfinish]
  · rw [hcompiles.maxStack_eq, Body.stackRoom, hbody.unreachedRanges_eq ha, ← ha.maxStack_eq]
    rfl
  · obtain ⟨offset, delta, hbuild⟩ := hbody.exists_build ha
      (Frame.onEntry (deepStack n).owner (deepStack n).isStatic compiled.signature)
    have hall := hcompiles.forall₂_stackMap
    rw [hbuild] at hall
    obtain ⟨entry, rest, hentry, _, heq⟩ := List.forall₂_cons_left_iff.mp hall
    exact ⟨entry, heq ▸ List.mem_cons_self, hentry.stack.trans List.length_replicate⟩

/-- Room for the stack is written with 16 bits, and so is the length of a stack in the stack map. A
method with more on its stack is compiled as any other. -/
theorem not_fitsFields_deepStack :
    ∃ compiled s', (deepStack 32767).compile {} ⟨.empty, {}⟩ = .ok compiled s' ∧
      compiled.maxStack = 65536 ∧ ¬compiled.FitsFields ∧
      ∃ bytes, compiled.stackMapBytes = .ok bytes ∧
        StackMap.read bytes ≠ some compiled.stackMap := by
  obtain ⟨compiled, s', hcompile, hmax, entry, hentry, hlength⟩ :=
    exists_compile_deepStack (n := 32767) (by decide)
  obtain ⟨_, _, _, _, _, hcompiles, _, _⟩ := exists_compiles hcompile
  obtain ⟨bytes, hbytes, hread⟩ := hcompiles.exists_stackMapBytes
  refine ⟨compiled, s', hcompile, hmax, fun hfits => ?_, bytes, hbytes, fun heq => ?_⟩
  · have hle := hfits.maxStack_le
    omega
  · have hle := hread.mp heq entry hentry
    omega

end WrittenMethod

end JvmAssembler
