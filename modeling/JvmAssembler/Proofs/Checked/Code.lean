import JvmAssembler.Proofs.Checked.StackMap
import Mathlib.Algebra.GroupWithZero.Nat

/-! Distances and counts are signed numbers of 32 bits, and code that is not reached is overwritten
in place. For the body of a method all of these numbers are exact, but for the number after the last
key of a table, and all places that are written are in range. -/

namespace JvmAssembler

/-- There is a number of 32 bits after the last key of a table. -/
def Branch.RoomAbove {ℓ : Type} : Branch ℓ → Prop
  | tableSwitch _ low targets => low.toInt + targets.length ≤ 2147483647
  | _ => True

def Instruction.RoomAbove {κ ℓ : Type} : Instruction κ ℓ → Prop
  | operation _ => True
  | branch b => b.RoomAbove

/-- The last key of a written table. Its operands are the first key, the targets and the default. -/
def WrittenInstruction.lastKey? (insn : WrittenInstruction) : Option Int :=
  match Template.ofMnemonic? insn.mnemonic, (insn.operands[0]? : Option Operand) with
  | some .tableSwitch, some (.number low) => some (low.toInt + (insn.operands.size - 3))
  | _, _ => none

theorem Branch.roomAbove_of_related {ℓ ℓ' : Type} {R : ℓ → ℓ' → Prop} {b : Branch ℓ}
    {b' : Branch ℓ'} (h : b.Related R b') (hroom : b.RoomAbove) : b'.RoomAbove := by
  cases h with
  | tableSwitch _ _ htargets =>
      rw [RoomAbove, ← htargets.length_eq]
      exact hroom
  | jump | lookupSwitch | returns | throws => trivial

theorem Instruction.roomAbove_ofPlain (insn : Instruction Empty Empty) :
    (Instruction.ofPlain insn : SymbolicInstruction).RoomAbove := by
  cases insn with
  | operation op => trivial
  | branch b =>
      cases b with
      | tableSwitch default => exact default.elim
      | _ => trivial

namespace Evaluate

variable {scope : Scope} {insn : WrittenInstruction}

theorem exists_of_int32 {index : Nat} {what : String} {n : Int32}
    (h : insn.int32 index what = .ok n) :
    ∃ value : Int64, insn.operands[index]? = some (.number value) ∧ n.toInt = value.toInt := by
  obtain ⟨value, hinteger, rfl⟩ := exists_of_map_eq_ok h
  obtain ⟨number, hnumber, h⟩ := exists_of_bind_eq_ok hinteger
  obtain ⟨operand, hoperand, hkind⟩ := exists_of_bind_eq_ok hnumber
  dsimp only at h
  split at h
  · rename_i hrange
    cases h
    refine ⟨number, ?_, Int32.toInt_ofInt_of_le (by omega) (by omega)⟩
    unfold WrittenInstruction.operand at hoperand
    cases operand with
    | number value =>
        cases hkind
        split at hoperand
        · rename_i hget
          cases hoperand
          exact hget
        · cases hoperand
    | _ => cases hkind
  · cases h

theorem roomAbove_tableSwitch {b : SymbolicBranch}
    (hmnemonic : Template.ofMnemonic? insn.mnemonic = some .tableSwitch)
    (hkey : insn.lastKey? ≠ some 2147483647) (h : tableSwitch scope insn = .ok b) :
    b.RoomAbove := by
  obtain ⟨_, _, h⟩ := exists_of_bind_eq_ok h
  obtain ⟨low, hlow, h⟩ := exists_of_bind_eq_ok h
  dsimp only at h
  split at h
  · cases h
  · rename_i hcount
    obtain ⟨targets, htargets, h⟩ := exists_of_bind_eq_ok h
    obtain ⟨default, hdefault, h⟩ := exists_of_bind_eq_ok h
    split at h
    · cases h
    · rename_i hkeys
      cases h
      obtain ⟨value, hvalue, hlow⟩ := exists_of_int32 hlow
      have hlength : insn.operands.size - 2 = targets.length := by
        rw [← (forall₂_of_mapM_eq_ok htargets).length_eq, List.length_range']
      have hlast : insn.lastKey? = some (value.toInt + (insn.operands.size - 3)) := by
        rw [WrittenInstruction.lastKey?, hmnemonic, hvalue]
      rw [hlast, Ne, Option.some.injEq] at hkey
      show low.toInt + targets.length ≤ 2147483647
      omega

end Evaluate

/-- Evaluation leaves room above the keys of tables, if a written table does. -/
theorem WrittenInstruction.roomAbove_evaluate {insn : WrittenInstruction}
    (hkey : insn.lastKey? ≠ some 2147483647) (scope : Evaluate.Scope) :
    Yields Instruction.RoomAbove (insn.evaluate scope) := by
  unfold evaluate
  split
  · rename_i template htemplate
    cases template with
    | tableSwitch =>
        refine .bind (.lift fun _ => Evaluate.roomAbove_tableSwitch htemplate hkey) fun _ hb => ?_
        exact .pure hb
    | plain instruction => exact .of_bind fun _ => .pure (Instruction.roomAbove_ofPlain instruction)
    | jump op =>
        refine .bind (P := Branch.RoomAbove) (.lift ?_) fun _ hb => .pure hb
        exact .of_bind fun _ => .of_bind fun _ => .pure trivial
    | lookupSwitch =>
        refine .bind (P := Branch.RoomAbove) (.lift (.of_bind fun _ => ?_)) fun _ hb => .pure hb
        dsimp only
        split
        · exact .throw _
        · refine .of_bind fun _ => .of_bind fun _ => ?_
          split
          · exact .throw _
          · exact .pure trivial
    | returns kind =>
        refine .bind (P := Branch.RoomAbove) (.lift (.of_bind fun _ => ?_)) fun _ hb => .pure hb
        split
        · exact .pure trivial
        · exact .throw _
    | _ => exact .of_bind fun _ => .pure trivial
  · rintro s a s' ⟨⟩

theorem Line.roomAbove_of_resolve {line : Line} {body : Body} {s s' : ClassState} {b : Branch Int32}
    (hroom : line.instruction.RoomAbove) (h : line.resolve body s = .ok (.branch b) s') :
    b.RoomAbove := by
  obtain ⟨written, hwritten, hrelated⟩ := exists_branch_of_resolve h
  rw [hwritten] at hroom
  exact Branch.roomAbove_of_related hrelated hroom

namespace Checked

section Traversals

variable {ε σ κ κ' ℓ ℓ' : Type}

theorem Agrees.traverse_operation {f : κ → Checked ε σ κ'} {f' : κ → EStateM ε σ κ'}
    (h : ∀ constant, Agrees (f constant) (f' constant)) (op : Operation κ) :
    Agrees (op.traverse f) (op.traverse f') := by
  cases op with
  | ldc _ constant | field _ constant | invoke _ constant | classUse _ constant
  | multiArray constant => exact .bind (h constant) fun _ _ _ _ => .pure _
  | _ => exact .pure _

theorem Agrees.traverse_branch {f : ℓ → Checked CompileError σ ℓ'} {f' : ℓ → Except CompileError ℓ'}
    {b : Branch ℓ} (h : ∀ target ∈ b.targets, Agrees (f target) (liftM (f' target))) :
    Agrees (b.traverse f) (liftM (b.traverse f')) := by
  cases b with
  | jump op target => exact .bind_lift (h target List.mem_cons_self) fun _ _ _ => rfl
  | tableSwitch default low targets =>
      refine .bind_lift (h default List.mem_cons_self) fun _ _ => ?_
      refine .bind_lift (.mapM_lift fun target htarget => ?_) fun _ _ _ => rfl
      exact h target (List.mem_cons_of_mem _ htarget)
  | lookupSwitch default targets =>
      refine .bind_lift (h default List.mem_cons_self) fun _ _ => ?_
      refine .bind_lift (.mapM_lift fun entry hentry => ?_) fun _ _ _ => rfl
      refine .bind_lift (h entry.2 (List.mem_cons_of_mem _ ?_)) fun _ _ _ => rfl
      exact List.mem_map_of_mem hentry
  | returns | throws => exact fun _ => rfl

end Traversals

/-- An operation with the indices of its constants. -/
def resolveOperation (line : Line) (op : SymbolicOperation) :
    Checked CompileError ClassState (Operation UInt16) := do
  let resolved ← op.traverse fun constant => interning (intern constant)
  if let .ldc .narrow index := resolved then
    if index > 255 then
      (throw (.outOfRange line.id line.position (.ldcIndex index.toNat)) : Emission Unit)
  return resolved

/-- The distance from an instruction to a label. -/
def distance (line : Line) (body : Body) (label : Nat) : Checked CompileError ClassState Int32 := do
  let found ← body.labels.labels[label]?
  match body.lines[found.instruction]? with
  | some target => do
    let stop ← int32 target.offset
    let start ← int32 line.offset
    int32 (stop.toInt - start.toInt)
  | none =>
    (throw (.unknownJump line.id line.position found.name (some label)) : Emission Int32)

/-- A branch with distances. -/
def resolveBranch (line : Line) (body : Body) (branch : SymbolicBranch) :
    Checked CompileError ClassState (Branch Int32) := do
  let resolved ← branch.traverse (distance line body)
  match resolved with
  | .jump .gotoWide _ => return resolved
  | .jump _ distance =>
    if -32768 ≤ distance ∧ distance ≤ 32767 then return resolved
    else
      (throw (.outOfRange line.id line.position (.jump line.mnemonic distance.toInt)) :
        Emission (Branch Int32))
  | _ => return resolved

def resolve (line : Line) (body : Body) : Checked CompileError ClassState ResolvedInstruction :=
  match line.instruction with
  | .operation op => return .operation (← resolveOperation line op)
  | .branch b => return .branch (← resolveBranch line body b)

/-- The bytes of a branch at an offset. The last key of a table is found from the number after it,
which may not exist. -/
def encodeBranch (offset : Nat) : Branch Int32 → Option (Except EncodeError (List UInt8))
  | .tableSwitch default low targets => do
    let count ← int32 targets.length
    let after ← int32 (low.toInt + count.toInt)
    let last ← int32 (after.toInt - 1)
    return .ok (0xAA :: List.replicate (switchPadding offset) 0 ++ Bytes.ofInt32 default
      ++ Bytes.ofInt32 low ++ Bytes.ofInt32 last ++ targets.flatMap Bytes.ofInt32)
  | .lookupSwitch default targets => do
    let count ← int32 targets.length
    return .ok (0xAB :: List.replicate (switchPadding offset) 0 ++ Bytes.ofInt32 default
      ++ Bytes.ofInt32 count
      ++ targets.flatMap fun (key, target) => Bytes.ofInt32 key ++ Bytes.ofInt32 target)
  | b => some (b.encodeAt offset)

def encodeInstruction (offset : Nat) :
    ResolvedInstruction → Option (Except EncodeError (List UInt8))
  | .operation op => some op.encode
  | .branch b => encodeBranch offset b

/-- The bytes of an instruction. -/
def encode (line : Line) (body : Body) : Checked CompileError ClassState (List UInt8) := do
  let resolved ← resolve line body
  let bytes ← encodeInstruction line.offset resolved
  (bytes.mapError CompileError.encoding : Except CompileError (List UInt8))

/-- The bytes of all instructions. -/
def encodeAll (body : Body) : Checked CompileError ClassState (List (Line × List UInt8)) :=
  body.lines.toList.mapM fun line => return (line, ← encode line body)

theorem resolveOperation_agrees (line : Line) (op : SymbolicOperation) :
    Agrees (resolveOperation line op) (line.resolveOperation op) := by
  refine .bind (.traverse_operation (fun constant => (intern_agrees constant).interning) op)
    fun _ resolved _ _ => ?_
  cases resolved with
  | ldc form index =>
      cases form with
      | narrow =>
          dsimp only
          split
          · exact fun _ => rfl
          · exact fun _ => rfl
      | _ => exact fun _ => rfl
  | _ => exact fun _ => rfl

theorem encodeBranch_eq {offset : Nat} {b : Branch Int32} (hsize : b.sizeAt offset ≤ 2147483647)
    (hkeys : b.KeysFit) (hroom : b.RoomAbove) :
    encodeBranch offset b = some (b.encodeAt offset) := by
  cases b with
  | tableSwitch default low targets =>
      obtain ⟨hne, _⟩ := hkeys
      have hpos : 0 < targets.length := List.length_pos_of_ne_nil hne
      have hroom : low.toInt + targets.length ≤ 2147483647 := hroom
      have hlow := low.le_toInt
      rw [Branch.sizeAt] at hsize
      obtain ⟨count, hcount, hcount'⟩ := exists_int32 (n := targets.length) (by omega)
      obtain ⟨after, hafter, hafter'⟩ := exists_int32 (n := low.toInt + count.toInt) (by omega)
      obtain ⟨last, hlast, hlast'⟩ := exists_int32 (n := after.toInt - 1) (by omega)
      have heq : last = low + Int32.ofNat targets.length - 1 := by
        rw [← last.ofInt_toInt, hlast', hafter', hcount', Int32.ofInt_sub, Int32.ofInt_add,
          Int32.ofInt_toInt, Int32.ofInt_eq_ofNat]
        rfl
      simp only [encodeBranch, Branch.encodeAt, hcount, hafter, hlast, heq, Option.bind_eq_bind,
        Option.bind_some]
      rfl
  | lookupSwitch default targets =>
      rw [Branch.sizeAt] at hsize
      have hcount : int32 targets.length = some (Int32.ofNat targets.length) := by
        rw [int32_eq (by omega), Int32.ofInt_eq_ofNat]
      simp only [encodeBranch, hcount]
      rfl
  | _ => rfl

-- There is no number after the largest key.
example : encodeBranch 0 (.tableSwitch 0 2147483647 [0]) = none := by decide

section Body

variable {body : Body} (hlaid : body.LaidOut) (hsize : body.codeSize ≤ maxCodeSize)
  (hroom : body.Each Instruction.RoomAbove) {line : Line} (hline : line ∈ body.lines.toList)

include hlaid hsize hline

theorem stop_le_of_mem : line.stop ≤ 65535 := by
  obtain ⟨i, hi⟩ := List.getElem?_of_mem hline
  exact (hlaid.stop_le (Array.getElem?_toList.symm.trans hi)).trans hsize

theorem distance_agrees {label : Nat} (hlabel : label < body.labels.size) :
    Agrees (distance line body label) (liftM (line.distance body label)) := by
  refine .check (LabelTable.getElem?_of_lt hlabel) ?_
  unfold Line.distance Body.labelOffset?
  cases htarget : body.lines[(body.labels.get label).instruction]? with
  | none => exact fun _ => rfl
  | some target =>
      have hsource := stop_le_of_mem hlaid hsize hline
      have htarget' := stop_le_of_mem hlaid hsize
        (List.mem_of_getElem? (Array.getElem?_toList.trans htarget))
      rw [Line.stop] at hsource htarget'
      obtain ⟨stop, hstop, hstop'⟩ := exists_int32 (n := target.offset) (by omega)
      obtain ⟨start, hstart, hstart'⟩ := exists_int32 (n := line.offset) (by omega)
      refine .check hstop (.check hstart (.of_eq_some ?_))
      rw [int32_eq (by omega), hstop', hstart']

theorem resolveBranch_agrees {b : SymbolicBranch} (hb : line.instruction = .branch b) :
    Agrees (resolveBranch line body b) (liftM (line.resolveBranch body b)) := by
  obtain ⟨i, hi⟩ := List.getElem?_of_mem hline
  have hlabel : ∀ label ∈ b.targets, label < body.labels.size := by
    intro label hlabel
    refine hlaid.target_lt (Array.getElem?_toList.symm.trans hi) ?_
    rw [Line.targets, hb]
    exact hlabel
  refine .bind_lift (.traverse_branch fun label htarget => ?_) fun resolved _ => ?_
  · exact distance_agrees hlaid hsize hline (hlabel label htarget)
  · cases resolved with
    | jump op distance =>
        cases op with
        | gotoWide => exact fun _ => rfl
        | _ =>
            dsimp only
            split
            · exact fun _ => rfl
            · exact fun _ => rfl
    | _ => exact fun _ => rfl

theorem resolve_agrees : Agrees (resolve line body) (line.resolve body) := by
  unfold resolve Line.resolve
  cases hinsn : line.instruction with
  | operation op => exact .bind (resolveOperation_agrees line op) fun _ _ _ _ => .pure _
  | branch b =>
      exact .bind (resolveBranch_agrees hlaid hsize hline hinsn) fun _ _ _ _ => .pure _

include hroom

theorem encode_agrees : Agrees (encode line body) (line.encode body) := by
  refine .bind (resolve_agrees hlaid hsize hline) fun s resolved s' hresolve => ?_
  have hbytes : encodeInstruction line.offset resolved = some (resolved.encodeAt line.offset) := by
    cases resolved with
    | operation op => rfl
    | branch b =>
        obtain ⟨written, hwritten, hrelated⟩ := Line.exists_branch_of_resolve hresolve
        obtain ⟨i, hi⟩ := List.getElem?_of_mem hline
        have hregular := hlaid.regular (Array.getElem?_toList.symm.trans hi)
        have hstop := stop_le_of_mem hlaid hsize hline
        have hwidth : line.size = b.sizeAt line.offset := by
          rw [Line.size, hwritten, hrelated.sizeAt_eq]
          rfl
        rw [Line.stop] at hstop
        exact encodeBranch_eq (by omega) (Line.keysFit_of_resolve hregular hresolve b rfl)
          (Line.roomAbove_of_resolve (hroom line hline) hresolve)
  exact .check hbytes (.lift _)

omit hline in
theorem encodeAll_agrees : Agrees (encodeAll body) body.encode :=
  .mapM fun _ hline => .bind (encode_agrees hlaid hsize hroom hline) fun _ _ _ _ => .pure _

end Body

end Checked

/-! ### Replaced code -/

namespace Body

/-- The offsets of a block that no path reaches. -/
def unreachedRange? (analysis : Analysis) : List Line → Option (Nat × Nat)
  | [] => none
  | first :: rest =>
    if (analysis.frame? first.block).isSome then none
    else some (first.offset, ((first :: rest).getLast (List.cons_ne_nil _ _)).stop)

theorem unreachedRanges_eq (body : Body) (analysis : Analysis) :
    body.unreachedRanges analysis = body.blocks.filterMap (unreachedRange? analysis) := by
  refine List.filterMap_congr fun block _ => ?_
  cases block with
  | nil => rfl
  | cons first rest =>
      rw [List.head?_cons, List.getLast?_eq_getLast_of_ne_nil (List.cons_ne_nil _ _)]
      simp only [unreachedRange?]
      cases analysis.frame? first.block <;> rfl

end Body

namespace Checked

/-- Writes zeros over the bytes from an offset up to another one. -/
def clear (code : List UInt8) (first stop : Nat) : Option (List UInt8) :=
  if first ≤ stop ∧ stop ≤ code.length then
    some (code.take first ++ List.replicate (stop - first) 0x00 ++ code.drop stop)
  else none

/-- Overwrites a range of code by code that does nothing and throws in the end. -/
def replace (code : List UInt8) (range : Nat × Nat) : Option (List UInt8) := do
  let last ← sub range.2 1
  let code ← clear code range.1 last
  if last < code.length then some (code.set last 0xBF) else none

theorem replace_append {bytes : List UInt8} (hpos : 0 < bytes.length)
    (before after : List UInt8) :
    replace (before ++ (bytes ++ after)) (before.length, before.length + bytes.length) =
      some (before ++ (Body.filler bytes.length ++ after)) := by
  obtain ⟨init, last, rfl⟩ : ∃ init last, bytes = init ++ [last] :=
    ⟨_, _, (List.dropLast_append_getLast (List.ne_nil_of_length_pos hpos)).symm⟩
  have hlast : sub (before.length + (init ++ [last]).length) 1 =
      some (before.length + init.length) := by
    rw [sub_eq (by omega)]
    simp
  have hclear : clear (before ++ ((init ++ [last]) ++ after)) before.length
      (before.length + init.length) =
        some (before ++ (List.replicate init.length 0x00 ++ last :: after)) := by
    rw [clear, if_pos (by simp)]
    simp [List.drop_append]
  simp only [replace, hlast, hclear, Option.bind_eq_bind, Option.bind_some]
  rw [if_pos (by simp)]
  simp [Body.filler]

theorem replace_block (analysis : Analysis) {group : List (Line × List UInt8)} (hne : group ≠ [])
    (hchain : group.IsChain fun a b => Body.sameBlock a b = true)
    (hlengths : ∀ entry ∈ group, entry.2.length = entry.1.size) {before : List UInt8}
    (hconsecutive : Body.Consecutive before.length (group.map Prod.fst)) (after : List UInt8) :
    (Body.unreachedRange? analysis (group.map Prod.fst)).toList.foldlM replace
        (before ++ (group.flatMap Prod.snd ++ after)) =
      some (before ++ (Body.blockCode analysis group ++ after)) := by
  have hbytes := (Body.length_blockCode analysis hne hlengths).1
  obtain ⟨first, rest, rfl⟩ := List.exists_cons_of_ne_nil hne
  rw [Body.blockCode_of_isChain hchain, List.map_cons, Body.unreachedRange?]
  split
  · rfl
  · have hpos : 0 < ((first :: rest).flatMap Prod.snd).length := by
      have hfirst : 0 < first.1.size := Instruction.sizeAt_pos _ _
      rw [hbytes, List.map_cons, List.sum_cons]
      omega
    have hstop : (List.getLast (first.1 :: rest.map Prod.fst) (List.cons_ne_nil _ _)).stop =
        before.length + ((first :: rest).flatMap Prod.snd).length := by
      rw [hconsecutive.stop_eq (List.getLast?_eq_getLast_of_ne_nil (List.cons_ne_nil _ _)), hbytes,
        List.map_map]
      rfl
    have hoffset : first.1.offset = before.length := hconsecutive.1
    rw [Option.toList_some, List.foldlM_cons, hoffset, hstop, replace_append hpos]
    rfl

/-- Overwriting in place gives the code that is put together block by block. The blocks before are
done already. -/
theorem foldlM_replace (analysis : Analysis) {groups : List (List (Line × List UInt8))}
    (before : List UInt8) (hne : [] ∉ groups)
    (hchain : ∀ group ∈ groups, group.IsChain fun a b => Body.sameBlock a b = true)
    (hlengths : ∀ group ∈ groups, ∀ entry ∈ group, entry.2.length = entry.1.size)
    (hconsecutive : Body.Consecutive before.length (groups.flatten.map Prod.fst)) :
    ((groups.map (List.map Prod.fst)).filterMap (Body.unreachedRange? analysis)).foldlM replace
        (before ++ groups.flatten.flatMap Prod.snd) =
      some (before ++ groups.flatMap (Body.blockCode analysis)) := by
  rw [List.filterMap_eq_flatMap_toList]
  induction groups generalizing before with
  | nil => rfl
  | cons group groups ih =>
      have hgroup : group ≠ [] := fun hnil => hne (hnil ▸ List.mem_cons_self)
      rw [List.flatten_cons, List.map_append] at hconsecutive
      obtain ⟨hfirst, hrest⟩ := hconsecutive.append
      have hlength := (Body.length_blockCode analysis hgroup (hlengths _ List.mem_cons_self)).2
      have hstep := replace_block analysis hgroup (hchain _ List.mem_cons_self)
        (hlengths _ List.mem_cons_self) hfirst (groups.flatten.flatMap Prod.snd)
      have hrun := ih (before ++ Body.blockCode analysis group)
        (fun h => hne (List.mem_cons_of_mem _ h))
        (fun g hg => hchain g (List.mem_cons_of_mem _ hg))
        (fun g hg => hlengths g (List.mem_cons_of_mem _ hg)) (by
          rw [List.length_append, hlength]
          rw [List.map_map] at hrest
          exact hrest)
      rw [List.flatten_cons, List.flatMap_append, List.map_cons, List.flatMap_cons,
        List.foldlM_append, hstep, List.flatMap_cons, ← List.append_assoc, ← List.append_assoc]
      exact hrun

theorem replace_unreached {body : Body} (hlaid : body.LaidOut) (analysis : Analysis)
    {encoded : List (Line × List UInt8)} {s s' : ClassState}
    (h : body.encode s = .ok encoded s') :
    (body.unreachedRanges analysis).foldlM replace (encoded.flatMap Prod.snd) =
      some (Body.code analysis encoded) := by
  obtain ⟨hlines, hlengths⟩ := Body.encode_spec h
  have hflatten := List.flatten_splitBy Body.sameBlock encoded
  have hblocks : body.blocks = (encoded.splitBy Body.sameBlock).map (List.map Prod.fst) := by
    rw [Body.blocks, ← hlines, splitBy_map]
  have hreplace := foldlM_replace analysis [] (List.nil_notMem_splitBy Body.sameBlock encoded)
    (fun _ hgroup => List.isChain_of_mem_splitBy hgroup)
    (fun _ hgroup entry hentry => hlengths entry (by
      rw [← hflatten]
      exact List.mem_flatten_of_mem hgroup hentry))
    (by
      rw [hflatten, hlines]
      exact hlaid.consecutive)
  rw [hflatten, ← hblocks, ← Body.unreachedRanges_eq] at hreplace
  exact hreplace

end Checked

end JvmAssembler
