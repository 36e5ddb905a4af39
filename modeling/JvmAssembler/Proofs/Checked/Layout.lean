import JvmAssembler.Proofs.Checked.Analysis

/-! Arguments are counted in slots of 16 bits, new locals get slots of 16 bits, and the operands of
switches are counted down from their number. All of these numbers are exact. -/

namespace JvmAssembler.Checked

/-- The slot after a value. -/
def advance (index : UInt16) (width : Nat) : Option UInt16 := uint16 (index.toNat + width)

/-- Puts parameters into locals, from a slot on. -/
def setParameters (f : Frame) (index : UInt16) : List FieldType → Option Frame
  | [] => some f
  | type :: rest => do
    let f ← setLocal f index ⟨.ofField type, none⟩
    setParameters f (← advance index type.width) rest

/-- The frame on entry to a method. -/
def onEntry (owner : BinaryName) (isStatic : Bool) (s : Signature) : Option Frame :=
  if isStatic then setParameters .empty 0 s.descriptor.parameters
  else do
    let f ← setLocal .empty 0 ⟨Frame.receiver owner s.name, none⟩
    setParameters f (← advance 0 1) s.descriptor.parameters

/-- Adds the locals of parameters, from a slot and a number of parameters before. -/
def addParameters (locals : Array Local) (index : UInt16) (number : Nat) :
    List FieldType → Option (Array Local)
  | [] => some locals
  | type :: rest => do
    let parameter := ⟨"arg" ++ Text.zeroPadded 5 number, index, type, true⟩
    addParameters (locals.push parameter) (← advance index type.width) (number + 1) rest

/-- Locals before the first instruction. -/
def arguments (m : WrittenMethod) (settings : Settings) (s : Signature) : Option LocalTable := do
  let locals ←
    if m.isStatic then addParameters #[] 0 0 s.descriptor.parameters
    else do
      let receiver := ⟨"this", 0, .object m.owner, true⟩
      addParameters #[receiver] (← advance 0 1) 0 s.descriptor.parameters
  return { locals, warnShort := settings.warnShort }

theorem advance_eq (index : UInt16) (width : Nat) (h : index.toNat + width < 0x10000) :
    ∃ after, advance index width = some after ∧ after.toNat = index.toNat + width :=
  ⟨_, uint16_eq h, UInt16.toNat_ofNat_of_lt' h⟩

theorem setParameters_eq {types : List FieldType} (f : Frame) {index : UInt16}
    (h : index.toNat + total FieldType.width types < 0x10000) :
    setParameters f index types = some (f.setParameters index.toNat types) := by
  induction types generalizing f index with
  | nil => rfl
  | cons type rest ih =>
      rw [total_cons] at h
      obtain ⟨after, hadvance, hafter⟩ := advance_eq index type.width (by omega)
      rw [setParameters, setLocal_eq, hadvance, Frame.setParameters, UInt16.ofNat_toNat, ← hafter]
      exact ih _ (by omega)

theorem addParameters_eq {types : List FieldType} (locals : Array Local) {index : UInt16}
    (number : Nat) (h : index.toNat + total FieldType.width types < 0x10000) :
    addParameters locals index number types =
      some (LocalTable.addParameters locals index.toNat number types) := by
  induction types generalizing locals index number with
  | nil => rfl
  | cons type rest ih =>
      rw [total_cons] at h
      obtain ⟨after, hadvance, hafter⟩ := advance_eq index type.width (by omega)
      rw [addParameters, hadvance, LocalTable.addParameters, UInt16.ofNat_toNat, ← hafter]
      exact ih _ _ (by omega)

section Arguments

variable {m : WrittenMethod} {s : Signature}

theorem slots_fit (h : m.signature = .ok s) :
    (if m.isStatic then 0 else 1) + total FieldType.width s.descriptor.parameters < 0x10000 := by
  have hslots := (WrittenMethod.signature_spec h).2
  unfold MethodDescriptor.argumentSlots maxArgumentSlots at hslots
  cases hstatic : m.isStatic with
  | true =>
      rw [hstatic] at hslots
      exact Nat.lt_of_le_of_lt hslots (by decide)
  | false =>
      rw [hstatic] at hslots
      exact Nat.lt_of_le_of_lt hslots (by decide)

theorem onEntry_eq (h : m.signature = .ok s) :
    onEntry m.owner m.isStatic s = some (Frame.onEntry m.owner m.isStatic s) := by
  have hfit := slots_fit h
  unfold onEntry Frame.onEntry
  cases hstatic : m.isStatic with
  | true =>
      rw [hstatic] at hfit
      exact setParameters_eq .empty hfit
  | false =>
      rw [hstatic] at hfit
      simp only [setLocal_eq]
      exact setParameters_eq _ hfit

theorem arguments_eq (settings : Settings) (h : m.signature = .ok s) :
    arguments m settings s = some (m.arguments settings s) := by
  have hfit := slots_fit h
  unfold arguments WrittenMethod.arguments
  cases hstatic : m.isStatic with
  | true =>
      rw [hstatic] at hfit
      have hlocals : addParameters #[] 0 0 s.descriptor.parameters = some _ :=
        addParameters_eq #[] 0 hfit
      simp only [hlocals]
      rfl
  | false =>
      rw [hstatic] at hfit
      have hlocals : addParameters #[⟨"this", 0, .object m.owner, true⟩] 1 0
          s.descriptor.parameters = some _ := addParameters_eq _ 0 hfit
      have hadvance : advance 0 1 = some 1 := rfl
      simp only [hadvance, Option.bind_eq_bind, Option.bind_some, hlocals]
      rfl

end Arguments

/-- Declares the local that a store writes first. -/
def declareNew (reference : LocalRef) (insn : WrittenInstruction) (default : FieldType) :
    Checked CompileError LocalState Local := do
  let type ← LocalM.declaredType insn default
  let (name, index) ← LocalM.placeNew reference insn
  if index + type.width > maxLocals then
    (throw (.illegal insn.position insn.mnemonic (.localTooHigh name type index)) : LocalM Local)
  else do
    let created : Local := ⟨name, ← uint16 index, type, false⟩
    LocalM.report (.declaredLocal insn.position name created.index type)
    (modify fun s => { s with table := { s.table with locals := s.table.locals.push created } } :
      LocalM Unit)
    return created

/-- The local that a store writes. -/
def resolveStore (reference : LocalRef) (insn : WrittenInstruction) (default : FieldType) :
    Checked CompileError LocalState Local := fun s =>
  if (s.table.find? reference).isSome then some (LocalM.resolveStore reference insn default s)
  else declareNew reference insn default s

def store (insn : WrittenInstruction) (kind : ValueKind) (index : Option UInt16) :
    Checked CompileError LocalState SymbolicOperation := do
  let reference ← Evaluate.localReference insn index
  let found ← resolveStore reference insn (Evaluate.defaultType kind)
  let form ← Evaluate.localForm insn found kind index.isSome
  return .store kind found.index form

theorem declareNew_agrees (reference : LocalRef) (insn : WrittenInstruction)
    (default : FieldType) :
    Agrees (declareNew reference insn default) (LocalM.declareNew reference insn default) := by
  refine .bind (.lift _) fun _ type _ _ => .bind (.lift _) fun _ place _ _ => ?_
  dsimp only
  split
  · exact fun _ => rfl
  · rename_i hfits
    have hindex : place.2 < 0x10000 := by
      unfold maxLocals at hfits
      omega
    refine .check (uint16_eq hindex) ?_
    exact .bind (.lift _) fun _ _ _ _ => .bind (.lift _) fun _ _ _ _ => .pure _

theorem resolveStore_agrees (reference : LocalRef) (insn : WrittenInstruction)
    (default : FieldType) :
    Agrees (resolveStore reference insn default) (LocalM.resolveStore reference insn default) := by
  intro s
  unfold resolveStore
  cases hfind : s.table.find? reference with
  | some found => rfl
  | none =>
      have hget : (get : LocalM LocalState) s = .ok s s := rfl
      have hdeclare : LocalM.resolveStore reference insn default s =
          LocalM.declareNew reference insn default s := by
        simp only [LocalM.resolveStore, bind, EStateM.bind, hget, hfind]
      rw [hdeclare]
      exact declareNew_agrees reference insn default s

theorem store_agrees (insn : WrittenInstruction) (kind : ValueKind) (index : Option UInt16) :
    Agrees (store insn kind index) (Evaluate.store insn kind index) := by
  refine .bind (.lift _) fun _ reference _ _ => .bind (resolveStore_agrees _ _ _) fun _ _ _ _ => ?_
  exact .bind (.lift _) fun _ _ _ _ => .pure _

/-- Written `tableswitch low target... default`. -/
def tableSwitch (scope : Evaluate.Scope) (insn : WrittenInstruction) :
    Checked CompileError LocalState SymbolicBranch := do
  insn.rejectWide
  let low ← insn.int32 0 "low key"
  let count := insn.operands.size
  if count < 3 then (throw (insn.illegal .tableTooShort) : LocalM SymbolicBranch)
  else do
    let last ← sub count 1
    let length ← sub last 1
    let targets ← ((List.range' 1 length).mapM (Evaluate.target scope insn) :
      Except CompileError (List Nat))
    let default ← Evaluate.target scope insn last
    if low.toInt + (targets.length - 1) > 2147483647 then
      (throw (insn.illegal .tableTooLong) : LocalM SymbolicBranch)
    else return .tableSwitch default low targets

/-- Written `lookupswitch (key target)... default`. -/
def lookupSwitch (scope : Evaluate.Scope) (insn : WrittenInstruction) :
    Checked CompileError LocalState SymbolicBranch := do
  insn.rejectWide
  let count := insn.operands.size
  if count % 2 = 0 then (throw (insn.illegal .unpairedKeys) : LocalM SymbolicBranch)
  else do
    let last ← sub count 1
    let targets ← ((List.range (count / 2)).mapM fun i => Evaluate.keyedTarget scope insn (2 * i) :
      Except CompileError (List (Int32 × Nat)))
    let default ← Evaluate.target scope insn last
    let sorted := targets.mergeSort fun a b => a.1 ≤ b.1
    match Evaluate.repeatedKey? sorted with
    | some key => (throw (insn.illegal (.repeatedKey key)) : LocalM SymbolicBranch)
    | none => return .lookupSwitch default sorted

theorem tableSwitch_agrees (scope : Evaluate.Scope) (insn : WrittenInstruction) :
    Agrees (tableSwitch scope insn) (liftM (Evaluate.tableSwitch scope insn)) := by
  refine .bind_lift (.lift _) fun _ _ => .bind_lift (.lift _) fun low _ => ?_
  dsimp only
  split
  · exact fun _ => rfl
  · rename_i hcount
    refine .check (sub_eq (by omega)) (.check (sub_eq (by omega)) ?_)
    refine .bind_lift (.lift _) fun targets _ => .bind_lift (.lift _) fun default _ => ?_
    split
    · exact fun _ => rfl
    · exact fun _ => rfl

theorem lookupSwitch_agrees (scope : Evaluate.Scope) (insn : WrittenInstruction) :
    Agrees (lookupSwitch scope insn) (liftM (Evaluate.lookupSwitch scope insn)) := by
  refine .bind_lift (.lift _) fun _ _ => ?_
  dsimp only
  split
  · exact fun _ => rfl
  · rename_i hcount
    refine .check (sub_eq (by omega)) ?_
    refine .bind_lift (.lift _) fun targets _ => .bind_lift (.lift _) fun default _ => ?_
    cases Evaluate.repeatedKey? (targets.mergeSort fun a b => a.1 ≤ b.1) with
    | some key => exact fun _ => rfl
    | none => exact fun _ => rfl

/-- Fills in the operands of a written instruction. -/
def fill (scope : Evaluate.Scope) (insn : WrittenInstruction) :
    Template → Checked CompileError LocalState SymbolicInstruction
  | .store kind index => return .operation (← store insn kind index)
  | .tableSwitch => return .branch (← tableSwitch scope insn)
  | .lookupSwitch => return .branch (← lookupSwitch scope insn)
  | template => template.evaluate scope insn

/-- The instruction that a written one stands for. -/
def evaluate (insn : WrittenInstruction) (scope : Evaluate.Scope) :
    Checked CompileError LocalState SymbolicInstruction :=
  match Template.ofMnemonic? insn.mnemonic with
  | some template => fill scope insn template
  | none => (throw (insn.illegal .unknownMnemonic) : LocalM SymbolicInstruction)

theorem fill_agrees (scope : Evaluate.Scope) (insn : WrittenInstruction) (template : Template) :
    Agrees (fill scope insn template) (template.evaluate scope insn) := by
  cases template with
  | store kind index => exact .bind (store_agrees insn kind index) fun _ _ _ _ => .pure _
  | tableSwitch => exact .bind (tableSwitch_agrees scope insn) fun _ _ _ _ => .pure _
  | lookupSwitch => exact .bind (lookupSwitch_agrees scope insn) fun _ _ _ _ => .pure _
  | _ => exact .lift _

theorem evaluate_agrees (insn : WrittenInstruction) (scope : Evaluate.Scope) :
    Agrees (evaluate insn scope) (insn.evaluate scope) := by
  unfold evaluate WrittenInstruction.evaluate
  cases Template.ofMnemonic? insn.mnemonic with
  | some template => exact fill_agrees scope insn template
  | none => exact .lift _

/-- Adds the instruction that a written one stands for. -/
def evaluateNext (returns : ReturnType) (body : Body) (insn : WrittenInstruction) :
    Checked CompileError LocalState Body := do
  let instruction ← evaluate insn ⟨returns, body.labels, body.lines.size⟩
  LocalM.report (.instruction body.lines.size insn.mnemonic body.codeSize)
  return body.push insn.mnemonic insn.position instruction

/-- Evaluates all instructions. -/
def evaluateAll (m : WrittenMethod) (settings : Settings) (s : Signature) (labels : LabelTable) :
    Checked CompileError LocalState Body := do
  let returns := ReturnType.ofOption s.descriptor.returns
  let body ← m.instructions.foldlM (evaluateNext returns) ⟨#[], labels⟩
  if settings.implicitReturn && s.descriptor.returns.isNone && body.needsReturn then
    body.addReturn m.position
  else return body

/-- The body of a method. -/
def layout (m : WrittenMethod) (settings : Settings) (s : Signature) :
    Checked CompileError Journal Body := fun journal =>
  match LabelTable.empty.declareAll 0 m.body with
  | .error e => some (.error e journal)
  | .ok labels => do
    let table ← arguments m settings s
    match ← evaluateAll m settings s labels ⟨table, journal⟩ with
    | .error e ⟨_, journal⟩ => return .error e journal
    | .ok body ⟨_, journal⟩ =>
      if body.codeSize > maxCodeSize then do
        let last ← sub body.lines.size 1
        return .error (.outOfRange last m.position (.codeSize body.codeSize)) journal
      else return .ok body journal

theorem evaluateAll_agrees (m : WrittenMethod) (settings : Settings) (s : Signature)
    (labels : LabelTable) :
    Agrees (evaluateAll m settings s labels) (m.evaluate settings s labels) := by
  refine .bind (.foldlM (fun body insn => ?_) _ _) fun _ body _ _ => ?_
  · refine .bind (evaluate_agrees _ _) fun _ _ _ _ => ?_
    exact .bind (.lift _) fun _ _ _ _ => .pure _
  · split
    · exact .lift _
    · exact .pure _

/-- Code that is too long has a last instruction. -/
theorem one_le_size_of_codeSize {body : Body} (h : body.codeSize > maxCodeSize) :
    1 ≤ body.lines.size := by
  apply Nat.pos_of_ne_zero
  intro hsize
  rw [Body.codeSize, Array.eq_empty_of_size_eq_zero hsize] at h
  exact absurd h (by decide)

theorem layout_agrees {m : WrittenMethod} {s : Signature} (h : m.signature = .ok s)
    (settings : Settings) : Agrees (layout m settings s) (m.layout settings s) := by
  intro journal
  unfold layout WrittenMethod.layout
  cases LabelTable.empty.declareAll 0 m.body with
  | error e => rfl
  | ok labels =>
      simp only [arguments_eq settings h, evaluateAll_agrees m settings s labels _,
        Option.bind_eq_bind, Option.bind_some]
      cases m.evaluate settings s labels ⟨m.arguments settings s, journal⟩ with
      | error e s' => rfl
      | ok body s' =>
          dsimp only
          split
          · rename_i hsize
            rw [sub_eq (one_le_size_of_codeSize hsize)]
            rfl
          · rfl

end JvmAssembler.Checked
