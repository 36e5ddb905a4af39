import JvmAssembler.Proofs.Analysis.StackBound
import JvmAssembler.Proofs.Checked.Layout
import JvmAssembler.Proofs.Frame.Contents
import JvmAssembler.Proofs.Frame.LocalAccess
import JvmAssembler.Proofs.Instruction.Template
import JvmAssembler.Proofs.StackMap.Targets

/-! Evaluation refuses a store past the last slot that a method can have, and a method with too many
arguments is refused before. So no frame of a method that is laid out has more locals than a method
can have. -/

namespace JvmAssembler

namespace Operation

/-- A store is within the slots that a method can have. -/
def StoresFit {κ : Type} : Operation κ → Prop
  | store kind index _ => index.toNat + kind.width ≤ maxLocals
  | _ => True

theorem storesFit_map {κ κ' : Type} {op : Operation κ} (h : op.StoresFit) (f : κ → κ') :
    (op.map f).StoresFit := by
  cases op <;> exact h

end Operation

def Instruction.StoresFit {κ ℓ : Type} : Instruction κ ℓ → Prop
  | operation op => op.StoresFit
  | branch _ => True

theorem Instruction.storesFit_ofPlain {κ ℓ : Type} {insn : Instruction Empty Empty}
    (h : insn.StoresFit) : (Instruction.ofPlain insn : Instruction κ ℓ).StoresFit := by
  cases insn with
  | operation op => exact Operation.storesFit_map h _
  | branch b => trivial

namespace Template

/-- Instructions without operands store nothing that does not fit. -/
def StoresFit : Template → Prop
  | plain instruction => instruction.StoresFit
  | _ => True

variable {mnemonic : String} {template : Template}

theorem Family.storesFit (f : Family) : ∀ t ∈ f.templates, t.StoresFit := by
  cases f <;>
    simp only [templates, List.flatten_cons, List.flatten_nil, List.append_nil, List.forall_mem_cons,
      List.forall_mem_append, List.forall_mem_map, List.forall_mem_flatMap] <;>
    simp [operation, StoresFit, Instruction.StoresFit, Operation.StoresFit]

theorem storesFit_ofMnemonic? (h : ofMnemonic? mnemonic = some template) : template.StoresFit := by
  obtain ⟨f, hmem⟩ := exists_mem_templates_of_ofMnemonic? h
  exact f.storesFit template hmem

theorem storesFit_operation {x : Except CompileError SymbolicOperation}
    (h : Gives Operation.StoresFit x) :
    Yields Instruction.StoresFit (do return .operation (← x) : LocalM SymbolicInstruction) :=
  .bind (.lift h) fun _ hop => .pure hop

/-- The slot of a store is checked when its form is chosen. -/
theorem fits_of_localForm {insn : WrittenInstruction} {found : Local} {kind : ValueKind}
    {short : Bool} :
    Gives (fun _ => found.index.toNat + kind.width ≤ maxLocals)
      (Evaluate.localForm insn found kind short) := by
  intro form h
  simp only [Evaluate.localForm] at h
  split at h
  · cases h
  · rename_i hfits
    exact Nat.le_of_not_gt hfits

theorem storesFit_evaluate (h : template.StoresFit) (scope : Evaluate.Scope)
    (insn : WrittenInstruction) :
    Yields Instruction.StoresFit (template.evaluate scope insn) := by
  cases template with
  | plain instruction => exact .of_bind fun _ => .pure (Instruction.storesFit_ofPlain h)
  | store kind index =>
      refine .bind (P := Operation.StoresFit) ?_ fun _ hop => .pure hop
      refine .of_bind fun reference => .of_bind fun found => ?_
      exact .bind (.lift fits_of_localForm) fun _ hfits => .pure hfits
  | load kind index =>
      refine .bind (P := Operation.StoresFit) (.of_bind fun _ => ?_) fun _ hop => .pure hop
      dsimp only
      split
      · exact .of_bind fun _ => .of_bind fun _ => .of_bind fun _ => .pure trivial
      · exact .of_bind fun _ => .of_bind fun _ => .pure trivial
  | increment =>
      refine .bind (P := Operation.StoresFit) ?_ fun _ hop => .pure hop
      refine .of_bind fun _ => .of_bind fun _ => .of_bind fun _ => .of_bind fun _ => ?_
      refine .of_bind fun _ => ?_
      dsimp only
      split
      · exact .pure trivial
      · exact .of_bind fun _ => .pure trivial
  | returns | jump | tableSwitch | lookupSwitch => exact .of_bind fun _ => .pure trivial
  | bytePush | shortPush =>
      exact storesFit_operation (.of_bind fun _ => .of_bind fun _ => .pure trivial)
  | ldc | field =>
      refine storesFit_operation (.of_bind fun _ => .of_bind fun _ => ?_)
      exact .of_bind fun _ => .pure trivial
  | invoke kind =>
      refine storesFit_operation (.of_bind fun _ => .of_bind fun _ => .of_bind fun _ => ?_)
      exact .of_bind fun _ => .of_bind fun _ => .of_bind fun _ => .of_bind fun _ => .pure trivial
  | classUse action =>
      refine storesFit_operation (.of_bind fun _ => .of_bind fun _ => .of_bind fun _ => ?_)
      dsimp only
      split
      · exact .of_bind fun _ => .pure trivial
      · exact .pure trivial
  | newArray =>
      refine storesFit_operation (.of_bind fun _ => .of_bind fun _ => ?_)
      split
      · exact .pure trivial
      · exact .throw _
  | multiArray =>
      refine storesFit_operation (.of_bind fun _ => .of_bind fun _ => .of_bind fun _ => ?_)
      refine .of_bind fun _ => ?_
      dsimp only
      split
      · exact .of_bind fun _ => .pure trivial
      · exact .pure trivial

end Template

theorem WrittenInstruction.storesFit_evaluate (insn : WrittenInstruction) (scope : Evaluate.Scope) :
    Yields Instruction.StoresFit (insn.evaluate scope) := by
  unfold evaluate
  split
  · rename_i template htemplate
    exact Template.storesFit_evaluate (Template.storesFit_ofMnemonic? htemplate) scope insn
  · rintro s a s' ⟨⟩

theorem WrittenMethod.storesFit_of_layout {m : WrittenMethod} {settings : Settings}
    (s : Signature) : Yields (Body.Each Instruction.StoresFit) (m.layout settings s) :=
  each_of_layout (fun insn _ scope => insn.storesFit_evaluate scope) trivial

/-- The local that an effect stores to. -/
def Effect.stores? : Effect → Option UInt16
  | unchanged => none
  | change c => c.store

theorem Effect.stores?_ofInvoke (kind : InvokeKind) (constant : Constant) :
    (ofInvoke kind constant).stores? = none := by
  cases constant with
  | method method =>
      cases kind with
      | special =>
          rw [ofInvoke]
          split <;> rfl
      | _ => rfl
  | _ => rfl

/-- Only stores store. -/
theorem Instruction.stores?_effect (insn : SymbolicInstruction) :
    insn.effect.stores? = none ∨ ∃ kind index form, insn = .operation (.store kind index form) := by
  cases insn with
  | branch b =>
      left
      cases b with
      | jump op target => cases op <;> rfl
      | returns kind => cases kind <;> rfl
      | _ => rfl
  | operation op =>
      cases op with
      | store kind index form => exact .inr ⟨kind, index, form, rfl⟩
      | ldc form constant => exact .inl (by cases constant <;> rfl)
      | stack op => exact .inl (by cases op <;> rfl)
      | field access constant => exact .inl (by cases access <;> cases constant <;> rfl)
      | invoke kind constant => exact .inl (Effect.stores?_ofInvoke kind constant)
      | classUse action constant =>
          left
          cases action with
          | new =>
              cases constant with
              | classRef type => cases type <;> rfl
              | _ => rfl
          | _ => cases constant <;> rfl
      | _ => exact .inl rfl

namespace Line

variable {line : Line} {thisClass : BinaryName} {f f' : Frame}

theorem size_of_apply_of_stores?_eq_none (hnone : line.instruction.effect.stores? = none)
    (h : line.apply thisClass f = .ok f') : f'.locals.size = f.locals.size := by
  rcases apply_cases h with rfl | ⟨c, groups, stack, heffect, _, hpushes⟩
  · rfl
  · rw [heffect] at hnone
    have hstore : c.store = none := hnone
    have hsize := size_initializeReceiver thisClass groups c.initializes { f with stack := stack }
    refine pushAll_keeps (P := fun g => g.locals.size = f.locals.size) ?_ ?_ hpushes
    · rw [hstore]
      exact hsize
    · intro pushed _ g g' hg hpush
      rw [locals_of_push hpush]
      exact hg

theorem size_of_store {kind : ValueKind} {index : UInt16} {form : LocalForm}
    (hline : line.instruction = .operation (.store kind index form))
    (h : line.apply thisClass f = .ok f') :
    f'.locals.size = max f.locals.size (index.toNat + kind.width) := by
  rw [apply, hline] at h
  obtain ⟨⟨groups, stack⟩, htake, h⟩ := exists_of_bind_eq_ok h
  obtain ⟨⟨group, rest⟩, hgroup, htake⟩ := exists_of_bind_eq_ok htake
  rw [ValueKind.width_movedValue] at hgroup
  obtain ⟨v, rfl, hwidth⟩ := take_movedValue hgroup
  cases htake
  cases h
  rw [← hwidth]
  exact Frame.size_setLocal _ index v

theorem size_le_of_apply (hfits : line.instruction.StoresFit)
    (hf : f.locals.size ≤ maxLocals) (h : line.apply thisClass f = .ok f') :
    f'.locals.size ≤ maxLocals := by
  rcases line.instruction.stores?_effect with hnone | ⟨kind, index, form, hline⟩
  · rw [size_of_apply_of_stores?_eq_none hnone h]
    exact hf
  · rw [hline] at hfits
    rw [size_of_store hline h]
    exact Nat.max_le.mpr ⟨hf, hfits⟩

end Line

theorem Body.frameInvariant_size {body : Body} (h : body.Each Instruction.StoresFit)
    (thisClass : BinaryName) :
    Progress.FrameInvariant body thisClass fun _ f => f.locals.size ≤ maxLocals where
  step := by
    intro i j line f f' hline hf happly _
    exact Line.size_le_of_apply
      (h line (List.mem_of_getElem? (Array.getElem?_toList.trans hline))) hf happly
  join := by
    intro i f g hf _ _
    exact Nat.le_trans (Nat.le_of_eq Array.size_mapIdx) hf

namespace Frame

theorem size_setParameters_le (f : Frame) (index : Nat) (types : List FieldType) :
    (f.setParameters index types).locals.size ≤
      max f.locals.size (index + total FieldType.width types) := by
  induction types generalizing f index with
  | nil => exact Nat.le_max_left _ _
  | cons type rest ih =>
      have hwidth : (⟨.ofField type, none⟩ : Value).width = type.width := by
        cases type with
        | base type => cases type <;> rfl
        | _ => rfl
      have hindex : (UInt16.ofNat index).toNat ≤ index := by
        rw [UInt16.toNat_ofNat']
        exact Nat.mod_le _ _
      refine Nat.le_trans (ih _ _) ?_
      rw [size_setLocal, hwidth, total_cons]
      omega

theorem size_onEntry_le (owner : BinaryName) (isStatic : Bool) (s : Signature) :
    (onEntry owner isStatic s).locals.size ≤ s.descriptor.argumentSlots (!isStatic) := by
  cases isStatic with
  | true =>
      have hsize := size_setParameters_le empty 0 s.descriptor.parameters
      have hempty : empty.locals.size = 0 := rfl
      rw [hempty, Nat.zero_max] at hsize
      exact hsize
  | false =>
      have hsize := size_setParameters_le (empty.setLocal 0 ⟨receiver owner s.name, none⟩) 1
        s.descriptor.parameters
      have hone : (⟨receiver owner s.name, none⟩ : Value).width = 1 := by
        unfold receiver
        split <;> rfl
      have hreceiver : (empty.setLocal 0 ⟨receiver owner s.name, none⟩).locals.size = 1 := by
        rw [size_setLocal, hone]
        rfl
      rw [hreceiver, Nat.max_eq_right (Nat.le_add_right 1 _)] at hsize
      exact hsize

end Frame

namespace WrittenMethod.Compiles

variable {m : WrittenMethod} {settings : Settings} {compiled : CompiledMethod}
  {analysis : Analysis} {encoded : List (Line × List UInt8)} {s₀ s₁ s₂ : ClassState}

theorem storesFit (h : m.Compiles settings compiled analysis encoded s₀ s₁ s₂) :
    compiled.body.Each Instruction.StoresFit := by
  obtain ⟨_, _, hlayout⟩ := h.layout
  exact storesFit_of_layout compiled.signature _ _ _ hlayout

theorem size_onEntry_le (h : m.Compiles settings compiled analysis encoded s₀ s₁ s₂) :
    (Frame.onEntry m.owner m.isStatic compiled.signature).locals.size ≤ maxLocals :=
  calc
    _ ≤ compiled.signature.descriptor.argumentSlots (!m.isStatic) := Frame.size_onEntry_le _ _ _
    _ ≤ maxArgumentSlots := (signature_spec h.signature).2
    _ ≤ maxLocals := by decide

/-- The frames of a stack map have no more locals than a method can have. -/
theorem size_le_of_mapFrames (h : m.Compiles settings compiled analysis encoded s₀ s₁ s₂)
    {offset : Nat} {f : Frame} (hf : (compiled.body.mapFrames analysis)[offset]? = some f) :
    f.locals.size ≤ maxLocals := by
  obtain ⟨p, hp⟩ := h.exists_concludes
  obtain ⟨i, line, _, _, ⟨_, hframe⟩ | ⟨_, _, rfl⟩⟩ := h.laidOut.mapFrames_cases hp hf
  · exact hp.meets (Body.frameInvariant_size h.storesFit m.owner) h.size_onEntry_le i f hframe
  · exact Nat.zero_le _

end WrittenMethod.Compiles

namespace Analysis

open Progress

variable {body : Body} {thisClass : BinaryName} {initial : Frame} {journal : Journal}
  {a b : Point}

theorem Executes.maxLocals_le {i : Nat} {f f' : Frame} {p q : Progress} {line : Line}
    (h : Executes body thisClass i f p line f' q) (hstores : body.Each Instruction.StoresFit)
    (hp : p.maxLocals ≤ JvmAssembler.maxLocals) (hf : f.locals.size ≤ JvmAssembler.maxLocals) :
    q.maxLocals ≤ JvmAssembler.maxLocals := by
  have hline := hstores line (List.mem_of_getElem? (Array.getElem?_toList.trans h.hline))
  rw [h.maxLocals_eq]
  exact Nat.max_le.mpr ⟨hp, Line.size_le_of_apply hline hf h.happly⟩

theorem Step.maxLocals_le (h : Step body thisClass a b)
    (hstores : body.Each Instruction.StoresFit)
    (ha : a.progress.maxLocals ≤ JvmAssembler.maxLocals)
    (hframes : a.Meets fun _ f => f.locals.size ≤ JvmAssembler.maxLocals) :
    b.progress.maxLocals ≤ JvmAssembler.maxLocals := by
  cases h with
  | enter hpop hframe => exact ha
  | skip hpop hframe => exact ha
  | next hexecutes hfalls hend hnext => exact hexecutes.maxLocals_le hstores ha hframes.2
  | fall hexecutes hfalls hend hnext harrives =>
      have hroom := (room_of_propagate harrives).2
      exact hroom ▸ hexecutes.maxLocals_le hstores ha hframes.2
  | leave hexecutes hstops => exact hexecutes.maxLocals_le hstores ha hframes.2

theorem Reaches.maxLocals_le (hstores : body.Each Instruction.StoresFit)
    (hinitial : initial.locals.size ≤ JvmAssembler.maxLocals)
    (h : Reaches body thisClass initial journal a) :
    a.progress.maxLocals ≤ JvmAssembler.maxLocals := by
  induction h with
  | start h => exact (room_of_propagate h).2 ▸ hinitial
  | step ha hstep ih =>
      exact hstep.maxLocals_le hstores ih
        (ha.meets (body.frameInvariant_size hstores thisClass) hinitial)

end Analysis

/-- A compiled method has no more locals than a method can have. -/
theorem WrittenMethod.maxLocals_le_of_compile {m : WrittenMethod} {settings : Settings}
    {compiled : CompiledMethod} {s s' : ClassState} (h : m.compile settings s = .ok compiled s') :
    compiled.maxLocals ≤ maxLocals := by
  obtain ⟨analysis, encoded, s₀, s₁, s₂, hcompiles, _⟩ := exists_compiles h
  obtain ⟨_, _, hanalysed⟩ := hcompiles.analysed
  obtain ⟨q, _, hreached, rfl, _⟩ := Analysis.exists_conclusion hanalysed
  rw [hcompiles.maxLocals_eq]
  exact hreached.maxLocals_le hcompiles.storesFit hcompiles.size_onEntry_le

end JvmAssembler
