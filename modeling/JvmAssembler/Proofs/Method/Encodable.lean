import JvmAssembler.Proofs.Instruction.Encodable
import JvmAssembler.Proofs.Instruction.Template
import JvmAssembler.Proofs.Method.Failure
import JvmAssembler.Proofs.Method.Stages

/-! Evaluation checks every operand that has less room in code than its type allows. What is left to
the time when constants and labels are resolved is the index of a short `ldc` and the distance of a
short jump, and both are checked there. So the encoder never refuses what it is given. -/

namespace JvmAssembler

namespace Template

/-- The operands that a mnemonic fixes fit. -/
def Encodable : Template → Prop
  | plain instruction => instruction.Encodable
  | load _ index | store _ index => ∀ i, index = some i → i < 4
  | _ => True

variable {mnemonic : String} {template : Template}

theorem Family.encodable (f : Family) : ∀ t ∈ f.templates, t.Encodable := by
  cases f <;>
    simp only [templates, List.flatten_cons, List.flatten_nil, List.append_nil, List.forall_mem_cons,
      List.forall_mem_append, List.forall_mem_map, List.forall_mem_flatMap] <;>
    simp [operation, Encodable, Instruction.Encodable, Operation.Encodable, Decode.integralKinds]
  case arithmetic =>
      intro source _ target _ hne heq
      exact hne heq.symm

theorem encodable_ofMnemonic? (h : ofMnemonic? mnemonic = some template) : template.Encodable := by
  obtain ⟨f, hmem⟩ := exists_mem_templates_of_ofMnemonic? h
  exact f.encodable template hmem

end Template

namespace Evaluate

variable {insn : WrittenInstruction}

theorem reaches_localForm {found : Local} {kind : ValueKind} {short : Bool}
    (hshort : short = true → found.index < 4) :
    Gives (fun form => form.Reaches found.index) (localForm insn found kind short) := by
  intro form h
  simp only [localForm] at h
  split at h
  · cases h
  · split at h
    · rename_i hshort'
      obtain ⟨_, _, h⟩ := exists_of_bind_eq_ok h
      cases h
      exact hshort hshort'
    · split at h
      · cases h
        trivial
      · split at h
        · cases h
        · rename_i hwide
          cases h
          simp only [Local.requiresWide, decide_eq_true_eq, gt_iff_lt, UInt16.lt_iff_toNat_lt,
            LocalForm.Reaches] at hwide ⊢
          exact Nat.lt_succ_of_le (Nat.le_of_not_gt hwide)

theorem index_of_find? {table : LocalTable} {index : UInt16} {found : Local}
    (h : table.find? (.index index) = some found) : found.index = index := by
  simp only [LocalTable.find?] at h
  have hfound := Array.find?_some h
  exact beq_iff_eq.mp hfound

/-- The local that the mnemonic names. -/
theorem reference_of_localReference {index : UInt16} :
    Gives (· = .index index) (localReference insn (some index)) :=
  .of_bind fun _ => .pure rfl

theorem index_of_resolve {table : LocalTable} {index : UInt16} {mnemonic : String}
    {position : Position} :
    Gives (·.index = index) (table.resolve (.index index) mnemonic position) := by
  intro found h
  unfold LocalTable.resolve at h
  split at h
  · rename_i hfind
    cases h
    exact index_of_find? hfind
  · cases h

theorem index_of_declareNew {index : UInt16} {default : FieldType} :
    Yields (·.index = index) (LocalM.declareNew (.index index) insn default) := by
  have hplace : Yields (fun place => place.2 = index.toNat)
      (LocalM.placeNew (.index index) insn) := by
    unfold LocalM.placeNew
    dsimp only
    split
    · exact .pure rfl
    · exact .pure rfl
  refine .of_bind fun type => .bind hplace fun place hindex => ?_
  dsimp only
  split
  · rintro s found s' ⟨⟩
  · refine .of_bind fun _ => .of_bind fun _ => .pure ?_
    show UInt16.ofNat place.2 = index
    rw [hindex, UInt16.ofNat_toNat]

theorem index_of_resolveStore {index : UInt16} {default : FieldType} :
    Yields (·.index = index) (LocalM.resolveStore (.index index) insn default) := by
  refine .of_bind fun state => ?_
  split
  · rename_i found hfind
    have hindex := index_of_find? hfind
    dsimp only
    split
    · split
      · exact .of_bind fun _ => .pure hindex
      · exact .pure hindex
    · exact .pure hindex
  · exact index_of_declareNew

theorem encodable_load {kind : ValueKind} {index : Option UInt16}
    (hindex : ∀ i, index = some i → i < 4) : Yields Operation.Encodable (load insn kind index) := by
  cases index with
  | none =>
      refine .of_bind fun _ => .of_bind fun found => ?_
      exact .bind (.lift (reaches_localForm nofun)) fun _ hform => .pure hform
  | some index =>
      refine .bind (.lift reference_of_localReference) fun reference hreference => ?_
      subst hreference
      refine .of_bind fun s => .bind (.lift index_of_resolve) fun found hfound => ?_
      have hlt : found.index < 4 := hfound ▸ hindex index rfl
      exact .bind (.lift (reaches_localForm fun _ => hlt)) fun _ hform => .pure hform

theorem encodable_store {kind : ValueKind} {index : Option UInt16}
    (hindex : ∀ i, index = some i → i < 4) : Yields Operation.Encodable (store insn kind index) := by
  cases index with
  | none =>
      refine .of_bind fun _ => .of_bind fun found => ?_
      exact .bind (.lift (reaches_localForm nofun)) fun _ hform => .pure hform
  | some index =>
      refine .bind (.lift reference_of_localReference) fun reference hreference => ?_
      subst hreference
      refine .bind index_of_resolveStore fun found hfound => ?_
      have hlt : found.index < 4 := hfound ▸ hindex index rfl
      exact .bind (.lift (reaches_localForm fun _ => hlt)) fun _ hform => .pure hform

theorem fits_of_checkNarrowIncrement {found : Local} {amount : Int16} :
    Gives (fun _ => found.index < 256 ∧ -128 ≤ amount ∧ amount ≤ 127)
      (checkNarrowIncrement insn found amount) := by
  intro _ h
  simp only [checkNarrowIncrement] at h
  split at h
  · cases h
  · rename_i hwide
    split at h
    · rename_i hamount
      simp only [Local.requiresWide, decide_eq_true_eq, gt_iff_lt, UInt16.lt_iff_toNat_lt] at hwide ⊢
      exact ⟨Nat.lt_succ_of_le (Nat.le_of_not_gt hwide), hamount⟩
    · cases h

theorem encodable_increment : Yields Operation.Encodable (increment insn) := by
  refine .of_bind fun _ => .of_bind fun s => .of_bind fun reference => .of_bind fun found => ?_
  refine .of_bind fun amount => ?_
  dsimp only
  split
  · rename_i hwide
    rw [hwide]
    exact .pure trivial
  · rename_i hwide
    rw [Bool.not_eq_true] at hwide
    rw [hwide]
    exact .bind (.lift fits_of_checkNarrowIncrement) fun _ hfits => .pure hfits

end Evaluate

theorem Instruction.encodable_ofPlain {κ ℓ : Type} {insn : Instruction Empty Empty}
    (h : insn.Encodable) : (Instruction.ofPlain insn : Instruction κ ℓ).Encodable := by
  cases insn with
  | operation op => exact (op.encodable_map _).mpr h
  | branch b => trivial

theorem Template.encodable_operation {x : Except CompileError SymbolicOperation}
    (h : Gives Operation.Encodable x) :
    Yields Instruction.Encodable (do return .operation (← x) : LocalM SymbolicInstruction) :=
  .bind (.lift h) fun _ hop => .pure hop

theorem Template.encodable_evaluate {template : Template} (h : template.Encodable)
    (scope : Evaluate.Scope) (insn : WrittenInstruction) :
    Yields Instruction.Encodable (template.evaluate scope insn) := by
  cases template with
  | plain instruction => exact .of_bind fun _ => .pure (Instruction.encodable_ofPlain h)
  | load kind index => exact .bind (Evaluate.encodable_load h) fun _ hop => .pure hop
  | store kind index => exact .bind (Evaluate.encodable_store h) fun _ hop => .pure hop
  | increment => exact .bind Evaluate.encodable_increment fun _ hop => .pure hop
  | returns | jump | tableSwitch | lookupSwitch => exact .of_bind fun _ => .pure trivial
  | bytePush | shortPush =>
      exact encodable_operation (.of_bind fun _ => .of_bind fun _ => .pure trivial)
  | ldc | field =>
      refine encodable_operation (.of_bind fun _ => .of_bind fun _ => ?_)
      exact .of_bind fun _ => .pure trivial
  | invoke kind =>
      refine encodable_operation (.of_bind fun _ => .of_bind fun _ => .of_bind fun _ => ?_)
      exact .of_bind fun _ => .of_bind fun _ => .of_bind fun _ => .of_bind fun _ => .pure trivial
  | classUse action =>
      refine encodable_operation (.of_bind fun _ => .of_bind fun _ => .of_bind fun _ => ?_)
      dsimp only
      split
      · exact .of_bind fun _ => .pure trivial
      · exact .pure trivial
  | newArray =>
      refine encodable_operation (.of_bind fun _ => .of_bind fun _ => ?_)
      split
      · exact .pure trivial
      · exact .throw _
  | multiArray =>
      refine encodable_operation (.of_bind fun _ => .of_bind fun _ => .of_bind fun _ => ?_)
      refine .of_bind fun _ => ?_
      dsimp only
      split
      · exact .of_bind fun _ => .pure trivial
      · exact .pure trivial

/-- Evaluation gives instructions that have an encoding. -/
theorem WrittenInstruction.encodable_evaluate (insn : WrittenInstruction) (scope : Evaluate.Scope) :
    Yields Instruction.Encodable (insn.evaluate scope) := by
  unfold evaluate
  split
  · rename_i template htemplate
    exact Template.encodable_evaluate (Template.encodable_ofMnemonic? htemplate) scope insn
  · rintro s a s' ⟨⟩

namespace Body

/-- All instructions of the body have an encoding once they are resolved. -/
def Encodable (body : Body) : Prop := ∀ line ∈ body.lines.toList, line.instruction.Encodable

end Body

theorem WrittenMethod.encodable_of_layout {m : WrittenMethod} {settings : Settings} (s : Signature) :
    Yields Body.Encodable (m.layout settings s) :=
  each_of_layout (fun insn _ scope => insn.encodable_evaluate scope) trivial

namespace Operation

variable {κ κ' ε σ : Type}

theorem encodable_of_traverse {f : κ → EStateM ε σ κ'} {op : Operation κ} (h : op.Encodable) :
    Yields Encodable (op.traverse f) := by
  cases op with
  | ldc form constant => exact .of_bind fun _ => .pure trivial
  | field access constant => exact .of_bind fun _ => .pure trivial
  | invoke kind constant => exact .of_bind fun _ => .pure trivial
  | classUse action constant => exact .of_bind fun _ => .pure trivial
  | multiArray constant dimensions => exact .of_bind fun _ => .pure trivial
  | increment index amount wide => cases wide <;> exact .pure h
  | _ => exact .pure h

end Operation

namespace Line

variable {line : Line} {body : Body}

theorem fits_of_resolveOperation {op : SymbolicOperation} (h : op.Encodable) :
    Yields (fun found => found.Encodable ∧ found.IndexFits) (line.resolveOperation op) := by
  refine .bind (Operation.encodable_of_traverse h) fun found hfound => ?_
  dsimp only
  split
  · rename_i index
    split
    · rintro s a s' ⟨⟩
    · rename_i hindex
      exact .pure ⟨trivial, UInt16.not_lt.mp hindex⟩
  · rename_i hform
    refine .pure ⟨hfound, ?_⟩
    cases found with
    | ldc form index => cases form with
      | narrow => exact absurd rfl (hform index)
      | wide | double => trivial
    | _ => trivial

theorem fits_of_resolveBranch {b : SymbolicBranch} :
    Gives Branch.DistanceFits (line.resolveBranch body b) := by
  refine .of_bind fun found => ?_
  split
  · exact .pure (.inl rfl)
  · split
    · rename_i hfits
      exact .pure (.inr hfits)
    · exact .throw _
  · rename_i hjump
    refine .pure ?_
    cases found with
    | jump op distance => exact absurd rfl (hjump op distance)
    | _ => trivial

/-- An instruction that is resolved has an encoding. -/
theorem fits_of_resolve (h : line.instruction.Encodable) :
    Yields (fun resolved => resolved.Encodable ∧ resolved.ResolvedFits) (line.resolve body) := by
  unfold resolve
  split
  · rename_i op hop
    rw [hop] at h
    exact .bind (fits_of_resolveOperation h) fun _ hfits => .pure hfits
  · exact .bind (.lift fits_of_resolveBranch) fun _ hfits => .pure ⟨trivial, hfits⟩

/-- What can go wrong with an instruction goes wrong before it is encoded. -/
theorem encode_eq_error_iff (h : line.instruction.Encodable) {s s' : ClassState} {e : CompileError} :
    line.encode body s = .error e s' ↔ line.resolve body s = .error e s' := by
  refine ⟨fun herror => ?_, bind_eq_of_error⟩
  rcases cases_of_bind_eq_error herror with hresolve | ⟨resolved, s₁, hresolve, hencode⟩
  · exact hresolve
  · obtain ⟨bytes, hbytes⟩ :=
      Instruction.exists_encodeAt_iff.mpr (fits_of_resolve h _ _ _ hresolve)
    rw [hbytes] at hencode
    cases hencode

theorem raises_encode {E : CompileError → Prop} (hE : body.CoversEmission E)
    (h : line.instruction.Encodable) : Raises E (line.encode body) :=
  fun s e s' herror => line.raises_resolve hE s e s' ((encode_eq_error_iff h).mp herror)

end Line

theorem Emission.yields_journaling {α : Type} {P : α → Prop} {x : Assembly Journal α}
    (h : Yields P x) : Yields P (Emission.journaling x) := by
  intro s a s' ha
  obtain ⟨journal, hx, _⟩ := Emission.exists_of_journaling ha
  exact h _ _ _ hx

theorem Body.raises_emit {body : Body} {E : CompileError → Prop} (hE : body.CoversEmission E)
    (h : body.Encodable) (initial : Frame) (analysis : Analysis) :
    Raises E (body.emit initial analysis) := by
  refine .bind (.mapM fun entry _ s e s' herror => ?_) fun stackMap => ?_
  · exact hE.pool e (body.raises_resolveEntry entry s e s' herror)
  · refine .bind (.mapM fun line hline => ?_) fun encoded => ?_
    · exact .bind (Line.raises_encode hE (h line hline)) fun _ => .pure _
    · exact .bind (.forM (fun _ => Emission.raises_report _) _) fun _ => .pure _

namespace WrittenMethod

variable {m : WrittenMethod} {settings : Settings}

theorem encodable_prepare : Yields (fun p => p.body.Encodable) (m.prepare settings) := by
  refine .of_bind fun signature => .of_bind fun _ => ?_
  exact .bind (encodable_of_layout signature) fun body hbody => .of_bind fun _ => .pure hbody

theorem raises_finish {p : Prepared} {E : CompileError → Prop} (hE : p.body.CoversEmission E)
    (h : p.body.Encodable) : Raises E (m.finish p) :=
  .bind (Body.raises_emit hE h _ _) fun _ => .bind (Emission.raises_report _) fun _ => .pure _

/-- Errors of the compilation of a method are errors of one of its stages. -/
theorem raises_compile : Raises (fun e => e.OfLayout ∨ e.OfAnalysis ∨ e.OfEmission)
    (m.compile settings) := by
  refine .bind (.lift fun e h => .inl (m.fails_signature e h).ofLayout) fun signature => ?_
  refine .bind (Emission.raises_report _) fun _ => ?_
  have hlayout : Raises (fun e => e.OfLayout ∨ e.OfAnalysis ∨ e.OfEmission)
      (Emission.journaling (m.layout settings signature)) :=
    Emission.raises_journaling fun s e s' h => .inl (m.raises_layout settings signature s e s' h)
  refine .bind_of_yields hlayout (Emission.yields_journaling (encodable_of_layout signature))
    fun body hbody => ?_
  refine .bind (Emission.raises_journaling fun s e s' h => ?_) fun analysis => ?_
  · exact .inr (.inl (Analysis.raises_ofBody _ _ _ s e s' h))
  · refine .bind (fun s e s' h => ?_) fun emitted => ?_
    · exact .inr (.inr (Body.raises_emit body.coversEmission hbody _ _ s e s' h))
    · exact .bind (Emission.raises_report _) fun _ => .pure _

/-- The encoder never refuses what it is given: no method fails to compile because an instruction has
no encoding. Whatever the indices of constants and the distances of labels, an evaluated instruction
has an encoding exactly if the index of a short `ldc` and the distance of a short jump fit. -/
theorem encoding_never_refused (m : WrittenMethod) (settings : Settings) (s : ClassState) :
    (∀ cause s', m.compile settings s ≠ .error (.encoding cause) s') ∧
    ∀ (insn : WrittenInstruction) (scope : Evaluate.Scope) (state : LocalState)
      (instruction : SymbolicInstruction) (state' : LocalState),
      insn.evaluate scope state = .ok instruction state' →
      ∀ (index : Constant → UInt16) (distance : Nat → Int32) (offset : Nat),
        (∃ bytes, (instruction.map index distance).encodeAt offset = .ok bytes) ↔
          (instruction.map index distance).ResolvedFits := by
  refine ⟨?_, ?_⟩
  · intro cause s' h
    rcases raises_compile s _ s' h with hlayout | hanalysis | hemission
    · exact hlayout.elim
    · exact hanalysis.elim
    · exact hemission.elim
  · intro insn scope state instruction state' h index distance offset
    have hencodable : (instruction.map index distance).Encodable :=
      (instruction.encodable_map index distance).mpr (insn.encodable_evaluate scope _ _ _ h)
    rw [Instruction.exists_encodeAt_iff]
    exact ⟨And.right, fun hfits => ⟨hencodable, hfits⟩⟩

/-- A short `ldc` reaches the index 255 and no further. -/
theorem encoding_never_refused_ldc :
    (∃ state, WrittenInstruction.evaluate { mnemonic := "ldc", operands := #[.text "a"] }
        ⟨.void, .empty, 0⟩ ⟨{}, {}⟩ = .ok (.operation (.ldc .narrow (.string "a"))) state) ∧
    (∃ bytes, Instruction.encodeAt 7 (.operation (.ldc .narrow 255)) = .ok bytes) ∧
    (¬ ∃ bytes, Instruction.encodeAt 7 (.operation (.ldc .narrow 256)) = .ok bytes) ∧
    ∀ cause s', sample.compile {} ⟨.empty, {}⟩ ≠ .error (.encoding cause) s' := by
  have hevaluate : WrittenInstruction.evaluate { mnemonic := "ldc", operands := #[.text "a"] }
      ⟨.void, .empty, 0⟩ ⟨{}, {}⟩ = .ok (.operation (.ldc .narrow (.string "a"))) ⟨{}, {}⟩ := rfl
  obtain ⟨hcompile, hfits⟩ := encoding_never_refused sample {} ⟨.empty, {}⟩
  have hldc := hfits _ _ _ _ _ hevaluate
  refine ⟨⟨_, hevaluate⟩, ?_, ?_, hcompile⟩
  · exact (hldc (fun _ => 255) (fun _ => 0) 7).mpr (by decide : (255 : UInt16) ≤ 255)
  · intro h
    have hle : (256 : UInt16) ≤ 255 := (hldc (fun _ => 256) (fun _ => 0) 7).mp h
    exact absurd hle (by decide)

end WrittenMethod

end JvmAssembler
