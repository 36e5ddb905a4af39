import JvmAssembler.Evaluate.Basic
import JvmAssembler.Proofs.Analysis.Flow
import JvmAssembler.Proofs.Success

/-! What evaluation makes sure of, whatever is written: objects are allocated of classes only,
targets are labels of the method, and the keys of a table are 32-bit numbers. -/

namespace JvmAssembler

/-- The keys of a table are one at least, and the last one is not too large. -/
def Branch.KeysFit {ℓ : Type} : Branch ℓ → Prop
  | tableSwitch _ low targets => targets ≠ [] ∧ low.toInt + (targets.length - 1) ≤ 2147483647
  | _ => True

/-- Only classes are allocated by `new`. -/
def Operation.Regular : SymbolicOperation → Prop
  | classUse .new constant => ∃ owner, constant = .classRef (.object owner)
  | _ => True

/-- An instruction that evaluation can give in a method with a number of labels. -/
def Instruction.Regular (count : Nat) : SymbolicInstruction → Prop
  | operation op => op.Regular
  | branch b => (∀ label ∈ b.targets, label < count) ∧ b.KeysFit

theorem Instruction.Regular.mono {count count' : Nat} {insn : SymbolicInstruction}
    (h : insn.Regular count) (hle : count ≤ count') : insn.Regular count' := by
  cases insn with
  | operation op => exact h
  | branch b => exact ⟨fun label hlabel => Nat.lt_of_lt_of_le (h.1 label hlabel) hle, h.2⟩

theorem Instruction.regular_ofPlain (count : Nat) (insn : Instruction Empty Empty) :
    (Instruction.ofPlain insn : SymbolicInstruction).Regular count := by
  cases insn with
  | operation op =>
      cases op with
      | classUse action constant => exact constant.elim
      | _ => trivial
  | branch b =>
      cases b with
      | jump _ target => exact target.elim
      | tableSwitch default => exact default.elim
      | lookupSwitch default => exact default.elim
      | returns | throws => exact ⟨fun _ hlabel => absurd hlabel List.not_mem_nil, trivial⟩

namespace LabelTable

theorem lt_size_of_lookup? {t : LabelTable} {name : String} {id : Nat}
    (h : t.lookup? name = some id) : id < t.size := by
  obtain ⟨label, hlabel, _⟩ := Option.map_eq_some_iff.mp (t.names_eq name id h)
  obtain ⟨hlt, _⟩ := Array.getElem?_eq_some_iff.mp hlabel
  exact hlt

end LabelTable

namespace Evaluate

variable {scope : Scope} {insn : WrittenInstruction}

theorem target_lt {index label : Nat} (h : target scope insn index = .ok label) :
    label < scope.labels.size := by
  obtain ⟨name, _, h⟩ := exists_of_bind_eq_ok h
  split at h
  · rename_i found hfound
    cases h
    exact LabelTable.lt_size_of_lookup? hfound
  · cases h

theorem regular_jump {op : Jump} {b : SymbolicBranch} (h : jump scope insn op = .ok b) :
    (Instruction.branch b : SymbolicInstruction).Regular scope.labels.size := by
  obtain ⟨_, _, h⟩ := exists_of_bind_eq_ok h
  obtain ⟨label, hlabel, h⟩ := exists_of_bind_eq_ok h
  cases h
  refine ⟨?_, trivial⟩
  intro l hl
  rw [List.mem_singleton.mp hl]
  exact target_lt hlabel

theorem regular_tableSwitch {b : SymbolicBranch} (h : tableSwitch scope insn = .ok b) :
    (Instruction.branch b : SymbolicInstruction).Regular scope.labels.size := by
  obtain ⟨_, _, h⟩ := exists_of_bind_eq_ok h
  obtain ⟨low, _, h⟩ := exists_of_bind_eq_ok h
  dsimp only at h
  split at h
  · cases h
  · rename_i hcount
    obtain ⟨targets, htargets, h⟩ := exists_of_bind_eq_ok h
    obtain ⟨default, hdefault, h⟩ := exists_of_bind_eq_ok h
    split at h
    · cases h
    · rename_i hkeys
      cases h
      have hall := forall₂_of_mapM_eq_ok htargets
      refine ⟨?_, ?_, Int.not_lt.mp hkeys⟩
      · intro label hlabel
        rcases List.mem_cons.mp hlabel with rfl | hlabel
        · exact target_lt hdefault
        · obtain ⟨_, _, htarget⟩ := exists_of_mem_right hall hlabel
          exact target_lt htarget
      · apply List.ne_nil_of_length_pos
        rw [← hall.length_eq, List.length_range']
        omega

theorem keyedTarget_lt {index : Nat} {key : Int32} {label : Nat}
    (h : keyedTarget scope insn index = .ok (key, label)) : label < scope.labels.size := by
  obtain ⟨operand, _, h⟩ := exists_of_bind_eq_ok h
  split at h
  · obtain ⟨_, _, h⟩ := exists_of_bind_eq_ok h
    obtain ⟨_, htarget, h⟩ := exists_of_bind_eq_ok h
    cases h
    exact target_lt htarget
  · cases h

theorem regular_lookupSwitch {b : SymbolicBranch} (h : lookupSwitch scope insn = .ok b) :
    (Instruction.branch b : SymbolicInstruction).Regular scope.labels.size := by
  obtain ⟨_, _, h⟩ := exists_of_bind_eq_ok h
  dsimp only at h
  split at h
  · cases h
  · obtain ⟨targets, htargets, h⟩ := exists_of_bind_eq_ok h
    obtain ⟨default, hdefault, h⟩ := exists_of_bind_eq_ok h
    split at h
    · cases h
    · cases h
      refine ⟨?_, trivial⟩
      intro label hlabel
      rcases List.mem_cons.mp hlabel with rfl | hlabel
      · exact target_lt hdefault
      · obtain ⟨entry, hentry, rfl⟩ := List.mem_map.mp hlabel
        obtain ⟨_, _, htarget⟩ :=
          exists_of_mem_right (forall₂_of_mapM_eq_ok htargets) (List.mem_mergeSort.mp hentry)
        exact keyedTarget_lt htarget

theorem regular_classUse {action : ClassUse} {op : SymbolicOperation}
    (h : classUse insn action = .ok op) : op.Regular := by
  obtain ⟨_, _, h⟩ := exists_of_bind_eq_ok h
  obtain ⟨_, _, h⟩ := exists_of_bind_eq_ok h
  obtain ⟨type, _, h⟩ := exists_of_bind_eq_ok h
  split at h
  · cases h
  · rename_i hclass
    cases h
    cases action with
    | new =>
        cases type with
        | object owner => exact ⟨owner, rfl⟩
        | array element extra => exact absurd ⟨rfl, Nat.succ_ne_zero extra⟩ hclass
    | _ => trivial

end Evaluate

namespace Template

variable {scope : Evaluate.Scope} {insn : WrittenInstruction}

theorem regular_operation {x : Except CompileError SymbolicOperation}
    (h : Gives Operation.Regular x) :
    Yields (Instruction.Regular scope.labels.size)
      (do return .operation (← x) : LocalM SymbolicInstruction) :=
  .bind (.lift h) fun _ hop => .pure hop

theorem regular_branch {x : Except CompileError SymbolicBranch}
    (h : Gives (fun b => Instruction.Regular scope.labels.size (.branch b)) x) :
    Yields (Instruction.Regular scope.labels.size)
      (do return .branch (← x) : LocalM SymbolicInstruction) :=
  .bind (.lift h) fun _ hb => .pure hb

theorem regular_evaluate (template : Template) :
    Yields (Instruction.Regular scope.labels.size) (template.evaluate scope insn) := by
  cases template with
  | plain instruction => exact .of_bind fun _ => .pure (Instruction.regular_ofPlain _ instruction)
  | jump op => exact regular_branch fun _ => Evaluate.regular_jump
  | tableSwitch => exact regular_branch fun _ => Evaluate.regular_tableSwitch
  | lookupSwitch => exact regular_branch fun _ => Evaluate.regular_lookupSwitch
  | classUse action => exact regular_operation fun _ => Evaluate.regular_classUse
  | returns kind =>
      refine regular_branch (.of_bind fun _ => ?_)
      split
      · exact .pure ⟨fun _ hlabel => absurd hlabel List.not_mem_nil, trivial⟩
      · exact .throw _
  | bytePush | shortPush =>
      exact regular_operation (.of_bind fun _ => .of_bind fun _ => .pure trivial)
  | ldc form =>
      exact regular_operation (.of_bind fun _ => .of_bind fun _ => .of_bind fun _ => .pure trivial)
  | field access =>
      exact regular_operation (.of_bind fun _ => .of_bind fun _ => .of_bind fun _ => .pure trivial)
  | invoke kind =>
      refine regular_operation (.of_bind fun _ => .of_bind fun _ => .of_bind fun _ => ?_)
      exact .of_bind fun _ => .of_bind fun _ => .of_bind fun _ => .of_bind fun _ => .pure trivial
  | newArray =>
      refine regular_operation (.of_bind fun _ => .of_bind fun _ => ?_)
      split
      · exact .pure trivial
      · exact .throw _
  | multiArray =>
      refine regular_operation (.of_bind fun _ => .of_bind fun _ => .of_bind fun _ => ?_)
      refine .of_bind fun _ => ?_
      dsimp only
      split
      · exact .of_bind fun _ => .pure trivial
      · exact .pure trivial
  | load kind index =>
      refine .bind (P := Operation.Regular) (.of_bind fun _ => ?_) fun _ hop => .pure hop
      dsimp only
      split
      · exact .of_bind fun _ => .of_bind fun _ => .of_bind fun _ => .pure trivial
      · exact .of_bind fun _ => .of_bind fun _ => .pure trivial
  | store kind index =>
      refine .bind (P := Operation.Regular) ?_ fun _ hop => .pure hop
      exact .of_bind fun _ => .of_bind fun _ => .of_bind fun _ => .pure trivial
  | increment =>
      refine .bind (P := Operation.Regular) ?_ fun _ hop => .pure hop
      refine .of_bind fun _ => .of_bind fun _ => .of_bind fun _ => .of_bind fun _ => ?_
      refine .of_bind fun _ => ?_
      dsimp only
      split
      · exact .pure trivial
      · exact .of_bind fun _ => .pure trivial

end Template

/-- Evaluation gives regular instructions. -/
theorem WrittenInstruction.regular_evaluate (insn : WrittenInstruction) (scope : Evaluate.Scope) :
    Yields (Instruction.Regular scope.labels.size) (insn.evaluate scope) := by
  unfold evaluate
  split
  · exact Template.regular_evaluate _
  · rintro s a s' ⟨⟩

end JvmAssembler
