import JvmAssembler.Method.Compile
import JvmAssembler.Proofs.Frame.Origin

/-! What can go wrong in each stage of the compilation of a method, whatever is written. -/

namespace JvmAssembler

namespace CompileError

/-- Errors of a written instruction, and of the declaration of a method. -/
def OfEvaluation : CompileError → Prop
  | illegal _ _ _ | returnMismatch _ _ _ | unknownLocal _ _ _ | badDescriptor _ _ _ => True
  | unknownJump _ _ _ label => label = none
  | _ => False

/-- Errors of the layout of a method. -/
def OfLayout : CompileError → Prop
  | duplicateLabel _ _ | outOfRange _ _ (.codeSize _) => True
  | e => e.OfEvaluation

/-- Errors of an instruction that is applied to a frame. -/
def OfInstruction : CompileError → Prop
  | stackUnderflow _ _ _ _ | stackMismatch _ _ _ _ _ _ | localMismatch _ _ _ _ _ => True
  | _ => False

/-- Errors of the analysis of a body. -/
def OfAnalysis : CompileError → Prop
  | stackUnderflow _ _ _ _ | stackMismatch _ _ _ _ _ _ | localMismatch _ _ _ _ _
  | depthsDiffer _ _ _ _ _ | framesDiffer _ _ _ _ _ _ | fallsOffEnd _ _ => True
  | unknownJump _ _ _ label => label.isSome
  | _ => False

/-- Errors that depend on what the pool holds. -/
def OfPool : CompileError → Prop
  | poolOverflow _ | outOfRange _ _ (.ldcIndex _) => True
  | _ => False

/-- Errors of the emission of a body. -/
def OfEmission : CompileError → Prop
  | outOfRange _ _ (.jump _ _) => True
  | unknownJump _ _ _ label => label.isSome
  | e => e.OfPool

theorem OfEvaluation.ofLayout {e : CompileError} (h : e.OfEvaluation) : e.OfLayout := by
  cases e with
  | duplicateLabel | outOfRange => exact h.elim
  | _ => exact h

theorem OfInstruction.ofAnalysis {e : CompileError} (h : e.OfInstruction) : e.OfAnalysis := by
  cases e with
  | stackUnderflow | stackMismatch | localMismatch => trivial
  | _ => exact h.elim

theorem OfPool.ofEmission {e : CompileError} (h : e.OfPool) : e.OfEmission := by
  cases e with
  | outOfRange instruction position cause => cases cause with
    | jump => exact trivial
    | _ => exact h
  | unknownJump => exact h.elim
  | _ => exact h

end CompileError

open CompileError

namespace WrittenInstruction

variable (insn : WrittenInstruction)

theorem fails_expectOperands (count : Nat) : Fails OfEvaluation (insn.expectOperands count) := by
  unfold expectOperands
  split
  · exact .ok _
  · exact .error trivial

theorem fails_rejectWide : Fails OfEvaluation insn.rejectWide := by
  unfold rejectWide
  split
  · exact .error trivial
  · exact .ok _

theorem fails_expectPlain (count : Nat) : Fails OfEvaluation (insn.expectPlain count) :=
  .bind insn.fails_rejectWide fun _ => insn.fails_expectOperands count

theorem fails_operand (index : Nat) : Fails OfEvaluation (insn.operand index) := by
  unfold operand
  split
  · exact .ok _
  · exact .error trivial

theorem fails_operandOf {α : Type} (index : Nat) (expected : OperandKind)
    (get? : Operand → Option α) : Fails OfEvaluation (insn.operandOf index expected get?) := by
  refine .bind (insn.fails_operand index) fun found => ?_
  split
  · exact .ok _
  · exact .error trivial

theorem fails_integer (low high : Int) (index : Nat) (what : String) :
    Fails OfEvaluation (insn.integer low high index what) := by
  refine .bind (insn.fails_operandOf _ _ _) fun value => ?_
  dsimp only
  split
  · exact .ok _
  · exact .error trivial

end WrittenInstruction

namespace Evaluate

variable {scope : Scope} {insn : WrittenInstruction}

theorem fails_target (index : Nat) : Fails OfEvaluation (target scope insn index) := by
  refine .bind (insn.fails_operandOf _ _ _) fun name => ?_
  split
  · exact .ok _
  · exact .error rfl

theorem fails_returnFrom (kind : Option ValueKind) :
    Fails OfEvaluation (returnFrom scope insn kind) := by
  refine .bind (insn.fails_expectPlain 0) fun _ => ?_
  split
  · exact .ok _
  · exact .error trivial

theorem fails_jump (op : Jump) : Fails OfEvaluation (jump scope insn op) :=
  .bind (insn.fails_expectPlain 1) fun _ => .bind (fails_target 0) fun _ => .ok _

theorem fails_tableSwitch : Fails OfEvaluation (tableSwitch scope insn) := by
  refine .bind insn.fails_rejectWide fun _ => ?_
  refine .bind (.map (insn.fails_integer _ _ _ _) _) fun low => ?_
  dsimp only
  split
  · exact .error trivial
  · refine .bind (.mapM fails_target _) fun targets => .bind (fails_target _) fun default => ?_
    split
    · exact .error trivial
    · exact .ok _

theorem fails_keyedTarget (index : Nat) : Fails OfEvaluation (keyedTarget scope insn index) := by
  refine .bind (insn.fails_operand index) fun found => ?_
  split
  · refine .bind (.map (insn.fails_integer _ _ _ _) _) fun key => ?_
    exact .bind (fails_target _) fun _ => .ok _
  · exact .error trivial

theorem fails_lookupSwitch : Fails OfEvaluation (lookupSwitch scope insn) := by
  refine .bind insn.fails_rejectWide fun _ => ?_
  dsimp only
  split
  · exact .error trivial
  · refine .bind (.mapM (fun _ => fails_keyedTarget _) _) fun targets => ?_
    refine .bind (fails_target _) fun default => ?_
    split
    · exact .error trivial
    · exact .ok _

theorem fails_classType (name : String) : Fails OfEvaluation (classType insn name) :=
  .mapError _ fun _ => trivial

theorem fails_memberName (name : String) : Fails OfEvaluation (memberName insn name) :=
  .mapError _ fun _ => trivial

theorem fails_fieldRef (member : MemberRef) : Fails OfEvaluation (fieldRef insn member) := by
  refine .bind (.mapError _ fun _ => trivial) fun owner => ?_
  refine .bind (fails_memberName _) fun name => ?_
  exact .bind (.mapError _ fun _ => trivial) fun type => .ok _

theorem fails_checkInitializer (kind : InvokeKind) (name : UnqualifiedName)
    (descriptor : MethodDescriptor) :
    Fails OfEvaluation (checkInitializer insn kind name descriptor) := by
  unfold checkInitializer
  dsimp only
  split
  · exact .error trivial
  · split
    · split
      · exact .error trivial
      · split
        · exact .error trivial
        · exact .ok _
    · exact .ok _

theorem fails_countArguments (descriptor : MethodDescriptor) (kind : InvokeKind) :
    Fails OfEvaluation (countArguments insn descriptor kind) := by
  unfold countArguments
  split
  · dsimp only
    split
    · exact .ok _
    · exact .error trivial
  · exact .ok _

theorem fails_invoke (kind : InvokeKind) : Fails OfEvaluation (invoke insn kind) := by
  refine .bind (insn.fails_expectPlain 1) fun _ => ?_
  refine .bind (insn.fails_operandOf _ _ _) fun member => ?_
  refine .bind (fails_classType _) fun owner => .bind (fails_memberName _) fun name => ?_
  refine .bind (.mapError _ fun _ => trivial) fun descriptor => ?_
  refine .bind (fails_checkInitializer _ _ _) fun _ => ?_
  exact .bind (fails_countArguments _ _) fun _ => .ok _

theorem fails_classUse (action : ClassUse) : Fails OfEvaluation (classUse insn action) := by
  refine .bind (insn.fails_expectPlain 1) fun _ => ?_
  refine .bind (insn.fails_operandOf _ _ _) fun name => .bind (fails_classType _) fun type => ?_
  dsimp only
  split
  · exact .error trivial
  · exact .ok _

theorem fails_newArray : Fails OfEvaluation (newArray insn) := by
  refine .bind (insn.fails_expectPlain 1) fun _ => ?_
  refine .bind (insn.fails_operandOf _ _ _) fun name => ?_
  split
  · exact .ok _
  · exact .error trivial

theorem fails_multiArray : Fails OfEvaluation (multiArray insn) := by
  refine .bind (insn.fails_expectPlain 2) fun _ => ?_
  refine .bind (insn.fails_operandOf _ _ _) fun name => .bind (fails_classType _) fun type => ?_
  refine .bind (.map (insn.fails_integer _ _ _ _) _) fun count => ?_
  dsimp only
  split
  · exact .error trivial
  · exact .ok _

theorem fails_constant (form : LdcForm) (operand : Operand) :
    Fails OfEvaluation (constant insn form operand) := by
  unfold constant
  split
  case h_3 | h_8 => exact .error trivial
  case h_4 => exact .map (.map (insn.fails_integer _ _ _ _) _) _
  case h_7 => exact .map (fails_classType _) _
  all_goals exact .ok _

theorem fails_ldc (form : LdcForm) : Fails OfEvaluation (ldc insn form) := by
  refine .bind (insn.fails_expectPlain 1) fun _ => .bind (insn.fails_operand 0) fun operand => ?_
  exact .bind (fails_constant form operand) fun _ => .ok _

/-! ### Locals -/

theorem fails_localReference (index : Option UInt16) :
    Fails OfEvaluation (localReference insn index) := by
  cases index with
  | some index => exact .bind (insn.fails_expectOperands 0) fun _ => .ok _
  | none => exact .bind (insn.fails_expectOperands 1) fun _ => insn.fails_operandOf _ _ _

theorem fails_localForm (found : Local) (kind : ValueKind) (short : Bool) :
    Fails OfEvaluation (localForm insn found kind short) := by
  unfold localForm
  dsimp only
  split
  · exact .error trivial
  · split
    · exact .bind insn.fails_rejectWide fun _ => .ok _
    · split
      · exact .ok _
      · split
        · exact .error trivial
        · exact .ok _

theorem fails_resolve (table : LocalTable) (reference : LocalRef) (mnemonic : String)
    (position : Position) : Fails OfEvaluation (table.resolve reference mnemonic position) := by
  unfold LocalTable.resolve
  split
  · exact .ok _
  · exact .error trivial

theorem raises_report (event : Event) : Raises OfEvaluation (LocalM.report event) := .modify _

theorem raises_resolveLoad (reference : LocalRef) :
    Raises OfEvaluation (LocalM.resolveLoad reference insn) := by
  refine .bind .get fun s => .bind (.lift (fails_resolve _ _ _ _)) fun found => ?_
  dsimp only
  split
  · exact .bind (raises_report _) fun _ => .pure _
  · exact .pure _

theorem raises_placeNew (reference : LocalRef) :
    Raises OfEvaluation (LocalM.placeNew reference insn) := by
  unfold LocalM.placeNew
  split
  · split
    · exact .pure _
    · exact .pure _
  · dsimp only
    split
    · split
      · exact .bind (raises_report _) fun _ => .bind .get fun _ => .pure _
      · exact .bind .get fun _ => .pure _
    · exact .bind .get fun _ => .pure _

theorem raises_declareNew (reference : LocalRef) (default : FieldType) :
    Raises OfEvaluation (LocalM.declareNew reference insn default) := by
  have htype : Fails OfEvaluation (LocalM.declaredType insn default) := by
    unfold LocalM.declaredType
    split
    · exact .ok _
    · exact .mapError _ fun _ => trivial
  refine .bind (.lift htype) fun type => .bind (raises_placeNew _) fun place => ?_
  dsimp only
  split
  · exact .throw trivial
  · exact .bind (raises_report _) fun _ => .bind (.modify _) fun _ => .pure _

theorem raises_resolveStore (reference : LocalRef) (default : FieldType) :
    Raises OfEvaluation (LocalM.resolveStore reference insn default) := by
  refine .bind .get fun s => ?_
  split
  · dsimp only
    split
    · split
      · exact .bind (raises_report _) fun _ => .pure _
      · exact .pure _
    · exact .pure _
  · exact raises_declareNew _ _

theorem raises_load (kind : ValueKind) (index : Option UInt16) :
    Raises OfEvaluation (load insn kind index) := by
  refine .bind (.lift (fails_localReference index)) fun reference => ?_
  dsimp only
  split
  · refine .bind .get fun s => .bind (.lift (fails_resolve _ _ _ _)) fun found => ?_
    exact .bind (.lift (fails_localForm _ _ _)) fun _ => .pure _
  · refine .bind (raises_resolveLoad _) fun found => ?_
    exact .bind (.lift (fails_localForm _ _ _)) fun _ => .pure _

theorem raises_store (kind : ValueKind) (index : Option UInt16) :
    Raises OfEvaluation (store insn kind index) := by
  refine .bind (.lift (fails_localReference index)) fun reference => ?_
  refine .bind (raises_resolveStore _ _) fun found => ?_
  exact .bind (.lift (fails_localForm _ _ _)) fun _ => .pure _

theorem fails_checkNarrowIncrement (found : Local) (amount : Int16) :
    Fails OfEvaluation (checkNarrowIncrement insn found amount) := by
  unfold checkNarrowIncrement
  dsimp only
  split
  · exact .error trivial
  · split
    · exact .ok _
    · exact .error trivial

theorem raises_increment : Raises OfEvaluation (increment insn) := by
  refine .bind (.lift (insn.fails_expectOperands 2)) fun _ => .bind .get fun s => ?_
  refine .bind (.lift (insn.fails_operandOf _ _ _)) fun reference => ?_
  refine .bind (.lift (fails_resolve _ _ _ _)) fun found => ?_
  refine .bind (.lift (.map (insn.fails_integer _ _ _ _) _)) fun amount => ?_
  dsimp only
  split
  · exact .pure _
  · exact .bind (.lift (fails_checkNarrowIncrement _ _)) fun _ => .pure _

end Evaluate

theorem Template.raises_evaluate (scope : Evaluate.Scope) (insn : WrittenInstruction)
    (template : Template) : Raises OfEvaluation (template.evaluate scope insn) := by
  open Evaluate in
  cases template with
  | plain instruction => exact .bind (.lift (insn.fails_expectPlain 0)) fun _ => .pure _
  | returns kind => exact .bind (.lift (fails_returnFrom kind)) fun _ => .pure _
  | bytePush | shortPush =>
      refine .bind (.lift (.bind (insn.fails_expectPlain 1) fun _ => ?_)) fun _ => .pure _
      exact .bind (.map (insn.fails_integer _ _ _ _) _) fun _ => .ok _
  | ldc form => exact .bind (.lift (fails_ldc form)) fun _ => .pure _
  | load kind index => exact .bind (raises_load kind index) fun _ => .pure _
  | store kind index => exact .bind (raises_store kind index) fun _ => .pure _
  | increment => exact .bind raises_increment fun _ => .pure _
  | field access =>
      refine .bind (.lift (.bind (insn.fails_expectPlain 1) fun _ => ?_)) fun _ => .pure _
      refine .bind (insn.fails_operandOf _ _ _) fun member => ?_
      exact .bind (fails_fieldRef member) fun _ => .ok _
  | invoke kind => exact .bind (.lift (fails_invoke kind)) fun _ => .pure _
  | classUse action => exact .bind (.lift (fails_classUse action)) fun _ => .pure _
  | newArray => exact .bind (.lift fails_newArray) fun _ => .pure _
  | multiArray => exact .bind (.lift fails_multiArray) fun _ => .pure _
  | jump op => exact .bind (.lift (fails_jump op)) fun _ => .pure _
  | tableSwitch => exact .bind (.lift fails_tableSwitch) fun _ => .pure _
  | lookupSwitch => exact .bind (.lift fails_lookupSwitch) fun _ => .pure _

theorem WrittenInstruction.raises_evaluate (insn : WrittenInstruction) (scope : Evaluate.Scope) :
    Raises OfEvaluation (insn.evaluate scope) := by
  unfold evaluate
  split
  · exact Template.raises_evaluate scope insn _
  · exact .throw trivial

theorem LabelTable.fails_declareAll (t : LabelTable) (count : Nat) (statements : List Statement) :
    Fails OfLayout (t.declareAll count statements) := by
  induction statements generalizing t count with
  | nil => exact .ok t
  | cons statement rest ih =>
      cases statement with
      | instruction insn => exact ih t (count + 1)
      | label name position =>
          have hdeclare : Fails OfLayout (t.declare name position count) := by
            unfold declare
            split
            · exact .error trivial
            · exact .ok _
          exact .bind hdeclare fun declared => ih declared.2 count

theorem Body.raises_evaluateNext (returns : ReturnType) (body : Body) (insn : WrittenInstruction) :
    Raises OfEvaluation (body.evaluateNext returns insn) :=
  .bind (insn.raises_evaluate _) fun _ => .bind (Evaluate.raises_report _) fun _ => .pure _

namespace WrittenMethod

variable (m : WrittenMethod) (settings : Settings)

theorem fails_signature : Fails OfEvaluation m.signature := by
  refine .bind (.mapError _ fun _ => trivial) fun name => ?_
  refine .bind (.mapError _ fun _ => trivial) fun descriptor => ?_
  dsimp only
  split
  · exact .error trivial
  · split
    · exact .error trivial
    · exact .ok _

theorem raises_evaluate (s : Signature) (labels : LabelTable) :
    Raises OfEvaluation (m.evaluate settings s labels) := by
  refine .bind (.foldlM (Body.raises_evaluateNext _) _ _) fun body => ?_
  split
  · exact .bind (Evaluate.raises_report _) fun _ => .bind (Evaluate.raises_report _) fun _ => .pure _
  · exact .pure _

theorem raises_layout (s : Signature) : Raises OfLayout (m.layout settings s) := by
  intro journal e journal' h
  simp only [layout] at h
  split at h
  · rename_i hlabels
    cases h
    exact LabelTable.fails_declareAll _ _ _ _ hlabels
  · split at h
    · rename_i hevaluate
      cases h
      exact (m.raises_evaluate settings s _ _ _ _ hevaluate).ofLayout
    · split at h
      · cases h
        exact trivial
      · cases h

end WrittenMethod

/-! ### Analysis -/

namespace Line

variable (line : Line)

theorem fails_apply (thisClass : BinaryName) (f : Frame) :
    Fails OfInstruction (line.apply thisClass f) := by
  intro e h
  cases reports_of_apply h <;> trivial

end Line

namespace Progress

variable {labels : LabelTable} {f : Frame} {p q : Progress} {e : CompileError}

theorem ofAnalysis_of_propagate {label : Nat} {source : Option Line}
    (h : p.propagate labels label f source = .error e q) : e.OfAnalysis := by
  simp only [propagate] at h
  split at h
  · cases h
    cases source with
    | none => exact trivial
    | some line => exact rfl
  · cases h
  · split at h
    · rename_i mismatch _
      cases h
      cases mismatch <;> exact trivial
    · split at h <;> cases h

theorem ofAnalysis_of_propagateAll {source : Line} {targets : List Nat}
    (h : propagateAll labels f source targets p = .error e q) : e.OfAnalysis := by
  induction targets generalizing p with
  | nil => cases h
  | cons label rest ih =>
      rw [propagateAll] at h
      split at h
      · exact ih h
      · rename_i hfirst
        cases h
        exact ofAnalysis_of_propagate hfirst

end Progress

namespace Analysis

variable {body : Body} {thisClass : BinaryName} {p q : Progress} {e : CompileError}

theorem ofAnalysis_of_walk {i : Nat} {f : Frame} (h : walk body thisClass i f p = .error e q) :
    e.OfAnalysis := by
  fun_induction walk body thisClass i f p with
  | case1 i f p hi line e' he =>
      cases h
      exact (line.fails_apply thisClass f _ he).ofAnalysis
  | case2 i f p hi line f' _ e' r hr =>
      cases h
      exact Progress.ofAnalysis_of_propagateAll hr
  | case3 => cases h
  | case4 =>
      cases h
      exact trivial
  | case5 => exact Progress.ofAnalysis_of_propagate h
  | case6 _ _ _ _ _ _ _ _ _ _ _ _ ih => exact ih h
  | case7 => cases h

theorem ofAnalysis_of_run (h : run body thisClass p = .error e q) : e.OfAnalysis := by
  fun_induction run body thisClass p with
  | case1 => cases h
  | case2 p leader rest _ e' r hr =>
      cases h
      simp only [simulate] at hr
      split at hr
      · cases hr
      · exact ofAnalysis_of_walk hr
  | case3 _ _ _ _ _ _ ih => exact ih h

theorem raises_ofBody (body : Body) (thisClass : BinaryName) (initial : Frame) :
    Raises OfAnalysis (ofBody body thisClass initial) := by
  intro journal e journal' h
  simp only [ofBody] at h
  split at h
  · cases h
    exact trivial
  · split at h
    · rename_i hstart
      cases h
      exact Progress.ofAnalysis_of_propagate hstart
    · split at h
      · rename_i hrun
        cases h
        exact ofAnalysis_of_run hrun
      · cases h

end Analysis

namespace Emission

theorem raises_interning {α : Type} (x : ConstantPool.Interning α) :
    Raises OfPool (Emission.interning x) := by
  intro s e s' h
  simp only [interning] at h
  split at h
  · cases h
  · cases h
    exact trivial

theorem raises_journaling {α : Type} {E : CompileError → Prop} {x : Assembly Journal α}
    (hx : Raises E x) : Raises E (Emission.journaling x) := by
  intro s e s' h
  simp only [journaling] at h
  split at h
  · cases h
  · rename_i hfails
    cases h
    exact hx _ _ _ hfails

theorem raises_report {E : CompileError → Prop} (event : Event) :
    Raises E (Emission.report event) := by
  rintro s e s' ⟨⟩

end Emission

section Traversals

variable {ε σ κ κ' τ τ' : Type} {E : ε → Prop}

theorem Operation.raises_traverse {f : κ → EStateM ε σ κ'} (h : ∀ constant, Raises E (f constant))
    (op : Operation κ) : Raises E (op.traverse f) := by
  cases op with
  | ldc form constant => exact .bind (h constant) fun _ => .pure _
  | field access constant => exact .bind (h constant) fun _ => .pure _
  | invoke kind constant => exact .bind (h constant) fun _ => .pure _
  | classUse action constant => exact .bind (h constant) fun _ => .pure _
  | multiArray constant dimensions => exact .bind (h constant) fun _ => .pure _
  | _ => exact .pure _

theorem MapEntry.raises_traverse {f : τ → EStateM ε σ τ'} (h : ∀ type, Raises E (f type))
    (entry : MapEntry τ) : Raises E (entry.traverse f) := by
  cases entry with
  | same delta => exact .pure _
  | chop delta count => exact .pure _
  | oneStack delta stack => exact .bind (h stack) fun _ => .pure _
  | append delta locals => exact .bind (.mapM fun type _ => h type) fun _ => .pure _
  | full delta locals stack =>
      refine .bind (.mapM fun type _ => h type) fun _ => ?_
      exact .bind (.mapM fun type _ => h type) fun _ => .pure _

theorem VerificationType.raises_traverse {f : κ → EStateM ε σ κ'} {g : τ → EStateM ε σ τ'}
    (hf : ∀ type, Raises E (f type)) (hg : ∀ site, Raises E (g site))
    (type : VerificationType κ τ) : Raises E (type.traverse f g) := by
  cases type with
  | object type => exact .bind (hf type) fun _ => .pure _
  | uninitialized site => exact .bind (hg site) fun _ => .pure _
  | _ => exact .pure _

end Traversals

theorem Body.raises_resolveEntry (body : Body) (entry : Nat × MapEntry SymbolicType) :
    Raises OfPool (body.resolveEntry entry) := by
  refine .bind (Emission.raises_report _) fun _ => MapEntry.raises_traverse (fun type => ?_) _
  exact VerificationType.raises_traverse (fun _ => Emission.raises_interning _) (fun _ => .pure _) _

theorem Line.raises_resolveOperation (line : Line) (op : SymbolicOperation) :
    Raises OfPool (line.resolveOperation op) := by
  have htraverse := op.raises_traverse fun constant =>
    Emission.raises_interning (ConstantPool.intern constant)
  refine .bind htraverse fun resolved => ?_
  dsimp only
  split
  · split
    · exact .throw trivial
    · exact .pure _
  · exact .pure _

/-- A property of the errors in the emission of a body: errors of the pool have it, and errors of
jumps that are too far or that have no instruction to go to. -/
structure Body.CoversEmission (body : Body) (E : CompileError → Prop) : Prop where
  pool : ∀ e, e.OfPool → E e
  jump : ∀ instruction position mnemonic distance,
    E (.outOfRange instruction position (.jump mnemonic distance))
  distance : ∀ (line : Line) (label : Nat), Fails E (line.distance body label)

theorem Body.coversEmission (body : Body) : body.CoversEmission OfEmission where
  pool _ h := h.ofEmission
  jump _ _ _ _ := trivial
  distance line label := by
    unfold Line.distance
    split
    · exact .ok _
    · exact .error rfl

namespace Line

variable (line : Line) {body : Body} {E : CompileError → Prop}

theorem fails_resolveBranch (hE : body.CoversEmission E) (b : SymbolicBranch) :
    Fails E (line.resolveBranch body b) := by
  have hdistance := hE.distance line
  have htraverse : Fails E (b.traverse (line.distance body)) := by
    cases b with
    | jump op target => exact .bind (hdistance target) fun _ => .ok _
    | tableSwitch default low targets =>
        refine .bind (hdistance default) fun _ => ?_
        exact .bind (.mapM hdistance targets) fun _ => .ok _
    | lookupSwitch default targets =>
        refine .bind (hdistance default) fun _ => ?_
        refine .bind (.mapM (fun entry => ?_) targets) fun _ => .ok _
        exact .bind (hdistance entry.2) fun _ => .ok _
    | returns kind => exact .ok _
    | throws => exact .ok _
  refine .bind htraverse fun resolved => ?_
  split
  · exact .ok _
  · split
    · exact .ok _
    · exact .error (hE.jump _ _ _ _)
  · exact .ok _

theorem raises_resolve (hE : body.CoversEmission E) : Raises E (line.resolve body) := by
  unfold resolve
  split
  · rename_i op _
    refine .bind (fun s e s' h => ?_) fun _ => .pure _
    exact hE.pool e (line.raises_resolveOperation op s e s' h)
  · rename_i b _
    exact .bind (.lift (line.fails_resolveBranch hE b)) fun _ => .pure _

end Line

end JvmAssembler
