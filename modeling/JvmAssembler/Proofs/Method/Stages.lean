import JvmAssembler.Method.Compile
import JvmAssembler.Proofs.Analysis.Fixpoint
import JvmAssembler.Proofs.Method.Layout

/-! A method that is compiled was laid out, analysed and emitted. -/

namespace JvmAssembler

namespace Emission

theorem exists_of_journaling {α : Type} {x : Assembly Journal α} {s s' : ClassState} {a : α}
    (h : Emission.journaling x s = .ok a s') :
    ∃ journal, x s.journal = .ok a journal ∧ s' = ⟨s.pool, journal⟩ := by
  simp only [journaling] at h
  split at h
  · rename_i journal hx
    cases h
    exact ⟨journal, hx, rfl⟩
  · cases h

section Journaling

variable {α : Type} {x : Assembly Journal α} {journal journal' : Journal}

theorem journaling_of_ok {a : α} (h : x journal = .ok a journal') (pool : ConstantPool) :
    Emission.journaling x ⟨pool, journal⟩ = .ok a ⟨pool, journal'⟩ := by
  simp only [journaling, h]

theorem journaling_of_error {e : CompileError} (h : x journal = .error e journal')
    (pool : ConstantPool) : Emission.journaling x ⟨pool, journal⟩ = .error e ⟨pool, journal'⟩ := by
  simp only [journaling, h]

end Journaling

theorem journaling_bind {α β : Type} (x : Assembly Journal α) (f : α → Assembly Journal β) :
    Emission.journaling (x >>= f) =
      Emission.journaling x >>= fun a => Emission.journaling (f a) := by
  funext s
  simp only [journaling, bind, EStateM.bind]
  cases x s.journal with
  | ok a journal => rfl
  | error e journal => rfl

theorem journaling_lift {α : Type} (x : Except CompileError α) :
    Emission.journaling (liftM x) = liftM x := by
  funext s
  cases x with
  | ok a => rfl
  | error e => rfl

theorem exists_of_interning {α : Type} {x : ConstantPool.Interning α} {s s' : ClassState} {a : α}
    (h : Emission.interning x s = .ok a s') :
    ∃ pool, x s.pool = .ok a pool ∧ s' = ⟨pool, s.journal⟩ := by
  simp only [interning] at h
  split at h
  · rename_i pool hx
    cases h
    exact ⟨pool, hx, rfl⟩
  · cases h

theorem pool_of_forM_report {α : Type} {f : α → Event} {xs : List α} {s s' : ClassState}
    (h : (xs.forM fun x => Emission.report (f x)) s = .ok () s') : s'.pool = s.pool := by
  induction xs generalizing s with
  | nil =>
      cases h
      rfl
  | cons x xs ih =>
      obtain ⟨_, s₁, hfirst, hrest⟩ := exists_of_bind_eq_result h
      cases hfirst
      exact (ih hrest).trans rfl

end Emission

/-- The bytes of all instructions and the stack map, and the states before, between and after. -/
structure Body.Emitted (body : Body) (initial : Frame) (analysis : Analysis)
    (encoded : List (Line × List UInt8)) (stackMap : List (MapEntry ResolvedType))
    (s₀ s₁ s₂ : ClassState) : Prop where
  stackMap_eq : (StackMap.build initial
      (body.mapTargets analysis (body.unreachedRanges analysis))).mapM body.resolveEntry s₀ =
    .ok stackMap s₁
  encode_eq : body.encode s₁ = .ok encoded s₂

theorem Body.exists_emitted {body : Body} {initial : Frame} {analysis : Analysis}
    {code : List UInt8} {stackMap : List (MapEntry ResolvedType)} {s s' : ClassState}
    (h : body.emit initial analysis s = .ok (code, stackMap) s') :
    ∃ encoded s₁ s₂, body.Emitted initial analysis encoded stackMap s s₁ s₂ ∧
      code = Body.code analysis encoded ∧ s'.pool = s₂.pool := by
  obtain ⟨_, s₁, hmap, h⟩ := exists_of_bind_eq_result h
  obtain ⟨encoded, s₂, hencode, h⟩ := exists_of_bind_eq_result h
  obtain ⟨_, s₃, hreport, h⟩ := exists_of_bind_eq_result h
  cases h
  exact ⟨encoded, s₁, s₂, ⟨hmap, hencode⟩, rfl, Emission.pool_of_forM_report hreport⟩

namespace WrittenMethod

/-- What is known of a method before anything is emitted. -/
structure Prepared where
  signature : Signature
  body : Body
  analysis : Analysis

/-- The stages before emission, which have nothing to do with the pool. -/
def prepare (m : WrittenMethod) (settings : Settings) : Assembly Journal Prepared := do
  let signature ← m.signature
  modify fun journal => journal.report (.compiling m.owner signature.name m.descriptor)
  let body ← m.layout settings signature
  let analysis ← Analysis.ofBody body m.owner (Frame.onEntry m.owner m.isStatic signature)
  return ⟨signature, body, analysis⟩

/-- The emission of a method that is prepared. -/
def finish (m : WrittenMethod) (p : Prepared) : Emission CompiledMethod := do
  let (code, stackMap) ← p.body.emit (Frame.onEntry m.owner m.isStatic p.signature) p.analysis
  Emission.report (.compiled p.signature.name code.length stackMap.length)
  return {
    signature := p.signature, flags := m.flags, maxStack := p.body.stackRoom p.analysis,
    maxLocals := p.analysis.maxLocals, body := p.body, labelFrames := p.analysis.labelFrames,
    stackMap, code }

/-- A method is prepared and then emitted. -/
theorem compile_eq (m : WrittenMethod) (settings : Settings) :
    m.compile settings = (do m.finish (← Emission.journaling (m.prepare settings))) := by
  unfold prepare
  simp only [Emission.journaling_bind, Emission.journaling_lift, bind_assoc]
  rfl

theorem exists_prepared {m : WrittenMethod} {settings : Settings} {s s' : ClassState}
    {compiled : CompiledMethod} (h : m.compile settings s = .ok compiled s') :
    ∃ p journal, m.prepare settings s.journal = .ok p journal ∧
      m.finish p ⟨s.pool, journal⟩ = .ok compiled s' := by
  rw [compile_eq] at h
  obtain ⟨p, s₁, hjournaling, hfinish⟩ := exists_of_bind_eq_result h
  obtain ⟨journal, hprepare, rfl⟩ := Emission.exists_of_journaling hjournaling
  exact ⟨p, journal, hprepare, hfinish⟩

/-- What a compiled method was made from. -/
structure Compiles (m : WrittenMethod) (settings : Settings) (compiled : CompiledMethod)
    (analysis : Analysis) (encoded : List (Line × List UInt8)) (s₀ s₁ s₂ : ClassState) : Prop where
  signature : m.signature = .ok compiled.signature
  layout : ∃ journal journal',
    m.layout settings compiled.signature journal = .ok compiled.body journal'
  laidOut : compiled.body.LaidOut
  codeSize : compiled.body.codeSize ≤ maxCodeSize
  analysed : ∃ journal journal', Analysis.ofBody compiled.body m.owner
    (Frame.onEntry m.owner m.isStatic compiled.signature) journal = .ok analysis journal'
  emitted : compiled.body.Emitted (Frame.onEntry m.owner m.isStatic compiled.signature) analysis
    encoded compiled.stackMap s₀ s₁ s₂
  code_eq : compiled.code = Body.code analysis encoded
  labelFrames_eq : compiled.labelFrames = analysis.labelFrames
  maxStack_eq : compiled.maxStack = compiled.body.stackRoom analysis
  maxLocals_eq : compiled.maxLocals = analysis.maxLocals

/-- A method that is prepared and emitted is compiled. -/
theorem compiles_of_finish {m : WrittenMethod} {settings : Settings} {p : Prepared}
    {journal journal' : Journal} {s s' : ClassState} {compiled : CompiledMethod}
    (hprepare : m.prepare settings journal = .ok p journal')
    (hfinish : m.finish p s = .ok compiled s') :
    p.signature = compiled.signature ∧ p.body = compiled.body ∧ m.flags = compiled.flags ∧
      ∃ encoded s₁ s₂, m.Compiles settings compiled p.analysis encoded s s₁ s₂ ∧
        s'.pool = s₂.pool := by
  obtain ⟨signature, j₁, hlift, h⟩ := exists_of_bind_eq_result hprepare
  obtain ⟨hsignature, rfl⟩ := lift_eq_result hlift
  obtain ⟨_, j₂, _, h⟩ := exists_of_bind_eq_result h
  obtain ⟨body, j₃, hlayout, h⟩ := exists_of_bind_eq_result h
  obtain ⟨analysis, j₄, hanalysis, h⟩ := exists_of_bind_eq_result h
  cases h
  obtain ⟨hlaidOut, hsize⟩ := laidOut_of_layout hlayout
  obtain ⟨⟨code, stackMap⟩, s₁, hemit, h⟩ := exists_of_bind_eq_result hfinish
  obtain ⟨encoded, t₁, t₂, hemitted, hcode, hpool⟩ := Body.exists_emitted hemit
  obtain ⟨_, s₂, hreport, h⟩ := exists_of_bind_eq_result h
  cases hreport
  cases h
  exact ⟨rfl, rfl, rfl, encoded, t₁, t₂, {
    signature := hsignature
    layout := ⟨_, _, hlayout⟩
    laidOut := hlaidOut
    codeSize := hsize
    analysed := ⟨_, _, hanalysis⟩
    emitted := hemitted
    code_eq := hcode
    labelFrames_eq := rfl
    maxStack_eq := rfl
    maxLocals_eq := rfl }, hpool⟩

theorem exists_compiles {m : WrittenMethod} {settings : Settings} {s s' : ClassState}
    {compiled : CompiledMethod} (h : m.compile settings s = .ok compiled s') :
    ∃ analysis encoded s₀ s₁ s₂, m.Compiles settings compiled analysis encoded s₀ s₁ s₂ ∧
      s₀.pool = s.pool ∧ s'.pool = s₂.pool := by
  obtain ⟨p, journal, hprepare, hfinish⟩ := exists_prepared h
  obtain ⟨_, _, _, encoded, s₁, s₂, hcompiles, hpool⟩ := compiles_of_finish hprepare hfinish
  exact ⟨p.analysis, encoded, _, s₁, s₂, hcompiles, rfl, hpool⟩

/-- A method that jumps while an object is not initialized, and skips some code. -/
def sample : WrittenMethod where
  owner := .javaString
  flags := ⟨8⟩
  name := "f"
  descriptor := "()V"
  position := {}
  body :=
    [.instruction { mnemonic := "new", operands := #[.type "A"] },
      .instruction { mnemonic := "dup" },
      .instruction { mnemonic := "iconst_0" },
      .instruction { mnemonic := "ifeq", operands := #[.label "call"] },
      .label "call" {},
      .instruction
        { mnemonic := "invokespecial", operands := #[.member ⟨"A", "<init>", "()V"⟩] },
      .instruction { mnemonic := "goto", operands := #[.label "done"] },
      .instruction { mnemonic := "ldc", operands := #[.text "never"] },
      .instruction { mnemonic := "pop" },
      .label "done" {},
      .instruction { mnemonic := "pop" }]

theorem exists_compile_sample :
    ∃ compiled s', sample.compile {} ⟨.empty, {}⟩ = .ok compiled s' := by
  apply Assembly.exists_of_succeeds
  unfold compile Analysis.ofBody
  iterate 4 rw [Analysis.run_eq]
  decide +kernel

end WrittenMethod

end JvmAssembler
