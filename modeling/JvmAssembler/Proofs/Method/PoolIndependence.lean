import JvmAssembler.Proofs.Constant.Interning
import JvmAssembler.Proofs.Method.Code
import JvmAssembler.Proofs.Method.Encodable
import JvmAssembler.Proofs.StackMap.Decode

/-! A method is compiled with a pool that may hold constants of other methods already. The pool
decides which indices constants get, and whether there is room for them. Nothing else depends on it:
two pools give the same method up to indices, and an error that is not about room in the pool is met
with both. -/

namespace JvmAssembler

namespace Emission

variable {α β γ : Type}

/-- The work fails from every state, with the given error or for want of room in the pool. -/
def FailsLike (e : CompileError) (x : Emission α) : Prop :=
  ∀ s, ∃ e' s', x s = .error e' s' ∧ (e' = e ∨ e'.OfPool)

/-- An error that is not about room in the pool depends neither on the state nor on what the work
starts from. -/
def Steady (x : α → Emission β) : Prop :=
  ∀ a s e s', x a s = .error e s' → e.OfPool ∨ ∀ b, FailsLike e (x b)

namespace Steady

theorem of_raises {x : α → Emission β} (h : ∀ a, Raises CompileError.OfPool (x a)) : Steady x :=
  fun a s e s' herror => .inl (h a s e s' herror)

theorem lift (x : Except CompileError β) : Steady fun _ : α => (liftM x : Emission β) := by
  intro _ s e s' h
  cases x with
  | ok b => cases h
  | error e' =>
      cases h
      exact .inr fun _ t => ⟨e, t, rfl, .inl rfl⟩

theorem bind {x : γ → Emission α} {f : γ → α → Emission β} (hx : Steady x)
    (hf : Steady fun p : γ × α => f p.1 p.2) : Steady fun c => x c >>= f c := by
  intro c s e s' h
  rcases cases_of_bind_eq_error h with hfirst | ⟨a, s₁, ha, hrest⟩
  · refine (hx c s e s' hfirst).imp_right fun hlike d t => ?_
    obtain ⟨e', t', herror, hcause⟩ := hlike d t
    exact ⟨e', t', bind_eq_of_error herror, hcause⟩
  · refine (hf (c, a) s₁ e s' hrest).imp_right fun hlike d t => ?_
    cases hd : x d t with
    | ok b t₁ =>
        obtain ⟨e', t', herror, hcause⟩ := hlike (d, b) t₁
        exact ⟨e', t', (bind_eq_of_ok hd).trans herror, hcause⟩
    | error e' t' =>
        refine ⟨e', t', bind_eq_of_error hd, .inr ?_⟩
        refine (hx d t e' t' hd).resolve_right fun hlike' => ?_
        obtain ⟨_, _, herror, _⟩ := hlike' c s
        rw [ha] at herror
        cases herror

theorem const {x : Emission β} (h : Steady fun _ : Unit => x) : Steady fun _ : α => x :=
  fun _ s e s' herror => (h () s e s' herror).imp_right fun hlike _ => hlike ()

theorem mapM {xs : List γ} {x : γ → Emission β} (h : ∀ c ∈ xs, Steady fun _ : Unit => x c) :
    Steady fun _ : α => xs.mapM x := by
  induction xs generalizing α with
  | nil => exact of_raises fun _ => .pure []
  | cons c xs ih =>
      simp only [List.mapM_cons]
      refine .bind (.const (h c List.mem_cons_self)) (.bind (ih fun d hd => ?_) ?_)
      · exact h d (List.mem_cons_of_mem c hd)
      · exact of_raises fun _ => .pure _

end Steady

end Emission

open Emission

namespace Line

variable {line : Line} {body : Body}

theorem steady_resolve : Steady fun _ : Unit => line.resolve body := by
  unfold resolve
  split
  · rename_i op _
    refine .bind (.of_raises fun _ => line.raises_resolveOperation op) ?_
    exact .of_raises fun _ => .pure _
  · rename_i b _
    exact .bind (.lift (line.resolveBranch body b)) (.of_raises fun _ => .pure _)

theorem steady_encode (h : line.instruction.Encodable) :
    Steady fun _ : Unit => line.encode body := by
  intro _ s e s' herror
  refine (steady_resolve () s e s' ((encode_eq_error_iff h).mp herror)).imp_right ?_
  intro hlike _ t
  obtain ⟨e', t', herror', hcause⟩ := hlike () t
  exact ⟨e', t', (encode_eq_error_iff h).mpr herror', hcause⟩

end Line

theorem Body.steady_emit {body : Body} (h : body.Encodable) (initial : Frame)
    (analysis : Analysis) : Steady fun _ : Unit => body.emit initial analysis := by
  refine .bind (.of_raises fun _ => .mapM fun entry _ => body.raises_resolveEntry entry) ?_
  refine .bind (.mapM fun line hline => ?_) ?_
  · exact .bind (Line.steady_encode (h line hline)) (.of_raises fun _ => .pure _)
  · refine .of_raises fun _ => ?_
    exact .bind (.forM (fun _ => Emission.raises_report _) _) fun _ => .pure _

namespace WrittenMethod

variable {m : WrittenMethod} {settings : Settings}

theorem steady_finish {p : Prepared} (h : p.body.Encodable) :
    Steady fun _ : Unit => m.finish p := by
  refine .bind (Body.steady_emit h _ _) (.of_raises fun _ => ?_)
  exact .bind (Emission.raises_report _) fun _ => .pure _

/-- An error that is not about room in the pool is met with every pool, if there is room. -/
theorem error_of_compile {pool : ConstantPool} {journal : Journal} {e : CompileError}
    {s : ClassState} (h : m.compile settings ⟨pool, journal⟩ = .error e s) (he : ¬ e.OfPool)
    (other : ConstantPool) :
    ∃ e' s', m.compile settings ⟨other, journal⟩ = .error e' s' ∧ (e' = e ∨ e'.OfPool) := by
  rw [compile_eq] at h ⊢
  cases hprepare : m.prepare settings journal with
  | error e' journal' =>
      rw [bind_eq_of_error (Emission.journaling_of_error hprepare pool)] at h
      cases h
      exact ⟨e, _, bind_eq_of_error (Emission.journaling_of_error hprepare other), .inl rfl⟩
  | ok p journal' =>
      rw [bind_eq_of_ok (Emission.journaling_of_ok hprepare pool)] at h
      have hsteady := steady_finish (encodable_prepare _ _ _ hprepare) () _ _ _ h
      obtain ⟨e', s', herror, hcause⟩ := hsteady.resolve_left he () ⟨other, journal'⟩
      refine ⟨e', s', ?_, hcause⟩
      rw [bind_eq_of_ok (Emission.journaling_of_ok hprepare other)]
      exact herror

end WrittenMethod

/-- An instruction with the constants that its indices resolve to. -/
def Instruction.constantsSeen? (pool : ConstantPool) :
    ResolvedInstruction → Option (Instruction Constant Int32)
  | operation op => (op.traverse pool.constant?).map operation
  | branch b => some (branch b)

namespace Line

/-- Instructions that mean the same line are the same up to indices. -/
theorem constantsSeen?_of_means {line : Line} {body : Body} {pool pool' : ConstantPool}
    {found found' : ResolvedInstruction} (h : line.Means body pool found)
    (h' : line.Means body pool' found') :
    ∃ insn, found.constantsSeen? pool = some insn ∧ found'.constantsSeen? pool' = some insn := by
  unfold Means at h h'
  generalize line.instruction = insn at h h'
  cases h with
  | @operation op _ hop =>
      cases h' with
      | operation hop' =>
          exact ⟨.operation op, congrArg (Option.map Instruction.operation) hop.traverse_eq,
            congrArg (Option.map Instruction.operation) hop'.traverse_eq⟩
  | branch hb =>
      cases h' with
      | branch hb' =>
          refine ⟨_, rfl, congrArg some (congrArg Instruction.branch (hb'.right_unique ?_ hb))⟩
          rintro label d d' ⟨target, htarget, hd⟩ ⟨target', htarget', hd'⟩
          cases htarget.symm.trans htarget'
          exact Int32.toInt_inj.mp (by omega)

end Line

theorem forall₂_of_common {α β γ : Type} {R : α → β → Prop} {R' : α → γ → Prop}
    {S : β → γ → Prop} {xs : List α} {ys : List β} {zs : List γ} (h : List.Forall₂ R xs ys)
    (h' : List.Forall₂ R' xs zs) (hcommon : ∀ x y z, R x y → R' x z → S y z) :
    List.Forall₂ S ys zs := by
  induction h generalizing zs with
  | nil =>
      cases h'
      exact .nil
  | cons hfirst _ ih =>
      cases h' with
      | cons hfirst' hrest' => exact .cons (hcommon _ _ _ hfirst hfirst') (ih hrest')

theorem exists_mapM_of_forall₂ {α β γ : Type} {f : α → Option γ} {g : β → Option γ} {as : List α}
    {bs : List β} (h : List.Forall₂ (fun a b => ∃ c, f a = some c ∧ g b = some c) as bs) :
    ∃ cs, as.mapM f = some cs ∧ bs.mapM g = some cs := by
  induction h with
  | nil => exact ⟨[], rfl, rfl⟩
  | cons hfirst _ ih =>
      obtain ⟨c, ha, hb⟩ := hfirst
      obtain ⟨cs, has, hbs⟩ := ih
      refine ⟨c :: cs, ?_, ?_⟩
      · simp [List.mapM_cons, ha, has]
      · simp [List.mapM_cons, hb, hbs]

section Total

variable {α β τ τ' : Type}

theorem exists_mapM {f : α → Option β} (h : ∀ a, ∃ b, f a = some b) (as : List α) :
    ∃ bs, as.mapM f = some bs := by
  induction as with
  | nil => exact ⟨[], rfl⟩
  | cons a as ih =>
      obtain ⟨b, hb⟩ := h a
      obtain ⟨bs, hbs⟩ := ih
      exact ⟨b :: bs, by simp [List.mapM_cons, hb, hbs]⟩

theorem MapEntry.exists_traverse {f : τ → Option τ'} (h : ∀ type, ∃ type', f type = some type')
    (entry : MapEntry τ) : ∃ entry', entry.traverse f = some entry' := by
  cases entry with
  | same delta | chop delta count => exact ⟨_, rfl⟩
  | oneStack delta stack =>
      obtain ⟨type, htype⟩ := h stack
      exact ⟨.oneStack delta type, by simp [traverse, htype]⟩
  | append delta locals =>
      obtain ⟨types, htypes⟩ := exists_mapM h locals
      exact ⟨.append delta types, by simp [traverse, htypes]⟩
  | full delta locals stack =>
      obtain ⟨types, htypes⟩ := exists_mapM h locals
      obtain ⟨types', htypes'⟩ := exists_mapM h stack
      exact ⟨.full delta types types', by simp [traverse, htypes, htypes']⟩

theorem Body.exists_typeSeen (body : Body) (type : SymbolicType) :
    ∃ seen, body.typeSeen some type = some seen := by
  cases type <;> exact ⟨_, rfl⟩

end Total

namespace CompiledMethod

/-- The instructions of the code with their offsets and constants. -/
def codeSeen? (compiled : CompiledMethod) (pool : ConstantPool) :
    Option (List (Nat × Instruction Constant Int32)) := do
  let decoded ← Decode.all 0 compiled.code
  decoded.mapM fun entry => (entry.2.constantsSeen? pool).map fun insn => (entry.1, insn)

/-- The stack map with its classes. -/
def mapSeen? (compiled : CompiledMethod) (pool : ConstantPool) :
    Option (List (MapEntry (VerificationType RefType UInt16))) :=
  compiled.stackMap.mapM (MapEntry.traverse (VerificationType.traverse pool.classType? some))

/-- Two methods are the same up to indices, each resolved in a pool of its own. -/
structure SameIn (pool pool' : ConstantPool) (compiled compiled' : CompiledMethod) : Prop where
  signature : compiled.signature = compiled'.signature
  flags : compiled.flags = compiled'.flags
  maxStack : compiled.maxStack = compiled'.maxStack
  maxLocals : compiled.maxLocals = compiled'.maxLocals
  body : compiled.body = compiled'.body
  labelFrames : compiled.labelFrames = compiled'.labelFrames
  length_code : compiled.code.length = compiled'.code.length
  code : ∃ seen, compiled.codeSeen? pool = some seen ∧ compiled'.codeSeen? pool' = some seen
  stackMap : ∃ seen, compiled.mapSeen? pool = some seen ∧ compiled'.mapSeen? pool' = some seen

end CompiledMethod

/-- Is a value taken off an empty stack? -/
def CompileError.isUnderflow : CompileError → Bool
  | stackUnderflow _ _ _ _ => true
  | _ => false

namespace WrittenMethod

variable {m : WrittenMethod} {settings : Settings}

section Compiles

variable {compiled compiled' : CompiledMethod} {analysis : Analysis}
  {encoded encoded' : List (Line × List UInt8)} {s₀ s₁ s₂ t₀ t₁ t₂ : ClassState}

theorem Compiles.length_code (h : m.Compiles settings compiled analysis encoded s₀ s₁ s₂) :
    compiled.code.length = (compiled.body.lines.toList.map Line.size).sum := by
  obtain ⟨hlines, hlengths⟩ := Body.encode_spec h.emitted.encode_eq
  rw [h.code_eq_flatten, List.length_flatten,
    Body.map_length_pieces analysis (Body.length_pos_of_encode h.emitted.encode_eq),
    List.map_congr_left hlengths, ← hlines, List.map_map]
  rfl

theorem Compiles.code_seen (h : m.Compiles settings compiled analysis encoded s₀ s₁ s₂)
    (h' : m.Compiles settings compiled' analysis encoded' t₀ t₁ t₂)
    (hbody : compiled.body = compiled'.body) :
    ∃ seen, compiled.codeSeen? s₂.pool = some seen ∧ compiled'.codeSeen? t₂.pool = some seen := by
  obtain ⟨decoded, hdecoded, hall⟩ := h.exists_decoded
  obtain ⟨decoded', hdecoded', hall'⟩ := h'.exists_decoded
  rw [CompiledMethod.emitted, hbody, h.reaches_eq, ← h'.reaches_eq] at hall
  simp only [CompiledMethod.codeSeen?, hdecoded, hdecoded', Option.bind_eq_bind, Option.bind_some]
  refine exists_mapM_of_forall₂ (forall₂_of_common hall hall' ?_)
  intro line entry entry' hshows hshows'
  obtain ⟨insn, hseen, hseen'⟩ := Line.constantsSeen?_of_means hshows.2 hshows'.2
  refine ⟨(line.offset, insn), ?_, ?_⟩
  · rw [hseen, hshows.1]
    rfl
  · rw [hseen', hshows'.1]
    rfl

theorem Compiles.map_seen (h : m.Compiles settings compiled analysis encoded s₀ s₁ s₂) :
    compiled.mapSeen? s₂.pool =
      ((StackMap.build (Frame.onEntry m.owner m.isStatic compiled.signature)
        (compiled.body.mapTargets analysis (compiled.body.unreachedRanges analysis))).map
          Prod.snd).mapM (MapEntry.traverse (compiled.body.typeSeen some)) := by
  obtain ⟨_, hseen⟩ := Body.table_resolved h.emitted.stackMap_eq
  exact hseen _ (Body.readable_of_encode h.laidOut h.codeSize h.emitted.encode_eq).1 some

end Compiles

/-- Two pools give the same method up to indices. -/
theorem sameIn_of_compile {p q : ConstantPool} {journal : Journal}
    {compiled compiled' : CompiledMethod} {s s' : ClassState}
    (h : m.compile settings ⟨p, journal⟩ = .ok compiled s)
    (h' : m.compile settings ⟨q, journal⟩ = .ok compiled' s') :
    CompiledMethod.SameIn s.pool s'.pool compiled compiled' := by
  obtain ⟨r, journal₁, hprepare, hfinish⟩ := exists_prepared h
  obtain ⟨r', journal₂, hprepare', hfinish'⟩ := exists_prepared h'
  cases hprepare.symm.trans hprepare'
  obtain ⟨hsignature, hbody, hflags, encoded, s₁, s₂, hcompiles, hpool⟩ :=
    compiles_of_finish hprepare hfinish
  obtain ⟨hsignature', hbody', hflags', encoded', t₁, t₂, hcompiles', hpool'⟩ :=
    compiles_of_finish hprepare hfinish'
  have hsame : compiled.body = compiled'.body := hbody.symm.trans hbody'
  have hsameSignature : compiled.signature = compiled'.signature := hsignature.symm.trans hsignature'
  rw [hpool, hpool']
  exact {
    signature := hsameSignature
    flags := hflags.symm.trans hflags'
    maxStack := by rw [hcompiles.maxStack_eq, hcompiles'.maxStack_eq, hsame]
    maxLocals := hcompiles.maxLocals_eq.trans hcompiles'.maxLocals_eq.symm
    body := hsame
    labelFrames := hcompiles.labelFrames_eq.trans hcompiles'.labelFrames_eq.symm
    length_code := by rw [hcompiles.length_code, hcompiles'.length_code, hsame]
    code := hcompiles.code_seen hcompiles' hsame
    stackMap := by
      rw [hcompiles.map_seen, hcompiles'.map_seen, hsame, hsameSignature]
      obtain ⟨seen, hseen⟩ := exists_mapM (MapEntry.exists_traverse compiled'.body.exists_typeSeen) _
      exact ⟨seen, hseen, hseen⟩ }

/-- A compiled method does not depend on what the pool held before. If it compiles with two pools, the
results are the same up to indices. An error that is not about room in the pool is met with every
pool, unless there is no room. -/
theorem independent_of_pool (m : WrittenMethod) (settings : Settings) (journal : Journal)
    (p q : ConstantPool) :
    (∀ compiled s compiled' s', m.compile settings ⟨p, journal⟩ = .ok compiled s →
      m.compile settings ⟨q, journal⟩ = .ok compiled' s' →
      CompiledMethod.SameIn s.pool s'.pool compiled compiled') ∧
    (∀ e s, m.compile settings ⟨p, journal⟩ = .error e s → ¬ e.OfPool →
      ∃ e' s', m.compile settings ⟨q, journal⟩ = .error e' s' ∧ (e' = e ∨ e'.OfPool)) :=
  ⟨fun _ _ _ _ => sameIn_of_compile, fun _ _ h he => error_of_compile h he q⟩

/-- A method that takes a value off the empty stack, after an instruction with a constant. -/
def underflowing : WrittenMethod :=
  { sample with body :=
      [.instruction { mnemonic := "ldc", operands := #[.text "first"] },
        .instruction { mnemonic := "pop2" }] }

/-- Constants of the sample have other indices if the pool holds a text already. A method that is
refused with one pool is refused with the other. -/
theorem independent_of_pool_sample :
    (∃ compiled s compiled' s', sample.compile {} ⟨.empty, {}⟩ = .ok compiled s ∧
      sample.compile {} ⟨(ConstantPool.serve [.text "other"] .empty).2, {}⟩ = .ok compiled' s' ∧
      compiled.code ≠ compiled'.code ∧
      CompiledMethod.SameIn s.pool s'.pool compiled compiled') ∧
    ∃ e s, underflowing.compile {} ⟨.empty, {}⟩ = .error e s ∧ ¬ e.OfPool ∧
      ∃ e' s', underflowing.compile {}
          ⟨(ConstantPool.serve [.text "other"] .empty).2, {}⟩ = .error e' s' ∧
        (e' = e ∨ e'.OfPool) := by
  have hfirst : Assembly.satisfies (fun compiled => compiled.code.take 3 == [0xBB, 0, 4])
      (sample.compile {}) ⟨.empty, {}⟩ = true := by
    unfold compile Analysis.ofBody
    iterate 4 rw [Analysis.run_eq]
    decide +kernel
  have hsecond : Assembly.satisfies (fun compiled => compiled.code.take 3 == [0xBB, 0, 5])
      (sample.compile {}) ⟨(ConstantPool.serve [.text "other"] .empty).2, {}⟩ = true := by
    unfold compile Analysis.ofBody
    iterate 4 rw [Analysis.run_eq]
    decide +kernel
  have hfails : Assembly.failsWith (fun e _ => e.isUnderflow) (underflowing.compile {})
      ⟨.empty, {}⟩ = true := by
    unfold compile Analysis.ofBody
    rw [Analysis.run_eq]
    decide +kernel
  constructor
  · obtain ⟨compiled, s, h, hcode⟩ := Assembly.exists_of_satisfies hfirst
    obtain ⟨compiled', s', h', hcode'⟩ := Assembly.exists_of_satisfies hsecond
    refine ⟨compiled, s, compiled', s', h, h', ?_, ?_⟩
    · intro heq
      rw [heq] at hcode
      exact absurd ((beq_iff_eq.mp hcode).symm.trans (beq_iff_eq.mp hcode')) (by decide)
    · exact (independent_of_pool sample {} {} _ _).1 _ _ _ _ h h'
  · obtain ⟨e, s, h, hunderflow⟩ := Assembly.exists_of_failsWith hfails
    have he : ¬ e.OfPool := by
      cases e with
      | stackUnderflow => exact id
      | _ => cases hunderflow
    exact ⟨e, s, h, he, (independent_of_pool underflowing {} {} _ _).2 e s h he⟩

end WrittenMethod

end JvmAssembler
