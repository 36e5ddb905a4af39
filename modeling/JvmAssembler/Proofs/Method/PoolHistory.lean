import JvmAssembler.Proofs.Constant.Interning
import JvmAssembler.Proofs.Method.Encodable
import JvmAssembler.Proofs.StackMap.Decode

/-! A method asks the pool for the classes of its stack map and then for the constants of its code.
A method that fails has asked for the first of these, or for nothing: what the pool held before
stands where it stood, and all errors but those of emission are met before anything is asked for. -/

namespace JvmAssembler

/-- However the work ends, the states before and after it are related. -/
structure Relates {ε σ α : Type} (R : σ → σ → Prop) (x : EStateM ε σ α) : Prop where
  ok : ∀ {s s' : σ} {a : α}, x s = .ok a s' → R s s'
  error : ∀ {s s' : σ} {e : ε}, x s = .error e s' → R s s'

theorem Relates.bind {ε σ α β : Type} {R : σ → σ → Prop} (htrans : ∀ {s t u}, R s t → R t u → R s u)
    {x : EStateM ε σ α} {f : α → EStateM ε σ β} (hx : Relates R x) (hf : ∀ a, Relates R (f a)) :
    Relates R (x >>= f) where
  ok := by
    intro s s' b h
    obtain ⟨a, s₁, hfirst, hrest⟩ := exists_of_bind_eq_result h
    exact htrans (hx.ok hfirst) ((hf a).ok hrest)
  error := by
    intro s s' e h
    rcases cases_of_bind_eq_error h with hfirst | ⟨a, s₁, hfirst, hrest⟩
    · exact hx.error hfirst
    · exact htrans (hx.ok hfirst) ((hf a).error hrest)

namespace ConstantPool

/-- The entries of a pool are the first ones of another, at the same indices. -/
def Begins (pool pool' : ConstantPool) : Prop := pool.entries.placed <+: pool'.entries.placed

theorem Begins.refl (pool : ConstantPool) : pool.Begins pool := List.prefix_rfl

theorem Begins.trans {p q r : ConstantPool} (hpq : p.Begins q) (hqr : q.Begins r) : p.Begins r :=
  List.IsPrefix.trans hpq hqr

theorem begins_internEntry (entry : PoolEntry) : Relates Begins (internEntry entry) where
  ok := by
    intro pool pool' index h
    unfold internEntry at h
    split at h
    · cases h
      exact .refl pool
    · split at h
      · cases h
        exact ⟨_, (SlotVec.placed_push _ _).symm⟩
      · cases h
  error := by
    intro pool pool' e h
    unfold internEntry at h
    split at h
    · cases h
    · split at h
      · cases h
      · cases h
        exact .refl pool

theorem Request.begins_work (request : Request) : Relates Begins request.work :=
  request.work_induction begins_internEntry (.bind .trans)

theorem begins_serve (requests : List Request) (pool : ConstantPool) :
    pool.Begins (serve requests pool).2 := by
  induction requests generalizing pool with
  | nil => exact .refl pool
  | cons request requests ih =>
      rw [serve]
      cases hwork : request.work pool with
      | ok index pool' => exact (request.begins_work.ok hwork).trans (ih pool')
      | error e pool' => exact (request.begins_work.error hwork).trans (ih pool')

/-- Requests for constants and classes that lead from a pool to another, in which all entries stand
where they stood, and which has the same history with these requests at its end. -/
structure GrowsBy (requests : List Request) (pool pool' : ConstantPool) : Prop where
  begins : pool.Begins pool'
  history : ∀ {earlier : List Request} {first : ConstantPool},
    (serve earlier first).2 = pool → (serve (earlier ++ requests) first).2 = pool'
  uses : ∀ request ∈ requests, ∀ content, request ≠ .text content

theorem growsBy_of_serve {requests : List Request} {pool pool' : ConstantPool}
    (h : (serve requests pool).2 = pool')
    (huses : ∀ request ∈ requests, ∀ content, request ≠ .text content) :
    pool.GrowsBy requests pool' where
  begins := h ▸ begins_serve requests pool
  history := by
    intro earlier first hearlier
    rw [serve_append, hearlier, h]
  uses := huses

end ConstantPool

open ConstantPool

namespace Emission

variable {α β : Type} {requests others : List Request}

/-- The work asks for some things one after the other, all of them if it succeeds. -/
structure Asks (requests : List Request) (x : Emission α) : Prop where
  ok : ∀ {s s' : ClassState} {a : α}, x s = .ok a s' → (serve requests s.pool).2 = s'.pool
  error : ∀ {s s' : ClassState} {e : CompileError}, x s = .error e s' →
    ∃ served, served <+: requests ∧ (serve served s.pool).2 = s'.pool

/-- Work that leaves the pool alone asks for nothing. -/
theorem asks_nothing {x : Emission α} (h : Relates (fun s s' => s.pool = s'.pool) x) :
    Asks [] x where
  ok := h.ok
  error := fun herror => ⟨[], List.prefix_rfl, h.error herror⟩

namespace Asks

theorem pure (a : α) : Asks [] (Pure.pure a : Emission α) := by
  apply asks_nothing
  constructor
  · rintro s s' b ⟨⟩
    rfl
  · rintro s s' e ⟨⟩

theorem throw (e : CompileError) : Asks [] (MonadExcept.throw e : Emission α) := by
  apply asks_nothing
  constructor
  · rintro s s' b ⟨⟩
  · rintro s s' e ⟨⟩
    rfl

theorem lift (x : Except CompileError α) : Asks [] (liftM x : Emission α) := by
  cases x with
  | ok a => exact .pure a
  | error e => exact .throw e

theorem report (event : Event) : Asks [] (Emission.report event) := by
  apply asks_nothing
  constructor
  · rintro s s' b ⟨⟩
    rfl
  · rintro s s' e ⟨⟩

theorem interning (request : Request) : Asks [request] (Emission.interning request.work) where
  ok := by
    intro s s' index h
    obtain ⟨pool, hwork, rfl⟩ := exists_of_interning h
    rw [serve, hwork]
    rfl
  error := by
    intro s s' e h
    refine ⟨[request], List.prefix_rfl, ?_⟩
    simp only [Emission.interning] at h
    split at h
    · cases h
    · rename_i hwork
      cases h
      rw [serve, hwork]
      rfl

theorem bind {x : Emission α} {f : α → Emission β} (hx : Asks requests x)
    (hf : ∀ a, Asks others (f a)) : Asks (requests ++ others) (x >>= f) where
  ok := by
    intro s s' b h
    obtain ⟨a, s₁, hfirst, hrest⟩ := exists_of_bind_eq_result h
    rw [serve_append, hx.ok hfirst, (hf a).ok hrest]
  error := by
    intro s s' e h
    rcases cases_of_bind_eq_error h with hfirst | ⟨a, s₁, hfirst, hrest⟩
    · obtain ⟨served, hserved, hpool⟩ := hx.error hfirst
      exact ⟨served, hserved.trans (List.prefix_append _ _), hpool⟩
    · obtain ⟨served, hserved, hpool⟩ := (hf a).error hrest
      refine ⟨requests ++ served, (List.prefix_append_right_inj _).mpr hserved, ?_⟩
      rw [serve_append, hx.ok hfirst, hpool]

/-- The last step asks for nothing. -/
theorem bind_nothing {x : Emission α} {f : α → Emission β} (hx : Asks requests x)
    (hf : ∀ a, Asks [] (f a)) : Asks requests (x >>= f) := by
  have h := hx.bind hf
  rw [List.append_nil] at h
  exact h

theorem mapM {f : α → Emission β} {needs : α → List Request} (h : ∀ a, Asks (needs a) (f a))
    (xs : List α) : Asks (xs.flatMap needs) (xs.mapM f) := by
  induction xs with
  | nil => exact .pure []
  | cons x xs ih =>
      rw [List.mapM_cons, List.flatMap_cons]
      exact (h x).bind fun y => ih.bind_nothing fun ys => .pure _

theorem forM_report {f : α → Event} (xs : List α) :
    Asks [] (xs.forM fun x => Emission.report (f x)) := by
  induction xs with
  | nil => exact .pure _
  | cons x xs ih =>
      have hcons : ((x :: xs).forM fun x => Emission.report (f x)) =
        Emission.report (f x) >>= fun _ => xs.forM fun x => Emission.report (f x) := rfl
      rw [hcons]
      exact (Asks.report (f x)).bind fun _ => ih

end Asks

end Emission

open Emission

/-- The constants that an operation refers to. -/
def Operation.constants {κ : Type} : Operation κ → List κ
  | ldc _ constant | field _ constant | invoke _ constant | classUse _ constant
  | multiArray constant _ => [constant]
  | _ => []

/-- What an instruction asks the pool for. -/
def Line.needs (line : Line) : List Request :=
  match line.instruction with
  | .operation op => op.constants.map .constant
  | .branch _ => []

/-- What a verification type asks the pool for. -/
def SymbolicType.needs : SymbolicType → List Request
  | .object type => [.classOf type]
  | _ => []

/-- What a body asks the pool for, the classes of its stack map first. -/
def Body.needs (body : Body) (initial : Frame) (analysis : Analysis) : List Request :=
  (StackMap.build initial (body.mapTargets analysis (body.unreachedRanges analysis))).flatMap
      (fun entry => entry.2.types.flatMap SymbolicType.needs) ++
    body.lines.toList.flatMap Line.needs

theorem Operation.asks_traverse {κ κ' : Type} {f : κ → Emission κ'} {need : κ → Request}
    (h : ∀ constant, Asks [need constant] (f constant)) (op : Operation κ) :
    Asks (op.constants.map need) (op.traverse f) := by
  cases op with
  | ldc form constant => exact (h constant).bind_nothing fun _ => .pure _
  | field access constant => exact (h constant).bind_nothing fun _ => .pure _
  | invoke kind constant => exact (h constant).bind_nothing fun _ => .pure _
  | classUse action constant => exact (h constant).bind_nothing fun _ => .pure _
  | multiArray constant dimensions => exact (h constant).bind_nothing fun _ => .pure _
  | _ => exact .pure _

theorem MapEntry.asks_traverse {τ τ' : Type} {f : τ → Emission τ'} {needs : τ → List Request}
    (h : ∀ type, Asks (needs type) (f type)) (entry : MapEntry τ) :
    Asks (entry.types.flatMap needs) (entry.traverse f) := by
  cases entry with
  | same delta => exact .pure _
  | chop delta count => exact .pure _
  | oneStack delta stack =>
      rw [types, List.flatMap_singleton]
      exact (h stack).bind_nothing fun _ => .pure _
  | append delta locals => exact (Asks.mapM h locals).bind_nothing fun _ => .pure _
  | full delta locals stack =>
      rw [types, List.flatMap_append]
      exact (Asks.mapM h locals).bind fun _ => (Asks.mapM h stack).bind_nothing fun _ => .pure _

namespace Line

variable (line : Line) (body : Body)

theorem asks_resolveOperation (op : SymbolicOperation) :
    Asks (op.constants.map .constant) (line.resolveOperation op) := by
  have htraverse := op.asks_traverse fun constant => Asks.interning (.constant constant)
  refine htraverse.bind_nothing fun resolved => ?_
  dsimp only
  split
  · split
    · exact .throw _
    · exact .pure _
  · exact .pure _

theorem asks_encode : Asks line.needs (line.encode body) := by
  have hresolve : Asks line.needs (line.resolve body) := by
    unfold needs resolve
    cases line.instruction with
    | operation op => exact (line.asks_resolveOperation op).bind_nothing fun _ => .pure _
    | branch b => exact (Asks.lift (line.resolveBranch body b)).bind_nothing fun _ => .pure _
  exact hresolve.bind_nothing fun _ => .lift _

end Line

namespace Body

theorem asks_resolveEntry (body : Body) (entry : Nat × MapEntry SymbolicType) :
    Asks (entry.2.types.flatMap SymbolicType.needs) (body.resolveEntry entry) := by
  refine (Asks.report _).bind fun _ => MapEntry.asks_traverse (fun type => ?_) entry.2
  cases type with
  | object type => exact (Asks.interning (.classOf type)).bind_nothing fun _ => .pure _
  | uninitialized site => exact (Asks.pure _).bind fun _ => .pure _
  | _ => exact .pure _

theorem asks_emit (body : Body) (initial : Frame) (analysis : Analysis) :
    Asks (body.needs initial analysis) (body.emit initial analysis) := by
  refine (Asks.mapM body.asks_resolveEntry _).bind fun _ => ?_
  have hencode : Asks (body.lines.toList.flatMap Line.needs) body.encode :=
    .mapM (fun line => (line.asks_encode body).bind_nothing fun _ => .pure _) _
  exact hencode.bind_nothing fun _ => (Asks.forM_report _).bind fun _ => .pure _

/-- A body asks for constants and classes only. -/
theorem ne_text_of_mem_needs {body : Body} {initial : Frame} {analysis : Analysis}
    {request : Request} (h : request ∈ body.needs initial analysis) (content : String) :
    request ≠ .text content := by
  rintro rfl
  rcases List.mem_append.mp h with hmap | hcode
  · obtain ⟨entry, _, hentry⟩ := List.mem_flatMap.mp hmap
    obtain ⟨type, _, htype⟩ := List.mem_flatMap.mp hentry
    cases type <;> simp [SymbolicType.needs] at htype
  · obtain ⟨line, _, hline⟩ := List.mem_flatMap.mp hcode
    unfold Line.needs at hline
    cases hinstruction : line.instruction <;> simp [hinstruction] at hline

end Body

namespace WrittenMethod

/-- What a method that is prepared asks the pool for. -/
def needs (m : WrittenMethod) (p : Prepared) : List Request :=
  p.body.needs (Frame.onEntry m.owner m.isStatic p.signature) p.analysis

theorem asks_finish (m : WrittenMethod) (p : Prepared) : Asks (m.needs p) (m.finish p) :=
  (p.body.asks_emit _ _).bind_nothing fun _ => (Asks.report _).bind fun _ => .pure _

/-- **Failed compilations do not damage the pool.** A method that compiles has asked for all that it
needs. A method that fails leaves the pool as it was if it is not prepared. Otherwise the error is one
of emission, and the method has asked for some of its needs, from the first one on. -/
theorem pool_of_compile (m : WrittenMethod) (settings : Settings) (s : ClassState) :
    (∀ compiled s', m.compile settings s = .ok compiled s' →
      ∃ p journal, m.prepare settings s.journal = .ok p journal ∧
        s.pool.GrowsBy (m.needs p) s'.pool) ∧
    ∀ e s', m.compile settings s = .error e s' →
      (∃ journal, m.prepare settings s.journal = .error e journal ∧ s'.pool = s.pool) ∨
      ∃ p journal, m.prepare settings s.journal = .ok p journal ∧ e.OfEmission ∧
        ∃ served, served <+: m.needs p ∧ s.pool.GrowsBy served s'.pool := by
  refine ⟨fun compiled s' h => ?_, fun e s' h => ?_⟩
  · obtain ⟨p, journal, hprepare, hfinish⟩ := exists_prepared h
    have hpool := (m.asks_finish p).ok hfinish
    exact ⟨p, journal, hprepare, growsBy_of_serve hpool fun _ => Body.ne_text_of_mem_needs⟩
  · rw [compile_eq] at h
    cases hprepare : m.prepare settings s.journal with
    | error e' journal =>
        rw [bind_eq_of_error (journaling_of_error hprepare s.pool)] at h
        cases h
        exact .inl ⟨journal, rfl, rfl⟩
    | ok p journal =>
        rw [bind_eq_of_ok (journaling_of_ok hprepare s.pool)] at h
        obtain ⟨served, hserved, hpool⟩ := (m.asks_finish p).error h
        refine .inr ⟨p, journal, rfl, ?_, served, hserved, growsBy_of_serve hpool ?_⟩
        · exact raises_finish (Body.coversEmission _) (encodable_prepare _ _ _ hprepare) _ _ _ h
        · exact fun _ hmem => Body.ne_text_of_mem_needs (hserved.mem hmem)

/-- A method that has a constant, and after that a jump to its end that is never reached. -/
def halfway : WrittenMethod where
  owner := .javaString
  flags := ⟨8⟩
  name := "f"
  descriptor := "()I"
  position := {}
  body :=
    [.instruction { mnemonic := "ldc", operands := #[.text "a"] },
      .instruction { mnemonic := "pop" },
      .instruction { mnemonic := "iconst_0" },
      .instruction { mnemonic := "ireturn" },
      .instruction { mnemonic := "goto", operands := #[.label "end"] },
      .label "end" {}]

/-- The sample asks for all that it needs, and the other method only for its constant. -/
theorem pool_of_compile_halfway :
    (∃ compiled s' p journal, sample.compile {} ⟨.empty, {}⟩ = .ok compiled s' ∧
      sample.prepare {} {} = .ok p journal ∧ empty.GrowsBy (sample.needs p) s'.pool) ∧
    ∃ e s' p journal served, halfway.compile {} ⟨.empty, {}⟩ = .error e s' ∧ s'.pool.next = 5 ∧
      halfway.prepare {} {} = .ok p journal ∧ e.OfEmission ∧ served <+: halfway.needs p ∧
      empty.GrowsBy served s'.pool := by
  obtain ⟨compiled, s', h⟩ := exists_compile_sample
  obtain ⟨p, journal, hprepare, hgrows⟩ := (pool_of_compile sample {} _).1 _ _ h
  refine ⟨⟨compiled, s', p, journal, h, hprepare, hgrows⟩, ?_⟩
  have hfails : Assembly.failsWith (fun _ s => s.pool.next == 5) (halfway.compile {})
      ⟨.empty, {}⟩ = true := by
    unfold compile Analysis.ofBody
    iterate 2 rw [Analysis.run_eq]
    decide +kernel
  obtain ⟨e, s', h, hnext⟩ := Assembly.exists_of_failsWith hfails
  have hnext : s'.pool.next = 5 := beq_iff_eq.mp hnext
  rcases (pool_of_compile halfway {} _).2 e s' h with ⟨_, _, hpool⟩ | hemission
  · rw [hpool] at hnext
    cases hnext
  · obtain ⟨p, journal, hprepare, he, served, hserved, hgrows⟩ := hemission
    exact ⟨e, s', p, journal, served, h, hnext, hprepare, he, hserved, hgrows⟩

end WrittenMethod

end JvmAssembler
