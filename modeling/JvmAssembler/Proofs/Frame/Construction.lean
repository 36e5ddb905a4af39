import JvmAssembler.Proofs.Frame.Untouched

/-! An object whose constructor was not called can be moved around on the stack and into locals, and
its constructor can be called. All else asks for an initialized reference, but for one instruction:
a write to a field takes any reference. It has to, because a constructor may set fields of its own
object before it calls another constructor. But it takes other new objects as well. -/

namespace JvmAssembler

/-- Can the expectation be met by an object whose constructor was not called? -/
def Expectation.admitsUninitialized : Expectation → Bool
  | anyReference | uninitialized | slots _ => true
  | numeric _ | object => false

theorem Expectation.admitsUninitialized_ofField (type : FieldType) :
    (ofField type).admitsUninitialized = false := by
  cases type <;> rfl

theorem Expectation.admitsUninitialized_ofKind (kind : ValueKind) :
    (ofKind kind).admitsUninitialized = false := by
  cases kind <;> rfl

namespace Instruction

/-- Does the instruction move values without looking at them? -/
def movesReferences : SymbolicInstruction → Bool
  | .operation (.stack _) | .operation (.store .reference _ _) => true
  | _ => false

/-- Does the pop with this number take the object whose constructor is called? -/
def constructsAt (insn : SymbolicInstruction) (position : Nat) : Bool :=
  match insn with
  | .operation (.invoke .special (.method method)) =>
    method.name.isInit && position == method.descriptor.parameters.length
  | _ => false

/-- Does the pop with this number take the object whose field is written? -/
def writesFieldAt (insn : SymbolicInstruction) (position : Nat) : Bool :=
  match insn with
  | .operation (.field .putField (.field _)) => position == 1
  | _ => false

/-- May the pop with this number take a value of a type, as far as constructors are concerned? Fields
can be written on the object that a constructor works on, not on others. -/
def mayTake (insn : SymbolicInstruction) (position : Nat) : ValueType → Bool
  | .uninitialized _ _ => insn.movesReferences || insn.constructsAt position
  | .uninitializedThis =>
    insn.movesReferences || insn.constructsAt position || insn.writesFieldAt position
  | _ => true

/-- No pop in a list can be met by an uninitialized object. -/
def Firm (pops : List Expectation) : Prop := ∀ e ∈ pops, e.admitsUninitialized = false

theorem firm_arguments (types : List FieldType) : Firm (types.map Expectation.ofField).reverse := by
  intro e he
  obtain ⟨type, _, rfl⟩ := List.mem_map.mp (List.mem_reverse.mp he)
  exact Expectation.admitsUninitialized_ofField type

theorem Firm.concat_object {pops : List Expectation} (h : Firm pops) : Firm (pops ++ [.object]) := by
  intro e he
  rcases List.mem_append.mp he with he | he
  · exact h e he
  · rw [List.mem_singleton.mp he]
    rfl

/-- Calls take initialized objects, but for the object whose constructor is called. -/
theorem firm_ofInvoke (kind : InvokeKind) (constant : Constant) :
    Firm (Effect.ofInvoke kind constant).pops ∨
      ∃ method, constant = .method method ∧ kind = .special ∧ method.name.isInit = true := by
  cases constant with
  | method method =>
      have harguments := firm_arguments method.descriptor.parameters
      cases kind with
      | static => exact .inl harguments
      | special =>
          cases hinit : method.name.isInit with
          | true => exact .inr ⟨method, rfl, rfl, hinit⟩
          | false =>
              left
              rw [Effect.ofInvoke, hinit]
              exact harguments.concat_object
      | virtual | interface count => exact .inl harguments.concat_object
  | _ => exact .inl fun _ he => absurd he List.not_mem_nil

theorem firm_ofField (access : FieldAccess) (constant : Constant) :
    Firm (Effect.ofField access constant).pops ∨
      ∃ field, constant = .field field ∧ access = .putField := by
  cases constant with
  | field field =>
      cases access with
      | putField => exact .inr ⟨field, rfl, rfl⟩
      | getStatic => exact .inl fun _ he => absurd he List.not_mem_nil
      | putStatic =>
          left
          intro e he
          rw [List.mem_singleton.mp he]
          exact Expectation.admitsUninitialized_ofField field.type
      | getField =>
          left
          intro e he
          rw [List.mem_singleton.mp he]
          rfl
  | _ => exact .inl fun _ he => absurd he List.not_mem_nil

theorem firm_ofClassUse (action : ClassUse) (constant : Constant) :
    Firm (Effect.ofClassUse action constant).pops := by
  have hone : ∀ {e : Expectation} {pushes : List Pushed}, e.admitsUninitialized = false →
      Firm (Effect.exchange [e] pushes).pops := by
    intro e pushes he e' he'
    rw [List.mem_singleton.mp he']
    exact he
  cases action with
  | new =>
      cases constant with
      | classRef type => cases type <;> exact fun _ he => absurd he List.not_mem_nil
      | _ => exact fun _ he => absurd he List.not_mem_nil
  | newArray => cases constant <;> exact hone rfl
  | checkCast | instanceOf => exact hone rfl

theorem firm_branch (b : SymbolicBranch) : Firm b.effect.pops := by
  cases b with
  | jump op target => cases op <;> simp [Firm, Branch.effect, Effect.pops, Effect.exchange,
      Expectation.admitsUninitialized]
  | returns kind =>
      cases kind with
      | none => exact fun _ he => absurd he List.not_mem_nil
      | some kind =>
          intro e he
          rw [List.mem_singleton.mp he]
          exact Expectation.admitsUninitialized_ofKind kind
  | _ => simp [Firm, Branch.effect, Effect.pops, Effect.exchange, Expectation.admitsUninitialized]

/-- The pops that an uninitialized object can meet. -/
theorem of_admitsUninitialized {insn : SymbolicInstruction} {position : Nat} {e : Expectation}
    (hpop : insn.effect.pops[position]? = some e) (he : e.admitsUninitialized = true) :
    insn.movesReferences = true ∨ insn.constructsAt position = true ∨
      insn.writesFieldAt position = true := by
  have hmem := List.mem_of_getElem? hpop
  have hfirm : ¬ Firm insn.effect.pops := by
    intro hfirm
    rw [hfirm e hmem] at he
    cases he
  cases insn with
  | branch b => exact absurd (firm_branch b) hfirm
  | operation op =>
      cases op with
      | stack op => exact .inl rfl
      | store kind index form =>
          cases kind with
          | reference => exact .inl rfl
          | numeric kind =>
              rw [List.mem_singleton.mp hmem] at he
              cases he
      | invoke kind constant =>
          obtain ⟨method, rfl, rfl, hinit⟩ := (firm_ofInvoke kind constant).resolve_left hfirm
          right
          left
          have hpops : (effect (.operation (.invoke .special (.method method)))).pops =
              (method.descriptor.parameters.map Expectation.ofField).reverse ++ [.uninitialized] := by
            simp [effect, Operation.effect, Effect.ofInvoke, hinit, Effect.pops]
          have hlast : ¬ position < method.descriptor.parameters.length := by
            intro hlt
            rw [hpops, List.getElem?_append_left (by simpa using hlt)] at hpop
            rw [firm_arguments _ e (List.mem_of_getElem? hpop)] at he
            cases he
          obtain ⟨hlength, _⟩ := List.getElem?_eq_some_iff.mp hpop
          rw [hpops, List.length_append, List.length_reverse, List.length_map,
            List.length_singleton] at hlength
          simp only [constructsAt, hinit, Bool.true_and, beq_iff_eq]
          omega
      | field access constant =>
          obtain ⟨field, rfl, rfl⟩ := (firm_ofField access constant).resolve_left hfirm
          right
          right
          rcases position with _ | _ | position
          · cases hpop
            rw [Expectation.admitsUninitialized_ofField] at he
            cases he
          · rfl
          · cases hpop
      | classUse action constant => exact absurd (firm_ofClassUse action constant) hfirm
      | ldc form constant =>
          cases constant <;> exact absurd hmem List.not_mem_nil
      | arrayStore kind =>
          rcases position with _ | _ | _ | position
          · cases hpop
            rw [Expectation.admitsUninitialized_ofKind] at he
            cases he
          all_goals cases hpop <;> cases he
      | multiArray constant dimensions =>
          rw [(List.mem_replicate.mp hmem).2] at he
          cases he
      | _ =>
          refine absurd ?_ hfirm
          simp [Firm, effect, Operation.effect, Effect.pops, Effect.exchange,
            Expectation.admitsUninitialized]

end Instruction

namespace Line

variable {line : Line} {thisClass : BinaryName} {f f' : Frame}

theorem admitsUninitialized_of_fits {e : Expectation} {needed : Nat} {v : Value}
    (h : fits e needed v = true) (hv : v.type.isUninitialized = true) :
    e.admitsUninitialized = true := by
  cases e with
  | anyReference | uninitialized | slots count => rfl
  | numeric kind =>
      simp only [fits, Expectation.accepts] at h
      cases htype : v.type <;> simp [htype, ValueType.isUninitialized, ValueType.numeric?] at hv h
  | object =>
      simp only [fits, Expectation.accepts] at h
      cases htype : v.type <;>
        simp [htype, ValueType.isUninitialized, ValueType.isInitialized] at hv h

theorem admitsUninitialized_of_take {e : Expectation} {needed : Nat} {taken group : List Value}
    {stack rest : SlotVec Value} (h : line.take e needed taken stack = .ok (group, rest))
    (htaken : ∀ v ∈ taken, v.type.isUninitialized = true → e.admitsUninitialized = true) :
    ∀ v ∈ group, v.type.isUninitialized = true → e.admitsUninitialized = true := by
  fun_induction Line.take line e needed taken stack with
  | case1 taken stack =>
      cases h
      exact htaken
  | case2 => cases h
  | case3 needed taken stack hneeded value below hpop hfits ih =>
      exact ih h (List.forall_mem_cons.mpr ⟨admitsUninitialized_of_fits hfits, htaken⟩)
  | case4 => cases h

/-- An uninitialized object is taken only by a pop that it can meet. -/
theorem exists_pop_of_takeAll {pops : List Expectation} {groups : List (List Value)}
    {stack rest : SlotVec Value} (h : line.takeAll pops stack = .ok (groups, rest))
    {position : Nat} {v : Value} (hv : v ∈ groups.getD position [])
    (huninitialized : v.type.isUninitialized = true) :
    ∃ e, pops[position]? = some e ∧ e.admitsUninitialized = true := by
  induction pops generalizing stack groups position with
  | nil =>
      cases h
      cases hv
  | cons e pops ih =>
      obtain ⟨⟨group, stack₁⟩, htake, h⟩ := exists_of_bind_eq_ok h
      obtain ⟨⟨groups₁, stack₂⟩, htakeAll, h⟩ := exists_of_bind_eq_ok h
      cases h
      cases position with
      | zero =>
          have hadmits := admitsUninitialized_of_take htake fun _ hmem => absurd hmem List.not_mem_nil
          exact ⟨e, rfl, hadmits v hv huninitialized⟩
      | succ position => exact ih htakeAll hv

/-- The values that an instruction takes off the stack, a group for each pop. -/
def taken (line : Line) (f : Frame) : List (List Value) :=
  match line.takeAll line.instruction.effect.pops f.stack with
  | .ok (groups, _) => groups
  | .error _ => []

theorem takeAll_of_apply (h : line.apply thisClass f = .ok f') :
    ∃ rest, line.takeAll line.instruction.effect.pops f.stack = .ok (line.taken f, rest) := by
  have htaken : ∀ {groups rest},
      line.takeAll line.instruction.effect.pops f.stack = .ok (groups, rest) →
        line.taken f = groups := by
    intro groups rest hgroups
    rw [taken, hgroups]
  cases heffect : line.instruction.effect with
  | unchanged =>
      have hnone : line.takeAll line.instruction.effect.pops f.stack = .ok ([], f.stack) := by
        rw [heffect]
        rfl
      exact ⟨f.stack, by rw [htaken hnone, ← heffect, hnone]⟩
  | change c =>
      obtain ⟨groups, rest, _, htake, _⟩ := exists_of_apply_change heffect h
      have hall : line.takeAll line.instruction.effect.pops f.stack = .ok (groups, rest) := by
        rw [heffect]
        exact htake
      exact ⟨rest, by rw [htaken hall, ← heffect, hall]⟩

/-- All values that an instruction takes are used as their construction allows. -/
def RespectsConstruction (line : Line) (f : Frame) : Prop :=
  ∀ position, ∀ v ∈ (line.taken f).getD position [],
    line.instruction.mayTake position v.type = true

/-- A field is written on an object from `new` whose constructor was not called. -/
def WritesToNew (line : Line) (f : Frame) : Prop :=
  ∃ position owner site, line.instruction.writesFieldAt position = true ∧
    ∃ v ∈ (line.taken f).getD position [], v.type = .uninitialized owner site

theorem use_of_uninitialized (h : line.apply thisClass f = .ok f') {position : Nat} {v : Value}
    (hv : v ∈ (line.taken f).getD position []) (huninitialized : v.type.isUninitialized = true) :
    line.instruction.movesReferences = true ∨ line.instruction.constructsAt position = true ∨
      line.instruction.writesFieldAt position = true := by
  obtain ⟨rest, htake⟩ := takeAll_of_apply h
  obtain ⟨e, hpop, he⟩ := exists_pop_of_takeAll htake hv huninitialized
  exact Instruction.of_admitsUninitialized hpop he

end Line

/-- A write to a field is neither a move nor a call. -/
theorem Instruction.of_writesFieldAt {insn : SymbolicInstruction} {position : Nat}
    (h : insn.writesFieldAt position = true) :
    insn.movesReferences = false ∧ insn.constructsAt position = false := by
  unfold writesFieldAt at h
  split at h
  · exact ⟨rfl, rfl⟩
  · cases h

namespace Line

variable {line : Line} {thisClass : BinaryName} {f f' : Frame}

/-- **Objects are not used before their construction.** An instruction that goes through takes an
object whose constructor was not called only to move it, to call its constructor or to write one of
its fields. All objects are used as their construction allows exactly if the instruction does not
write a field of an object from `new`. -/
theorem respectsConstruction_iff (h : line.apply thisClass f = .ok f') :
    (∃ rest, line.takeAll line.instruction.effect.pops f.stack = .ok (line.taken f, rest)) ∧
    (∀ position, ∀ v ∈ (line.taken f).getD position [], v.type.isUninitialized = true →
      line.instruction.movesReferences = true ∨ line.instruction.constructsAt position = true ∨
        line.instruction.writesFieldAt position = true) ∧
    (line.RespectsConstruction f ↔ ¬ line.WritesToNew f) := by
  refine ⟨takeAll_of_apply h, fun position v => use_of_uninitialized h, ?_, ?_⟩
  · rintro hrespects ⟨position, owner, site, hwrites, v, hv, htype⟩
    have hmay := hrespects position v hv
    obtain ⟨hmoves, hconstructs⟩ := Instruction.of_writesFieldAt hwrites
    rw [htype, Instruction.mayTake, hmoves, hconstructs] at hmay
    cases hmay
  · intro hnew position v hv
    cases htype : v.type with
    | uninitialized owner site =>
        have huse := use_of_uninitialized h hv (by rw [htype]; rfl)
        rcases huse with hmoves | hconstructs | hwrites
        · rw [Instruction.mayTake, hmoves]
          rfl
        · rw [Instruction.mayTake, hconstructs, Bool.or_true]
        · exact absurd ⟨position, owner, site, hwrites, v, hv, htype⟩ hnew
    | uninitializedThis =>
        have huse := use_of_uninitialized h hv (by rw [htype]; rfl)
        rw [Instruction.mayTake, Bool.or_eq_true, Bool.or_eq_true, or_assoc]
        exact huse
    | _ => rfl

/-- The constructor of an object is called while other copies of it are on the stack. -/
theorem respectsConstruction_iff_copiedObject :
    ∃ f', constructingLine.apply .javaObject copiedObject = .ok f' ∧
      constructingLine.taken copiedObject =
        [[⟨.numeric .int, some 3⟩], [⟨.uninitialized .javaObject 0, some 1⟩]] ∧
      (∃ rest, constructingLine.takeAll constructingLine.instruction.effect.pops
        copiedObject.stack = .ok (constructingLine.taken copiedObject, rest)) ∧
      (∀ position, ∀ v ∈ (constructingLine.taken copiedObject).getD position [],
        v.type.isUninitialized = true →
          constructingLine.instruction.movesReferences = true ∨
            constructingLine.instruction.constructsAt position = true ∨
              constructingLine.instruction.writesFieldAt position = true) ∧
      (constructingLine.RespectsConstruction copiedObject ↔
        ¬ constructingLine.WritesToNew copiedObject) := by
  obtain ⟨f', h⟩ : ∃ f', constructingLine.apply .javaObject copiedObject = .ok f' :=
    ⟨_, by cbv⟩
  exact ⟨f', h, by cbv, respectsConstruction_iff h⟩

/-- Three lines that write a field of an object before its constructor is called. -/
def allocatingLine : Line where
  id := 0
  mnemonic := "new"
  position := {}
  offset := 0
  block := 0
  instruction := .operation (.classUse .new (.classRef (.object .javaObject)))

def valueLine : Line where
  id := 1
  mnemonic := "iconst_0"
  position := {}
  offset := 3
  block := 0
  instruction := .operation (.intConst 0)

def writingLine : Line where
  id := 2
  mnemonic := "putfield"
  position := {}
  offset := 4
  block := 0
  instruction := .operation (.field .putField (.field ⟨.javaObject, ⟨"x", by decide⟩, .base .int⟩))

/-- A new object and the value for its field. -/
def newObject : Frame where
  locals := #[]
  stack := .ofList [⟨.uninitialized .javaObject 0, some 0⟩, ⟨.numeric .int, some 1⟩]

/-- A field of an object from `new` can be written before its constructor is called. -/
theorem not_respectsConstruction_newObject :
    (allocatingLine.apply .javaObject .empty >>= valueLine.apply .javaObject) = .ok newObject ∧
      (∃ f', writingLine.apply .javaObject newObject = .ok f') ∧
      ¬ writingLine.RespectsConstruction newObject := by
  refine ⟨rfl, ⟨_, by cbv⟩, fun hrespects => ?_⟩
  have htaken : writingLine.taken newObject =
      [[⟨.numeric .int, some 1⟩], [⟨.uninitialized .javaObject 0, some 0⟩]] := by cbv
  have hmay := hrespects 1 ⟨.uninitialized .javaObject 0, some 0⟩ (by simp [htaken])
  cases hmay

end Line

end JvmAssembler
