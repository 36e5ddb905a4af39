import JvmAssembler.Body

/-! Values are taken off the stack and checked, the object under construction and the locals are
updated, and new values are put on the stack. -/

namespace JvmAssembler.Line

/-- Does the value meet an expectation that `needed` slots are left of? -/
def fits (expected : Expectation) (needed : Nat) (value : Value) : Bool :=
  match expected with
  | .slots _ => value.width ≤ needed
  | _ => expected.accepts value.type

/-- Takes values for `needed` slots off the stack, in front of those already taken. They come out in
the order of the stack, and a value of two slots is never split. -/
def take (line : Line) (expected : Expectation) (needed : Nat) (taken : List Value)
    (stack : SlotVec Value) : Except CompileError (List Value × SlotVec Value) :=
  if needed = 0 then .ok (taken, stack)
  else
    match stack.pop? with
    | none => .error (.stackUnderflow line.id line.position line.mnemonic expected)
    | some (value, rest) =>
      if fits expected needed value then
        take line expected (needed - value.width) (value :: taken) rest
      else
        .error (.stackMismatch line.id line.position line.mnemonic value.producer expected
          value.type)
termination_by needed
decreasing_by
  have hpos : 0 < value.width := value.type.width_pos
  omega

/-- Takes the values of all pops, one group each. -/
def takeAll (line : Line) : List Expectation → SlotVec Value →
    Except CompileError (List (List Value) × SlotVec Value)
  | [], stack => .ok ([], stack)
  | expected :: rest, stack => do
    let (group, stack) ← line.take expected expected.width [] stack
    let (groups, stack) ← line.takeAll rest stack
    return (group :: groups, stack)

/-- The value of a local, which has to meet an expectation. -/
def loadLocal (line : Line) (f : Frame) (index : UInt16) (expected : Expectation) :
    Except CompileError ValueType :=
  let actual := (f.local? index).elim .top Value.type
  if expected.accepts actual then .ok actual
  else .error (.localMismatch line.id line.position index expected actual)

/-- Puts values on the stack. -/
def push (line : Line) (groups : List (List Value)) (f : Frame) :
    Pushed → Except CompileError Frame
  | .numeric kind => .ok (f.push ⟨.numeric kind, line.id⟩)
  | .null => .ok (f.push ⟨.null, line.id⟩)
  | .anyObject => .ok (f.push ⟨.anyObject, line.id⟩)
  | .reference type => .ok (f.push ⟨.reference type, line.id⟩)
  | .uninitialized owner => .ok (f.push ⟨.uninitialized owner line.id, line.id⟩)
  | .popped position => .ok ((groups.getD position []).foldl Frame.push f)
  | .fromLocal index expected => do
    let type ← line.loadLocal f index expected
    return f.push ⟨type, line.id⟩

/-- Marks the object that a constructor was called on as initialized. -/
def initializeReceiver (thisClass : BinaryName) (groups : List (List Value))
    (position : Option Nat) (f : Frame) : Frame :=
  match position.bind fun i => (groups.getD i []).head? with
  | some receiver => f.markInitialized receiver.type thisClass
  | none => f

/-- Stores the value that was popped first. -/
def storePopped (groups : List (List Value)) (index : Option UInt16) (f : Frame) : Frame :=
  match index, (groups.getD 0 []).head? with
  | some index, some value => f.setLocal index value
  | _, _ => f

def applyChange (thisClass : BinaryName) (line : Line) (c : Change) (f : Frame) :
    Except CompileError Frame := do
  let (groups, stack) ← line.takeAll c.pops f.stack
  let f := { f with stack := stack }
  let f := initializeReceiver thisClass groups c.initializes f
  let f := storePopped groups c.store f
  c.pushes.foldlM (line.push groups) f

/-- The frame after an instruction. -/
def apply (thisClass : BinaryName) (line : Line) (f : Frame) : Except CompileError Frame :=
  match line.instruction.effect with
  | .unchanged => .ok f
  | .change c => line.applyChange thisClass c f

end JvmAssembler.Line
