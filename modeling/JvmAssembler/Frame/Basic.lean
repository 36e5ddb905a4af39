import JvmAssembler.Frame.Value

/-! The operand stack and the locals at one point of a method. Locals are held one per slot: a value
of two slots is followed by an unusable one. -/

namespace JvmAssembler

structure Frame where
  locals : Array Value
  stack : SlotVec Value

/-- Where two frames disagree. -/
inductive Mismatch where
  /-- The stacks have different depths. -/
  | stackDepth (expected actual : Nat)
  /-- The stack entries at a position, counted from the bottom, have different shapes. -/
  | stackEntry (position : Nat)
  /-- The local slots at an index have different shapes. -/
  | localSlot (index : Nat)
deriving DecidableEq, Repr

def Mismatch.message : Mismatch → String
  | stackDepth expected actual => s!"stack depth {actual} instead of {expected}"
  | stackEntry position => s!"stack entry {position} differs"
  | localSlot index => s!"local {index} differs"

namespace Frame

def empty : Frame := ⟨#[], .empty⟩

instance : Inhabited Frame := ⟨empty⟩

instance : BEq Frame where
  beq f g := f.locals == g.locals && f.stack == g.stack

/-- Depth of the stack in slots. -/
def depth (f : Frame) : Nat := f.stack.next

/-- The value in a local, if the frame reaches so far. -/
def local? (f : Frame) (index : UInt16) : Option Value := f.locals[index.toNat]?

/-- Locals extended by unusable slots to a number of slots. -/
def extendLocals (locals : Array Value) (size : Nat) : Array Value :=
  locals ++ Array.replicate (size - locals.size) Value.unusable

/-- Writes a value into a local. A value of two slots of which the new one covers the second loses
the first as well. -/
def setLocal (f : Frame) (index : UInt16) (value : Value) : Frame :=
  let i := index.toNat
  let ⟨locals, stack⟩ := f
  let locals := extendLocals locals (i + value.width)
  let locals :=
    if 0 < i && (locals.getD (i - 1) Value.unusable).width == 2 then
      locals.setIfInBounds (i - 1) Value.unusable
    else locals
  let locals := if value.width = 2 then locals.setIfInBounds (i + 1) Value.unusable else locals
  ⟨locals.setIfInBounds i value, stack⟩

def push (f : Frame) (value : Value) : Frame := { f with stack := f.stack.push value }

def clearStack (f : Frame) : Frame := { f with stack := f.stack.clear }

/-- Applies a function to every value. -/
def map (g : Value → Value) (f : Frame) : Frame :=
  ⟨f.locals.map g, .ofList (f.stack.toList.map g)⟩

/-- What an uninitialized object becomes once its constructor was called. -/
def initializedType? (thisClass : BinaryName) : ValueType → Option ValueType
  | .uninitializedThis => some (.reference (.object thisClass))
  | .uninitialized owner _ => some (.reference (.object owner))
  | _ => none

/-- Marks every copy of an uninitialized object as initialized. -/
def markInitialized (f : Frame) (type : ValueType) (thisClass : BinaryName) : Frame :=
  match initializedType? thisClass type with
  | none => f
  | some initialized =>
    f.map fun value => if value.type = type then { value with type := initialized } else value

/-- The first disagreement with a frame that arrives at the same point. The stacks have the same
depth and shapes. Each usable local of the expected frame has the same shape in the other, where
missing locals count as unusable. -/
def mismatch? (expected actual : Frame) : Option Mismatch :=
  if expected.depth ≠ actual.depth then some (.stackDepth expected.depth actual.depth)
  else
    match (expected.stack.toList.zip actual.stack.toList).findIdx? fun (e, a) => !e.sameShape a with
    | some position => some (.stackEntry position)
    | none =>
      (expected.locals.toList.zipIdx.find? fun (e, index) =>
        e.type != .top && !e.sameShape (actual.locals.getD index Value.unusable)).map
          fun (_, index) => .localSlot index

/-- Pairs the values of two frames: stack entries up to the shorter stack, then the locals. -/
def paired (mine theirs : Frame) : List (Value × Value) :=
  mine.stack.toList.zip theirs.stack.toList ++ mine.locals.toList.zip theirs.locals.toList

/-- Would a join change the first frame? -/
def widens (mine theirs : Frame) : Bool :=
  (mine.paired theirs).any fun (m, t) => m.type.join t.type != m.type

/-- The first frame with reference types that also stand for those of the second. -/
def join (mine theirs : Frame) : Frame where
  locals := mine.locals.mapIdx fun i m =>
    match theirs.locals[i]? with
    | some t => m.join t
    | none => m
  stack := .ofList (List.zipWith Value.join mine.stack.toList theirs.stack.toList)

def text (f : Frame) : String :=
  "locals [" ++ ", ".intercalate (f.locals.toList.map Value.text) ++ "], stack ["
    ++ ", ".intercalate (f.stack.toList.map Value.text) ++ "]"

end Frame

end JvmAssembler
