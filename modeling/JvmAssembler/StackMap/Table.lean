import JvmAssembler.StackMap.Entry
import Std.Data.TreeMap

/-! The entries for the frames at the targets of jumps, in the order of their offsets. The frame on
entry to the method is the implicit start of the table. -/

namespace JvmAssembler.StackMap

/-- Types of locals given one per slot, last first and followed by those before. The slot after a
value of two slots is left out. -/
def reversedTypes (before : List SymbolicType) (locals : List Value) : List SymbolicType :=
  match locals with
  | [] => before
  | value :: rest =>
    reversedTypes (.ofValueType value.type :: before) (rest.drop (value.width - 1))
termination_by locals.length

/-- Locals as the table lists them, without unusable slots at the end. -/
def localTypes (locals : List Value) : List SymbolicType :=
  ((reversedTypes [] locals).dropWhile (· == .top)).reverse

/-- Stack entries as the table lists them, bottom first. -/
def stackTypes (f : Frame) : List SymbolicType := f.stack.toList.map fun v => .ofValueType v.type

/-- Frames by their offsets; of several frames at one offset the first counts. -/
def byOffset (targets : List (Nat × Frame)) : Std.TreeMap Nat Frame :=
  targets.foldl (fun frames target => frames.insertIfNew target.1 target.2) ∅

/-- Distance of an entry from the one before: each entry but the first counts one less. -/
def offsetDelta (previous : Option Nat) (offset : Nat) : UInt16 :=
  match previous with
  | none => UInt16.ofNat offset
  | some previous => UInt16.ofNat (offset - previous - 1)

/-- The entry for a frame, from the offset and the locals of the entry before. -/
def entryAfter (previous : Option Nat) (previousLocals : List SymbolicType) (offset : Nat)
    (f : Frame) : MapEntry SymbolicType :=
  .between (offsetDelta previous offset) previousLocals (localTypes f.locals.toList) (stackTypes f)

/-- Entries with their offsets for frames in ascending order of offsets. -/
def entries (previous : Option Nat) (previousLocals : List SymbolicType) :
    List (Nat × Frame) → List (Nat × MapEntry SymbolicType)
  | [] => []
  | (offset, f) :: rest =>
    (offset, entryAfter previous previousLocals offset f)
      :: entries (some offset) (localTypes f.locals.toList) rest

/-- The table for the frames at given offsets. -/
def build (initial : Frame) (targets : List (Nat × Frame)) : List (Nat × MapEntry SymbolicType) :=
  entries none (localTypes initial.locals.toList) (byOffset targets).toList

end JvmAssembler.StackMap
