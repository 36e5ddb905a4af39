import JvmAssembler.Frame.Basic
import JvmAssembler.Source.Instruction
import JvmAssembler.StackMap.Entry

/-! A record of what happened to a method, in order. A journal keeps events up to a level of detail.
-/

namespace JvmAssembler

/-- Levels of detail, from the most important to the least. -/
inductive Level where
  | error | warn | info | debug | trace
deriving DecidableEq, Repr

def Level.rank : Level → Nat
  | error => 0
  | warn => 1
  | info => 2
  | debug => 3
  | trace => 4

inductive Event where
  | compiling (owner : BinaryName) (name : UnqualifiedName) (descriptor : String)
  | compiled (name : UnqualifiedName) (codeSize entries : Nat)
  | shorterLoad (position : Position) (name mnemonic : String) (index : UInt16)
  | nameIgnored (position : Position) (index : UInt16) (kept ignored : String)
  | namesDiffer (position : Position) (used declared : String)
  | declaredLocal (position : Position) (name : String) (index : UInt16) (type : FieldType)
  | instruction (id : Nat) (mnemonic : String) (offset : Nat)
  | implicitReturn (position : Position)
  | analysing (count : Nat) (initial : Frame)
  | analysed (maxStack maxLocals : Nat)
  | recording (label : String) (frame : Frame)
  | checking (label : String) (frame : Frame)
  | widened (label : String) (frame : Frame)
  | simulating (leader : Nat)
  | simulated (id : Nat) (mnemonic : String) (frame : Frame)
  | unreachable (position : Position) (label : String) (count : Nat)
  | mapEntry (offset : Nat) (entry : MapEntry SymbolicType)
  | replaced (start stop : Nat)

namespace Event

def level : Event → Level
  | compiling .. | compiled .. | analysing .. | analysed .. => .info
  | shorterLoad .. | nameIgnored .. | namesDiffer .. | unreachable .. => .warn
  | declaredLocal .. | implicitReturn .. | recording .. | checking .. | widened ..
  | simulating .. | replaced .. => .debug
  | instruction .. | simulated .. | mapEntry .. => .trace

def text : Event → String
  | compiling owner name descriptor => s!"compiling {owner.text}.{name.text}{descriptor}"
  | compiled name codeSize entries =>
    s!"compiled {name.text}: {codeSize} bytes of code, {entries} stack map entries"
  | shorterLoad position name mnemonic index =>
    s!"{position.text}: local '{name}' is read with '{mnemonic}', but '{mnemonic}_{index.toNat}' is shorter"
  | nameIgnored position index kept ignored =>
    s!"{position.text}: local {index.toNat} is already named '{kept}', ignoring the name '{ignored}'"
  | namesDiffer position used declared =>
    s!"{position.text}: local is referred to as '{used}' but declared as '{declared}'"
  | declaredLocal position name index type =>
    s!"{position.text}: declared local '{name}' at slot {index.toNat} with type {type.text}"
  | instruction id mnemonic offset => s!"instruction #{id} {mnemonic} at offset {offset}"
  | implicitReturn position => s!"{position.text}: appending implicit return"
  | analysing count initial =>
    s!"analysing {count} instructions with entry frame {initial.text}"
  | analysed maxStack maxLocals =>
    s!"analysis done: max stack {maxStack}, max locals {maxLocals}"
  | recording label frame => s!"recording frame at '{label}': {frame.text}"
  | checking label frame => s!"checking frame at '{label}': {frame.text}"
  | widened label frame => s!"widened references at '{label}': {frame.text}"
  | simulating leader => s!"simulating block at instruction #{leader}"
  | simulated id mnemonic frame => s!"instruction #{id} {mnemonic}: {frame.text}"
  | unreachable position label count =>
    s!"{position.text}: block '{label}' is unreachable ({count} instructions)"
  | mapEntry offset entry => s!"stack map entry at {offset}: {entry.text SymbolicType.text}"
  | replaced start stop => s!"replacing unreachable code at {start}..{stop} with `athrow`"

end Event

structure Journal where
  /-- The least important level that is kept. -/
  limit : Level := .warn
  events : Array Event := #[]

/-- Adds an event, unless it is less important than the limit. -/
def Journal.report (j : Journal) (e : Event) : Journal :=
  if e.level.rank ≤ j.limit.rank then { j with events := j.events.push e } else j

end JvmAssembler
