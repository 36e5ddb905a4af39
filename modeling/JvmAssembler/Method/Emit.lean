import JvmAssembler.Analysis.Basic
import JvmAssembler.StackMap.Encode
import JvmAssembler.StackMap.Table

/-! Constants become indices of the pool, labels become distances, and the frames at the targets of
jumps become stack map entries. A verifier reads code that is never reached too: it is replaced by
code of the same length that throws, under a stack map entry with a throwable object on the stack.
-/

namespace JvmAssembler

/-- What the methods of a class are assembled with. -/
structure ClassState where
  pool : ConstantPool
  journal : Journal

abbrev Emission := Assembly ClassState

namespace Emission

def report (event : Event) : Emission Unit := fun ⟨pool, journal⟩ =>
  .ok () ⟨pool, journal.report event⟩

/-- Work on the pool. -/
def interning {α : Type} (x : ConstantPool.Interning α) : Emission α := fun ⟨pool, journal⟩ =>
  match x pool with
  | .ok a pool => .ok a ⟨pool, journal⟩
  | .error e pool => .error (.poolOverflow e) ⟨pool, journal⟩

/-- Work on the journal. -/
def journaling {α : Type} (x : Assembly Journal α) : Emission α := fun ⟨pool, journal⟩ =>
  match x journal with
  | .ok a journal => .ok a ⟨pool, journal⟩
  | .error e journal => .error e ⟨pool, journal⟩

end Emission

/-- An instruction with indices of the pool and distances in code. -/
abbrev ResolvedInstruction := Instruction UInt16 Int32

namespace Line

/-- An operation with the indices of its constants, which are added to the pool. -/
def resolveOperation (line : Line) (op : SymbolicOperation) : Emission (Operation UInt16) := do
  let resolved ← op.traverse fun constant => Emission.interning (ConstantPool.intern constant)
  if let .ldc .narrow index := resolved then
    if index > 255 then throw (.outOfRange line.id line.position (.ldcIndex index.toNat))
  return resolved

/-- The distance from an instruction to a label. -/
def distance (line : Line) (body : Body) (label : Nat) : Except CompileError Int32 :=
  match body.labelOffset? label with
  | some offset => .ok (Int32.ofInt (offset - line.offset))
  | none =>
    .error (.unknownJump line.id line.position (body.labels.get label).name (some label))

/-- A branch with distances. All jumps but one form reach 32767 bytes at most. -/
def resolveBranch (line : Line) (body : Body) (branch : SymbolicBranch) :
    Except CompileError (Branch Int32) := do
  let resolved ← branch.traverse (line.distance body)
  match resolved with
  | .jump .gotoWide _ => return resolved
  | .jump _ distance =>
    if -32768 ≤ distance ∧ distance ≤ 32767 then return resolved
    else throw (.outOfRange line.id line.position (.jump line.mnemonic distance.toInt))
  | _ => return resolved

def resolve (line : Line) (body : Body) : Emission ResolvedInstruction :=
  match line.instruction with
  | .operation op => return .operation (← line.resolveOperation op)
  | .branch b => return .branch (← line.resolveBranch body b)

/-- The bytes of an instruction. -/
def encode (line : Line) (body : Body) : Emission (List UInt8) := do
  let resolved ← line.resolve body
  (resolved.encodeAt line.offset).mapError CompileError.encoding

end Line

namespace Body

/-- The instructions of each block, in order. -/
def blocks (body : Body) : List (List Line) :=
  body.lines.toList.splitBy fun first second => first.block == second.block

/-- The offsets of blocks that no path reaches, first and end. -/
def unreachedRanges (body : Body) (analysis : Analysis) : List (Nat × Nat) :=
  body.blocks.filterMap fun block =>
    match block.head?, block.getLast? with
    | some first, some last =>
      if (analysis.frame? first.block).isNone then some (first.offset, last.stop) else none
    | _, _ => none

/-- The frame of replaced code. -/
def throwing : Frame := Frame.empty.push ⟨.reference (.object .javaThrowable), none⟩

/-- The frames that the stack map is about, with their offsets: those at the targets of jumps and
those of replaced code. -/
def mapTargets (body : Body) (analysis : Analysis) (unreached : List (Nat × Nat)) :
    List (Nat × Frame) :=
  let jumped := (body.lines.toList.flatMap Line.targets).filterMap fun label => do
    return (← body.labelOffset? label, ← analysis.frame? label)
  jumped ++ unreached.map fun range => (range.1, throwing)

/-- The offset of an allocation. -/
def siteOffset (body : Body) (site : Nat) : UInt16 :=
  UInt16.ofNat (body.lines[site]?.elim 0 Line.offset)

/-- A stack map entry with the indices of its classes, which are added to the pool. -/
def resolveEntry (body : Body) (entry : Nat × MapEntry SymbolicType) :
    Emission (MapEntry ResolvedType) := do
  Emission.report (.mapEntry entry.1 entry.2)
  entry.2.traverse fun type =>
    type.traverse (fun type => Emission.interning (ConstantPool.internClass type))
      fun site => return body.siteOffset site

/-- Code that does nothing and throws in the end. -/
def filler (size : Nat) : List UInt8 := List.replicate (size - 1) 0x00 ++ [0xBF]

/-- The code of a block from the bytes of its instructions. -/
def blockCode (analysis : Analysis) (block : List (Line × List UInt8)) : List UInt8 :=
  let bytes := block.flatMap Prod.snd
  if block.any fun entry => (analysis.frame? entry.1.block).isNone then filler bytes.length
  else bytes

/-- The bytes of all instructions. -/
def encode (body : Body) : Emission (List (Line × List UInt8)) :=
  body.lines.toList.mapM fun line => return (line, ← line.encode body)

/-- The code of a method. -/
def code (analysis : Analysis) (encoded : List (Line × List UInt8)) : List UInt8 :=
  (encoded.splitBy fun first second => first.1.block == second.1.block).flatMap
    (blockCode analysis)

end Body

end JvmAssembler
