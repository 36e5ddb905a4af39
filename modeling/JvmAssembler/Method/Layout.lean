import JvmAssembler.Body
import JvmAssembler.Evaluate.Basic
import JvmAssembler.Method.Signature

/-! The body that a written method stands for. All labels are declared before the first instruction
is evaluated, so a jump can go to a label further down. A block starts at a label and after a
branch. -/

namespace JvmAssembler

structure Settings where
  /-- Add a return to a method without result whose body can be left at its end. -/
  implicitReturn : Bool := true
  /-- Report loads for which there is a shorter form. -/
  warnShort : Bool := true

namespace LabelTable

/-- Declares the labels among statements, after a number of instructions. -/
def declareAll (t : LabelTable) (count : Nat) : List Statement → Except CompileError LabelTable
  | [] => .ok t
  | .label name position :: rest => do
    let (_, t) ← t.declare name position count
    t.declareAll count rest
  | .instruction _ :: rest => t.declareAll (count + 1) rest

end LabelTable

namespace Body

/-- Number of bytes of instructions that follow each other from the start. -/
def linesSize (lines : Array Line) : Nat := lines.back?.elim 0 Line.stop

/-- Number of bytes of code. -/
def codeSize (body : Body) : Nat := linesSize body.lines

/-- The block of a further instruction, and the labels with the one made up for it if it follows a
branch. -/
def nextBlock (lines : Array Line) (labels : LabelTable) (position : Position) :
    Nat × LabelTable :=
  match labels.block? lines.size, lines.back? with
  | some label, _ => (label, labels)
  | none, none => (LabelTable.start, labels)
  | none, some last =>
    if last.instruction.branch?.isSome then labels.declareAnonymous position lines.size
    else (last.block, labels)

/-- Adds an instruction at the end. -/
def push (body : Body) (mnemonic : String) (position : Position)
    (instruction : SymbolicInstruction) : Body :=
  let ⟨lines, labels⟩ := body
  let (block, labels) := nextBlock lines labels position
  ⟨lines.push ⟨lines.size, mnemonic, position, linesSize lines, block, instruction⟩, labels⟩

/-- Can the body be left at its end, by the last instruction or by a jump to a label there? -/
def needsReturn (body : Body) : Bool :=
  body.lines.back?.all (·.instruction.fallsThrough)
    || (body.labels.block? body.lines.size).isSome

/-- Adds the instruction that a written one stands for. -/
def evaluateNext (returns : ReturnType) (body : Body) (insn : WrittenInstruction) :
    LocalM Body := do
  let instruction ← insn.evaluate ⟨returns, body.labels, body.lines.size⟩
  LocalM.report (.instruction body.lines.size insn.mnemonic body.codeSize)
  return body.push insn.mnemonic insn.position instruction

/-- Adds a return where control would leave a method without result. -/
def addReturn (body : Body) (start : Position) : LocalM Body := do
  let position := body.lines.back?.elim start Line.position
  LocalM.report (.implicitReturn position)
  LocalM.report (.instruction body.lines.size "return" body.codeSize)
  return body.push "return" position (.branch (.returns none))

end Body

namespace WrittenMethod

/-- Locals before the first instruction: the arguments. -/
def arguments (m : WrittenMethod) (settings : Settings) (s : Signature) : LocalTable :=
  { LocalTable.ofMethod (if m.isStatic then none else some m.owner) s.descriptor with
    warnShort := settings.warnShort }

/-- Evaluates all instructions, with labels that are declared already. -/
def evaluate (m : WrittenMethod) (settings : Settings) (s : Signature) (labels : LabelTable) :
    LocalM Body := do
  let returns := ReturnType.ofOption s.descriptor.returns
  let body ← m.instructions.foldlM (Body.evaluateNext returns) ⟨#[], labels⟩
  if settings.implicitReturn && s.descriptor.returns.isNone && body.needsReturn then
    body.addReturn m.position
  else return body

/-- The body of a method, which is not too long. -/
def layout (m : WrittenMethod) (settings : Settings) (s : Signature) : Assembly Journal Body :=
  fun journal =>
    match LabelTable.empty.declareAll 0 m.body with
    | .error e => .error e journal
    | .ok labels =>
      match m.evaluate settings s labels ⟨m.arguments settings s, journal⟩ with
      | .error e ⟨_, journal⟩ => .error e journal
      | .ok body ⟨_, journal⟩ =>
        if body.codeSize > maxCodeSize then
          .error (.outOfRange (body.lines.size - 1) m.position (.codeSize body.codeSize)) journal
        else .ok body journal

end WrittenMethod

end JvmAssembler
