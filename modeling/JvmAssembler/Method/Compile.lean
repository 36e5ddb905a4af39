import JvmAssembler.Method.Emit
import JvmAssembler.Method.Layout

/-! A written method is laid out, analysed, and turned into code with a stack map. The constants of
all methods of a class share one pool. -/

namespace JvmAssembler

structure CompiledMethod where
  signature : Signature
  flags : AccessFlags
  maxStack : Nat
  maxLocals : Nat
  body : Body
  /-- The frame at each label that is reached. -/
  labelFrames : Array (Option Frame)
  stackMap : List (MapEntry ResolvedType)
  code : List UInt8

namespace CompiledMethod

/-- The frame at a label with a name. -/
def labelFrame? (m : CompiledMethod) (name : String) : Option Frame := do
  m.labelFrames.getD (← m.body.labels.lookup? name) none

/-- The stack map table: a count and the entries. -/
def stackMapBytes (m : CompiledMethod) : Except EncodeError (List UInt8) := do
  return Bytes.counted (← m.stackMap.mapM MapEntry.encode)

end CompiledMethod

namespace Body

/-- Code and stack map of a body that is analysed. -/
def emit (body : Body) (initial : Frame) (analysis : Analysis) :
    Emission (List UInt8 × List (MapEntry ResolvedType)) := do
  let unreached := body.unreachedRanges analysis
  let entries := StackMap.build initial (body.mapTargets analysis unreached)
  let stackMap ← entries.mapM body.resolveEntry
  let encoded ← body.encode
  unreached.forM fun range => Emission.report (.replaced range.1 range.2)
  return (code analysis encoded, stackMap)

/-- Room for the stack, with what replaced code throws. -/
def stackRoom (body : Body) (analysis : Analysis) : Nat :=
  if (body.unreachedRanges analysis).isEmpty then analysis.maxStack else max analysis.maxStack 1

end Body

namespace WrittenMethod

/-- Compiles a method, and adds its constants to the pool. -/
def compile (m : WrittenMethod) (settings : Settings) : Emission CompiledMethod := do
  let signature ← m.signature
  Emission.report (.compiling m.owner signature.name m.descriptor)
  let body ← Emission.journaling (m.layout settings signature)
  let initial := Frame.onEntry m.owner m.isStatic signature
  let analysis ← Emission.journaling (Analysis.ofBody body m.owner initial)
  let (code, stackMap) ← body.emit initial analysis
  Emission.report (.compiled signature.name code.length stackMap.length)
  return {
    signature, flags := m.flags, maxStack := body.stackRoom analysis, maxLocals := analysis.maxLocals,
    body, labelFrames := analysis.labelFrames, stackMap, code }

end WrittenMethod

end JvmAssembler
