import JvmAssembler.Proofs.Constant.Resolve
import JvmAssembler.Proofs.Instruction.Decode
import JvmAssembler.Proofs.Method.Reachability

/-! Code decodes to the instructions of the method. Where a block is reached these are the
instructions that were written, with indices that resolve to their constants and distances that lead
to their labels; the bytes of any other block do nothing and then throw. -/

namespace JvmAssembler

namespace Body

/-- Instructions that follow each other from an offset on. -/
def Consecutive : Nat → List Line → Prop
  | _, [] => True
  | offset, line :: rest => line.offset = offset ∧ Consecutive line.stop rest

theorem consecutive_of_offset_eq {lines : List Line} {start : Nat}
    (h : ∀ i line, lines[i]? = some line →
      line.offset = start + ((lines.take i).map Line.size).sum) : Consecutive start lines := by
  induction lines generalizing start with
  | nil => trivial
  | cons first rest ih =>
      have hfirst : first.offset = start := h 0 first rfl
      refine ⟨hfirst, ih fun i line hline => ?_⟩
      rw [h (i + 1) line hline, List.take_succ_cons, List.map_cons, List.sum_cons, Line.stop, hfirst,
        Nat.add_assoc]

theorem Consecutive.append {offset : Nat} {lines others : List Line}
    (h : Consecutive offset (lines ++ others)) :
    Consecutive offset lines ∧ Consecutive (offset + (lines.map Line.size).sum) others := by
  induction lines generalizing offset with
  | nil => exact ⟨trivial, h⟩
  | cons line lines ih =>
      obtain ⟨rfl, hrest⟩ := h
      obtain ⟨hlines, hothers⟩ := ih hrest
      refine ⟨⟨rfl, hlines⟩, ?_⟩
      rw [List.map_cons, List.sum_cons, ← Nat.add_assoc]
      exact hothers

theorem Consecutive.stop_eq {offset : Nat} {lines : List Line} (h : Consecutive offset lines)
    {last : Line} (hlast : last ∈ lines.getLast?) :
    last.stop = offset + (lines.map Line.size).sum := by
  induction lines generalizing offset with
  | nil => cases hlast
  | cons line lines ih =>
      obtain ⟨rfl, hrest⟩ := h
      rw [List.map_cons, List.sum_cons, ← Nat.add_assoc]
      cases lines with
      | nil =>
          cases hlast
          rfl
      | cons next lines => exact ih hrest hlast

namespace LaidOut

variable {body : Body}

theorem consecutive (h : body.LaidOut) : Consecutive 0 body.lines.toList := by
  apply consecutive_of_offset_eq
  intro i line hline
  rw [Nat.zero_add]
  exact h.offset_eq (Array.getElem?_toList.symm.trans hline)

theorem stop_le (h : body.LaidOut) {i : Nat} {line : Line} (hline : body.lines[i]? = some line) :
    line.stop ≤ body.codeSize := by
  have hline' : body.lines.toList[i]? = some line := Array.getElem?_toList.trans hline
  have hsplit : body.lines.toList =
      body.lines.toList.take i ++ line :: body.lines.toList.drop (i + 1) := by
    obtain ⟨hlt, hget⟩ := List.getElem?_eq_some_iff.mp hline'
    rw [← hget, List.getElem_cons_drop, List.take_append_drop]
  have hsum := congrArg (fun lines => (lines.map Line.size).sum) hsplit
  simp only [List.map_append, List.map_cons, List.sum_append, List.sum_cons] at hsum
  rw [Line.stop, h.offset_eq hline, codeSize, h.linesSize_eq]
  omega

end LaidOut

end Body

namespace Line

/-- A decoded instruction is that of a line: its indices resolve to the constants of the line, and its
distances lead to the instructions after the labels of the line. -/
def Means (line : Line) (body : Body) (pool : ConstantPool) (decoded : ResolvedInstruction) : Prop :=
  line.instruction.Related (fun constant index => pool.constant? index = some constant)
    (fun label (distance : Int32) => ∃ target,
      body.lines[(body.labels.get label).instruction]? = some target ∧
        line.offset + distance.toInt = target.offset) decoded

/-- An instruction is decoded where the line is. -/
def Shows (body : Body) (pool : ConstantPool) (line : Line) (entry : Nat × ResolvedInstruction) :
    Prop :=
  entry.1 = line.offset ∧ line.Means body pool entry.2

variable {line : Line} {body : Body} {s s' : ClassState}

/-- The distance to a label is exact in code that is not too long. -/
theorem exists_target_of_distance {label : Nat} {distance : Int32} (hline : line.offset < 2 ^ 31)
    (hlines : ∀ (i : Nat) (target : Line), body.lines[i]? = some target → target.offset < 2 ^ 31)
    (h : line.distance body label = .ok distance) :
    ∃ target, body.lines[(body.labels.get label).instruction]? = some target ∧
      line.offset + distance.toInt = target.offset := by
  obtain ⟨target, htarget, rfl⟩ := distance_eq_ok_iff.mp h
  have hlt := hlines _ target htarget
  refine ⟨target, htarget, ?_⟩
  rw [Int32.toInt_ofInt_of_le (by omega) (by omega)]
  omega

/-- The resolved instruction of a line is that of the line, in every pool that has its constants. -/
theorem means_of_resolve {resolved : ResolvedInstruction}
    (hline : line.offset < 2 ^ 31)
    (hlines : ∀ (i : Nat) (target : Line), body.lines[i]? = some target → target.offset < 2 ^ 31)
    (h : line.resolve body s = .ok resolved s') :
    s.pool.Extends s'.pool ∧ ∀ pool, s'.pool.Extends pool → line.Means body pool resolved := by
  unfold Means
  rcases resolve_cases h with ⟨op, found, hop, rfl, htraverse⟩ | ⟨b, found, hb, rfl, rfl, htraverse⟩
  · rw [hop]
    rcases Operation.related_of_traverse htraverse with
      ⟨rfl, hrelated⟩ | ⟨constant, index, hintern, hrelated⟩
    · exact ⟨.refl _, fun pool _ => .operation (hrelated _)⟩
    · obtain ⟨grown, hgrown, rfl⟩ := Emission.exists_of_interning hintern
      obtain ⟨hext, hconstant⟩ := ConstantPool.intern_spec hgrown
      exact ⟨hext, fun pool hpool =>
        .operation (hrelated _ (ConstantPool.constant?_kept hpool hconstant))⟩
  · rw [hb]
    exact ⟨.refl _, fun pool _ => .branch (Branch.related_of_traverse htraverse fun _ _ =>
      exists_target_of_distance hline hlines)⟩

/-- A resolved branch differs from the branch of its line in targets only. -/
theorem exists_branch_of_resolve {b : Branch Int32}
    (h : line.resolve body s = .ok (.branch b) s') :
    ∃ written : SymbolicBranch, line.instruction = .branch written ∧
      written.Related (fun _ _ => True) b := by
  rcases resolve_cases h with ⟨op, found, hop, heq, _⟩ | ⟨written, found, hb, heq, rfl, htraverse⟩
  · cases heq
  · cases heq
    exact ⟨written, hb, Branch.related_of_traverse htraverse fun _ _ _ => trivial⟩

theorem keysFit_of_resolve {count : Nat} (hregular : line.instruction.Regular count)
    {resolved : ResolvedInstruction} (h : line.resolve body s = .ok resolved s') :
    ∀ b, resolved = .branch b → b.KeysFit := by
  rintro b rfl
  obtain ⟨written, hwritten, hrelated⟩ := exists_branch_of_resolve h
  rw [hwritten] at hregular
  exact hrelated.keysFit hregular.2

/-- The bytes of an instruction decode to what the line means. -/
theorem reads_of_encode {bytes : List UInt8} {count : Nat}
    (hregular : line.instruction.Regular count) (hline : line.stop < 2 ^ 31)
    (hlines : ∀ (i : Nat) (target : Line), body.lines[i]? = some target → target.offset < 2 ^ 31)
    (h : line.encode body s = .ok bytes s') :
    s.pool.Extends s'.pool ∧ ∃ resolved,
      ByteReader.Reads (Decode.instruction line.offset) bytes resolved ∧
      ∀ pool, s'.pool.Extends pool → line.Means body pool resolved := by
  obtain ⟨resolved, hresolve, hencode⟩ := exists_of_encode h
  have hlength := length_of_encode h
  rw [stop] at hline
  obtain ⟨hext, hmeans⟩ := means_of_resolve (by omega) hlines hresolve
  exact ⟨hext, resolved,
    Decode.reads_encoded hencode (keysFit_of_resolve hregular hresolve) (by omega), hmeans⟩

end Line

namespace Decode

open ByteReader

/-- Bytes at an offset decode to lines, whatever follows. -/
def Decodes (body : Body) (pool : ConstantPool) (offset : Nat) (bytes : List UInt8)
    (lines : List Line) : Prop :=
  ∀ rest tail, all (offset + bytes.length) rest = some tail →
    ∃ decoded, all offset (bytes ++ rest) = some (decoded ++ tail) ∧
      List.Forall₂ (Line.Shows body pool) lines decoded

namespace Decodes

variable {body : Body} {pool : ConstantPool} {offset : Nat} {bytes bytes' : List UInt8}
  {lines lines' : List Line}

theorem nil : Decodes body pool offset [] [] := fun _ _ h => ⟨[], h, .nil⟩

theorem append (h : Decodes body pool offset bytes lines)
    (h' : Decodes body pool (offset + bytes.length) bytes' lines') :
    Decodes body pool offset (bytes ++ bytes') (lines ++ lines') := by
  intro rest tail htail
  rw [List.length_append, ← Nat.add_assoc] at htail
  obtain ⟨decoded', hdecoded', hall'⟩ := h' rest tail htail
  obtain ⟨decoded, hdecoded, hall⟩ := h (bytes' ++ rest) _ hdecoded'
  refine ⟨decoded ++ decoded', ?_, List.rel_append hall hall'⟩
  rw [List.append_assoc, List.append_assoc]
  exact hdecoded

theorem single (line : Line) {insn : ResolvedInstruction}
    (h : Reads (instruction line.offset) bytes insn) (hpos : 0 < bytes.length)
    (hmeans : line.Means body pool insn) : Decodes body pool line.offset bytes [line] := by
  intro rest tail htail
  refine ⟨[(line.offset, insn)], ?_, .cons ⟨rfl, hmeans⟩ .nil⟩
  rw [all_append h hpos, htail]
  rfl

theorem nops (line : Line) (offset n : Nat) :
    Decodes body pool offset (List.replicate n 0x00) (line.nops offset n) := by
  induction n generalizing offset with
  | zero => exact nil
  | succ n ih =>
      have hread : Reads (instruction offset) [0x00] (.operation .nop) := reads_plain rfl
      exact (single (line.standIn offset "nop" (.operation .nop)) hread Nat.one_pos
        (.operation .nop)).append (ih (offset + 1))

theorem replaced (line : Line) (ends : Bool) :
    Decodes body pool line.offset (Body.replacement line.size ends) (line.replaced ends) := by
  unfold Body.replacement Line.replaced
  cases ends with
  | false => exact nops line line.offset line.size
  | true =>
      have hread : Reads (instruction (line.offset + (line.size - 1))) [0xBF] (.branch .throws) :=
        reads_encoded rfl (by rintro b ⟨⟩; trivial) (by decide)
      refine (nops line line.offset (line.size - 1)).append ?_
      rw [List.length_replicate]
      exact single (line.standIn (line.offset + (line.size - 1)) "athrow" (.branch .throws)) hread
        Nat.one_pos (.branch .throws)

end Decodes

end Decode

namespace Body

/-- The bytes of a line decode to what it means. -/
def Readable (body : Body) (pool : ConstantPool) (entry : Line × List UInt8) : Prop :=
  entry.2.length = entry.1.size ∧ ∃ resolved,
    ByteReader.Reads (Decode.instruction entry.1.offset) entry.2 resolved ∧
    entry.1.Means body pool resolved

theorem decodes_pieces (analysis : Analysis) {body : Body} {pool : ConstantPool}
    {encoded : List (Line × List UInt8)} {offset : Nat}
    (hreadable : ∀ entry ∈ encoded, body.Readable pool entry)
    (hconsecutive : Consecutive offset (encoded.map Prod.fst)) :
    Decode.Decodes body pool offset (pieces analysis encoded).flatten
      (emittedLines (fun block => (analysis.frame? block).isSome) (encoded.map Prod.fst)) := by
  induction encoded generalizing offset with
  | nil => exact .nil
  | cons entry rest ih =>
      obtain ⟨rfl, hrest⟩ := hconsecutive
      obtain ⟨hlength, resolved, hreads, hmeans⟩ := hreadable entry List.mem_cons_self
      have hpos : 0 < entry.2.length := by
        rw [hlength]
        exact Instruction.sizeAt_pos _ _
      have hpiece : Decode.Decodes body pool entry.1.offset (piece analysis entry rest)
          (if (analysis.frame? entry.1.block).isSome then [entry.1]
            else entry.1.replaced (endsBlock entry.1 (rest.map Prod.fst))) := by
        unfold piece
        split
        · exact .single entry.1 hreads hpos hmeans
        · rw [hlength]
          exact .replaced entry.1 _
      refine hpiece.append ?_
      rw [length_piece analysis hpos, hlength]
      exact ih (fun entry hentry => hreadable entry (List.mem_cons_of_mem _ hentry)) hrest

/-- Each line is encoded by bytes that decode to what it means, in the pool after the last one. -/
theorem readable_of_encode {body : Body} (hlaidOut : body.LaidOut)
    (hsize : body.codeSize ≤ maxCodeSize) {encoded : List (Line × List UInt8)} {s s' : ClassState}
    (h : body.encode s = .ok encoded s') :
    s.pool.Extends s'.pool ∧ ∀ entry ∈ encoded, body.Readable s'.pool entry := by
  have hstop : ∀ {i : Nat} {line : Line}, body.lines[i]? = some line → line.stop < 2 ^ 31 := by
    intro i line hline
    have hle := hlaidOut.stop_le hline
    have hmax : maxCodeSize = 65535 := rfl
    omega
  have hlines : ∀ (i : Nat) (line : Line), body.lines[i]? = some line → line.offset < 2 ^ 31 :=
    fun i line hline => Nat.lt_of_le_of_lt (Nat.le_add_right _ _) (hstop hline)
  obtain ⟨hext, hall⟩ := forall₂_of_mapM_eq_result (R := fun s s' => s.pool.Extends s'.pool)
    (P := fun _ entry s => ∀ pool, s.pool.Extends pool → body.Readable pool entry)
    (fun s => .refl s.pool) (fun h h' => h.trans h')
    (fun hentry hext pool hpool => hentry pool (hext.trans hpool)) (by
      intro line hmem s entry s' hline
      obtain ⟨bytes, s₁, hbytes, hreturn⟩ := exists_of_bind_eq_result hline
      cases hreturn
      obtain ⟨i, hi⟩ := List.getElem?_of_mem hmem
      have hi : body.lines[i]? = some line := Array.getElem?_toList.symm.trans hi
      obtain ⟨hext, resolved, hreads, hmeans⟩ :=
        Line.reads_of_encode (hlaidOut.regular hi) (hstop hi) hlines hbytes
      exact ⟨hext, fun pool hpool =>
        ⟨Line.length_of_encode hbytes, resolved, hreads, hmeans pool hpool⟩⟩) h
  refine ⟨hext, ?_⟩
  intro entry hentry
  obtain ⟨_, _, hreadable⟩ := exists_of_mem_right hall hentry
  exact hreadable s'.pool (.refl _)

theorem length_blockCode (analysis : Analysis) {group : List (Line × List UInt8)}
    (hne : group ≠ []) (hlengths : ∀ entry ∈ group, entry.2.length = entry.1.size) :
    (group.flatMap Prod.snd).length = (group.map fun entry => entry.1.size).sum ∧
      (blockCode analysis group).length = (group.map fun entry => entry.1.size).sum := by
  have hsum : (group.flatMap Prod.snd).length = (group.map fun entry => entry.1.size).sum := by
    rw [List.length_flatMap]
    exact congrArg List.sum (List.map_congr_left hlengths)
  refine ⟨hsum, ?_⟩
  unfold blockCode
  dsimp only
  split
  · obtain ⟨first, rest, rfl⟩ := List.exists_cons_of_ne_nil hne
    have hpos : 0 < first.1.size := Instruction.sizeAt_pos _ _
    rw [List.map_cons, List.sum_cons] at hsum ⊢
    rw [filler, List.length_append, List.length_replicate, List.length_singleton]
    omega
  · exact hsum

/-- A block that is not reached is replaced as a whole. -/
theorem exists_filler {body : Body} {analysis : Analysis} {encoded : List (Line × List UInt8)}
    (hlines : encoded.map Prod.fst = body.lines.toList)
    (hlengths : ∀ entry ∈ encoded, entry.2.length = entry.1.size) {block : List Line}
    (hblock : block ∈ body.blocks) (hunreached : ∀ line ∈ block, analysis.frame? line.block = none) :
    ∃ before after, code analysis encoded = before ++ filler (block.map Line.size).sum ++ after ∧
      ∃ linesBefore linesAfter, body.lines.toList = linesBefore ++ block ++ linesAfter ∧
        before.length = (linesBefore.map Line.size).sum := by
  rw [blocks, ← hlines, splitBy_map, List.mem_map] at hblock
  obtain ⟨group, hgroup, rfl⟩ := hblock
  have hne : ∀ g ∈ encoded.splitBy sameBlock, g ≠ [] := by
    rintro g hg rfl
    exact List.nil_notMem_splitBy sameBlock encoded hg
  have hsizes : ∀ g ∈ encoded.splitBy sameBlock, ∀ entry ∈ g, entry.2.length = entry.1.size := by
    intro g hg entry hentry
    apply hlengths
    rw [← List.flatten_splitBy sameBlock encoded]
    exact List.mem_flatten_of_mem hg hentry
  obtain ⟨before, after, hsplit⟩ := List.append_of_mem hgroup
  have hbytes : blockCode analysis group = filler ((group.map Prod.fst).map Line.size).sum := by
    have hany : (group.any fun entry => (analysis.frame? entry.1.block).isNone) = true := by
      obtain ⟨first, rest, rfl⟩ := List.exists_cons_of_ne_nil (hne group hgroup)
      rw [List.any_cons, hunreached first.1 (by simp)]
      rfl
    unfold blockCode
    dsimp only
    rw [if_pos hany, (length_blockCode analysis (hne group hgroup) (hsizes group hgroup)).1,
      List.map_map]
    rfl
  refine ⟨before.flatMap (blockCode analysis), after.flatMap (blockCode analysis), ?_,
    before.flatten.map Prod.fst, after.flatten.map Prod.fst, ?_, ?_⟩
  · rw [code, ← hbytes, show encoded.splitBy _ = _ from hsplit, List.flatMap_append,
      List.flatMap_cons, List.append_assoc]
  · rw [← hlines, ← List.flatten_splitBy sameBlock encoded, hsplit]
    simp
  · rw [List.length_flatMap, List.map_map, List.map_flatten, List.sum_flatten, List.map_map]
    refine congrArg List.sum (List.map_congr_left fun g hg => ?_)
    have hmem : g ∈ encoded.splitBy sameBlock := by
      rw [hsplit]
      exact List.mem_append_left _ hg
    exact (length_blockCode analysis (hne g hmem) (hsizes g hmem)).2

end Body

namespace CompiledMethod

/-- Has a block a frame? This is so exactly if control can get to it. -/
def reaches (compiled : CompiledMethod) (block : Nat) : Bool :=
  (compiled.labelFrames.getD block none).isSome

/-- The instructions of the code. -/
def emitted (compiled : CompiledMethod) : List Line :=
  Body.emittedLines compiled.reaches compiled.body.lines.toList

end CompiledMethod

namespace WrittenMethod

variable {m : WrittenMethod} {settings : Settings} {compiled : CompiledMethod}

theorem Compiles.reaches_eq {analysis : Analysis} {encoded : List (Line × List UInt8)}
    {s₀ s₁ s₂ : ClassState} (h : m.Compiles settings compiled analysis encoded s₀ s₁ s₂) :
    compiled.reaches = fun block => (analysis.frame? block).isSome := by
  funext block
  rw [CompiledMethod.reaches, h.labelFrames_eq]
  rfl

/-- Code is put together from what stands for each instruction. -/
theorem Compiles.code_eq_flatten {analysis : Analysis} {encoded : List (Line × List UInt8)}
    {s₀ s₁ s₂ : ClassState} (h : m.Compiles settings compiled analysis encoded s₀ s₁ s₂) :
    compiled.code = (Body.pieces analysis encoded).flatten :=
  h.code_eq.trans
    (Body.code_eq_flatten_pieces analysis (Body.length_pos_of_encode h.emitted.encode_eq))

/-- Code decodes to the instructions of the method. -/
theorem Compiles.exists_decoded {analysis : Analysis} {encoded : List (Line × List UInt8)}
    {s₀ s₁ s₂ : ClassState} (h : m.Compiles settings compiled analysis encoded s₀ s₁ s₂) :
    ∃ decoded, Decode.all 0 compiled.code = some decoded ∧
      List.Forall₂ (Line.Shows compiled.body s₂.pool) compiled.emitted decoded := by
  have hlines := (Body.encode_spec h.emitted.encode_eq).1
  have hreadable := (Body.readable_of_encode h.laidOut h.codeSize h.emitted.encode_eq).2
  have hdecodes := Body.decodes_pieces analysis hreadable (hlines ▸ h.laidOut.consecutive)
  obtain ⟨decoded, hdecoded, hall⟩ := hdecodes [] [] (by rw [Decode.all, if_pos rfl])
  rw [List.append_nil, List.append_nil, ← h.code_eq_flatten] at hdecoded
  refine ⟨decoded, hdecoded, ?_⟩
  rw [CompiledMethod.emitted, h.reaches_eq, ← hlines]
  exact hall

/-- The instructions of a compiled method are those that its source is evaluated to. They follow each
other in code, and code decodes to them but for blocks that control cannot get to, whose bytes do
nothing and then throw. -/
theorem code_means_source {s s' : ClassState} (h : m.compile settings s = .ok compiled s') :
    (∃ journal journal',
      m.layout settings compiled.signature journal = .ok compiled.body journal') ∧
    (∀ i line, compiled.body.lines[i]? = some line →
      (compiled.reaches line.block ↔ compiled.body.Reachable i)) ∧
    compiled.code.length = (compiled.body.lines.toList.map Line.size).sum ∧
    (∀ i line, compiled.body.lines[i]? = some line →
      line.offset = ((compiled.body.lines.toList.take i).map Line.size).sum) ∧
    (∃ decoded, Decode.all 0 compiled.code = some decoded ∧
      List.Forall₂ (Line.Shows compiled.body s'.pool) compiled.emitted decoded) ∧
    (∀ block ∈ compiled.body.blocks, (∀ line ∈ block, compiled.reaches line.block = false) →
      ∃ before after,
        compiled.code =
          before ++ (List.replicate ((block.map Line.size).sum - 1) 0x00 ++ [0xBF]) ++ after ∧
        ∀ first ∈ block.head?, before.length = first.offset) := by
  obtain ⟨analysis, encoded, s₀, s₁, s₂, hcompiles, _, hpool⟩ := exists_compiles h
  have hlaidOut := hcompiles.laidOut
  obtain ⟨hlines, hlengths⟩ := Body.encode_spec hcompiles.emitted.encode_eq
  have hpos := Body.length_pos_of_encode hcompiles.emitted.encode_eq
  refine ⟨hcompiles.layout, ?_, ?_, fun i line hline => hlaidOut.offset_eq hline, ?_, ?_⟩
  · intro i line hline
    obtain ⟨p, hp⟩ := hcompiles.exists_concludes
    rw [hcompiles.reaches_eq]
    exact hlaidOut.isSome_frame?_block_iff hp hline
  · rw [hcompiles.code_eq_flatten, List.length_flatten, Body.map_length_pieces analysis hpos,
      List.map_congr_left hlengths, ← hlines, List.map_map]
    rfl
  · rw [hpool]
    exact hcompiles.exists_decoded
  · intro block hblock hunreached
    rw [hcompiles.reaches_eq] at hunreached
    obtain ⟨before, after, hsplit, linesBefore, linesAfter, hbody, hlength⟩ :=
      Body.exists_filler hlines hlengths hblock fun line hline => by
        simpa using hunreached line hline
    refine ⟨before, after, hcompiles.code_eq.trans hsplit, fun first hfirst => ?_⟩
    obtain ⟨rest, rfl⟩ := List.head?_eq_some_iff.mp hfirst
    have hget : compiled.body.lines[linesBefore.length]? = some first := by
      rw [← Array.getElem?_toList, hbody]
      simp
    rw [hlength, hlaidOut.offset_eq hget, hbody, List.append_assoc, List.take_left]

/-- A method that switches over its argument at the offset 1, with code behind the switch that
control cannot get to. -/
def switching : WrittenMethod where
  owner := .javaString
  flags := ⟨8⟩
  name := "f"
  descriptor := "(I)V"
  position := {}
  body :=
    [.instruction { mnemonic := "iload_0" },
      .instruction
        { mnemonic := "tableswitch",
          operands := #[.number 5, .label "first", .label "second", .label "second"] },
      .instruction { mnemonic := "nop" },
      .instruction { mnemonic := "pop" },
      .label "first" {},
      .instruction { mnemonic := "iconst_2" },
      .instruction { mnemonic := "pop" },
      .label "second" {},
      .instruction { mnemonic := "return" }]

/-- The operands of the switch start at the offset 4, behind two bytes of padding. -/
def switchingCode : List UInt8 :=
  [0x1A, 0xAA, 0, 0, 0, 0, 0, 27, 0, 0, 0, 5, 0, 0, 0, 6, 0, 0, 0, 25, 0, 0, 0, 27, 0x00, 0xBF,
    0x05, 0x57, 0xB1]

theorem code_means_source_switching :
    ∃ compiled s', switching.compile {} ⟨.empty, {}⟩ = .ok compiled s' ∧
      compiled.code = switchingCode ∧
      Decode.all 0 switchingCode = some
        [(0, .operation (.load (.numeric .int) 0 .implicit)),
          (1, .branch (.tableSwitch 27 5 [25, 27])), (24, .operation .nop), (25, .branch .throws),
          (26, .operation (.intConst 2)), (27, .operation (.stack .pop)),
          (28, .branch (.returns none))] ∧
      ∃ decoded, Decode.all 0 compiled.code = some decoded ∧
        List.Forall₂ (Line.Shows compiled.body s'.pool) compiled.emitted decoded := by
  have hcode : Assembly.satisfies (fun compiled => compiled.code == switchingCode)
      (switching.compile {}) ⟨.empty, {}⟩ = true := by
    unfold compile Analysis.ofBody
    iterate 4 rw [Analysis.run_eq]
    decide +kernel
  obtain ⟨compiled, s', h, hcode⟩ := Assembly.exists_of_satisfies hcode
  exact ⟨compiled, s', h, eq_of_beq hcode, by decide +kernel, (code_means_source h).2.2.2.2.1⟩

end WrittenMethod

end JvmAssembler
