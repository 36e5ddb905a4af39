import JvmAssembler.Proofs.Analysis.Genuine
import JvmAssembler.Proofs.Method.Encodable
import JvmAssembler.Proofs.Method.Reachability

/-! Control leaves a body behind its last instruction, or by a jump to a label there. With the
return that is added to a method without result, neither can happen. In any method that is compiled,
neither does happen: the last instruction is never reached or does not fall through, and jumps have
an instruction to go to. -/

namespace JvmAssembler

namespace CompileError

/-- Does the error say that control leaves a body? -/
def leavesBody : CompileError → Bool
  | fallsOffEnd _ _ => true
  | unknownJump _ _ _ label => label.isSome
  | _ => false

/-- Errors that do not say that control leaves a body. -/
def StaysInside (e : CompileError) : Prop := e.leavesBody = false

theorem OfLayout.staysInside {e : CompileError} (h : e.OfLayout) : e.StaysInside := by
  cases e with
  | fallsOffEnd => exact h.elim
  | unknownJump instruction position target label =>
      cases (h : label = none)
      rfl
  | _ => rfl

theorem OfPool.staysInside {e : CompileError} (h : e.OfPool) : e.StaysInside := by
  cases e with
  | fallsOffEnd | unknownJump => exact h.elim
  | _ => rfl

end CompileError

open CompileError

/-- The instruction that a statement is. -/
def Statement.instruction? : Statement → Option WrittenInstruction
  | label _ _ => none
  | instruction insn => some insn

theorem WrittenMethod.instructions_eq (m : WrittenMethod) :
    m.instructions = m.body.filterMap Statement.instruction? := rfl

namespace LabelTable

/-- There is no label behind a number of instructions. -/
def Within (t : LabelTable) (count : Nat) : Prop := ∀ i, (t.block? i).isSome → i ≤ count

theorem isSome_block?_add (t : LabelTable) (label : Label) (i : Nat) :
    ((t.add label).2.block? i).isSome ↔ label.instruction = i ∨ (t.block? i).isSome := by
  unfold block?
  rw [← Std.TreeMap.mem_iff_isSome_getElem?, ← Std.TreeMap.mem_iff_isSome_getElem?]
  exact Std.TreeMap.mem_insertIfNew.trans (or_congr_left Std.compare_eq_iff_eq)

theorem within_empty (count : Nat) : empty.Within count := by
  intro i hi
  unfold block? at hi
  rw [← Std.TreeMap.mem_iff_isSome_getElem?] at hi
  rcases Std.TreeMap.mem_insert.mp hi with hzero | hempty
  · rw [← Std.compare_eq_iff_eq.mp hzero]
    exact Nat.zero_le _
  · exact absurd hempty Std.TreeMap.not_mem_emptyc

theorem Within.declare {t t' : LabelTable} {count n id : Nat} (h : t.Within count) (hn : n ≤ count)
    {name : String} {position : Position} (hdeclare : t.declare name position n = .ok (id, t')) :
    t'.Within count := by
  unfold LabelTable.declare at hdeclare
  split at hdeclare
  · cases hdeclare
  · cases hdeclare
    intro i hi
    rcases (t.isSome_block?_add ⟨name, position, n, false⟩ i).mp hi with rfl | hi
    · exact hn
    · exact h i hi

/-- Labels are declared among the instructions or behind the last one. -/
theorem Within.declareAll {statements : List Statement} {t t' : LabelTable} {count n : Nat}
    (h : t.Within count)
    (hn : n + (statements.filterMap Statement.instruction?).length ≤ count)
    (hdeclare : t.declareAll n statements = .ok t') : t'.Within count := by
  induction statements generalizing t n with
  | nil =>
      cases hdeclare
      exact h
  | cons statement rest ih =>
      cases statement with
      | label name position =>
          obtain ⟨⟨_, t₁⟩, hfirst, hrest⟩ := exists_of_bind_eq_ok hdeclare
          exact ih (h.declare (Nat.le_of_add_right_le hn) hfirst) hn hrest
      | instruction insn =>
          have hnext : n + 1 + (rest.filterMap Statement.instruction?).length ≤ count := by
            rwa [Nat.add_right_comm, Nat.add_assoc]
          exact ih h hnext hdeclare

end LabelTable

namespace Body

/-- Control stays inside: the last instruction does not fall through, and all labels stand in front
of instructions. -/
structure Closed (body : Body) : Prop where
  last : ∃ last, body.lines.back? = some last ∧ last.instruction.fallsThrough = false
  labels : ∀ i, (body.labels.block? i).isSome → i < body.lines.size

theorem size_push (body : Body) (mnemonic : String) (position : Position)
    (instruction : SymbolicInstruction) :
    (body.push mnemonic position instruction).lines.size = body.lines.size + 1 :=
  Array.size_push _

/-- A label that is made up for an instruction stands in front of it. -/
theorem within_push {body : Body} {count : Nat} (h : body.labels.Within count)
    (hsize : body.lines.size ≤ count) (mnemonic : String) (position : Position)
    (instruction : SymbolicInstruction) :
    (body.push mnemonic position instruction).labels.Within count := by
  intro i hi
  by_cases hlast : i = body.lines.size
  · exact hlast ▸ hsize
  · obtain ⟨_, hothers, _⟩ := nextBlock_spec body.lines body.labels position
    exact h i (hothers i hlast ▸ hi)

/-- After all instructions, there is no label further down than behind the last one. -/
theorem within_foldlM (returns : ReturnType) (instructions : List WrittenInstruction) {body : Body}
    (h : body.labels.Within (body.lines.size + instructions.length)) :
    Yields (fun body => body.labels.Within body.lines.size)
      (instructions.foldlM (evaluateNext returns) body) := by
  induction instructions generalizing body with
  | nil => exact .pure h
  | cons insn rest ih =>
      rw [List.foldlM_cons]
      refine .bind (P := fun next => next.labels.Within (next.lines.size + rest.length)) ?_ fun _ => ih
      refine .of_bind fun instruction => .of_bind fun _ => .pure ?_
      rw [size_push, Nat.add_right_comm, Nat.add_assoc]
      exact within_push h (Nat.le_add_right _ _) _ _ _

theorem closed_of_needsReturn {body : Body} (h : body.labels.Within body.lines.size)
    (hneeds : body.needsReturn = false) : body.Closed := by
  rw [needsReturn, Bool.or_eq_false_iff] at hneeds
  obtain ⟨hlast, hbehind⟩ := hneeds
  constructor
  · cases hback : body.lines.back? with
    | none =>
        rw [hback] at hlast
        cases hlast
    | some last =>
        rw [hback] at hlast
        exact ⟨last, rfl, hlast⟩
  · intro i hi
    refine Nat.lt_of_le_of_ne (h i hi) fun heq => ?_
    rw [heq, hbehind] at hi
    cases hi

theorem closed_addReturn {body : Body} (h : body.labels.Within body.lines.size) (start : Position) :
    Yields Closed (body.addReturn start) := by
  refine .of_bind fun _ => .of_bind fun _ => .pure ⟨⟨_, Array.back?_push, rfl⟩, fun i hi => ?_⟩
  rw [size_push]
  exact Nat.lt_succ_of_le (within_push h (Nat.le_refl _) _ _ _ i hi)

namespace Closed

variable {body : Body} (h : body.Closed)

include h

theorem lines_ne : body.lines ≠ #[] := by
  intro hempty
  obtain ⟨last, hback, _⟩ := h.last
  rw [hempty] at hback
  cases hback

/-- A label stands in front of an instruction, and so does a number that is not in use. -/
theorem instruction_lt (label : Nat) : (body.labels.get label).instruction < body.lines.size :=
  h.labels _ (body.labels.isSome_block?_get label)

theorem not_fallsThrough {i : Nat} {line : Line} (hline : body.lines[i]? = some line)
    (hend : i + 1 = body.lines.size) : line.instruction.fallsThrough = false := by
  obtain ⟨last, hback, hfalls⟩ := h.last
  rw [Array.back?_eq_getElem?, ← hend, Nat.add_sub_cancel, hline] at hback
  cases hback
  exact hfalls

/-- Jumps have an instruction to go to. -/
theorem coversEmission : body.CoversEmission StaysInside where
  pool _ hpool := hpool.staysInside
  jump _ _ _ _ := rfl
  distance line label := by
    have hlt := h.instruction_lt label
    rw [Line.distance, Body.labelOffset?, Array.getElem?_eq_getElem hlt]
    exact .ok _

end Closed

end Body

theorem Analysis.staysInside_ofBody {body : Body} (h : body.Closed) (thisClass : BinaryName)
    (initial : Frame) : Raises StaysInside (ofBody body thisClass initial) := by
  intro journal e journal' herror
  cases stops_of_error h.lines_ne herror with
  | fails _ _ happly => cases Line.reports_of_apply happly <;> rfl
  | blocked hbrings harrives =>
      rcases Progress.cases_of_propagate_error harrives with
        ⟨hnone, _⟩ | ⟨expected, mismatch, _, _, rfl⟩
      · rw [Array.getElem?_eq_none_iff, hbrings.size_eq] at hnone
        exact absurd (h.instruction_lt _) (Nat.not_lt_of_le hnone)
      · cases mismatch <;> rfl
  | ends _ hexecutes hfalls hend =>
      rw [h.not_fallsThrough hexecutes.hline hend] at hfalls
      cases hfalls

namespace WrittenMethod

variable {m : WrittenMethod} {settings : Settings}

/-- A method without result is closed by the return that is added. -/
theorem closed_of_layout {s : Signature} (hreturns : s.descriptor.returns = none)
    (himplicit : settings.implicitReturn = true) : Yields Body.Closed (m.layout settings s) := by
  intro journal body journal' h
  obtain ⟨_, labels, state, state', hlabels, hevaluate⟩ := exists_of_layout h
  have hwithin : labels.Within (0 + m.instructions.length) := by
    rw [m.instructions_eq]
    exact (LabelTable.within_empty _).declareAll (Nat.le_refl _) hlabels
  have hclosed : Yields Body.Closed (m.evaluate settings s labels) := by
    refine .bind (Body.within_foldlM _ _ hwithin) fun body hbody => ?_
    rw [himplicit, hreturns]
    split
    · exact Body.closed_addReturn hbody _
    · rename_i hneeds
      exact .pure (Body.closed_of_needsReturn hbody (Bool.not_eq_true _ ▸ hneeds))
  exact hclosed _ _ _ hevaluate

theorem staysInside_compile {d : MethodDescriptor}
    (hd : MethodDescriptor.ofString m.descriptor = .ok d) (hreturns : d.returns = none)
    (himplicit : settings.implicitReturn = true) : Raises StaysInside (m.compile settings) := by
  have hsignature : Raises StaysInside (liftM m.signature : Emission Signature) :=
    .lift fun e h => (m.fails_signature e h).ofLayout.staysInside
  refine .bind_of_yields hsignature (.lift fun _ => signature_spec) fun signature hs => ?_
  cases hd.symm.trans hs.1
  refine .bind (Emission.raises_report _) fun _ => ?_
  have hlayout : Raises StaysInside (Emission.journaling (m.layout settings signature)) :=
    Emission.raises_journaling fun s e s' h =>
      (m.raises_layout settings signature s e s' h).staysInside
  have hyields : Yields (fun body => body.Closed ∧ body.Encodable) (m.layout settings signature) :=
    fun s body s' h => ⟨closed_of_layout hreturns himplicit s body s' h,
      encodable_of_layout signature s body s' h⟩
  refine .bind_of_yields hlayout (Emission.yields_journaling hyields) fun body hbody => ?_
  obtain ⟨hclosed, hencodable⟩ := hbody
  refine .bind ?_ fun analysis => .bind ?_ fun _ => ?_
  · exact Emission.raises_journaling (Analysis.staysInside_ofBody hclosed _ _)
  · exact Body.raises_emit hclosed.coversEmission hencodable _ _
  · exact .bind (Emission.raises_report _) fun _ => .pure _

end WrittenMethod

namespace Line

variable {line : Line} {body : Body} {label : Nat}

/-- The targets of an instruction that is encoded have offsets. -/
theorem isSome_labelOffset?_of_encode {bytes : List UInt8} {s s' : ClassState}
    (h : line.encode body s = .ok bytes s') (hlabel : label ∈ line.targets) :
    (body.labelOffset? label).isSome := by
  obtain ⟨resolved, hresolve, _⟩ := exists_of_encode h
  rw [targets] at hlabel
  rcases resolve_cases hresolve with ⟨op, _, hop, _⟩ | ⟨b, found, hb, _, _, htraverse⟩
  · rw [hop] at hlabel
    cases hlabel
  · rw [hb] at hlabel
    have htargets := (Branch.related_of_traverse htraverse fun _ _ => distance_eq_ok_iff.mp).targets
    obtain ⟨_, _, target, htarget, _⟩ := exists_of_mem_right htargets.flip hlabel
    rw [Body.labelOffset?, htarget]
    rfl

end Line

theorem Body.instruction_lt_of_labelOffset? {body : Body} {label : Nat}
    (h : (body.labelOffset? label).isSome) :
    (body.labels.get label).instruction < body.lines.size := by
  obtain ⟨offset, hoffset⟩ := Option.isSome_iff_exists.mp h
  obtain ⟨line, hline, _⟩ := Option.map_eq_some_iff.mp hoffset
  obtain ⟨hlt, _⟩ := Array.getElem?_eq_some_iff.mp hline
  exact hlt

namespace Progress.Concludes

variable {body : Body} {thisClass : BinaryName} {initial : Frame} {analysis : Analysis}
  {p : Progress} (hp : p.Concludes body thisClass initial analysis)

include hp

theorem lt_size_of_reachable {i : Nat} (h : body.Reachable i) : i < body.lines.size := by
  obtain ⟨g, hcovers⟩ := hp.exists_covers h
  obtain ⟨hline, _⟩ := hcovers.passes
  obtain ⟨hlt, _⟩ := Array.getElem?_eq_some_iff.mp hline
  exact hlt

/-- The last instruction of a body that is analysed does not fall through if it is reached. -/
theorem exists_last : ∃ last, body.lines.back? = some last ∧
    (body.Reachable (body.lines.size - 1) → last.instruction.fallsThrough = false) := by
  have hpos : 0 < body.lines.size := hp.lt_size_of_reachable .refl
  have hlast : body.lines[body.lines.size - 1]? = some body.lines[body.lines.size - 1] :=
    Array.getElem?_eq_getElem (Nat.sub_lt hpos Nat.one_pos)
  refine ⟨_, Array.back?_eq_getElem?.trans hlast, fun hreachable => ?_⟩
  rw [Bool.eq_false_iff]
  intro hfalls
  have hnext := hp.lt_size_of_reachable (hreachable.tail ⟨_, hlast, .inl ⟨hfalls, rfl⟩⟩)
  omega

end Progress.Concludes

namespace WrittenMethod

/-- Control stays inside a method. If the method has no result and a return is added where it is
missing, no error says that control leaves the body. Whatever the method, once it is compiled its
last instruction is never reached or does not fall through, and all targets of jumps are labels in
front of an instruction. -/
theorem control_stays_inside (m : WrittenMethod) (settings : Settings) (s : ClassState) :
    (∀ d, MethodDescriptor.ofString m.descriptor = .ok d → d.returns = none →
      settings.implicitReturn = true → ∀ e s', m.compile settings s = .error e s' →
        (∀ instruction position, e ≠ .fallsOffEnd instruction position) ∧
        ∀ instruction position target label,
          e ≠ .unknownJump instruction position target (some label)) ∧
    ∀ compiled s', m.compile settings s = .ok compiled s' →
      (∃ last, compiled.body.lines.back? = some last ∧
        (compiled.body.Reachable (compiled.body.lines.size - 1) →
          last.instruction.fallsThrough = false)) ∧
      ∀ (i : Nat) (line : Line), compiled.body.lines[i]? = some line → ∀ label ∈ line.targets,
        label < compiled.body.labels.size ∧
          (compiled.body.labels.get label).instruction < compiled.body.lines.size := by
  refine ⟨?_, ?_⟩
  · intro d hd hreturns himplicit e s' h
    have hstays := staysInside_compile hd hreturns himplicit s e s' h
    refine ⟨?_, ?_⟩
    · rintro instruction position rfl
      cases hstays
    · rintro instruction position target label rfl
      cases hstays
  · intro compiled s' h
    obtain ⟨analysis, encoded, s₀, s₁, s₂, hcompiles, _, _⟩ := exists_compiles h
    obtain ⟨p, hp⟩ := hcompiles.exists_concludes
    refine ⟨hp.exists_last, fun i line hline label hlabel => ?_⟩
    have hmem : line ∈ compiled.body.lines.toList :=
      List.mem_of_getElem? (Array.getElem?_toList.trans hline)
    obtain ⟨_, _, _, hentry⟩ := exists_of_mapM_eq_result hcompiles.emitted.encode_eq hmem
    obtain ⟨bytes, _, hencode, _⟩ := exists_of_bind_eq_result hentry
    exact ⟨hcompiles.laidOut.target_lt hline hlabel,
      Body.instruction_lt_of_labelOffset? (Line.isSome_labelOffset?_of_encode hencode hlabel)⟩

/-- A method that starts with some instructions and then jumps behind its last one. -/
def leaping (instructions : List WrittenInstruction) : WrittenMethod where
  owner := .javaString
  flags := ⟨8⟩
  name := "f"
  descriptor := "()V"
  position := {}
  body := instructions.map .instruction ++
    [.instruction { mnemonic := "goto", operands := #[.label "end"] }, .label "end" {}]

/-- Without a return at the end there is no instruction to jump to. With it, the method is compiled,
or it fails for another reason. -/
theorem control_stays_inside_leaping :
    (∃ e s', (leaping []).compile { implicitReturn := false } ⟨.empty, {}⟩ = .error e s' ∧
      e.leavesBody = true) ∧
    (∃ e s', (leaping [{ mnemonic := "pop" }]).compile {} ⟨.empty, {}⟩ = .error e s' ∧
      (∀ instruction position, e ≠ .fallsOffEnd instruction position) ∧
      ∀ instruction position target label,
        e ≠ .unknownJump instruction position target (some label)) ∧
    ∃ compiled s', (leaping []).compile {} ⟨.empty, {}⟩ = .ok compiled s' ∧
      (∃ last, compiled.body.lines.back? = some last ∧
        (compiled.body.Reachable (compiled.body.lines.size - 1) →
          last.instruction.fallsThrough = false)) ∧
      ∃ line, compiled.body.lines[0]? = some line ∧ ∃ label ∈ line.targets,
        (compiled.body.labels.get label).instruction < compiled.body.lines.size := by
  have hleaves : Assembly.failsWith (fun e _ => e.leavesBody)
      ((leaping []).compile { implicitReturn := false }) ⟨.empty, {}⟩ = true := by
    unfold compile Analysis.ofBody
    iterate 2 rw [Analysis.run_eq]
    decide +kernel
  have hfails : Assembly.failsWith (fun _ _ => true)
      ((leaping [{ mnemonic := "pop" }]).compile {}) ⟨.empty, {}⟩ = true := by
    unfold compile Analysis.ofBody
    iterate 2 rw [Analysis.run_eq]
    decide +kernel
  have hcompiles : Assembly.satisfies
      (fun compiled => compiled.body.lines[0]?.any fun line => line.targets.contains 1)
      ((leaping []).compile {}) ⟨.empty, {}⟩ = true := by
    unfold compile Analysis.ofBody
    iterate 3 rw [Analysis.run_eq]
    decide +kernel
  refine ⟨Assembly.exists_of_failsWith hleaves, ?_, ?_⟩
  · obtain ⟨e, s', h, _⟩ := Assembly.exists_of_failsWith hfails
    have hdescriptor : MethodDescriptor.ofString "()V" = .ok ⟨[], none⟩ := by decide +kernel
    exact ⟨e, s', h, (control_stays_inside _ _ _).1 _ hdescriptor rfl rfl e s' h⟩
  · obtain ⟨compiled, s', h, hjumps⟩ := Assembly.exists_of_satisfies hcompiles
    obtain ⟨hlast, htargets⟩ := (control_stays_inside _ _ _).2 compiled s' h
    obtain ⟨line, hline, hlabel⟩ := (Option.any_eq_true _ _).mp hjumps
    have hlabel : 1 ∈ line.targets := List.contains_iff_mem.mp hlabel
    exact ⟨compiled, s', h, hlast, line, hline, 1, hlabel, (htargets 0 line hline 1 hlabel).2⟩

end WrittenMethod

end JvmAssembler
