import JvmAssembler.Proofs.Instruction.Encode
import Mathlib.Algebra.BigOperators.Group.List.Basic
import Mathlib.Algebra.GroupWithZero.Nat
import Mathlib.Data.List.SplitBy

/-! The code of a method is put together block by block, and a block that is never reached is
replaced as a whole. Seen instruction by instruction: one that is reached keeps its bytes, and any
other is replaced by bytes that do nothing, but for the last byte of a block, which throws. -/

namespace JvmAssembler

section Runs

variable {α : Type} {r : α → α → Bool}

theorem exists_splitBy_cons (b : α) (l : List α) :
    ∃ g gs, (b :: l).splitBy r = (b :: g) :: gs := by
  have hflatten := List.flatten_splitBy r (b :: l)
  cases hsplit : (b :: l).splitBy r with
  | nil =>
      rw [hsplit] at hflatten
      cases hflatten
  | cons group gs =>
      cases group with
      | nil => exact absurd (hsplit ▸ List.mem_cons_self) (List.nil_notMem_splitBy r (b :: l))
      | cons c g =>
          rw [hsplit] at hflatten
          cases hflatten
          exact ⟨g, gs, rfl⟩

theorem splitBy_cons_of_not {a b : α} {l : List α} (h : r a b = false) :
    (a :: b :: l).splitBy r = [a] :: (b :: l).splitBy r := by
  have hlast : ∀ x ∈ [a].getLast?, r x b = false := by
    rintro x ⟨⟩
    exact h
  exact List.splitBy_append_cons l hlast

theorem splitBy_cons_of {a b : α} {l g : List α} {gs : List (List α)} (h : r a b = true)
    (hsplit : (b :: l).splitBy r = (b :: g) :: gs) :
    (a :: b :: l).splitBy r = (a :: b :: g) :: gs := by
  obtain ⟨hflatten, hnil, hchains, hbounds⟩ := List.splitBy_eq_iff.mp hsplit
  refine List.splitBy_eq_iff.mpr ⟨congrArg (a :: ·) hflatten, ?_, ?_, ?_⟩
  · simpa using hnil
  · intro group hgroup
    rcases List.mem_cons.mp hgroup with rfl | hgroup
    · exact List.IsChain.cons_cons h (hchains _ List.mem_cons_self)
    · exact hchains _ (List.mem_cons_of_mem _ hgroup)
  · cases gs with
    | nil => exact .singleton _
    | cons next gs =>
        obtain ⟨⟨_, hnext, hbound⟩, htail⟩ := List.isChain_cons_cons.mp hbounds
        exact .cons_cons ⟨List.cons_ne_nil _ _, hnext, hbound⟩ htail

/-- All runs but the first start where an entry is not related to the one before. -/
theorem map_head?_tail_splitBy (a : α) (l : List α) :
    ((a :: l).splitBy r).tail.map List.head? =
      (((a :: l).zip l).filter fun q => !r q.1 q.2).map fun q => some q.2 := by
  induction l generalizing a with
  | nil => rfl
  | cons b l ih =>
      have hrest := ih b
      obtain ⟨g, gs, hsplit⟩ := exists_splitBy_cons (r := r) b l
      rw [List.zip_cons_cons, List.filter_cons]
      by_cases h : r a b = true
      · rw [splitBy_cons_of h hsplit, if_neg (by simp [h])]
        rw [hsplit] at hrest
        exact hrest
      · have h : r a b = false := Bool.eq_false_iff.mpr h
        rw [splitBy_cons_of_not h, if_pos (by simp [h]), List.map_cons, ← hrest, hsplit]
        rfl

/-- The first run starts with the first entry, and any other where an entry is not related to the one
before. -/
theorem exists_run_iff {a first : α} {l : List α} :
    (∃ run ∈ (a :: l).splitBy r, run.head? = some first) ↔
      first = a ∨ ∃ (j : Nat) (previous : α), (a :: l)[j]? = some previous ∧ l[j]? = some first ∧
        r previous first = false := by
  obtain ⟨g, gs, hsplit⟩ := exists_splitBy_cons (r := r) a l
  have hheads := map_head?_tail_splitBy (r := r) a l
  rw [hsplit, List.tail_cons] at hheads
  rw [hsplit]
  constructor
  · rintro ⟨run, hrun, hfirst⟩
    rcases List.mem_cons.mp hrun with rfl | hrun
    · exact .inl (Option.some.inj hfirst).symm
    · have hmem : some first ∈ gs.map List.head? := hfirst ▸ List.mem_map_of_mem hrun
      rw [hheads, List.mem_map] at hmem
      obtain ⟨⟨previous, found⟩, hmem, hfound⟩ := hmem
      cases hfound
      obtain ⟨hzip, hne⟩ := List.mem_filter.mp hmem
      obtain ⟨j, hj⟩ := List.mem_iff_getElem?.mp hzip
      obtain ⟨hprevious, hnext⟩ := List.getElem?_zip_eq_some.mp hj
      exact .inr ⟨j, previous, hprevious, hnext, by simpa using hne⟩
  · rintro (rfl | ⟨j, previous, hprevious, hnext, hne⟩)
    · exact ⟨first :: g, List.mem_cons_self, rfl⟩
    · have hzip : (previous, first) ∈ (a :: l).zip l :=
        List.mem_iff_getElem?.mpr ⟨j, List.getElem?_zip_eq_some.mpr ⟨hprevious, hnext⟩⟩
      have hmem : some first ∈ gs.map List.head? := by
        rw [hheads, List.mem_map]
        exact ⟨(previous, first), List.mem_filter.mpr ⟨hzip, by simp [hne]⟩, rfl⟩
      obtain ⟨run, hrun, hfirst⟩ := List.mem_map.mp hmem
      exact ⟨run, List.mem_cons_of_mem _ hrun, hfirst⟩

/-- The runs of a list of images are the images of the runs. -/
theorem splitBy_map {β : Type} (f : β → α) (l : List β) :
    (l.map f).splitBy r = (l.splitBy fun a b => r (f a) (f b)).map (List.map f) := by
  induction l with
  | nil => rfl
  | cons a l ih =>
      cases l with
      | nil => rfl
      | cons b l =>
          obtain ⟨g, gs, hsplit⟩ := exists_splitBy_cons (r := fun a b => r (f a) (f b)) b l
          rw [hsplit] at ih
          by_cases h : r (f a) (f b) = true
          · rw [splitBy_cons_of (r := fun a b => r (f a) (f b)) h hsplit]
            exact splitBy_cons_of h ih
          · have h : r (f a) (f b) = false := Bool.eq_false_iff.mpr h
            rw [splitBy_cons_of_not (r := fun a b => r (f a) (f b)) h, hsplit, List.map_cons]
            exact (splitBy_cons_of_not h).trans (congrArg ([f a] :: ·) ih)

end Runs

namespace Line

/-- Another instruction in the place of a line. -/
def standIn (line : Line) (offset : Nat) (mnemonic : String) (instruction : SymbolicInstruction) :
    Line :=
  { line with offset, mnemonic, instruction }

/-- Instructions that do nothing, one for each byte from an offset on. -/
def nops (line : Line) (offset : Nat) : Nat → List Line
  | 0 => []
  | n + 1 => line.standIn offset "nop" (.operation .nop) :: line.nops (offset + 1) n

/-- The instructions that stand for one that is never reached. -/
def replaced (line : Line) (ends : Bool) : List Line :=
  if ends then
    line.nops line.offset (line.size - 1)
      ++ [line.standIn (line.offset + (line.size - 1)) "athrow" (.branch .throws)]
  else line.nops line.offset line.size

end Line

namespace Body

/-- Is an instruction the last one of its block? -/
def endsBlock (line : Line) (rest : List Line) : Bool :=
  rest.head?.all fun next => line.block != next.block

/-- The instructions of code: those of reached blocks, and what the others are replaced by. -/
def emittedLines (reached : Nat → Bool) : List Line → List Line
  | [] => []
  | line :: rest =>
    (if reached line.block then [line] else line.replaced (endsBlock line rest))
      ++ emittedLines reached rest

/-- The bytes that stand for an instruction that is never reached. -/
def replacement (size : Nat) (ends : Bool) : List UInt8 :=
  if ends then filler size else List.replicate size 0x00

/-- The bytes that stand for an instruction with others behind it. -/
def piece (analysis : Analysis) (entry : Line × List UInt8) (rest : List (Line × List UInt8)) :
    List UInt8 :=
  if (analysis.frame? entry.1.block).isSome then entry.2
  else replacement entry.2.length (endsBlock entry.1 (rest.map Prod.fst))

/-- The bytes that stand for each instruction. -/
def pieces (analysis : Analysis) : List (Line × List UInt8) → List (List UInt8)
  | [] => []
  | entry :: rest => piece analysis entry rest :: pieces analysis rest

theorem filler_add {n : Nat} (h : 0 < n) (size : Nat) :
    filler (size + n) = List.replicate size 0x00 ++ filler n := by
  rw [filler, filler, ← List.append_assoc, List.replicate_append_replicate, Nat.add_sub_assoc h]

abbrev sameBlock (a b : Line × List UInt8) : Bool := a.1.block == b.1.block

theorem block_eq_of_isChain {first : Line × List UInt8} {rest : List (Line × List UInt8)}
    (h : (first :: rest).IsChain fun a b => sameBlock a b = true) :
    ∀ entry ∈ rest, entry.1.block = first.1.block := by
  induction rest generalizing first with
  | nil => exact fun _ hentry => absurd hentry List.not_mem_nil
  | cons second rest ih =>
      obtain ⟨hfirst, hrest⟩ := List.isChain_cons_cons.mp h
      have hblock : second.1.block = first.1.block := (eq_of_beq hfirst).symm
      intro entry hentry
      rcases List.mem_cons.mp hentry with rfl | hentry
      · exact hblock
      · exact (ih hrest entry hentry).trans hblock

/-- In a run of instructions of one block, the first tells whether the block is reached. -/
theorem blockCode_of_isChain {analysis : Analysis} {first : Line × List UInt8}
    {rest : List (Line × List UInt8)}
    (h : (first :: rest).IsChain fun a b => sameBlock a b = true) :
    blockCode analysis (first :: rest) =
      if (analysis.frame? first.1.block).isSome then (first :: rest).flatMap Prod.snd
      else filler ((first :: rest).flatMap Prod.snd).length := by
  have hany : ((first :: rest).any fun entry => (analysis.frame? entry.1.block).isNone) =
      (analysis.frame? first.1.block).isNone := by
    rw [List.any_cons, Bool.or_eq_left_iff_imp]
    intro hrest
    obtain ⟨entry, hentry, hnone⟩ := List.any_eq_true.mp hrest
    rw [← block_eq_of_isChain h entry hentry]
    exact hnone
  simp only [blockCode, hany]
  cases analysis.frame? first.1.block <;> rfl

theorem code_cons_of_ne {analysis : Analysis} {first second : Line × List UInt8}
    {rest : List (Line × List UInt8)} (h : sameBlock first second = false) :
    code analysis (first :: second :: rest) =
      blockCode analysis [first] ++ code analysis (second :: rest) := by
  rw [code, splitBy_cons_of_not (r := sameBlock) h, List.flatMap_cons]
  rfl

/-- An instruction in front of others of its block. -/
theorem code_cons_of_eq {analysis : Analysis} {first second : Line × List UInt8}
    {rest : List (Line × List UInt8)} (h : sameBlock first second = true)
    (hpos : 0 < second.2.length) :
    code analysis (first :: second :: rest) =
      (if (analysis.frame? first.1.block).isSome then first.2
        else List.replicate first.2.length 0x00) ++ code analysis (second :: rest) := by
  obtain ⟨g, gs, hsplit⟩ := exists_splitBy_cons (r := sameBlock) second rest
  have hchain : (second :: g).IsChain fun a b => sameBlock a b = true :=
    List.isChain_of_mem_splitBy (hsplit ▸ List.mem_cons_self)
  have hlength : 0 < ((second :: g).flatMap Prod.snd).length := by
    rw [List.flatMap_cons, List.length_append]
    omega
  have hblock : blockCode analysis (first :: second :: g) =
      (if (analysis.frame? first.1.block).isSome then first.2
        else List.replicate first.2.length 0x00) ++ blockCode analysis (second :: g) := by
    rw [blockCode_of_isChain (.cons_cons h hchain), blockCode_of_isChain hchain, ← eq_of_beq h]
    split
    · rfl
    · rw [List.flatMap_cons, List.length_append, filler_add hlength]
  rw [code, code, splitBy_cons_of (r := sameBlock) h hsplit, hsplit, List.flatMap_cons, List.flatMap_cons, hblock,
    List.append_assoc]

theorem code_eq_flatten_pieces (analysis : Analysis) {encoded : List (Line × List UInt8)}
    (h : ∀ entry ∈ encoded, 0 < entry.2.length) :
    code analysis encoded = (pieces analysis encoded).flatten := by
  induction encoded with
  | nil => rfl
  | cons first encoded ih =>
      have hrest := ih fun entry hentry => h entry (List.mem_cons_of_mem _ hentry)
      rw [pieces, List.flatten_cons, ← hrest]
      cases encoded with
      | nil =>
          have hsingle : code analysis [first] = blockCode analysis [first] := List.append_nil _
          rw [hsingle, blockCode_of_isChain (.singleton first)]
          simp [piece, endsBlock, replacement, code]
      | cons second encoded =>
          have hpos := h second (List.mem_cons_of_mem _ List.mem_cons_self)
          by_cases hblock : sameBlock first second = true
          · rw [code_cons_of_eq hblock hpos]
            simp [piece, endsBlock, replacement, eq_of_beq hblock]
          · have hblock : sameBlock first second = false := Bool.eq_false_iff.mpr hblock
            rw [code_cons_of_ne hblock, blockCode_of_isChain (.singleton first)]
            simp [piece, endsBlock, replacement, ne_of_beq_false hblock]

/-- Each instruction with bytes, as many as its size says. -/
theorem encode_spec {body : Body} {encoded : List (Line × List UInt8)} {s s' : ClassState}
    (h : body.encode s = .ok encoded s') :
    encoded.map Prod.fst = body.lines.toList ∧ ∀ entry ∈ encoded, entry.2.length = entry.1.size := by
  have hall := (forall₂_of_mapM_eq_result (R := fun _ _ => True)
    (P := fun line entry _ => entry.1 = line ∧ entry.2.length = entry.1.size)
    (fun _ => trivial) (fun _ _ => trivial)
    (by
      intro _ _ _ _ hentry _
      exact hentry) (by
      intro line _ s entry s' hline
      obtain ⟨bytes, s₁, hbytes, hreturn⟩ := exists_of_bind_eq_result hline
      cases hreturn
      exact ⟨trivial, rfl, Line.length_of_encode hbytes⟩) h).2
  constructor
  · have hmap := map_eq_of_forall₂ hall fun line entry hentry => hentry.1.symm
    rw [← hmap, List.map_id']
  · intro entry hentry
    obtain ⟨line, _, _, hlength⟩ := exists_of_mem_right hall hentry
    exact hlength

theorem length_pos_of_encode {body : Body} {encoded : List (Line × List UInt8)}
    {s s' : ClassState} (h : body.encode s = .ok encoded s') :
    ∀ entry ∈ encoded, 0 < entry.2.length := by
  intro entry hentry
  rw [(encode_spec h).2 entry hentry]
  exact Instruction.sizeAt_pos _ _

theorem length_replacement {size : Nat} (h : 0 < size) (ends : Bool) :
    (replacement size ends).length = size := by
  unfold replacement filler
  split
  · rw [List.length_append, List.length_replicate, List.length_singleton]
    omega
  · exact List.length_replicate

theorem length_piece (analysis : Analysis) {entry : Line × List UInt8}
    (h : 0 < entry.2.length) (rest : List (Line × List UInt8)) :
    (piece analysis entry rest).length = entry.2.length := by
  unfold piece
  split
  · rfl
  · exact length_replacement h _

theorem map_length_pieces (analysis : Analysis) {encoded : List (Line × List UInt8)}
    (h : ∀ entry ∈ encoded, 0 < entry.2.length) :
    (pieces analysis encoded).map List.length = encoded.map fun entry => entry.2.length := by
  induction encoded with
  | nil => rfl
  | cons first rest ih =>
      rw [pieces, List.map_cons, List.map_cons, length_piece analysis (h first List.mem_cons_self),
        ih fun entry hentry => h entry (List.mem_cons_of_mem _ hentry)]

theorem getElem?_pieces (analysis : Analysis) {encoded : List (Line × List UInt8)} {i : Nat}
    {entry : Line × List UInt8} (h : encoded[i]? = some entry) :
    (pieces analysis encoded)[i]? = some (piece analysis entry (encoded.drop (i + 1))) := by
  induction encoded generalizing i with
  | nil => cases h
  | cons first rest ih =>
      cases i with
      | zero =>
          cases h
          rfl
      | succ i => exact ih h

/-- The bytes at the place of an instruction. -/
theorem slice_code (analysis : Analysis) {encoded : List (Line × List UInt8)} {i : Nat}
    {entry : Line × List UInt8} (h : ∀ entry ∈ encoded, 0 < entry.2.length)
    (hentry : encoded[i]? = some entry) :
    ((code analysis encoded).drop ((encoded.map fun entry => entry.2.length).take i).sum).take
        entry.2.length = piece analysis entry (encoded.drop (i + 1)) := by
  obtain ⟨hlt, hget⟩ := List.getElem?_eq_some_iff.mp (getElem?_pieces analysis hentry)
  have hpos := h entry (List.mem_of_getElem? hentry)
  rw [code_eq_flatten_pieces analysis h, ← map_length_pieces analysis h, List.drop_sum_flatten,
    List.drop_eq_getElem_cons hlt, List.flatten_cons, hget,
    ← length_piece analysis hpos (encoded.drop (i + 1))]
  exact List.take_left

end Body

end JvmAssembler
