import JvmAssembler.Proofs.Instruction.Decode

/-! Instructions are laid out from offset 0 on, each where the size of the one before says. Their
bytes have these sizes and decode to the instructions, so no two lists of instructions have the same
bytes. -/

namespace JvmAssembler

namespace Instruction

variable {κ ℓ : Type}

/-- Instructions that follow each other from an offset on, each with its own. -/
def placed (offset : Nat) : List (Instruction κ ℓ) → List (Nat × Instruction κ ℓ)
  | [] => []
  | insn :: rest => (offset, insn) :: placed (offset + insn.sizeAt offset) rest

theorem map_snd_placed (offset : Nat) (insns : List (Instruction κ ℓ)) :
    (placed offset insns).map Prod.snd = insns := by
  induction insns generalizing offset with
  | nil => rfl
  | cons insn rest ih => rw [placed, List.map_cons, ih]

/-- The bytes of each of the instructions, if they follow each other from an offset on. -/
def encodeFrom (offset : Nat) (insns : List ResolvedInstruction) :
    Except EncodeError (List (List UInt8)) :=
  (placed offset insns).mapM fun entry => entry.2.encodeAt entry.1

variable {offset : Nat} {insns : List ResolvedInstruction} {items : List (List UInt8)}

/-- Encoding fixes the size of each instruction. -/
theorem length_of_encodeFrom (h : encodeFrom offset insns = .ok items) :
    List.Forall₂ (fun entry bytes => bytes.length = entry.2.sizeAt entry.1) (placed offset insns)
      items :=
  (forall₂_of_mapM_eq_ok h).imp fun _ _ hencode => length_of_encodeAt hencode

/-- The bytes of instructions that fit decode to them. -/
theorem all_of_encodeFrom (hfits : ∀ insn ∈ insns, insn.Fits)
    (h : encodeFrom offset insns = .ok items) :
    Decode.all offset items.flatten = some (placed offset insns) := by
  induction insns generalizing offset items with
  | nil =>
      cases h
      show Decode.all offset [] = some []
      rw [Decode.all, if_pos rfl]
  | cons insn rest ih =>
      obtain ⟨hfirst, hrest⟩ := List.forall_mem_cons.mp hfits
      rw [encodeFrom, placed, List.mapM_cons] at h
      obtain ⟨bytes, hbytes, h⟩ := exists_of_bind_eq_ok h
      obtain ⟨others, hothers, h⟩ := exists_of_bind_eq_ok h
      cases h
      have hlength : bytes.length = insn.sizeAt offset := length_of_encodeAt hbytes
      have hpos : 0 < bytes.length := hlength ▸ insn.sizeAt_pos offset
      rw [List.flatten_cons, Decode.all_append (Decode.reads_of_fits hbytes hfirst) hpos, hlength,
        ih hrest hothers]
      rfl

/-- **Code is uniquely decodable.** If instructions that fit can be encoded one after another from
offset 0 on, each is as long as its size says and the code decodes to exactly these instructions at
their offsets. Other instructions that fit have other code. -/
theorem all_encodeFrom_zero (hfits : ∀ insn ∈ insns, insn.Fits)
    (h : encodeFrom 0 insns = .ok items) :
    List.Forall₂ (fun entry bytes => bytes.length = entry.2.sizeAt entry.1) (placed 0 insns) items ∧
    Decode.all 0 items.flatten = some (placed 0 insns) ∧
    ∀ (others : List ResolvedInstruction) (items' : List (List UInt8)),
      (∀ insn ∈ others, insn.Fits) → encodeFrom 0 others = .ok items' →
        items'.flatten = items.flatten → others = insns := by
  have hdecoded := all_of_encodeFrom hfits h
  refine ⟨length_of_encodeFrom h, hdecoded, ?_⟩
  intro others items' hothers hencode hbytes
  have hsame := all_of_encodeFrom hothers hencode
  rw [hbytes, hdecoded, Option.some.injEq] at hsame
  rw [← map_snd_placed 0 others, ← hsame, map_snd_placed]

/-- Locals in all forms, and switches that need padding of different lengths. -/
def mixedCode : List ResolvedInstruction :=
  [.operation (.load .reference 1 .implicit), .operation (.load .reference 1 .narrow),
    .operation (.load .reference 1 .wide), .branch (.tableSwitch 24 (-1) [8, 16]),
    .operation (.increment 1 (-1) false), .operation (.newArray .long),
    .branch (.lookupSwitch 20 [(-2, 12), (7, -28)]), .branch (.returns none)]

/-- The bytes of `mixedCode`. -/
def mixedBytes : List (List UInt8) :=
  [[0x2B], [0x19, 1], [0xC4, 0x19, 0, 1],
    [0xAA, 0, 0, 0, 24, 0xFF, 0xFF, 0xFF, 0xFF, 0, 0, 0, 0, 0, 0, 0, 8, 0, 0, 0, 16],
    [0x84, 1, 0xFF], [0xBC, 11],
    [0xAB, 0, 0, 0, 0, 0, 20, 0, 0, 0, 2, 0xFF, 0xFF, 0xFF, 0xFE, 0, 0, 0, 12, 0, 0, 0, 7,
      0xFF, 0xFF, 0xFF, 0xE4],
    [0xB1]]

theorem all_encodeFrom_zero_mixedCode :
    encodeFrom 0 mixedCode = .ok mixedBytes ∧
    List.Forall₂ (fun entry bytes => bytes.length = entry.2.sizeAt entry.1) (placed 0 mixedCode)
      mixedBytes ∧
    Decode.all 0 mixedBytes.flatten = some (placed 0 mixedCode) ∧
    ∀ (others : List ResolvedInstruction) (items' : List (List UInt8)),
      (∀ insn ∈ others, insn.Fits) → encodeFrom 0 others = .ok items' →
        items'.flatten = mixedBytes.flatten → others = mixedCode := by
  have hencode : encodeFrom 0 mixedCode = .ok mixedBytes := by decide
  have hfits : ∀ insn ∈ mixedCode, insn.Fits := by
    simp [mixedCode, Fits]
  exact ⟨hencode, all_encodeFrom_zero hfits hencode⟩

end Instruction

end JvmAssembler
