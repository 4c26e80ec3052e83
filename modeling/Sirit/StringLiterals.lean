import Sirit.Declare
import Sirit.LittleEndian

/- String literals: the words `InsertStringView` writes, read back as bytes, and the
   methods that take a name. -/
namespace Sirit
open LittleEndian VectorCursor
variable (pf : Platform)

theorem readChar_succ (signed : Bool) (b : U8) (string : List U8) (offset : Nat) :
    readChar signed (b :: string) (offset + 1) = readChar signed string offset := by
  simp only [readChar, List.length_cons, Nat.add_lt_add_iff_right, List.getElem_cons_succ]

theorem widen_zero (signed : Bool) : widen signed 0 = 0 := by cases signed <;> rfl

theorem stringWord_four (signed : Bool) (b₀ b₁ b₂ b₃ : U8) (rest : List U8) (i : Nat) :
    stringWord signed (b₀ :: b₁ :: b₂ :: b₃ :: rest) (i + 4) = stringWord signed rest i := by
  simp only [stringWord, Nat.add_right_comm _ 4, readChar_succ]

theorem stringWords_eq_packString (signed : Bool) (string : List U8) :
    stringWords signed string = packString signed string := by
  fun_induction fours string with
  | case1 b₀ b₁ b₂ b₃ rest ih =>
    have count : ((b₀ :: b₁ :: b₂ :: b₃ :: rest).length + 3) / 4 = (rest.length + 3) / 4 + 1 := by
      simp only [List.length_cons]
      omega
    have full : (b₀ :: b₁ :: b₂ :: b₃ :: rest).length % 4 = rest.length % 4 := by
      simp only [List.length_cons]
      omega
    have cut : packString signed (b₀ :: b₁ :: b₂ :: b₃ :: rest) =
        pack signed b₀ b₁ b₂ b₃ :: packString signed rest := rfl
    rw [cut, ← ih]
    simp only [stringWords, count, full, List.range_succ_eq_map, List.map_cons, List.map_map,
      List.cons_append, List.cons.injEq]
    refine ⟨rfl, ?_⟩
    congr 1
    apply List.map_congr_left
    intro k _
    exact stringWord_four signed b₀ b₁ b₂ b₃ rest (4 * k)
  | case2 b₀ b₁ b₂ =>
    have single : stringWords signed [b₀, b₁, b₂] = [stringWord signed [b₀, b₁, b₂] 0] := by
      simp [stringWords]
    have packed : packString signed [b₀, b₁, b₂] = [pack signed b₀ b₁ b₂ 0] := rfl
    rw [single, packed, pack, widen_zero]
    rfl
  | case3 b₀ b₁ =>
    have single : stringWords signed [b₀, b₁] = [stringWord signed [b₀, b₁] 0] := by
      simp [stringWords]
    have packed : packString signed [b₀, b₁] = [pack signed b₀ b₁ 0 0] := rfl
    rw [single, packed, pack, widen_zero]
    rfl
  | case4 b₀ =>
    have single : stringWords signed [b₀] = [stringWord signed [b₀] 0] := by
      simp [stringWords]
    have packed : packString signed [b₀] = [pack signed b₀ 0 0 0] := rfl
    rw [single, packed, pack, widen_zero]
    rfl
  | case5 => cases signed <;> decide

inductive Naming where
  | name (target : Id)
  | memberName (type : Id) (member : U32)
  | string
  | typeOpaque
  | addEntryPoint (executionModel : U32) (entryPoint : Id) (interfaces : List Id)
  | addExtension

def Naming.words (bound : U32) (n : Naming) (name : List U8) : List U32 :=
  match n with
  | .name target => ((DebugCall.name target name).emission.instruction pf bound).words pf
  | .memberName type member =>
      ((DebugCall.memberName type member name).emission.instruction pf bound).words pf
  | .string => ((DebugCall.string name).emission.instruction pf bound).words pf
  | .typeOpaque =>
      ((TypeCall.typeOpaque name).declaration.emission.instruction pf bound).words pf
  | .addEntryPoint executionModel entryPoint interfaces =>
      ((Sirit.addEntryPoint executionModel entryPoint name interfaces).instruction pf
        bound).words pf
  | .addExtension => insertExtension pf [] name

theorem Naming.exists_words (bound : U32) (n : Naming) : ∃ (header : Nat → U32)
    (before after : List U32), ∀ s, n.words pf bound s =
      header (stringWords pf.charSigned s).length ::
        (before ++ stringWords pf.charSigned s ++ after) := by
  cases n with
  | name target =>
    refine ⟨fun n => makeWord0 (pf.op .opName) (n + 1 + 1), [target.value], [], fun s => ?_⟩
    simp [Naming.words, DebugCall.emission, Emission.instruction, Instruction.words,
      Instruction.tail, Operand.words, typeWords]
  | memberName type member =>
    refine ⟨fun n => makeWord0 (pf.op .opMemberName) (n + 1 + 1 + 1), [type.value, member], [],
      fun s => ?_⟩
    simp [Naming.words, DebugCall.emission, Emission.instruction, Instruction.words,
      Instruction.tail, Operand.words, typeWords]
  | string =>
    refine ⟨fun n => makeWord0 (pf.op .opString) (n + 1 + 1), [bound + 1], [], fun s => ?_⟩
    simp [Naming.words, DebugCall.emission, Emission.instruction, Instruction.words,
      Instruction.tail, Operand.words, typeWords, Head.bare, OpId.opcode, OpId.resultType]
  | typeOpaque =>
    refine ⟨fun n => makeWord0 (pf.op .opTypeOpaque) (n + 1 + 1), [bound + 1], [],
      fun s => ?_⟩
    simp [Naming.words, TypeCall.declaration, Declaration.emission, Emission.instruction,
      Instruction.words, Instruction.tail, Operand.words, typeWords, OpId.opcode,
      OpId.resultType]
  | addEntryPoint executionModel entryPoint interfaces =>
    refine ⟨fun n => makeWord0 (pf.op .opEntryPoint)
      (n + (operandWords pf (span .id interfaces)).length + 1 + 1 + 1),
      [executionModel, entryPoint.value], operandWords pf (span .id interfaces), fun s => ?_⟩
    simp [Naming.words, Sirit.addEntryPoint, Emission.instruction, Instruction.words,
      Instruction.tail, Operand.words, typeWords]
  | addExtension =>
    refine ⟨fun n => makeWord0 (pf.op .opExtension) (n + 1), [], [], fun s => ?_⟩
    rw [Naming.words, insertExtension_eq, stringWords_length]
    simp

theorem Naming.words_eq_iff (bound : U32) (n : Naming) (s t : List U8) :
    n.words pf bound s = n.words pf bound t ↔
      stringWords pf.charSigned s = stringWords pf.charSigned t := by
  obtain ⟨header, before, after, split⟩ := n.exists_words pf bound
  rw [split, split]
  constructor
  · intro same
    have tails := (List.cons.inj same).2
    exact List.append_cancel_left (List.append_cancel_right tails)
  · intro same
    rw [same]

/-- The literal of a name reads back, and no other name is written in the same words. -/
structure RoundTrips (s : List U8) : Prop where
  padded : ∀ c : Cursor U32, ∃ ws, (insertStringView pf.charSigned s c).written =
    c.written ++ ws ∧ Padded s (bytes ws) ∧ (bytes ws).takeWhile (· ≠ 0) = s
  distinct : ∀ t, 0 ∉ t → t ≠ s → ∀ bound (n : Naming),
    n.words pf bound t ≠ n.words pf bound s

/-- A literal round-trips exactly when plain char is unsigned or the bytes from 0x80 on
    are the last of their words. -/
theorem string_round_trips_iff {s : List U8} (nulFree : 0 ∉ s) :
    RoundTrips pf s ↔ (pf.charSigned = true →
      ∀ i (inside : i < s.length), 128 ≤ s[i].toNat → i % 4 = 3) := by
  have places : CleanString pf.charSigned s ↔ (pf.charSigned = true →
      ∀ i (inside : i < s.length), 128 ≤ s[i].toNat → i % 4 = 3) := by
    rw [cleanString_iff]
    have sign : ∀ b : U8, b.msb = true ↔ 128 ≤ b.toNat := by
      intro b
      rw [BitVec.msb_eq_decide, decide_eq_true_iff]
    simp only [Bool.and_eq_true, sign]
    constructor
    · intro last signed i inside high
      exact last i inside ⟨signed, high⟩
    · intro last i inside high
      exact last high.1 i inside high.2
  rw [← places]
  constructor
  · intro trips
    by_contra dirty
    obtain ⟨ws, written, padded, _⟩ := trips.padded Cursor.empty
    rw [insertStringView_eq, Cursor.written_putAll, List.append_cancel_left_eq,
      stringWords_eq_packString] at written
    obtain ⟨t, nul, other, collides⟩ := exists_collision nulFree dirty (written ▸ padded)
    rw [← stringWords_eq_packString, ← stringWords_eq_packString] at collides
    have same := (Naming.words_eq_iff pf 0 .string t s).mpr collides
    exact trips.distinct t nul other 0 .string same
  · intro clean
    refine ⟨?_, ?_⟩
    · intro c
      refine ⟨stringWords pf.charSigned s, ?_, ?_⟩
      · rw [insertStringView_eq, Cursor.written_putAll]
      · have padded := padded_fours s
        rw [stringWords_eq_packString, bytes_packString clean]
        exact ⟨padded, takeWhile_padded nulFree padded⟩
    · intro t nul other bound n same
      rw [Naming.words_eq_iff, stringWords_eq_packString, stringWords_eq_packString] at same
      exact other (packString_injective clean nulFree nul same)

theorem string_round_trips_main : RoundTrips linuxX86 [0x6D, 0x61, 0x69, 0x6E] := by
  refine (string_round_trips_iff linuxX86 (by decide)).mpr ?_
  intro _ i inside high
  exact absurd high (by revert i; decide)

/-- With a signed plain char, the two-byte UTF-8 names C3 A9 and C3 A8 are written as the
    same word. -/
theorem accented_name_does_not_round_trip :
    ¬ ∀ (pf : Platform) (s : List U8), 0 ∉ s → RoundTrips pf s := by
  intro always
  have trips := always linuxX86 [0xC3, 0xA9] (by decide)
  exact trips.distinct [0xC3, 0xA8] (by decide) (by decide) 0 .string (by decide)

end Sirit
