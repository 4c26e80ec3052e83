import Mathlib.Data.List.Basic
import Mathlib.Data.List.GetD

/- Strings in words of four bytes, the low byte first, NULs after the last byte. A word is
   packed by OR-ing its bytes after widening them, with or without their sign: a widened
   sign spills into the bytes above. -/
namespace LittleEndian

abbrev Byte := BitVec 8
abbrev Word := BitVec 32

def word (b₀ b₁ b₂ b₃ : Byte) : Word := b₃ ++ b₂ ++ b₁ ++ b₀

def bytesOfWord (w : Word) : List Byte :=
  [w.extractLsb' 0 8, w.extractLsb' 8 8, w.extractLsb' 16 8, w.extractLsb' 24 8]

def bytes (ws : List Word) : List Byte := ws.flatMap bytesOfWord

theorem getElem_word (b₀ b₁ b₂ b₃ : Byte) {i : Nat} (inside : i < 32) :
    (word b₀ b₁ b₂ b₃)[i] =
      if i < 8 then b₀.getLsbD i else if i < 16 then b₁.getLsbD (i - 8)
      else if i < 24 then b₂.getLsbD (i - 16) else b₃.getLsbD (i - 24) := by
  rw [← BitVec.getLsbD_eq_getElem]
  simp only [word, BitVec.getLsbD_append, Nat.sub_sub]
  repeat' split
  all_goals first | rfl | omega

theorem bytesOfWord_word (b₀ b₁ b₂ b₃ : Byte) :
    bytesOfWord (word b₀ b₁ b₂ b₃) = [b₀, b₁, b₂, b₃] := by
  simp only [bytesOfWord, List.cons.injEq, and_true]
  refine ⟨?_, ?_, ?_, ?_⟩ <;> ext i hi <;>
    rw [BitVec.getElem_extractLsb', BitVec.getLsbD_eq_getElem (by omega), getElem_word]
  · rw [if_pos (by omega), Nat.zero_add, BitVec.getLsbD_eq_getElem]
  · rw [if_neg (by omega), if_pos (by omega), Nat.add_sub_cancel_left,
      BitVec.getLsbD_eq_getElem]
  · rw [if_neg (by omega), if_neg (by omega), if_pos (by omega), Nat.add_sub_cancel_left,
      BitVec.getLsbD_eq_getElem]
  · rw [if_neg (by omega), if_neg (by omega), if_neg (by omega), Nat.add_sub_cancel_left,
      BitVec.getLsbD_eq_getElem]

theorem word_or (a₀ a₁ a₂ a₃ b₀ b₁ b₂ b₃ : Byte) :
    word a₀ a₁ a₂ a₃ ||| word b₀ b₁ b₂ b₃ =
      word (a₀ ||| b₀) (a₁ ||| b₁) (a₂ ||| b₂) (a₃ ||| b₃) := by
  ext i hi
  rw [BitVec.getElem_or, getElem_word, getElem_word, getElem_word]
  repeat' split
  all_goals rw [BitVec.getLsbD_or]

theorem word_shiftLeft (b₀ b₁ b₂ b₃ : Byte) :
    word b₀ b₁ b₂ b₃ <<< 8 = word 0 b₀ b₁ b₂ := by
  ext i hi
  have moved := getElem_word 0 b₀ b₁ b₂ hi
  rw [moved, BitVec.getElem_shiftLeft]
  by_cases low : i < 8
  · simp [low]
  · have before := getElem_word b₀ b₁ b₂ b₃ (i := i - 8) (by omega)
    simp only [low, decide_false, Bool.not_false, Bool.true_and, if_false, before,
      Nat.sub_sub]
    repeat' split
    all_goals first | rfl | omega

theorem word_shiftLeft_two (b₀ b₁ b₂ b₃ : Byte) :
    word b₀ b₁ b₂ b₃ <<< 16 = word 0 0 b₀ b₁ := by
  rw [show 16 = 8 + 8 from rfl, BitVec.shiftLeft_add, word_shiftLeft, word_shiftLeft]

theorem word_shiftLeft_three (b₀ b₁ b₂ b₃ : Byte) :
    word b₀ b₁ b₂ b₃ <<< 24 = word 0 0 0 b₀ := by
  rw [show 24 = 16 + 8 from rfl, BitVec.shiftLeft_add, word_shiftLeft_two, word_shiftLeft]

def widen (signed : Bool) (b : Byte) : Word := if signed then b.signExtend 32 else b.setWidth 32

def pack (signed : Bool) (b₀ b₁ b₂ b₃ : Byte) : Word :=
  widen signed b₀ ||| widen signed b₁ <<< 8 ||| widen signed b₂ <<< 16 |||
    widen signed b₃ <<< 24

/-- What a widened byte adds to each byte above it. -/
def spill (signed : Bool) (b : Byte) : Byte := if signed && b.msb then 0xFF else 0

theorem widen_eq_word (signed : Bool) (b : Byte) :
    widen signed b = word b (spill signed b) (spill signed b) (spill signed b) := by
  ext i hi
  rw [getElem_word]
  cases signed with
  | false =>
    simp only [widen, spill, Bool.false_eq_true, if_false, Bool.false_and,
      BitVec.getElem_setWidth]
    by_cases low : i < 8
    · simp [low]
    · simp [low, BitVec.getLsbD_of_ge b i (by omega)]
  | true =>
    simp only [widen, spill, if_true, Bool.true_and, BitVec.getElem_signExtend]
    by_cases low : i < 8
    · simp [low]
    · cases sign : b.msb
      · simp [low]
      · simp only [low, if_false, dite_false, if_true]
        have ones : ∀ k < 8, (0xFF : Byte).getLsbD k = true := by decide
        split
        · exact (ones _ (by omega)).symm
        · split
          · exact (ones _ (by omega)).symm
          · exact (ones _ (by omega)).symm

theorem pack_eq_word (signed : Bool) (b₀ b₁ b₂ b₃ : Byte) :
    pack signed b₀ b₁ b₂ b₃ =
      word b₀ (spill signed b₀ ||| b₁) (spill signed b₀ ||| spill signed b₁ ||| b₂)
        (spill signed b₀ ||| spill signed b₁ ||| spill signed b₂ ||| b₃) := by
  have none : ∀ b : Byte, b ||| 0 = b := fun b => BitVec.or_zero
  simp only [pack, widen_eq_word, word_shiftLeft, word_shiftLeft_two, word_shiftLeft_three,
    word_or, none]

theorem spill_of_low {signed : Bool} {b : Byte} (low : (signed && b.msb) = false) :
    spill signed b = 0 := by
  simp [spill, low]

theorem spill_or {signed : Bool} {b : Byte} (high : (signed && b.msb) = true) (c : Byte) :
    spill signed b ||| c = 0xFF := by
  rw [spill, if_pos high]
  exact BitVec.allOnes_or

structure Four where
  b₀ : Byte
  b₁ : Byte
  b₂ : Byte
  b₃ : Byte

def Four.bytes (q : Four) : List Byte := [q.b₀, q.b₁, q.b₂, q.b₃]

theorem Four.nulFree_iff (b₀ b₁ b₂ b₃ : Byte) :
    0 ∉ (⟨b₀, b₁, b₂, b₃⟩ : Four).bytes ↔ 0 ≠ b₀ ∧ 0 ≠ b₁ ∧ 0 ≠ b₂ ∧ 0 ≠ b₃ := by
  simp only [Four.bytes, List.mem_cons, List.not_mem_nil, or_false, not_or, ne_eq]

def Four.pack (signed : Bool) (q : Four) : Word :=
  LittleEndian.pack signed q.b₀ q.b₁ q.b₂ q.b₃

def Four.Clean (signed : Bool) (q : Four) : Prop :=
  (signed && q.b₀.msb) = false ∧ (signed && q.b₁.msb) = false ∧ (signed && q.b₂.msb) = false

theorem Four.pack_clean {signed : Bool} {q : Four} (clean : q.Clean signed) :
    q.pack signed = word q.b₀ q.b₁ q.b₂ q.b₃ := by
  obtain ⟨low₀, low₁, low₂⟩ := clean
  have none : ∀ b : Byte, 0 ||| b = b := fun b => BitVec.zero_or
  rw [Four.pack, pack_eq_word, spill_of_low low₀, spill_of_low low₁, spill_of_low low₂]
  simp only [none]

theorem Four.bytesOfWord_pack {signed : Bool} {q : Four} (clean : q.Clean signed) :
    bytesOfWord (q.pack signed) = q.bytes := by
  rw [Four.pack_clean clean, bytesOfWord_word]
  rfl

theorem Four.pack_injective {signed : Bool} {q r : Four} (clean : q.Clean signed)
    (same : r.pack signed = q.pack signed) : r = q := by
  have none : ∀ b : Byte, 0 ||| b = b := fun b => BitVec.zero_or
  have left := congrArg bytesOfWord same
  rw [Four.bytesOfWord_pack clean, Four.pack, pack_eq_word, bytesOfWord_word] at left
  obtain ⟨low₀, low₁, low₂⟩ := clean
  simp only [Four.bytes, List.cons.injEq, and_true] at left
  obtain ⟨first, second, third, fourth⟩ := left
  rw [first, spill_of_low low₀, none] at second
  rw [first, second, spill_of_low low₀, spill_of_low low₁, none, none] at third
  rw [first, second, third, spill_of_low low₀, spill_of_low low₁, spill_of_low low₂,
    none, none, none] at fourth
  cases q; cases r
  simp_all

/-- Below a spill of any of the first three bytes, the next byte does not count. -/
theorem Four.exists_pack_eq {signed : Bool} {q : Four} (dirty : ¬ q.Clean signed)
    (nulFree : 0 ∉ q.bytes) : ∃ r, 0 ∉ r.bytes ∧ r ≠ q ∧ r.pack signed = q.pack signed := by
  obtain ⟨b₀, b₁, b₂, b₃⟩ := q
  have another : ∀ b : Byte, ∃ c : Byte, 0 ≠ c ∧ c ≠ b := by
    intro b
    by_cases one : b = 1
    · exact ⟨2, by decide, by rw [one]; decide⟩
    · exact ⟨1, by decide, fun same => one same.symm⟩
  obtain ⟨nul₀, nul₁, nul₂, nul₃⟩ := (Four.nulFree_iff b₀ b₁ b₂ b₃).mp nulFree
  have assoc : ∀ b c d : Byte, b ||| c ||| d = b ||| (c ||| d) :=
    fun b c d => BitVec.or_assoc b c d
  cases high₀ : signed && b₀.msb
  · cases high₁ : signed && b₁.msb
    · cases high₂ : signed && b₂.msb
      · exact absurd ⟨high₀, high₁, high₂⟩ dirty
      · obtain ⟨c, some, other⟩ := another b₃
        refine ⟨⟨b₀, b₁, b₂, c⟩, (Four.nulFree_iff _ _ _ _).mpr ⟨nul₀, nul₁, nul₂, some⟩,
          by simpa using other, ?_⟩
        simp only [Four.pack, pack_eq_word, assoc, spill_or high₂]
    · obtain ⟨c, some, other⟩ := another b₂
      refine ⟨⟨b₀, b₁, c, b₃⟩, (Four.nulFree_iff _ _ _ _).mpr ⟨nul₀, nul₁, some, nul₃⟩,
        by simpa using other, ?_⟩
      simp only [Four.pack, pack_eq_word, assoc, spill_or high₁]
  · obtain ⟨c, some, other⟩ := another b₁
    refine ⟨⟨b₀, c, b₂, b₃⟩, (Four.nulFree_iff _ _ _ _).mpr ⟨nul₀, some, nul₂, nul₃⟩,
      by simpa using other, ?_⟩
    simp only [Four.pack, pack_eq_word, assoc, spill_or high₀]

def fours : List Byte → List Four
  | b₀ :: b₁ :: b₂ :: b₃ :: rest => ⟨b₀, b₁, b₂, b₃⟩ :: fours rest
  | [b₀, b₁, b₂] => [⟨b₀, b₁, b₂, 0⟩]
  | [b₀, b₁] => [⟨b₀, b₁, 0, 0⟩]
  | [b₀] => [⟨b₀, 0, 0, 0⟩]
  | [] => [⟨0, 0, 0, 0⟩]

def packString (signed : Bool) (s : List Byte) : List Word := (fours s).map (Four.pack signed)

/-- Bytes with a sign to spill stand only in the last place of a word. -/
def CleanString (signed : Bool) (s : List Byte) : Prop := ∀ q ∈ fours s, q.Clean signed

def Padded (s bytes : List Byte) : Prop :=
  ∃ n, 1 ≤ n ∧ n ≤ 4 ∧ bytes = s ++ List.replicate n 0

theorem padded_fours (s : List Byte) : Padded s ((fours s).flatMap Four.bytes) := by
  fun_induction fours s with
  | case1 b₀ b₁ b₂ b₃ rest ih =>
    obtain ⟨n, least, most, same⟩ := ih
    exact ⟨n, least, most, by rw [List.flatMap_cons, same]; rfl⟩
  | case2 b₀ b₁ b₂ => exact ⟨1, by omega, by omega, rfl⟩
  | case3 b₀ b₁ => exact ⟨2, by omega, by omega, rfl⟩
  | case4 b₀ => exact ⟨3, by omega, by omega, rfl⟩
  | case5 => exact ⟨4, by omega, by omega, rfl⟩

theorem takeWhile_padded {s bytes : List Byte} (nulFree : 0 ∉ s) (padded : Padded s bytes) :
    bytes.takeWhile (· ≠ 0) = s := by
  obtain ⟨n, least, _, rfl⟩ := padded
  obtain ⟨k, rfl⟩ : ∃ k, n = k + 1 := ⟨n - 1, by omega⟩
  rw [List.takeWhile_append_of_pos]
  · simp [List.replicate_succ]
  · intro b member
    have other : b ≠ 0 := fun nul => nulFree (nul ▸ member)
    simpa using other

theorem clean_iff_getD {signed : Bool} (qs : List Four) :
    (∀ q ∈ qs, q.Clean signed) ↔
      ∀ i, (signed && ((qs.flatMap Four.bytes).getD i 0).msb) = true → i % 4 = 3 := by
  induction qs with
  | nil =>
    have low : (signed && (0 : Byte).msb) = false := by cases signed <;> rfl
    refine iff_of_true (by simp) ?_
    intro i high
    exact absurd high (by simp)
  | cons q qs ih =>
    rw [List.forall_mem_cons, ih]
    constructor
    · rintro ⟨⟨low₀, low₁, low₂⟩, later⟩ i high
      match i with
      | 0 => exact absurd (low₀.symm.trans high) (by decide)
      | 1 => exact absurd (low₁.symm.trans high) (by decide)
      | 2 => exact absurd (low₂.symm.trans high) (by decide)
      | 3 => rfl
      | i + 4 =>
        have place := later i high
        omega
    · intro places
      refine ⟨⟨?_, ?_, ?_⟩, ?_⟩
      · exact Bool.eq_false_iff.mpr fun high => absurd (places 0 high) (by decide)
      · exact Bool.eq_false_iff.mpr fun high => absurd (places 1 high) (by decide)
      · exact Bool.eq_false_iff.mpr fun high => absurd (places 2 high) (by decide)
      · intro i high
        have place := places (i + 4) high
        omega

theorem cleanString_iff {signed : Bool} {s : List Byte} :
    CleanString signed s ↔
      ∀ i (inside : i < s.length), (signed && s[i].msb) = true → i % 4 = 3 := by
  have low : (signed && (0 : Byte).msb) = false := by cases signed <;> rfl
  obtain ⟨n, _, _, same⟩ := padded_fours s
  rw [CleanString, clean_iff_getD, same]
  constructor
  · intro places i inside high
    apply places i
    rwa [List.getD_append _ _ _ _ inside, List.getD_eq_getElem _ _ inside]
  · intro places i high
    by_cases inside : i < s.length
    · rw [List.getD_append _ _ _ _ inside, List.getD_eq_getElem _ _ inside] at high
      exact places i inside high
    · rw [List.getD_append_right _ _ _ _ (by omega)] at high
      have nul : (List.replicate n (0 : Byte)).getD (i - s.length) 0 = 0 := by
        by_cases tail : i - s.length < n
        · exact List.getD_replicate (x := 0) (y := 0) tail
        · rw [List.getD_eq_default _ _ (by simpa using tail)]
      rw [nul, low] at high
      cases high

theorem bytes_packString {signed : Bool} {s : List Byte} (clean : CleanString signed s) :
    bytes (packString signed s) = (fours s).flatMap Four.bytes := by
  rw [bytes, packString, List.flatMap_map]
  exact List.flatMap_congr fun q member => Four.bytesOfWord_pack (clean q member)

theorem packString_injective {signed : Bool} {s t : List Byte}
    (clean : CleanString signed s) (nulFree : 0 ∉ s) (nulFree' : 0 ∉ t)
    (same : packString signed t = packString signed s) : t = s := by
  have cancel : ∀ qs rs : List Four, (∀ q ∈ qs, q.Clean signed) →
      rs.map (Four.pack signed) = qs.map (Four.pack signed) → rs = qs := by
    intro qs
    induction qs with
    | nil => intro rs _ same; simpa using same
    | cons q qs ih =>
      intro rs clean same
      cases rs with
      | nil => cases same
      | cons r rs =>
        simp only [List.map_cons, List.cons.injEq] at same
        rw [Four.pack_injective (clean q (by simp)) same.1,
          ih rs (fun q member => clean q (by simp [member])) same.2]
  have fours_eq := cancel (fours s) (fours t) clean same
  rw [← takeWhile_padded nulFree' (padded_fours t), fours_eq,
    takeWhile_padded nulFree (padded_fours s)]

theorem Four.clean_of_last {signed : Bool} {q : Four} (nul : q.b₃ = 0)
    (same : bytesOfWord (q.pack signed) = q.bytes) : q.Clean signed := by
  rw [Four.pack, pack_eq_word, bytesOfWord_word, nul] at same
  simp only [Four.bytes, List.cons.injEq, and_true, nul] at same
  obtain ⟨_, _, _, last⟩ := same
  have low : ∀ b : Byte, spill signed b = 0 → (signed && b.msb) = false := by
    intro b none
    cases high : signed && b.msb
    · rfl
    · rw [spill, if_pos high] at none
      exact absurd none (by decide)
  obtain ⟨spills, _⟩ := BitVec.or_eq_zero_iff.mp last
  obtain ⟨spills, third⟩ := BitVec.or_eq_zero_iff.mp spills
  obtain ⟨first, second⟩ := BitVec.or_eq_zero_iff.mp spills
  exact ⟨low _ first, low _ second, low _ third⟩

theorem padded_four {s : List Byte} {w : Word} (padded : Padded s (bytes [w])) :
    bytesOfWord w = s ++ List.replicate (4 - s.length) 0 := by
  obtain ⟨n, least, most, same⟩ := padded
  have long : (bytesOfWord w).length = 4 := rfl
  have whole : bytesOfWord w = s ++ List.replicate n 0 := by simpa [bytes] using same
  have count : n = 4 - s.length := by
    rw [whole, List.length_append, List.length_replicate] at long
    omega
  rw [whole, count]

/-- If a string with spills reads back at all, other bytes are packed the same. -/
theorem exists_collision {signed : Bool} {s : List Byte} (nulFree : 0 ∉ s)
    (dirty : ¬ CleanString signed s) (padded : Padded s (bytes (packString signed s))) :
    ∃ t, 0 ∉ t ∧ t ≠ s ∧ packString signed t = packString signed s := by
  fun_induction fours s with
  | case1 b₀ b₁ b₂ b₃ rest ih =>
    obtain ⟨q, hq⟩ : ∃ q : Four, q = ⟨b₀, b₁, b₂, b₃⟩ := ⟨_, rfl⟩
    have cut : ∀ r : Four, packString signed (r.bytes ++ rest) =
        r.pack signed :: packString signed rest := fun r => rfl
    have split : b₀ :: b₁ :: b₂ :: b₃ :: rest = q.bytes ++ rest := by rw [hq]; rfl
    rw [split, List.mem_append, not_or] at nulFree
    obtain ⟨nulHead, nulRest⟩ := nulFree
    rw [split] at padded ⊢
    by_cases head : q.Clean signed
    · have dirtyRest : ¬ CleanString signed rest := by
        intro clean
        apply dirty
        intro p member
        rcases List.mem_cons.mp member with first | later
        · exact first ▸ hq ▸ head
        · exact clean p later
      obtain ⟨n, least, most, same⟩ := padded
      rw [cut, bytes, List.flatMap_cons, Four.bytesOfWord_pack head, List.append_assoc,
        List.append_cancel_left_eq] at same
      obtain ⟨t, nul, other, collides⟩ := ih nulRest dirtyRest ⟨n, least, most, same⟩
      refine ⟨q.bytes ++ t, ?_, ?_, ?_⟩
      · rw [List.mem_append]
        exact not_or.mpr ⟨nulHead, nul⟩
      · rw [ne_eq, List.append_cancel_left_eq]
        exact other
      · rw [cut, ← collides]
        rfl
    · obtain ⟨r, nul, other, collides⟩ := Four.exists_pack_eq head nulHead
      refine ⟨r.bytes ++ rest, ?_, ?_, ?_⟩
      · rw [List.mem_append]
        exact not_or.mpr ⟨nul, nulRest⟩
      · rw [ne_eq, List.append_cancel_right_eq]
        intro same
        apply other
        cases q; cases r
        simpa [Four.bytes] using same
      · rw [cut, cut, collides]
  | case2 b₀ b₁ b₂ =>
    have clean := Four.clean_of_last (q := ⟨b₀, b₁, b₂, 0⟩) rfl (padded_four padded)
    exact absurd (fun q member => List.mem_singleton.mp member ▸ clean) dirty
  | case3 b₀ b₁ =>
    have clean := Four.clean_of_last (q := ⟨b₀, b₁, 0, 0⟩) rfl (padded_four padded)
    exact absurd (fun q member => List.mem_singleton.mp member ▸ clean) dirty
  | case4 b₀ =>
    have clean := Four.clean_of_last (q := ⟨b₀, 0, 0, 0⟩) rfl (padded_four padded)
    exact absurd (fun q member => List.mem_singleton.mp member ▸ clean) dirty
  | case5 =>
    have clean := Four.clean_of_last (q := ⟨0, 0, 0, 0⟩) rfl (padded_four padded)
    exact absurd (fun q member => List.mem_singleton.mp member ▸ clean) dirty

def readString : List Word → Option (List Byte × List Word)
  | [] => none
  | w :: ws =>
      if 0 ∈ bytesOfWord w then some ((bytesOfWord w).takeWhile (· ≠ 0), ws)
      else (readString ws).map fun r => (bytesOfWord w ++ r.1, r.2)

theorem readString_last {s : List Byte} {w : Word} (nulFree : 0 ∉ s)
    (padded : Padded s (bytesOfWord w)) (rest : List Word) :
    readString (w :: rest) = some (s, rest) := by
  have nul : 0 ∈ bytesOfWord w := by
    obtain ⟨n, least, _, same⟩ := padded
    rw [same]
    exact List.mem_append_right _ (List.mem_replicate.mpr ⟨by omega, rfl⟩)
  rw [readString, if_pos nul, takeWhile_padded nulFree padded]

theorem readString_packString {signed : Bool} {s : List Byte} (clean : CleanString signed s)
    (nulFree : 0 ∉ s) (rest : List Word) :
    readString (packString signed s ++ rest) = some (s, rest) := by
  fun_induction fours s with
  | case1 b₀ b₁ b₂ b₃ s ih =>
    obtain ⟨q, hq⟩ : ∃ q : Four, q = ⟨b₀, b₁, b₂, b₃⟩ := ⟨_, rfl⟩
    have cut : packString signed (b₀ :: b₁ :: b₂ :: b₃ :: s) =
        q.pack signed :: packString signed s := by rw [hq]; rfl
    have split : b₀ :: b₁ :: b₂ :: b₃ :: s = q.bytes ++ s := by rw [hq]; rfl
    rw [split, List.mem_append, not_or] at nulFree
    have head : q.Clean signed := clean q (hq ▸ List.mem_cons_self)
    have tail : CleanString signed s := fun p member => clean p (List.mem_cons_of_mem _ member)
    rw [cut, List.cons_append, readString, Four.bytesOfWord_pack head, if_neg nulFree.1,
      ih tail nulFree.2, split]
    rfl
  | case2 b₀ b₁ b₂ =>
    refine readString_last nulFree ?_ rest
    rw [Four.bytesOfWord_pack (clean ⟨b₀, b₁, b₂, 0⟩ (List.mem_singleton_self _))]
    exact ⟨1, by omega, by omega, rfl⟩
  | case3 b₀ b₁ =>
    refine readString_last nulFree ?_ rest
    rw [Four.bytesOfWord_pack (clean ⟨b₀, b₁, 0, 0⟩ (List.mem_singleton_self _))]
    exact ⟨2, by omega, by omega, rfl⟩
  | case4 b₀ =>
    refine readString_last nulFree ?_ rest
    rw [Four.bytesOfWord_pack (clean ⟨b₀, 0, 0, 0⟩ (List.mem_singleton_self _))]
    exact ⟨3, by omega, by omega, rfl⟩
  | case5 =>
    refine readString_last nulFree ?_ rest
    rw [Four.bytesOfWord_pack (clean ⟨0, 0, 0, 0⟩ (List.mem_singleton_self _))]
    exact ⟨4, by omega, by omega, rfl⟩

end LittleEndian
