import Sirit.Assembled
import Sirit.Backpatch

/- What a patch does to code that is made of text and of phis with open slots. -/
namespace Sirit
open Backpatch VectorCursor
variable (pf : Platform)

/-- `t` is `s` with other words in the same cells. -/
structure Stream.Overwrites (s t : Stream) (words : List U32) : Prop where
  words : t.words = words
  insertIndex : t.insertIndex = s.insertIndex
  overruns : t.overruns = s.overruns
  opIndex : t.opIndex = s.opIndex

theorem Stream.Overwrites.trans {s t u : Stream} {ws ws' : List U32}
    (first : s.Overwrites t ws) (second : t.Overwrites u ws') : s.Overwrites u ws' where
  words := second.words
  insertIndex := second.insertIndex.trans first.insertIndex
  overruns := second.overruns.trans first.overruns
  opIndex := second.opIndex.trans first.opIndex

theorem Stream.Overwrites.unique {s t t' : Stream} {ws : List U32}
    (one : s.Overwrites t ws) (other : s.Overwrites t' ws) : t = t' := by
  apply Stream.ext
  · obtain ⟨words, insertIndex, overruns, _⟩ := one
    obtain ⟨words', insertIndex', overruns', _⟩ := other
    rcases t with ⟨⟨_, _, _, _⟩, _, _⟩
    rcases t' with ⟨⟨_, _, _, _⟩, _, _⟩
    simp_all
  · rw [one.opIndex, other.opIndex]

theorem Stream.overwrites_setValue {s : Stream} {index : U32} (value : U32)
    (inside : index.toNat < s.words.length) :
    s.Overwrites (s.setValue index value) (s.words.set index.toNat value) where
  words := rfl
  insertIndex := rfl
  overruns := if_pos inside
  opIndex := rfl

theorem Stream.value_eq {s : Stream} {index : U32} {before after : List U32} {w : U32}
    (words : s.words = before ++ w :: after) (start : index.toNat = before.length) :
    s.value index = w := by
  rw [Stream.value, words, start, List.getD_eq_getElem?_getD,
    List.getElem?_append_right (Nat.le_refl _), Nat.sub_self]
  rfl

def phiValue (func : PhiFunc) (log : List Nat) : U32 := (func log).value

theorem patchArguments_fills (func : PhiFunc) {slots : List (U32 × U32)} (arg : Nat)
    {cursor : U32} (log : List Nat) {code : Stream} {before after : List U32}
    (words : code.words = before ++ slotCells slots ++ after)
    (start : cursor.toNat = before.length)
    (small : before.length + (slotCells slots).length < 2 ^ 32) :
    (patchArguments func slots.length arg cursor log code).1 =
        log ++ List.range' arg slots.length ∧
      code.Overwrites (patchArguments func slots.length arg cursor log code).2
        (before ++ slotCells (fillSlots (phiValue func) arg log slots) ++ after) := by
  induction slots generalizing arg cursor log code before with
  | nil => exact ⟨(List.append_nil log).symm, ⟨words, rfl, rfl, rfl⟩⟩
  | cons slot slots ih =>
    simp only [slotCells_cons, List.length_cons] at words small
    have inside : cursor.toNat < code.words.length := by
      rw [words, start]
      simp only [List.length_append, List.length_cons]
      omega
    have stored : code.words.set cursor.toNat (phiValue func (log ++ [arg])) =
        (before ++ [phiValue func (log ++ [arg]), slot.2]) ++ slotCells slots ++ after := by
      rw [words, start, List.append_assoc, List.set_append_right _ _ (Nat.le_refl _)]
      simp
    have first := Stream.overwrites_setValue (phiValue func (log ++ [arg])) inside
    rw [stored] at first
    have next : (cursor + 2).toNat =
        (before ++ [phiValue func (log ++ [arg]), slot.2]).length := by
      rw [BitVec.toNat_add, start]
      simp only [List.length_append, List.length_cons, List.length_nil]
      change (before.length + 2) % 2 ^ 32 = before.length + 2
      omega
    obtain ⟨called, rest⟩ := ih (arg + 1) (log ++ [arg]) first.words next (by
      simp only [List.length_append, List.length_cons, List.length_nil]
      omega)
    refine ⟨?_, ?_⟩
    · refine called.trans ?_
      rw [List.length_cons, List.range'_succ, List.append_assoc]
      rfl
    · have whole := first.trans rest
      simpa [fillSlots, patchArguments, phiValue] using whole

def IsPhi : Piece U32 → Prop
  | .text _ => True
  | .record head slots => 3 + 2 * slots.length ≤ 65535 ∧ ∃ resultType result : U32,
      head = [makeWord0 (pf.op .opPhi) (3 + 2 * slots.length), resultType, result]

theorem isPhi_fill {p : Piece U32} (phi : IsPhi pf p) (value : List Nat → U32)
    (log : List Nat) : IsPhi pf (p.fill value log) := by
  cases p with
  | text cells => trivial
  | record head slots => simpa only [Piece.fill, IsPhi, fillSlots_length] using phi

theorem numArgs_eq {n : Nat} (short : 3 + 2 * n ≤ 65535) :
    ((makeWord0 (pf.op .opPhi) (3 + 2 * n) >>> 16 - 3) / 2).toNat = n := by
  have count : (makeWord0 (pf.op .opPhi) (3 + 2 * n) >>> 16).toNat = 3 + 2 * n :=
    wordCount_makeWord0 pf .opPhi short
  rw [BitVec.toNat_udiv, BitVec.toNat_sub_of_le, count]
  · change (3 + 2 * n - 3) / 2 = n
    omega
  · rw [BitVec.le_def, count]
    exact Nat.le_add_right 3 _

theorem value_of_isPhi {head : List U32} {slots : List (U32 × U32)}
    (phi : IsPhi pf (.record head slots)) {index : U32} {code : Stream} {before after : List U32}
    (words : code.words = before ++ (head ++ slotCells slots) ++ after)
    (start : index.toNat = before.length) :
    code.value index = makeWord0 (pf.op .opPhi) (3 + 2 * slots.length) := by
  obtain ⟨_, resultType, result, rfl⟩ := phi
  rw [List.append_assoc] at words
  exact Stream.value_eq words start

theorem patchPhi_fills (func : PhiFunc) {head : List U32} {slots : List (U32 × U32)}
    (phi : IsPhi pf (.record head slots)) {index : U32} (log : List Nat) {code : Stream}
    {before after : List U32}
    (words : code.words = before ++ (head ++ slotCells slots) ++ after)
    (start : index.toNat = before.length)
    (small : before.length + (head ++ slotCells slots).length < 2 ^ 32) :
    (patchPhi func (log, code) index).1 = log ++ List.range slots.length ∧
      code.Overwrites (patchPhi func (log, code) index).2
        (before ++ (head ++ slotCells (fillSlots (phiValue func) 0 log slots)) ++ after) := by
  have header := value_of_isPhi pf phi words start
  obtain ⟨short, resultType, result, rfl⟩ := phi
  simp only [List.length_append, List.length_cons, List.length_nil] at small
  have cursor : (index + 3).toNat =
      (before ++ [makeWord0 (pf.op .opPhi) (3 + 2 * slots.length), resultType, result]).length := by
    rw [BitVec.toNat_add, start]
    simp only [List.length_append, List.length_cons, List.length_nil]
    change (before.length + 3) % 2 ^ 32 = before.length + 3
    omega
  rw [← List.append_assoc] at words
  have filled := patchArguments_fills func 0 log words cursor (by
    simp only [List.length_append, List.length_cons, List.length_nil]
    omega)
  rw [patchPhi]
  simp only [header, numArgs_eq pf short]
  rw [List.range_eq_range']
  refine ⟨filled.1, ?_⟩
  simpa using filled.2

theorem patchPhis_fill (func : PhiFunc) {ps : List (Piece U32)} (phis : ∀ p ∈ ps, IsPhi pf p)
    (log : List Nat) {code : Stream} {before after : List U32}
    (words : code.words = before ++ cells ps ++ after)
    (small : before.length + (cells ps).length < 2 ^ 32) :
    (((starts before.length ps).map (BitVec.ofNat 32)).foldl (patchPhi func) (log, code)).1 =
        log ++ numbers ps ∧
      code.Overwrites
        (((starts before.length ps).map (BitVec.ofNat 32)).foldl (patchPhi func) (log, code)).2
        (before ++ cells (fill (phiValue func) log ps) ++ after) := by
  induction ps generalizing log code before with
  | nil => exact ⟨(List.append_nil log).symm, ⟨words, rfl, rfl, rfl⟩⟩
  | cons p ps ih =>
    rw [cells_cons, List.length_append] at small
    rw [cells_cons, ← List.append_assoc] at words
    have later : ∀ q ∈ ps, IsPhi pf q := fun q member => phis q (by simp [member])
    cases p with
    | text ws =>
      simp only [Piece.cells] at words small
      have rest := ih later log words (by
        rw [List.length_append]
        omega)
      rw [List.length_append] at rest
      simpa [starts, fill, Piece.starts, Piece.fill, Piece.cells, Piece.numbers, numbers] using rest
    | record head slots =>
      simp only [Piece.cells] at words small
      have index : (BitVec.ofNat 32 before.length).toNat = before.length := by
        rw [BitVec.toNat_ofNat]
        omega
      rw [List.append_assoc] at words
      obtain ⟨called, first⟩ := patchPhi_fills pf func (phis (.record head slots) (by simp))
        log words index (by omega)
      have filled := Piece.cells_fill_length (phiValue func) log (.record head slots)
      simp only [Piece.fill, Piece.cells] at filled
      have words' := first.words
      rw [← List.append_assoc _ (cells ps)] at words'
      obtain ⟨answers, rest⟩ := ih later (log ++ List.range slots.length) words' (by
        rw [List.length_append, filled]
        omega)
      rw [List.length_append, filled] at answers rest
      have step : patchPhi func (log, code) (BitVec.ofNat 32 before.length) =
          (log ++ List.range slots.length,
            (patchPhi func (log, code) (BitVec.ofNat 32 before.length)).2) :=
        Prod.ext called rfl
      simp only [starts, Piece.starts, List.singleton_append, List.map_cons, List.foldl_cons]
      rw [step]
      refine ⟨?_, ?_⟩
      · refine answers.trans ?_
        rw [List.append_assoc]
        rfl
      · have whole := first.trans rest
        rw [List.append_assoc before] at whole
        exact whole

/-- The code is made of these pieces, and their records are the phis noted for patching. -/
structure Laid (m : Module) (ps : List (Piece U32)) : Prop where
  written : m.code.written = cells ps
  nodes : m.deferredPhiNodes = (starts 0 ps).map (BitVec.ofNat 32)
  phis : ∀ p ∈ ps, IsPhi pf p

section Patch
variable {pf} {m : Module} {ps : List (Piece U32)} (laid : Laid pf m ps)
  (small : m.code.insertIndex < 2 ^ 32)
include laid small

theorem Laid.patch_code (func : PhiFunc) :
    (m.patchDeferredPhi func).1 = numbers ps ∧
      m.code.Overwrites (m.patchDeferredPhi func).2.code
        (cells (fill (phiValue func) [] ps) ++ m.code.words.drop m.code.insertIndex) := by
  have words : m.code.words = [] ++ cells ps ++ m.code.words.drop m.code.insertIndex := by
    rw [List.nil_append, ← laid.written, Cursor.written, List.take_append_drop]
  have long : (cells ps).length = m.code.insertIndex := by
    rw [← laid.written, Cursor.written_length]
  have whole := patchPhis_fill pf func laid.phis [] words (by
    rw [long, List.length_nil]
    omega)
  rw [Module.patchDeferredPhi, laid.nodes]
  exact whole

theorem Laid.patch (func : PhiFunc) :
    Laid pf (m.patchDeferredPhi func).2 (fill (phiValue func) [] ps) where
  written := by
    obtain ⟨_, code⟩ := laid.patch_code small func
    have long : (cells (fill (phiValue func) [] ps)).length = m.code.insertIndex := by
      rw [cells_fill_length, ← laid.written, Cursor.written_length]
    rw [Cursor.written, code.words, code.insertIndex, ← long, List.take_left]
  nodes := by
    rw [starts_fill]
    exact laid.nodes
  phis := by
    have all : ∀ (ps : List (Piece U32)) (log : List Nat), (∀ p ∈ ps, IsPhi pf p) →
        ∀ p ∈ fill (phiValue func) log ps, IsPhi pf p := by
      intro ps
      induction ps with
      | nil => intro log _ p member; exact absurd member List.not_mem_nil
      | cons q ps ih =>
        intro log phis p member
        rcases List.mem_cons.mp member with rfl | later
        · exact isPhi_fill pf (phis q (by simp)) _ _
        · exact ih _ (fun p member => phis p (by simp [member])) p later
    exact all ps [] laid.phis

theorem Laid.patch_patch (func earlier : PhiFunc) :
    (m.patchDeferredPhi earlier).2.patchDeferredPhi func = m.patchDeferredPhi func := by
  obtain ⟨called, once⟩ := laid.patch_code small func
  obtain ⟨_, first⟩ := laid.patch_code small earlier
  have small' : (m.patchDeferredPhi earlier).2.code.insertIndex < 2 ^ 32 := by
    rw [first.insertIndex]
    exact small
  obtain ⟨called', second⟩ := (laid.patch small earlier).patch_code small' func
  have rest : (m.patchDeferredPhi earlier).2.code.words.drop
      (m.patchDeferredPhi earlier).2.code.insertIndex =
        m.code.words.drop m.code.insertIndex := by
    have long : (cells (fill (phiValue earlier) [] ps)).length = m.code.insertIndex := by
      rw [cells_fill_length, ← laid.written, Cursor.written_length]
    rw [first.words, first.insertIndex, ← long, List.drop_left]
  rw [fill_fill, rest] at second
  have code : ((m.patchDeferredPhi earlier).2.patchDeferredPhi func).2.code =
      (m.patchDeferredPhi func).2.code := (first.trans second).unique once
  rw [numbers_fill] at called'
  apply Prod.ext
  · exact called'.trans called.symm
  · exact congrArg (fun code => { m with code := code }) code

end Patch

end Sirit
