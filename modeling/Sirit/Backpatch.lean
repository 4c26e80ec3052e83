import Mathlib.Data.List.Basic

/- Text with slots that are filled in later. A record is a fixed head and slots that each
   stand before a fixed cell. What a slot gets may depend on all slots asked for before: the
   value of a list of slot numbers is what was supplied for the last of them. -/
namespace Backpatch
variable {α : Type}

inductive Piece (α : Type) where
  | text (cells : List α)
  | record (head : List α) (slots : List (α × α))

def slotCells (slots : List (α × α)) : List α := slots.flatMap fun slot => [slot.1, slot.2]

def Piece.cells : Piece α → List α
  | .text cells => cells
  | .record head slots => head ++ slotCells slots

def cells (ps : List (Piece α)) : List α := ps.flatMap Piece.cells

/-- The slots are numbered from zero in every record. -/
def Piece.numbers : Piece α → List Nat
  | .text _ => []
  | .record _ slots => List.range slots.length

def numbers (ps : List (Piece α)) : List Nat := ps.flatMap Piece.numbers

def Piece.sizes : Piece α → List Nat
  | .text _ => []
  | .record _ slots => [slots.length]

def sizes (ps : List (Piece α)) : List Nat := ps.flatMap Piece.sizes

def fillSlots (value : List Nat → α) : Nat → List Nat → List (α × α) → List (α × α)
  | _, _, [] => []
  | n, log, slot :: slots =>
      (value (log ++ [n]), slot.2) :: fillSlots value (n + 1) (log ++ [n]) slots

def Piece.fill (value : List Nat → α) (log : List Nat) : Piece α → Piece α
  | .text cells => .text cells
  | .record head slots => .record head (fillSlots value 0 log slots)

def fill (value : List Nat → α) : List Nat → List (Piece α) → List (Piece α)
  | _, [] => []
  | log, p :: ps => p.fill value log :: fill value (log ++ p.numbers) ps

def Piece.starts (start : Nat) : Piece α → List Nat
  | .text _ => []
  | .record _ _ => [start]

def starts : Nat → List (Piece α) → List Nat
  | _, [] => []
  | start, p :: ps => p.starts start ++ starts (start + p.cells.length) ps

def Piece.slotOffsets (start : Nat) : Piece α → List Nat
  | .text _ => []
  | .record head slots => (List.range slots.length).map fun k => start + head.length + 2 * k

def slotOffsets : Nat → List (Piece α) → List Nat
  | _, [] => []
  | start, p :: ps => p.slotOffsets start ++ slotOffsets (start + p.cells.length) ps

@[simp] theorem slotCells_cons (slot : α × α) (slots : List (α × α)) :
    slotCells (slot :: slots) = slot.1 :: slot.2 :: slotCells slots := rfl

theorem slotCells_length (slots : List (α × α)) : (slotCells slots).length = 2 * slots.length := by
  induction slots with
  | nil => rfl
  | cons slot slots ih =>
    simp only [slotCells_cons, List.length_cons, ih]
    omega

@[simp] theorem cells_cons (p : Piece α) (ps : List (Piece α)) :
    cells (p :: ps) = p.cells ++ cells ps := rfl

theorem cells_append (ps qs : List (Piece α)) : cells (ps ++ qs) = cells ps ++ cells qs :=
  List.flatMap_append

theorem numbers_append (ps qs : List (Piece α)) :
    numbers (ps ++ qs) = numbers ps ++ numbers qs := List.flatMap_append

theorem sizes_append (ps qs : List (Piece α)) : sizes (ps ++ qs) = sizes ps ++ sizes qs :=
  List.flatMap_append

theorem fill_append (value : List Nat → α) (log : List Nat) (ps qs : List (Piece α)) :
    fill value log (ps ++ qs) = fill value log ps ++ fill value (log ++ numbers ps) qs := by
  induction ps generalizing log with
  | nil => simp [fill, numbers]
  | cons p ps ih =>
    simp only [List.cons_append, fill, ih, numbers, List.flatMap_cons, List.append_assoc]

theorem starts_append (start : Nat) (ps qs : List (Piece α)) :
    starts start (ps ++ qs) = starts start ps ++ starts (start + (cells ps).length) qs := by
  induction ps generalizing start with
  | nil => rfl
  | cons p ps ih =>
    simp only [List.cons_append, starts, ih, cells_cons, List.length_append, List.append_assoc,
      Nat.add_assoc]

theorem slotOffsets_append (start : Nat) (ps qs : List (Piece α)) :
    slotOffsets start (ps ++ qs) =
      slotOffsets start ps ++ slotOffsets (start + (cells ps).length) qs := by
  induction ps generalizing start with
  | nil => rfl
  | cons p ps ih =>
    simp only [List.cons_append, slotOffsets, ih, cells_cons, List.length_append,
      List.append_assoc, Nat.add_assoc]

theorem fillSlots_length (value : List Nat → α) (n : Nat) (log : List Nat)
    (slots : List (α × α)) : (fillSlots value n log slots).length = slots.length := by
  induction slots generalizing n log with
  | nil => rfl
  | cons slot slots ih => simp only [fillSlots, List.length_cons, ih]

theorem Piece.cells_fill_length (value : List Nat → α) (log : List Nat) (p : Piece α) :
    (p.fill value log).cells.length = p.cells.length := by
  cases p with
  | text cells => rfl
  | record head slots =>
    simp only [Piece.fill, Piece.cells, List.length_append, slotCells_length, fillSlots_length]

theorem cells_fill_length (value : List Nat → α) (log : List Nat) (ps : List (Piece α)) :
    (cells (fill value log ps)).length = (cells ps).length := by
  induction ps generalizing log with
  | nil => rfl
  | cons p ps ih =>
    simp only [fill, cells_cons, List.length_append, Piece.cells_fill_length, ih]

theorem Piece.numbers_fill (value : List Nat → α) (log : List Nat) (p : Piece α) :
    (p.fill value log).numbers = p.numbers := by
  cases p with
  | text cells => rfl
  | record head slots => simp only [Piece.fill, Piece.numbers, fillSlots_length]

theorem numbers_fill (value : List Nat → α) (log : List Nat) (ps : List (Piece α)) :
    numbers (fill value log ps) = numbers ps := by
  induction ps generalizing log with
  | nil => rfl
  | cons p ps ih =>
    change (p.fill value log).numbers ++ numbers (fill value (log ++ p.numbers) ps) = _
    rw [Piece.numbers_fill, ih]
    rfl

theorem sizes_fill (value : List Nat → α) (log : List Nat) (ps : List (Piece α)) :
    sizes (fill value log ps) = sizes ps := by
  induction ps generalizing log with
  | nil => rfl
  | cons p ps ih =>
    change (p.fill value log).sizes ++ sizes (fill value (log ++ p.numbers) ps) = _
    rw [ih]
    cases p with
    | text cells => rfl
    | record head slots =>
      simp only [Piece.fill, Piece.sizes, fillSlots_length, sizes, List.flatMap_cons]

theorem starts_fill (value : List Nat → α) (log : List Nat) (start : Nat)
    (ps : List (Piece α)) : starts start (fill value log ps) = starts start ps := by
  induction ps generalizing log start with
  | nil => rfl
  | cons p ps ih =>
    simp only [fill, starts, ih, Piece.cells_fill_length]
    cases p <;> rfl

theorem slotOffsets_fill (value : List Nat → α) (log : List Nat) (start : Nat)
    (ps : List (Piece α)) : slotOffsets start (fill value log ps) = slotOffsets start ps := by
  induction ps generalizing log start with
  | nil => rfl
  | cons p ps ih =>
    simp only [fill, slotOffsets, ih, Piece.cells_fill_length]
    cases p with
    | text cells => rfl
    | record head slots => simp only [Piece.fill, Piece.slotOffsets, fillSlots_length]

theorem fillSlots_fillSlots (value earlier : List Nat → α) (n n' : Nat) (log log' : List Nat)
    (slots : List (α × α)) :
    fillSlots value n log (fillSlots earlier n' log' slots) = fillSlots value n log slots := by
  induction slots generalizing n n' log log' with
  | nil => rfl
  | cons slot slots ih => simp only [fillSlots, ih]

theorem fill_fill (value earlier : List Nat → α) (log log' : List Nat) (ps : List (Piece α)) :
    fill value log (fill earlier log' ps) = fill value log ps := by
  induction ps generalizing log log' with
  | nil => rfl
  | cons p ps ih =>
    simp only [fill, Piece.numbers_fill, ih]
    cases p with
    | text cells => rfl
    | record head slots => simp only [Piece.fill, fillSlots_fillSlots]

theorem fillSlots_getElem? (value : List Nat → α) {n : Nat} {log : List Nat}
    {slots : List (α × α)} {i : Nat} (fixed : ∀ k < slots.length, i ≠ 2 * k) :
    (slotCells (fillSlots value n log slots))[i]? = (slotCells slots)[i]? := by
  induction slots generalizing n log i with
  | nil => rfl
  | cons slot slots ih =>
    simp only [fillSlots, slotCells_cons]
    match i with
    | 0 => exact absurd rfl (fixed 0 (Nat.succ_pos _))
    | 1 => rfl
    | i + 2 =>
      simp only [List.getElem?_cons_succ]
      apply ih
      intro k inside same
      exact fixed (k + 1) (by simpa using inside) (by omega)

theorem Piece.fill_getElem? (value : List Nat → α) {log : List Nat} {p : Piece α} {start i : Nat}
    (fixed : start + i ∉ p.slotOffsets start) :
    (p.fill value log).cells[i]? = p.cells[i]? := by
  cases p with
  | text cells => rfl
  | record head slots =>
    simp only [Piece.fill, Piece.cells]
    by_cases inHead : i < head.length
    · rw [List.getElem?_append_left inHead, List.getElem?_append_left inHead]
    · rw [List.getElem?_append_right (by omega), List.getElem?_append_right (by omega)]
      apply fillSlots_getElem?
      intro k inside same
      apply fixed
      exact List.mem_map.mpr ⟨k, List.mem_range.mpr inside, by omega⟩

theorem fill_getElem? (value : List Nat → α) {log : List Nat} {ps : List (Piece α)}
    (start : Nat) {i : Nat} (fixed : start + i ∉ slotOffsets start ps) :
    (cells (fill value log ps))[i]? = (cells ps)[i]? := by
  induction ps generalizing log start i with
  | nil => rfl
  | cons p ps ih =>
    simp only [slotOffsets, List.mem_append, not_or] at fixed
    have same := p.cells_fill_length value log
    simp only [fill, cells_cons]
    by_cases first : i < p.cells.length
    · rw [List.getElem?_append_left (by omega), List.getElem?_append_left first]
      exact p.fill_getElem? value fixed.1
    · rw [List.getElem?_append_right (by omega), List.getElem?_append_right (by omega), same]
      apply ih (start + p.cells.length)
      rw [show start + p.cells.length + (i - p.cells.length) = start + i by omega]
      exact fixed.2

end Backpatch
