import Mathlib.Data.List.Basic

/- A growable vector written through an insertion index. Cells past the index are
   allocated but not yet emitted. A store past the end of the vector is undefined in
   the languages this models: here it is carried out as if the vector had been one
   cell longer, and counted in `overruns`. -/
namespace VectorCursor
variable {α : Type}

structure Cursor (α : Type) where
  words : List α
  insertIndex : Nat
  overruns : Nat
  bounded : insertIndex ≤ words.length

def Cursor.empty : Cursor α := ⟨[], 0, 0, Nat.le_refl 0⟩

def Cursor.written (c : Cursor α) : List α := c.words.take c.insertIndex

def Cursor.slack (c : Cursor α) : Nat := c.words.length - c.insertIndex

def Cursor.reserve (fill : α) (n : Nat) (c : Cursor α) : Cursor α :=
  if h : c.insertIndex + n ≤ c.words.length then c
  else
    { c with
      words := c.words ++ List.replicate (c.insertIndex + n - c.words.length) fill
      bounded := by have := c.bounded; simp only [List.length_append]; omega }

theorem Cursor.bounded_put (v : α) (c : Cursor α) : c.insertIndex + 1 ≤
    (if c.insertIndex < c.words.length then c.words.set c.insertIndex v
      else c.words ++ [v]).length := by
  have bounded := c.bounded
  split
  · rw [List.length_set]
    omega
  · rw [List.length_append, List.length_singleton]
    omega

def Cursor.put (v : α) (c : Cursor α) : Cursor α where
  words := if c.insertIndex < c.words.length then c.words.set c.insertIndex v
    else c.words ++ [v]
  insertIndex := c.insertIndex + 1
  overruns := if c.insertIndex < c.words.length then c.overruns else c.overruns + 1
  bounded := c.bounded_put v

def Cursor.putAll (vs : List α) (c : Cursor α) : Cursor α :=
  vs.foldl (fun c v => c.put v) c

/-- Moves the insertion index back; the cells after it keep their old content. -/
def Cursor.rewind (i : Nat) (c : Cursor α) (earlier : i ≤ c.insertIndex) : Cursor α :=
  { c with insertIndex := i, bounded := Nat.le_trans earlier c.bounded }

def Cursor.modify (i : Nat) (f : α → α) (c : Cursor α) : Cursor α :=
  { c with words := c.words.modify i f, bounded := by simpa using c.bounded }

theorem Cursor.written_length (c : Cursor α) : c.written.length = c.insertIndex := by
  have := c.bounded
  simp only [Cursor.written, List.length_take]
  omega

theorem Cursor.words_length (c : Cursor α) :
    c.words.length = c.insertIndex + c.slack := by
  have := c.bounded
  simp only [Cursor.slack]
  omega

theorem Cursor.written_append_drop (c : Cursor α) :
    c.written ++ c.words.drop c.insertIndex = c.words := List.take_append_drop _ _

@[simp] theorem Cursor.insertIndex_reserve (fill : α) (n : Nat) (c : Cursor α) :
    (c.reserve fill n).insertIndex = c.insertIndex := by
  simp only [Cursor.reserve]
  split <;> rfl

@[simp] theorem Cursor.overruns_reserve (fill : α) (n : Nat) (c : Cursor α) :
    (c.reserve fill n).overruns = c.overruns := by
  simp only [Cursor.reserve]
  split <;> rfl

@[simp] theorem Cursor.written_reserve (fill : α) (n : Nat) (c : Cursor α) :
    (c.reserve fill n).written = c.written := by
  simp only [Cursor.reserve]
  split
  · rfl
  · exact List.take_append_of_le_length c.bounded

theorem Cursor.slack_reserve (fill : α) (n : Nat) (c : Cursor α) :
    (c.reserve fill n).slack = max c.slack n := by
  have := c.bounded
  simp only [Cursor.reserve]
  split
  · simp only [Cursor.slack]; omega
  · simp only [Cursor.slack, List.length_append, List.length_replicate]; omega

@[simp] theorem Cursor.insertIndex_put (v : α) (c : Cursor α) :
    (c.put v).insertIndex = c.insertIndex + 1 := rfl

theorem Cursor.written_put (v : α) (c : Cursor α) :
    (c.put v).written = c.written ++ [v] := by
  have bounded := c.bounded
  simp only [Cursor.written, Cursor.put]
  split
  · rename_i inside
    rw [List.take_add_one, List.take_set_of_le (Nat.le_refl _)]
    simp [inside]
  · rename_i outside
    have full : c.insertIndex = c.words.length := by omega
    rw [full, List.take_of_length_le (by simp), List.take_length]

theorem Cursor.slack_put (v : α) (c : Cursor α) : (c.put v).slack = c.slack - 1 := by
  have := c.bounded
  simp only [Cursor.slack, Cursor.put]
  split <;> simp <;> omega

theorem Cursor.overruns_put (v : α) (c : Cursor α) :
    (c.put v).overruns = c.overruns + (1 - c.slack) := by
  have := c.bounded
  simp only [Cursor.slack, Cursor.put]
  split <;> omega

@[simp] theorem Cursor.putAll_nil (c : Cursor α) : c.putAll [] = c := rfl

@[simp] theorem Cursor.putAll_cons (v : α) (vs : List α) (c : Cursor α) :
    c.putAll (v :: vs) = (c.put v).putAll vs := rfl

theorem Cursor.putAll_append (us vs : List α) (c : Cursor α) :
    c.putAll (us ++ vs) = (c.putAll us).putAll vs := List.foldl_append

@[simp] theorem Cursor.insertIndex_putAll (vs : List α) (c : Cursor α) :
    (c.putAll vs).insertIndex = c.insertIndex + vs.length := by
  induction vs generalizing c with
  | nil => rfl
  | cons v vs ih =>
    rw [Cursor.putAll_cons, ih, Cursor.insertIndex_put, List.length_cons]
    omega

theorem Cursor.written_putAll (vs : List α) (c : Cursor α) :
    (c.putAll vs).written = c.written ++ vs := by
  induction vs generalizing c with
  | nil => simp
  | cons v vs ih => rw [Cursor.putAll_cons, ih, Cursor.written_put, List.append_assoc,
      List.singleton_append]

theorem Cursor.slack_putAll (vs : List α) (c : Cursor α) :
    (c.putAll vs).slack = c.slack - vs.length := by
  induction vs generalizing c with
  | nil => rfl
  | cons v vs ih =>
    rw [Cursor.putAll_cons, ih, Cursor.slack_put, List.length_cons]
    omega

/-- The stores that miss the vector are exactly those beyond its slack. -/
theorem Cursor.overruns_putAll (vs : List α) (c : Cursor α) :
    (c.putAll vs).overruns = c.overruns + (vs.length - c.slack) := by
  induction vs generalizing c with
  | nil => simp
  | cons v vs ih =>
    rw [Cursor.putAll_cons, ih, Cursor.overruns_put, Cursor.slack_put, List.length_cons]
    omega

theorem Cursor.words_putAll_of_room {vs : List α} {c : Cursor α}
    (room : c.insertIndex + vs.length ≤ c.words.length) :
    (c.putAll vs).words = c.written ++ vs ++ c.words.drop (c.insertIndex + vs.length) := by
  induction vs generalizing c with
  | nil => rw [List.append_nil, List.length_nil, Nat.add_zero, Cursor.written_append_drop]; rfl
  | cons v vs ih =>
    rw [List.length_cons] at room ⊢
    have inside : c.insertIndex < c.words.length := by omega
    have stored : (c.put v).words = c.words.set c.insertIndex v := if_pos inside
    rw [Cursor.putAll_cons, ih (by
      rw [stored, List.length_set, Cursor.insertIndex_put]
      omega), Cursor.written_put, stored, Cursor.insertIndex_put, List.drop_set_of_lt (by omega),
      Nat.add_right_comm, Nat.add_assoc _ vs.length, List.append_assoc c.written,
      List.singleton_append]

theorem Cursor.words_putAll {vs : List α} {c : Cursor α} (fit : c.slack = vs.length) :
    (c.putAll vs).words = c.written ++ vs := by
  have whole := c.words_length
  rw [fit] at whole
  rw [Cursor.words_putAll_of_room (Nat.le_of_eq whole.symm), ← whole, List.drop_length,
    List.append_nil]

theorem Cursor.slice_putAll (vs : List α) (c : Cursor α) :
    ((c.putAll vs).words.drop c.insertIndex).take
      ((c.putAll vs).insertIndex - c.insertIndex) = vs := by
  rw [← List.drop_take]
  have whole : (c.putAll vs).words.take (c.putAll vs).insertIndex = c.written ++ vs :=
    c.written_putAll vs
  rw [whole, ← c.written_length, List.drop_left]

/-- A cursor with the stores made through it, in order: their places and values. -/
structure Recorded (α : Type) where
  cursor : Cursor α
  stores : List (Nat × α)

def Recorded.put (v : α) (r : Recorded α) : Recorded α where
  cursor := r.cursor.put v
  stores := r.stores ++ [(r.cursor.insertIndex, v)]

def Recorded.putAll (vs : List α) (r : Recorded α) : Recorded α :=
  vs.foldl (fun r v => r.put v) r

theorem Recorded.cursor_putAll (vs : List α) (r : Recorded α) :
    (r.putAll vs).cursor = r.cursor.putAll vs := by
  induction vs generalizing r with
  | nil => rfl
  | cons v vs ih => exact ih (r.put v)

theorem Recorded.stores_putAll (vs : List α) (r : Recorded α) :
    (r.putAll vs).stores =
      r.stores ++ (List.range' r.cursor.insertIndex vs.length).zip vs := by
  induction vs generalizing r with
  | nil => exact (List.append_nil _).symm
  | cons v vs ih =>
    have rest := ih (r.put v)
    rw [List.length_cons, List.range'_succ, List.zip_cons_cons]
    refine rest.trans ?_
    rw [Recorded.put, List.append_assoc, List.singleton_append]
    rfl

theorem Cursor.length_putAll_of_room {vs : List α} {c : Cursor α}
    (room : c.insertIndex + vs.length ≤ c.words.length) :
    (c.putAll vs).words.length = c.words.length := by
  rw [Cursor.words_putAll_of_room room, List.length_append, List.length_append,
    List.length_drop, Cursor.written_length]
  omega

theorem Cursor.getElem?_putAll_of_outside {vs : List α} {c : Cursor α} {j : Nat}
    (room : c.insertIndex + vs.length ≤ c.words.length)
    (outside : j < c.insertIndex ∨ c.insertIndex + vs.length ≤ j) :
    (c.putAll vs).words[j]? = c.words[j]? := by
  have upTo : (c.written ++ vs).length = c.insertIndex + vs.length := by
    rw [List.length_append, Cursor.written_length]
  rw [Cursor.words_putAll_of_room room]
  rcases outside with before | past
  · have kept : j < c.written.length := by rwa [Cursor.written_length]
    rw [List.append_assoc, List.getElem?_append_left kept, Cursor.written,
      List.getElem?_take_of_lt before]
  · rw [List.getElem?_append_right (upTo ▸ past), upTo, List.getElem?_drop,
      Nat.add_sub_cancel' past]

theorem Recorded.stored_putAll {vs : List α} {c : Cursor α}
    (room : c.insertIndex + vs.length ≤ c.words.length) :
    ∀ store ∈ ((⟨c, []⟩ : Recorded α).putAll vs).stores,
      (c.putAll vs).words[store.1]? = some store.2 := by
  have stores : ((⟨c, []⟩ : Recorded α).putAll vs).stores =
      (List.range' c.insertIndex vs.length).zip vs :=
    (Recorded.stores_putAll vs ⟨c, []⟩).trans (List.nil_append _)
  intro store member
  rw [stores] at member
  obtain ⟨k, inside, rfl⟩ := List.mem_iff_getElem.mp member
  have short : k < vs.length := by
    rw [List.length_zip, List.length_range', Nat.min_self] at inside
    exact inside
  have after : c.written.length ≤ c.insertIndex + k := by
    rw [Cursor.written_length]
    omega
  rw [List.getElem_zip, List.getElem_range', Nat.one_mul, Cursor.words_putAll_of_room room,
    List.append_assoc, List.getElem?_append_right after, Cursor.written_length,
    Nat.add_sub_cancel_left, List.getElem?_append_left short, List.getElem?_eq_getElem short]

theorem Cursor.written_rewind {i : Nat} {c : Cursor α} (earlier : i ≤ c.insertIndex) :
    (c.rewind i earlier).written = c.written.take i := by
  simp only [Cursor.written, Cursor.rewind, List.take_take]
  rw [Nat.min_eq_left earlier]

theorem Cursor.written_modify (i : Nat) (f : α → α) (c : Cursor α) :
    (c.modify i f).written = c.written.modify i f := by
  simp only [Cursor.written, Cursor.modify]
  exact List.take_modify f i c.insertIndex c.words

@[simp] theorem Cursor.insertIndex_modify (i : Nat) (f : α → α) (c : Cursor α) :
    (c.modify i f).insertIndex = c.insertIndex := rfl

@[simp] theorem Cursor.overruns_modify (i : Nat) (f : α → α) (c : Cursor α) :
    (c.modify i f).overruns = c.overruns := rfl

@[simp] theorem Cursor.slack_modify (i : Nat) (f : α → α) (c : Cursor α) :
    (c.modify i f).slack = c.slack := by
  simp [Cursor.slack, Cursor.modify]

end VectorCursor
