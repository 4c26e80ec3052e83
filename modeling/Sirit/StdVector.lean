import Sirit.VectorCursor

/- A growable vector as the languages have it. A store past the end reaches memory behind the
   vector and leaves its size as it is; the next growth clears that memory. Until a store
   misses, the vector is the ample one of `VectorCursor`. -/
namespace StdVector
open VectorCursor
variable {α : Type}

/-- `cells` are the elements, and behind them what was stored past the end of the vector. -/
structure Memory (α : Type) where
  cells : List α
  size : Nat
  insertIndex : Nat
  missed : Nat
  within : size ≤ cells.length
  bounded : insertIndex ≤ cells.length

theorem Memory.within_nil : 0 ≤ ([] : List α).length := Nat.zero_le _

def Memory.empty : Memory α := ⟨[], 0, 0, 0, Memory.within_nil, Memory.within_nil⟩

def Memory.written (m : Memory α) : List α := m.cells.take m.insertIndex

def Memory.room (m : Memory α) : Nat := m.size - m.insertIndex

theorem Memory.grown_length (fill : α) (n : Nat) (m : Memory α)
    (short : ¬ m.insertIndex + n ≤ m.size) :
    (m.cells.take m.size ++
      List.replicate (m.insertIndex + n - m.size) fill).length = m.insertIndex + n := by
  have := m.within
  simp only [List.length_append, List.length_take, List.length_replicate]
  omega

/-- Growth keeps the elements only: what was stored behind them is cleared. -/
def Memory.reserve (fill : α) (n : Nat) (m : Memory α) : Memory α :=
  if h : m.insertIndex + n ≤ m.size then m
  else
    { cells := m.cells.take m.size ++ List.replicate (m.insertIndex + n - m.size) fill
      size := m.insertIndex + n
      insertIndex := m.insertIndex
      missed := m.missed
      within := Nat.le_of_eq (m.grown_length fill n h).symm
      bounded := (m.grown_length fill n h).symm ▸ Nat.le_add_right _ _ }

theorem Memory.put_length (v : α) (m : Memory α) : m.cells.length ≤
      (if m.insertIndex < m.cells.length then m.cells.set m.insertIndex v
        else m.cells ++ [v]).length ∧
    m.insertIndex + 1 ≤ (if m.insertIndex < m.cells.length then m.cells.set m.insertIndex v
      else m.cells ++ [v]).length := by
  have := m.bounded
  split <;> simp only [List.length_set, List.length_append, List.length_singleton] <;> omega

def Memory.put (v : α) (m : Memory α) : Memory α where
  cells := if m.insertIndex < m.cells.length then m.cells.set m.insertIndex v
    else m.cells ++ [v]
  size := m.size
  insertIndex := m.insertIndex + 1
  missed := if m.insertIndex < m.size then m.missed else m.missed + 1
  within := Nat.le_trans m.within (m.put_length v).1
  bounded := (m.put_length v).2

def Memory.putAll (vs : List α) (m : Memory α) : Memory α := vs.foldl (fun m v => m.put v) m

def Memory.rewind (i : Nat) (m : Memory α) (earlier : i ≤ m.insertIndex) : Memory α :=
  { m with insertIndex := i, bounded := Nat.le_trans earlier m.bounded }

def Memory.modify (i : Nat) (f : α → α) (m : Memory α) : Memory α :=
  { m with
    cells := m.cells.modify i f
    within := by simpa using m.within
    bounded := by simpa using m.bounded }

def Memory.store (i : Nat) (v : α) (m : Memory α) : Memory α :=
  { m with
    cells := m.cells.set i v
    missed := if i < m.size then m.missed else m.missed + 1
    within := by simpa using m.within
    bounded := by simpa using m.bounded }

@[simp] theorem Memory.insertIndex_reserve (fill : α) (n : Nat) (m : Memory α) :
    (m.reserve fill n).insertIndex = m.insertIndex := by
  unfold Memory.reserve
  split <;> rfl

@[simp] theorem Memory.missed_reserve (fill : α) (n : Nat) (m : Memory α) :
    (m.reserve fill n).missed = m.missed := by
  unfold Memory.reserve
  split <;> rfl

theorem Memory.size_reserve (fill : α) (n : Nat) (m : Memory α) :
    (m.reserve fill n).size = max m.size (m.insertIndex + n) := by
  unfold Memory.reserve
  split
  · omega
  · change m.insertIndex + n = _
    omega

@[simp] theorem Memory.putAll_nil (m : Memory α) : m.putAll [] = m := rfl

@[simp] theorem Memory.putAll_cons (v : α) (vs : List α) (m : Memory α) :
    m.putAll (v :: vs) = (m.put v).putAll vs := rfl

theorem Memory.putAll_append (us vs : List α) (m : Memory α) :
    m.putAll (us ++ vs) = (m.putAll us).putAll vs := List.foldl_append

@[simp] theorem Memory.insertIndex_putAll (vs : List α) (m : Memory α) :
    (m.putAll vs).insertIndex = m.insertIndex + vs.length := by
  induction vs generalizing m with
  | nil => rfl
  | cons v vs ih =>
    rw [Memory.putAll_cons, ih]
    change m.insertIndex + 1 + vs.length = _
    rw [List.length_cons]
    omega

@[simp] theorem Memory.size_putAll (vs : List α) (m : Memory α) :
    (m.putAll vs).size = m.size := by
  induction vs generalizing m with
  | nil => rfl
  | cons v vs ih => exact ih (m.put v)

theorem Memory.room_reserve (fill : α) (n : Nat) (m : Memory α) :
    (m.reserve fill n).room = max m.room n := by
  rw [Memory.room, Memory.size_reserve, Memory.insertIndex_reserve, Memory.room]
  omega

theorem Memory.missed_putAll (vs : List α) (m : Memory α) :
    (m.putAll vs).missed = m.missed + (vs.length - m.room) := by
  induction vs generalizing m with
  | nil => simp
  | cons v vs ih =>
    rw [Memory.putAll_cons, ih, List.length_cons]
    simp only [Memory.room, Memory.put]
    split <;> omega

theorem Memory.missed_le (fill : α) (n : Nat) (vs : List α) (m : Memory α) :
    m.missed ≤ ((m.reserve fill n).putAll vs).missed := by
  rw [Memory.missed_putAll, Memory.missed_reserve]
  exact Nat.le_add_right _ _

theorem Memory.written_put (v : α) (m : Memory α) : (m.put v).written = m.written ++ [v] := by
  have := m.bounded
  simp only [Memory.written, Memory.put]
  split
  · rename_i inside
    rw [List.take_add_one, List.take_set_of_le (Nat.le_refl _)]
    simp [inside]
  · rename_i outside
    have full : m.insertIndex = m.cells.length := by omega
    rw [full, List.take_of_length_le (by simp), List.take_length]

theorem Memory.written_putAll (vs : List α) (m : Memory α) :
    (m.putAll vs).written = m.written ++ vs := by
  induction vs generalizing m with
  | nil => simp
  | cons v vs ih =>
    rw [Memory.putAll_cons, ih, Memory.written_put, List.append_assoc, List.singleton_append]

theorem Memory.slice_putAll (vs : List α) (m : Memory α) :
    ((m.putAll vs).cells.drop m.insertIndex).take
      ((m.putAll vs).insertIndex - m.insertIndex) = vs := by
  have long : m.written.length = m.insertIndex := by
    have := m.bounded
    simp only [Memory.written, List.length_take]
    omega
  have whole : (m.putAll vs).cells.take (m.putAll vs).insertIndex = m.written ++ vs :=
    m.written_putAll vs
  rw [← List.drop_take, whole, ← long, List.drop_left]

structure Memory.Same (m : Memory α) (c : Cursor α) : Prop where
  cells : m.cells = c.words
  size : m.size = c.words.length
  insertIndex : m.insertIndex = c.insertIndex
  missed : m.missed = c.overruns

/-- The same vector until a store misses. -/
structure Memory.Follows (m : Memory α) (c : Cursor α) : Prop where
  insertIndex : m.insertIndex = c.insertIndex
  same : m.Same c ∨ 0 < m.missed ∧ 0 < c.overruns

variable {m : Memory α} {c : Cursor α}

theorem Memory.Same.follows (same : m.Same c) : m.Follows c := ⟨same.insertIndex, Or.inl same⟩

theorem Memory.same_empty : (Memory.empty : Memory α).Same Cursor.empty := ⟨rfl, rfl, rfl, rfl⟩

theorem Memory.Same.room (same : m.Same c) : m.room = c.slack := by
  rw [Memory.room, Cursor.slack, same.size, same.insertIndex]

theorem Memory.Same.reserve (same : m.Same c) (fill : α) (n : Nat) :
    (m.reserve fill n).Same (c.reserve fill n) := by
  obtain ⟨cells, size, index, missed⟩ := same
  unfold Memory.reserve Cursor.reserve
  simp only [size, index, cells, List.take_length]
  split
  · exact ⟨cells, size, index, missed⟩
  · rename_i short
    have long : (c.words ++ List.replicate (c.insertIndex + n - c.words.length) fill).length =
        c.words.length + (c.insertIndex + n - c.words.length) := by
      rw [List.length_append, List.length_replicate]
    refine ⟨rfl, ?_, rfl, missed⟩
    change c.insertIndex + n = (c.words ++ _).length
    omega

theorem Memory.Same.put (same : m.Same c) (inside : 0 < c.slack) (v : α) :
    (m.put v).Same (c.put v) := by
  obtain ⟨cells, size, index, missed⟩ := same
  have here : c.insertIndex < c.words.length := by
    rw [Cursor.slack] at inside
    omega
  refine ⟨?_, ?_, ?_, ?_⟩
  · simp only [Memory.put, Cursor.put, cells, index]
  · simp only [Memory.put, Cursor.put, size, if_pos here, List.length_set]
  · simp only [Memory.put, Cursor.put, index]
  · simp only [Memory.put, Cursor.put, size, index, missed]

theorem Memory.Same.putAll {vs : List α} (same : m.Same c) (inside : vs.length ≤ c.slack) :
    (m.putAll vs).Same (c.putAll vs) := by
  induction vs generalizing m c with
  | nil => exact same
  | cons v vs ih =>
    rw [List.length_cons] at inside
    apply ih (same.put (by omega) v)
    rw [Cursor.slack_put]
    omega

theorem Memory.Same.modify (same : m.Same c) (i : Nat) (f : α → α) :
    (m.modify i f).Same (c.modify i f) := by
  obtain ⟨cells, size, index, missed⟩ := same
  refine ⟨?_, ?_, index, missed⟩
  · simp only [Memory.modify, Cursor.modify, cells]
  · simp only [Memory.modify, Cursor.modify, List.length_modify, size]

theorem Memory.Same.rewind (same : m.Same c) {i : Nat} (earlier : i ≤ m.insertIndex)
    (earlier' : i ≤ c.insertIndex) : (m.rewind i earlier).Same (c.rewind i earlier') :=
  ⟨same.cells, same.size, rfl, same.missed⟩

theorem Memory.Follows.reserve (follows : m.Follows c) (fill : α) (n : Nat) :
    (m.reserve fill n).Follows (c.reserve fill n) := by
  refine ⟨by simpa using follows.insertIndex, ?_⟩
  rcases follows.same with same | ⟨missed, overruns⟩
  · exact Or.inl (same.reserve fill n)
  · exact Or.inr ⟨by simpa using missed, by simpa using overruns⟩

theorem Memory.Follows.putAll (follows : m.Follows c) (vs : List α) :
    (m.putAll vs).Follows (c.putAll vs) := by
  refine ⟨by simpa using follows.insertIndex, ?_⟩
  rcases follows.same with same | ⟨missed, overruns⟩
  · by_cases inside : vs.length ≤ c.slack
    · exact Or.inl (same.putAll inside)
    · have room := same.room
      rw [Memory.missed_putAll, Cursor.overruns_putAll]
      omega
  · rw [Memory.missed_putAll, Cursor.overruns_putAll]
    omega

theorem Memory.Follows.modify (follows : m.Follows c) (i : Nat) (f : α → α) :
    (m.modify i f).Follows (c.modify i f) := by
  refine ⟨follows.insertIndex, ?_⟩
  rcases follows.same with same | apart
  · exact Or.inl (same.modify i f)
  · exact Or.inr apart

theorem Memory.Follows.rewind (follows : m.Follows c) {i : Nat} (earlier : i ≤ m.insertIndex)
    (earlier' : i ≤ c.insertIndex) : (m.rewind i earlier).Follows (c.rewind i earlier') := by
  refine ⟨rfl, ?_⟩
  rcases follows.same with same | apart
  · exact Or.inl (same.rewind earlier earlier')
  · exact Or.inr apart

theorem Memory.Follows.missed_iff (follows : m.Follows c) : m.missed = 0 ↔ c.overruns = 0 := by
  rcases follows.same with same | ⟨missed, overruns⟩
  · rw [same.missed]
  · omega

theorem Memory.Follows.same_of_missed (follows : m.Follows c) (none : m.missed = 0) :
    m.Same c := by
  rcases follows.same with same | ⟨missed, _⟩
  · exact same
  · omega

theorem Memory.Same.written (same : m.Same c) : m.written = c.written := by
  rw [Memory.written, Cursor.written, same.cells, same.insertIndex]

end StdVector
