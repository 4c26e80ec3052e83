import Mathlib.Data.List.Basic

/- Self-delimiting sequences: the first element of every frame tells how many
   elements the frame has. A reader walks the sequence by these counts alone and
   stops at a zero count or at a count that runs past the end. Inside a frame the
   reader may know the kinds of the fields, and takes each by its kind. -/
namespace Framing
variable {α : Type} (count : α → Nat)

/-- A frame is as long as its first element says. -/
def Frame (f : List α) : Prop := ∃ head tail, f = head :: tail ∧ count head = f.length

def splitFuel : Nat → List α → List (List α) × List α
  | 0, ws => ([], ws)
  | _ + 1, [] => ([], [])
  | fuel + 1, w :: ws =>
      if count w = 0 ∨ (w :: ws).length < count w then ([], w :: ws)
      else
        ((w :: ws).take (count w) :: (splitFuel fuel ((w :: ws).drop (count w))).1,
          (splitFuel fuel ((w :: ws).drop (count w))).2)

/-- The frames read and what is left where the walk stops. Nothing left means that
    the walk ended exactly at the end of the input. -/
def split (ws : List α) : List (List α) × List α := splitFuel count ws.length ws

def positions (start : Nat) : List (List α) → List (Nat × List α)
  | [] => []
  | f :: fs => (start, f) :: positions (start + f.length) fs

def readFields {κ ξ : Type} (read : κ → List α → Option (ξ × List α)) :
    List κ → List α → Option (List ξ × List α)
  | [], ws => some ([], ws)
  | kind :: kinds, ws =>
      match read kind ws with
      | none => none
      | some (x, ws) => (readFields read kinds ws).map fun r => (x :: r.1, r.2)

variable {count}

theorem splitFuel_enough (fuel more : Nat) (ws : List α) (enough : ws.length ≤ fuel) :
    splitFuel count (fuel + more) ws = splitFuel count fuel ws := by
  induction fuel generalizing ws with
  | zero =>
    have empty : ws = [] := List.length_eq_zero_iff.mp (by omega)
    subst ws
    cases more <;> simp [splitFuel]
  | succ fuel ih =>
    cases ws with
    | nil => simp [splitFuel, Nat.succ_add]
    | cons w ws =>
      rw [Nat.succ_add]
      simp only [splitFuel]
      split
      · rfl
      · rename_i valid
        have shorter : ((w :: ws).drop (count w)).length ≤ fuel := by
          simp only [List.length_drop, List.length_cons] at enough ⊢
          omega
        rw [ih _ shorter]

@[simp] theorem split_nil : split count ([] : List α) = ([], []) := rfl

theorem split_cons (w : α) (ws : List α) :
    split count (w :: ws) =
      if count w = 0 ∨ (w :: ws).length < count w then ([], w :: ws)
      else
        ((w :: ws).take (count w) :: (split count ((w :: ws).drop (count w))).1,
          (split count ((w :: ws).drop (count w))).2) := by
  rw [split, List.length_cons, splitFuel, List.length_cons]
  split
  · rfl
  · rename_i valid
    have shorter : ((w :: ws).drop (count w)).length ≤ ws.length := by
      simp only [List.length_drop, List.length_cons]
      omega
    obtain ⟨more, enough⟩ := Nat.exists_eq_add_of_le shorter
    rw [enough, splitFuel_enough _ more _ (Nat.le_refl _)]
    rfl

theorem split_frame_append {f : List α} (valid : Frame count f) (ws : List α) :
    split count (f ++ ws) = (f :: (split count ws).1, (split count ws).2) := by
  obtain ⟨head, tail, rfl, counted⟩ := valid
  have long : (head :: (tail ++ ws)).length = ws.length + tail.length + 1 := by
    simp only [List.length_append, List.length_cons]; omega
  have fits : ¬ (count head = 0 ∨ (head :: (tail ++ ws)).length < count head) := by
    rw [counted, long]
    simp only [List.length_cons]
    omega
  rw [List.cons_append, split, long, splitFuel, if_neg fits, ← List.cons_append,
    List.take_left' counted.symm, List.drop_left' counted.symm,
    splitFuel_enough ws.length tail.length ws (Nat.le_refl _)]
  rfl

theorem split_frames_append {fs : List (List α)} (valid : ∀ f ∈ fs, Frame count f)
    (ws : List α) :
    split count (fs.flatten ++ ws) = (fs ++ (split count ws).1, (split count ws).2) := by
  induction fs with
  | nil => rfl
  | cons f fs ih =>
    rw [List.flatten_cons, List.append_assoc, split_frame_append (valid f (by simp)),
      ih (fun g member => valid g (by simp [member])), List.cons_append]

theorem positions_append (start : Nat) (fs gs : List (List α)) :
    positions start (fs ++ gs) =
      positions start fs ++ positions (start + fs.flatten.length) gs := by
  induction fs generalizing start with
  | nil => simp [positions]
  | cons f fs ih =>
    simp only [List.cons_append, positions, ih, List.flatten_cons, List.length_append,
      Nat.add_assoc]

theorem positions_bounds {start : Nat} {fs : List (List α)} {p : Nat × List α}
    (member : p ∈ positions start fs) :
    p.2 ∈ fs ∧ start ≤ p.1 ∧ p.1 + p.2.length ≤ start + fs.flatten.length := by
  induction fs generalizing start with
  | nil => simp [positions] at member
  | cons f fs ih =>
    simp only [positions, List.mem_cons] at member
    simp only [List.flatten_cons, List.length_append]
    rcases member with first | later
    · subst first
      exact ⟨by simp, by simp, by simp⟩
    · obtain ⟨inside, low, high⟩ := ih later
      exact ⟨by simp [inside], by omega, by omega⟩

theorem positions_slice {before : List α} {fs : List (List α)} {p : Nat × List α}
    (member : p ∈ positions before.length fs) (after : List α) :
    ((before ++ fs.flatten ++ after).drop p.1).take p.2.length = p.2 := by
  induction fs generalizing before with
  | nil => exact absurd member List.not_mem_nil
  | cons f fs ih =>
    rw [List.flatten_cons]
    rcases List.mem_cons.mp member with rfl | later
    · rw [List.append_assoc, List.append_assoc, List.drop_left, List.take_left]
    · rw [← List.length_append] at later
      rw [← List.append_assoc before f]
      exact ih later

theorem positions_map_snd (start : Nat) (fs : List (List α)) :
    (positions start fs).map Prod.snd = fs := by
  induction fs generalizing start with
  | nil => rfl
  | cons f fs ih => rw [positions, List.map_cons, ih]

theorem exists_position (start : Nat) {fs : List (List α)} {f : List α} (member : f ∈ fs) :
    ∃ n, (n, f) ∈ positions start fs := by
  induction fs generalizing start with
  | nil => exact absurd member List.not_mem_nil
  | cons g fs ih =>
    rcases List.mem_cons.mp member with rfl | later
    · exact ⟨start, List.mem_cons_self⟩
    · obtain ⟨n, visited⟩ := ih (start + g.length) later
      exact ⟨n, List.mem_cons_of_mem _ visited⟩

theorem readFields_flatMap {κ ξ : Type} (read : κ → List α → Option (ξ × List α))
    (kind : ξ → κ) (write : ξ → List α) {xs : List ξ}
    (back : ∀ x ∈ xs, ∀ rest, read (kind x) (write x ++ rest) = some (x, rest))
    (rest : List α) :
    readFields read (xs.map kind) (xs.flatMap write ++ rest) = some (xs, rest) := by
  induction xs with
  | nil => rfl
  | cons x xs ih =>
    have later := ih fun y member => back y (List.mem_cons_of_mem x member)
    rw [List.map_cons, List.flatMap_cons, List.append_assoc]
    simp only [readFields, back x List.mem_cons_self, later, Option.map_some]

theorem splitFuel_sound (fuel : Nat) (ws : List α) :
    (splitFuel count fuel ws).1.flatten ++ (splitFuel count fuel ws).2 = ws ∧
      ∀ f ∈ (splitFuel count fuel ws).1, Frame count f := by
  induction fuel generalizing ws with
  | zero => exact ⟨rfl, fun f member => absurd member List.not_mem_nil⟩
  | succ fuel ih =>
    cases ws with
    | nil => exact ⟨rfl, fun f member => absurd member List.not_mem_nil⟩
    | cons w ws =>
      rw [splitFuel]
      split
      · exact ⟨rfl, fun f member => absurd member List.not_mem_nil⟩
      · rename_i valid
        rw [not_or, Nat.not_lt] at valid
        obtain ⟨whole, frames⟩ := ih ((w :: ws).drop (count w))
        refine ⟨?_, ?_⟩
        · rw [List.flatten_cons, List.append_assoc, whole, List.take_append_drop]
        · intro f member
          rcases List.mem_cons.mp member with rfl | later
          · obtain ⟨n, positive⟩ := Nat.exists_eq_succ_of_ne_zero valid.1
            refine ⟨w, ws.take n, ?_, ?_⟩
            · rw [positive, List.take_succ_cons]
            · rw [List.length_take, Nat.min_eq_left valid.2]
          · exact frames f later

theorem split_sound (ws : List α) :
    (split count ws).1.flatten ++ (split count ws).2 = ws ∧
      ∀ f ∈ (split count ws).1, Frame count f := splitFuel_sound ws.length ws

theorem splitFuel_rest (fuel : Nat) (ws : List α) (enough : ws.length ≤ fuel) :
    (splitFuel count fuel ws).2 = [] ∨ ∃ w rest, (splitFuel count fuel ws).2 = w :: rest ∧
      (count w = 0 ∨ (w :: rest).length < count w) := by
  induction fuel generalizing ws with
  | zero =>
    obtain rfl : ws = [] := List.length_eq_zero_iff.mp (by omega)
    exact Or.inl rfl
  | succ fuel ih =>
    cases ws with
    | nil => exact Or.inl rfl
    | cons w ws =>
      rw [splitFuel]
      split
      · rename_i stuck
        exact Or.inr ⟨w, ws, rfl, stuck⟩
      · apply ih
        simp only [List.length_drop, List.length_cons] at enough ⊢
        omega

theorem split_rest (ws : List α) : (split count ws).2 = [] ∨ ∃ w rest,
    (split count ws).2 = w :: rest ∧ (count w = 0 ∨ (w :: rest).length < count w) :=
  splitFuel_rest ws.length ws (Nat.le_refl _)

variable (count) in
/-- A writer of frames and a reader of them that agree on the formed values. -/
structure Codec (ξ : Type) where
  write : ξ → List α
  read : List α → Option ξ
  Formed : ξ → Prop
  framed : ∀ x, Formed x → Frame count (write x)
  read_write : ∀ x, Formed x → read (write x) = some x
  write_read : ∀ f x, Frame count f → read f = some x → Formed x ∧ write x = f

section Codec
variable {ξ : Type} (codec : Codec count ξ)

def Codec.readFrames : List (List α) → Option (List ξ)
  | [] => some []
  | f :: fs =>
      match codec.read f with
      | none => none
      | some x => (Codec.readFrames fs).map (x :: ·)

def Codec.readAll (ws : List α) : Option (List ξ) :=
  if (split count ws).2 = [] then codec.readFrames (split count ws).1 else none

theorem Codec.readFrames_write {xs : List ξ} (formed : ∀ x ∈ xs, codec.Formed x) :
    codec.readFrames (xs.map codec.write) = some xs := by
  induction xs with
  | nil => rfl
  | cons x xs ih =>
    have rest := ih fun y member => formed y (List.mem_cons_of_mem x member)
    simp only [List.map_cons, Codec.readFrames, codec.read_write x (formed x List.mem_cons_self),
      rest, Option.map_some]

theorem Codec.write_readFrames {fs : List (List α)} (frames : ∀ f ∈ fs, Frame count f)
    {xs : List ξ} (read : codec.readFrames fs = some xs) :
    (∀ x ∈ xs, codec.Formed x) ∧ xs.map codec.write = fs := by
  induction fs generalizing xs with
  | nil =>
    cases read
    exact ⟨fun x member => absurd member List.not_mem_nil, rfl⟩
  | cons f fs ih =>
    rw [Codec.readFrames] at read
    cases first : codec.read f with
    | none =>
      rw [first] at read
      cases read
    | some x =>
      rw [first] at read
      obtain ⟨ys, rest, rfl⟩ := Option.map_eq_some_iff.mp read
      obtain ⟨formed, written⟩ := codec.write_read f x (frames f List.mem_cons_self) first
      obtain ⟨others, same⟩ := ih (fun g member => frames g (List.mem_cons_of_mem f member)) rest
      refine ⟨?_, by rw [List.map_cons, written, same]⟩
      intro y member
      rcases List.mem_cons.mp member with rfl | later
      · exact formed
      · exact others y later

theorem Codec.readAll_eq_some_iff {ws : List α} {xs : List ξ} :
    codec.readAll ws = some xs ↔
      (∀ x ∈ xs, codec.Formed x) ∧ xs.flatMap codec.write = ws := by
  constructor
  · intro read
    obtain ⟨whole, frames⟩ : (split count ws).1.flatten ++ (split count ws).2 = ws ∧ _ :=
      split_sound ws
    rw [Codec.readAll] at read
    split at read
    · rename_i done
      obtain ⟨formed, written⟩ := codec.write_readFrames frames read
      rw [done, List.append_nil] at whole
      exact ⟨formed, by rw [List.flatMap_def, written, whole]⟩
    · cases read
  · rintro ⟨formed, rfl⟩
    have frames : ∀ f ∈ xs.map codec.write, Frame count f := by
      intro f member
      obtain ⟨x, inside, rfl⟩ := List.mem_map.mp member
      exact codec.framed x (formed x inside)
    have walk := split_frames_append frames []
    rw [List.append_nil, ← List.flatMap_def, split_nil, List.append_nil] at walk
    rw [Codec.readAll, walk, if_pos rfl, codec.readFrames_write formed]

end Codec

end Framing
