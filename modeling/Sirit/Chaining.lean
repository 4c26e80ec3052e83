import Mathlib.Data.List.Nodup
import Mathlib.Logic.Function.Basic
import Sirit.Interning

/- Hash tables with chains. The hash of a key picks the chain it is kept in, and the number
   of chains may change before an element is added. What is found does not depend on
   either: the table answers as the list of its elements does, for every hash function. -/
namespace Chaining
open Interning
variable {κ ι : Type}

/-- Every key is kept in the chain its hash picks, and once there. -/
structure Chains (hash : κ → Nat) (ι : Type) where
  count : Nat
  positive : 0 < count
  chain : Nat → List (κ × ι)
  picked : ∀ j, ∀ e ∈ chain j, hash e.1 % count = j
  distinct : ∀ j, ((chain j).map Prod.fst).Nodup

variable {hash : κ → Nat}

def Chains.empty (count : Nat) (positive : 0 < count) : Chains hash ι where
  count := count
  positive := positive
  chain := fun _ => []
  picked := fun _ _ member => absurd member List.not_mem_nil
  distinct := fun _ => List.nodup_nil

def Chains.elements (t : Chains hash ι) : List (κ × ι) := (List.range t.count).flatMap t.chain

theorem Chains.mem_elements {t : Chains hash ι} {e : κ × ι} :
    e ∈ t.elements ↔ e ∈ t.chain (hash e.1 % t.count) := by
  rw [Chains.elements, List.mem_flatMap]
  constructor
  · rintro ⟨j, _, member⟩
    rw [t.picked j e member]
    exact member
  · intro member
    exact ⟨_, List.mem_range.mpr (Nat.mod_lt _ t.positive), member⟩

theorem Chains.distinct_elements (t : Chains hash ι) : (t.elements.map Prod.fst).Nodup := by
  rw [Chains.elements, List.map_flatMap, List.nodup_flatMap]
  refine ⟨fun j _ => t.distinct j, ?_⟩
  refine List.nodup_range.imp ?_
  intro i j different k first second
  obtain ⟨e, member, rfl⟩ := List.mem_map.mp first
  obtain ⟨f, member', same⟩ := List.mem_map.mp second
  apply different
  rw [← t.picked i e member, ← t.picked j f member', same]

def Chains.rehash (n : Nat) (positive : 0 < n) (t : Chains hash ι) : Chains hash ι where
  count := n
  positive := positive
  chain := fun j => t.elements.filter fun e => hash e.1 % n = j
  picked := by
    intro j e member
    simpa using (List.mem_filter.mp member).2
  distinct := fun j => (List.filter_sublist.map Prod.fst).nodup t.distinct_elements

section Find
variable [BEq κ] [LawfulBEq κ]

def Chains.find (k : κ) (t : Chains hash ι) : Option ι := (t.chain (hash k % t.count)).lookup k

theorem Chains.find_eq_some_iff {t : Chains hash ι} {k : κ} {i : ι} :
    t.find k = some i ↔ (k, i) ∈ t.elements := by
  rw [Chains.find, lookup_eq_some_iff_mem (t.distinct _), Chains.mem_elements]

theorem Chains.find_rehash (n : Nat) (positive : 0 < n) (t : Chains hash ι) (k : κ) :
    (t.rehash n positive).find k = t.find k := by
  apply Option.ext
  intro i
  rw [Chains.find_eq_some_iff, Chains.find_eq_some_iff, Chains.mem_elements, Chains.rehash,
    List.mem_filter]
  simp

theorem Chains.distinct_add (t : Chains hash ι) {k : κ} (absent : t.find k = none) (i : ι)
    (j : Nat) : (((if j = hash k % t.count then (k, i) :: t.chain j else t.chain j) :
      List (κ × ι)).map Prod.fst).Nodup := by
  split
  · rename_i here
    subst here
    rw [List.map_cons, List.nodup_cons]
    exact ⟨lookup_eq_none_iff_keys.mp absent, t.distinct _⟩
  · exact t.distinct j

def Chains.add (k : κ) (i : ι) (t : Chains hash ι) (absent : t.find k = none) :
    Chains hash ι where
  count := t.count
  positive := t.positive
  chain := fun j => if j = hash k % t.count then (k, i) :: t.chain j else t.chain j
  picked := by
    intro j e member
    split at member
    · rename_i here
      rcases List.mem_cons.mp member with rfl | old
      · exact here.symm
      · exact t.picked j e old
    · exact t.picked j e member
  distinct := t.distinct_add absent i

theorem Chains.mem_elements_add {t : Chains hash ι} {k : κ} {i : ι} (absent : t.find k = none)
    {e : κ × ι} : e ∈ (t.add k i absent).elements ↔ e = (k, i) ∨ e ∈ t.elements := by
  rw [Chains.mem_elements, Chains.mem_elements]
  simp only [Chains.add]
  split
  · exact List.mem_cons
  · rename_i elsewhere
    constructor
    · exact Or.inr
    · rintro (rfl | old)
      · exact absurd rfl elsewhere
      · exact old

/-- `emplace`: the identifier the key has then and whether it is new, and the table after.
    The number of chains is chosen by `grow` from the numbers of elements and of chains. -/
def Chains.emplace (grow : Nat → Nat → Nat) (k : κ) (i : ι) (t : Chains hash ι) :
    (ι × Bool) × Chains hash ι :=
  match found : t.find k with
  | some j => ((j, false), t)
  | none =>
      let n := max 1 (grow t.elements.length t.count)
      have positive : 0 < n := Nat.le_max_left 1 _
      ((i, true), (t.rehash n positive).add k i ((t.find_rehash n positive k).trans found))

def Chains.Answers (t : Chains hash ι) (entries : List (κ × ι)) : Prop :=
  ∀ k, t.find k = entries.lookup k

omit [LawfulBEq κ] in
theorem Chains.answers_empty (count : Nat) (positive : 0 < count) :
    (Chains.empty count positive : Chains hash ι).Answers [] := fun _ => rfl

theorem Chains.emplace_known (grow : Nat → Nat → Nat) {t : Chains hash ι} {k : κ} {j : ι}
    (found : t.find k = some j) (i : ι) : t.emplace grow k i = ((j, false), t) := by
  unfold Chains.emplace
  split
  · rename_i other known
    rw [Option.some.inj (known.symm.trans found)]
  · rename_i unknown
    rw [found] at unknown
    cases unknown

theorem Chains.emplace_new (grow : Nat → Nat → Nat) {t : Chains hash ι}
    {entries : List (κ × ι)} (answers : t.Answers entries) {k : κ}
    (absent : t.find k = none) (i : ι) :
    (t.emplace grow k i).1 = (i, true) ∧
      (t.emplace grow k i).2.Answers (entries ++ [(k, i)]) := by
  unfold Chains.emplace
  split
  · rename_i j known
    rw [absent] at known
    cases known
  · refine ⟨rfl, ?_⟩
    intro l
    rw [List.lookup_append, ← answers l]
    apply Option.ext
    intro j
    rw [Chains.find_eq_some_iff, Chains.mem_elements_add, ← Chains.find_eq_some_iff,
      Chains.find_rehash]
    by_cases same : l = k
    · subst same
      simp [absent, eq_comm]
    · have other : (l == k) = false := beq_eq_false_iff_ne.mpr same
      simp [same, List.lookup_cons, other]

end Find

end Chaining
