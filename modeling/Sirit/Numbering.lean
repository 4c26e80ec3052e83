import Mathlib.Logic.Equiv.Fintype

/- Numbers given to things one after the other: a thing gets a new number, or that of a known
   thing it is to share one with. Whatever the order, things have equal numbers exactly when
   they share them, so two numberings differ by a permutation. -/
namespace Numbering
variable {τ : Type}

/-- The known things have numbers up to `n`, and equal ones only where they share them. -/
structure Separated (number : τ → Nat) (shares : τ → τ → Prop) (known : τ → Prop) (n : Nat) :
    Prop where
  positive : ∀ t, known t → 0 < number t
  bounded : ∀ t, known t → number t ≤ n
  shared : ∀ t u, known t → known u → number t = number u → shares t u

variable {number : τ → Nat} {shares : τ → τ → Prop} {known : τ → Prop} {n m : Nat}

theorem Separated.mono (separated : Separated number shares known n) (grows : n ≤ m)
    {known' : τ → Prop} (fewer : ∀ t, known' t → known t) : Separated number shares known' m where
  positive := fun t here => separated.positive t (fewer t here)
  bounded := fun t here => Nat.le_trans (separated.bounded t (fewer t here)) grows
  shared := fun t u first second => separated.shared t u (fewer t first) (fewer u second)

theorem Separated.add_new (separated : Separated number shares known n) {t : τ}
    (new : n < number t) (within : number t ≤ m) (refl : shares t t) :
    Separated number shares (fun u => known u ∨ u = t) m where
  positive := by
    rintro u (old | rfl)
    · exact separated.positive u old
    · exact Nat.zero_lt_of_lt new
  bounded := by
    rintro u (old | rfl)
    · have := separated.bounded u old
      omega
    · exact within
  shared := by
    rintro u v (old | rfl) (old' | rfl) same
    · exact separated.shared u v old old' same
    · have := separated.bounded u old
      omega
    · have := separated.bounded v old'
      omega
    · exact refl

theorem Separated.add_known (separated : Separated number shares known n)
    (equivalence : Equivalence shares) {t u : τ} (old : known u) (same : number t = number u)
    (sharing : shares t u) (grows : n ≤ m) :
    Separated number shares (fun v => known v ∨ v = t) m where
  positive := by
    rintro v (here | rfl)
    · exact separated.positive v here
    · exact same ▸ separated.positive u old
  bounded := by
    rintro v (here | rfl)
    · exact Nat.le_trans (separated.bounded v here) grows
    · exact same ▸ Nat.le_trans (separated.bounded u old) grows
  shared := by
    rintro v w (first | rfl) (second | rfl) equal
    · exact separated.shared v w first second equal
    · exact equivalence.trans (separated.shared v u first old (equal.trans same))
        (equivalence.symm sharing)
    · exact equivalence.trans sharing
        (separated.shared u w old second (same.symm.trans equal))
    · exact equivalence.refl _

/-- Two numberings that agree on what is equal differ by a permutation of the numbers. -/
theorem exists_perm_of_same_kernel {α : Type} [Finite α] {f g : τ → α}
    (same : ∀ t u, f t = f u ↔ g t = g u) : ∃ π : Equiv.Perm α, ∀ t, π (f t) = g t := by
  have source : ∀ a : Set.range f, ∃ t, f t = a := fun a => a.2
  choose thing lands using source
  have injective : Function.Injective fun a : Set.range f => g (thing a) := by
    intro a b equal
    apply Subtype.ext
    rw [← lands a, ← lands b]
    exact (same _ _).mpr equal
  obtain ⟨π, moves⟩ := Equiv.Perm.exists_extending_pair
    (fun a : Set.range f => (a : α)) _ Subtype.val_injective injective
  refine ⟨π, fun t => ?_⟩
  rw [moves ⟨f t, t, rfl⟩]
  exact (same _ _).mp (lands ⟨f t, t, rfl⟩)

end Numbering
