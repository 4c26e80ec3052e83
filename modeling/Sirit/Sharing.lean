import Mathlib.Data.List.Induction
import Mathlib.Logic.Function.Basic
import Sirit.Interning

/- Sharing: a list of entries whose keys have a shape and refer to identifiers stands for
   trees. Where no key and no identifier has two entries, different identifiers stand for
   different trees, although the trees are never compared. -/
namespace Sharing
open Interning
variable {κ ι σ : Type}

/-- An identifier without an entry stands for itself. -/
inductive Tree (σ ι : Type) where
  | node (shape : σ) (children : List (Tree σ ι))
  | free (i : ι)

section
variable [DecidableEq ι] (shape : κ → σ) (refers : κ → List ι)

def place (trees : ι → Tree σ ι) (e : κ × ι) : ι → Tree σ ι :=
  Function.update trees e.2 (.node (shape e.1) ((refers e.1).map trees))

def trees (entries : List (κ × ι)) : ι → Tree σ ι := entries.foldl (place shape refers) .free

variable {shape refers} {entries : List (κ × ι)}

theorem trees_snoc (entries : List (κ × ι)) (e : κ × ι) :
    trees shape refers (entries ++ [e]) = place shape refers (trees shape refers entries) e :=
  List.foldl_append

theorem trees_free {i : ι} (absent : i ∉ entries.map Prod.snd) :
    trees shape refers entries i = .free i := by
  induction entries using List.reverseRecOn with
  | nil => rfl
  | append_singleton entries e ih =>
    rw [List.map_append, List.mem_append, not_or] at absent
    obtain ⟨earlier, here⟩ := absent
    have other : i ≠ e.2 := fun same => here (same ▸ List.mem_singleton_self _)
    rw [trees_snoc, place, Function.update_of_ne other, ih earlier]

theorem trees_append {more : List (κ × ι)} {i : ι} (absent : i ∉ more.map Prod.snd) :
    trees shape refers (entries ++ more) i = trees shape refers entries i := by
  induction more using List.reverseRecOn with
  | nil => rw [List.append_nil]
  | append_singleton more e ih =>
    rw [List.map_append, List.mem_append, not_or] at absent
    obtain ⟨earlier, here⟩ := absent
    have other : i ≠ e.2 := fun same => here (same ▸ List.mem_singleton_self _)
    rw [← List.append_assoc, trees_snoc, place, Function.update_of_ne other, ih earlier]

/-- An earlier state of the trees: some identifiers still stand for themselves. -/
def Older (older new : ι → Tree σ ι) : Prop := ∀ i, older i = .free i ∨ older i = new i

section Unique
variable (unique : (entries.map Prod.snd).Nodup)
include unique

theorem older_trees {before after : List (κ × ι)} (cut : entries = before ++ after) :
    Older (trees shape refers before) (trees shape refers entries) := by
  intro i
  by_cases defined : i ∈ before.map Prod.snd
  · rw [cut, List.map_append] at unique
    obtain ⟨_, _, apart⟩ := List.nodup_append.mp unique
    rw [cut, trees_append fun later => apart i defined i later rfl]
    exact Or.inr rfl
  · exact Or.inl (trees_free defined)

theorem trees_entry {before after : List (κ × ι)} {e : κ × ι}
    (cut : entries = before ++ e :: after) : trees shape refers entries e.2 =
      .node (shape e.1) ((refers e.1).map (trees shape refers before)) := by
  rw [cut, List.map_append, List.map_cons] at unique
  obtain ⟨_, tail, _⟩ := List.nodup_append.mp unique
  have last : e.2 ∉ after.map Prod.snd := (List.nodup_cons.mp tail).1
  rw [cut, ← List.singleton_append, ← List.append_assoc, trees_append last, trees_snoc, place,
    Function.update_self]

theorem eq_of_trees_eq_free {i j : ι} (same : trees shape refers entries i = .free j) : i = j := by
  by_cases defined : i ∈ entries.map Prod.snd
  · obtain ⟨e, member, rfl⟩ := List.mem_map.mp defined
    obtain ⟨before, after, cut⟩ := List.append_of_mem member
    rw [trees_entry unique cut] at same
    cases same
  · rw [trees_free defined] at same
    exact Tree.free.inj same

theorem trees_closed (closed : Closed refers entries) {e : κ × ι} (member : e ∈ entries) :
    trees shape refers entries e.2 =
      .node (shape e.1) ((refers e.1).map (trees shape refers entries)) := by
  obtain ⟨before, after, cut, earlier⟩ := closed.exists_before member
  rw [trees_entry unique cut]
  congr 1
  apply List.map_congr_left
  intro i referred
  rw [cut, List.map_append] at unique
  obtain ⟨_, _, apart⟩ := List.nodup_append.mp unique
  rw [cut, trees_append fun later => apart i (earlier i referred) i later rfl]

end Unique

theorem map_eq_map {α β γ : Type} {f : α → γ} {g : β → γ} {r : α → β → Prop}
    (related : ∀ a b, f a = g b → r a b) {xs : List α} {ys : List β}
    (same : xs.map f = ys.map g) : List.Forall₂ r xs ys := by
  induction xs generalizing ys with
  | nil =>
    rw [List.map_nil, eq_comm, List.map_eq_nil_iff] at same
    rw [same]
    exact .nil
  | cons x xs ih =>
    cases ys with
    | nil => cases same
    | cons y ys =>
      obtain ⟨head, tail⟩ := List.cons.inj same
      exact .cons (related x y head) (ih tail)

/-- Different identifiers stand for different trees, if shape and references tell keys apart. -/
theorem trees_injective
    (identifies : ∀ k l, shape k = shape l → refers k = refers l → k = l)
    (distinct : (entries.map Prod.fst).Nodup) (unique : (entries.map Prod.snd).Nodup) :
    Function.Injective (trees shape refers entries) := by
  induction entries using List.reverseRecOn with
  | nil => exact fun i j same => Tree.free.inj same
  | append_singleton entries e ih =>
    rw [List.map_append, List.nodup_append] at distinct unique
    have injective := ih distinct.1 unique.1
    -- the new tree is none of the old ones: an equal node would have an equal key
    have new : ∀ j, trees shape refers entries j ≠
        .node (shape e.1) ((refers e.1).map (trees shape refers entries)) := by
      intro j same
      by_cases defined : j ∈ entries.map Prod.snd
      · obtain ⟨e', member, rfl⟩ := List.mem_map.mp defined
        obtain ⟨before, after, cut⟩ := List.append_of_mem member
        rw [trees_entry unique.1 cut] at same
        obtain ⟨shapes, children⟩ := Tree.node.inj same
        have older : Older (trees shape refers before) (trees shape refers entries) :=
          older_trees unique.1 cut
        have references : List.Forall₂ (· = ·) (refers e'.1) (refers e.1) := by
          refine map_eq_map ?_ children
          intro a b equal
          rcases older a with free | kept
          · rw [free] at equal
            exact (eq_of_trees_eq_free unique.1 equal.symm).symm
          · exact injective (kept.symm.trans equal)
        have keys := identifies _ _ shapes (List.forall₂_eq_eq_eq ▸ references)
        exact distinct.2.2 e'.1 (List.mem_map_of_mem member) e.1 (List.mem_singleton_self _) keys
      · rw [trees_free defined] at same
        cases same
    rw [trees_snoc]
    intro i j same
    simp only [place, Function.update_apply] at same
    split at same <;> split at same
    · rename_i first second
      rw [first, second]
    · exact absurd same.symm (new j)
    · exact absurd same (new i)
    · exact injective same

end

end Sharing
