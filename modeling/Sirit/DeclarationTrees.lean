import Sirit.DefinedFirst
import Sirit.Sharing

/- What types and constants stand for: trees of methods and literals. The table compares
   words, in which the parts of a type are ids; the ids it returns tell the trees apart. -/
namespace Sirit
open Interning Sharing
variable (pf : Platform)

structure DeclShape where
  op : Op
  typed : Bool
  literals : List U32
  deriving DecidableEq

def DeclKey.shape (k : DeclKey) : DeclShape where
  op := k.op
  typed := decide (k.resultType ≠ 0)
  literals :=
    match k.op with
    | .opTypeVector | .opTypeMatrix | .opTypeImage => k.operands.drop 1
    | .opTypeSampledImage | .opTypeArray | .opTypeRuntimeArray | .opTypeStruct
    | .opTypeFunction | .opConstantComposite => []
    | .opTypePointer => k.operands.take 1
    | _ => k.operands

theorem typeWords_append_inj {t t' : U32} {xs ys : List U32} (typed : t ≠ 0 ↔ t' ≠ 0)
    (same : typeWords t ++ xs = typeWords t' ++ ys) : t = t' ∧ xs = ys := by
  by_cases none : t = 0
  · have none' : t' = 0 := by
      by_contra given
      exact typed.mpr given none
    subst none none'
    exact ⟨rfl, List.append_cancel_left same⟩
  · rw [typeWords_some none, typeWords_some (typed.mp none)] at same
    exact List.cons.inj same

theorem DeclKey.eq_of_shape {k l : DeclKey} (shape : k.shape = l.shape) (ids : k.ids = l.ids) :
    k = l := by
  obtain ⟨op, resultType, operands⟩ := k
  obtain ⟨op', resultType', operands'⟩ := l
  obtain ⟨rfl, typed, literals⟩ := DeclShape.mk.inj shape
  obtain ⟨rfl, operandIds⟩ := typeWords_append_inj (decide_eq_decide.mp typed) ids
  have same : operands = operands' := by
    simp only at literals operandIds
    split at literals
    all_goals simp only at operandIds literals
    all_goals first
      | exact operandIds
      | exact literals
      | rw [← List.take_append_drop 1 operands, literals, operandIds, List.take_append_drop]
  rw [same]

/-- What an id stands for. Ids that no type or constant has stand for themselves. -/
def Listing.tree (l : Listing) : U32 → Tree DeclShape U32 :=
  trees DeclKey.shape DeclKey.ids l.declarations.entries

def Listing.denotes (l : Listing) (d : DeclarationCall) : Tree DeclShape U32 :=
  .node (d.declaration.key pf).shape (d.declaration.ids.map l.tree)

section Trees
variable (version : U32) {calls : List Call} (few : (listing pf version calls).ids < 2 ^ 32)
include few

theorem listing_tree_injective : Function.Injective (listing pf version calls).tree :=
  trees_injective (fun _ _ => DeclKey.eq_of_shape) (listing pf version calls).declarations.distinct
    (Listing.declared_ids_nodup (listing_dense pf version calls) few)

theorem tree_answered (supplied : ∀ before c after, calls = before ++ c :: after →
      Supplied (Runs.trace (Listing.step pf) (Listing.new pf version) before) c)
    {before after : List Call} {d : DeclarationCall} (cut : calls = before ++ d.call :: after) :
    ∃ id, (((Module.new pf version).run pf before).exec pf d.call).1 = some id ∧
      (listing pf version calls).tree id.value = (listing pf version calls).denotes pf d := by
  have unique := Listing.declared_ids_nodup (listing_dense pf version calls) few
  have closed := listing_closed pf version supplied
  obtain ⟨id, answer, member⟩ := declaration_answered pf version before after d
  rw [← cut] at member
  refine ⟨id, answer, ?_⟩
  rw [Listing.denotes, d.ids_eq pf]
  exact trees_closed unique closed member

end Trees

/-- In a run whose calls are given ids that earlier calls returned, every id of a type or
    constant stands for the tree its method describes, and different ids for different
    trees: two calls return one id exactly when they describe one tree. -/
theorem declarations_denote_trees (version : U32) (calls : List Call)
    (few : (listing pf version calls).ids < 2 ^ 32)
    (supplied : ∀ n (inside : n < calls.length),
      Supplied ((Module.new pf version).trace pf (calls.take n)) calls[n]) :
    Function.Injective (listing pf version calls).tree ∧
    (∀ before d after, calls = before ++ DeclarationCall.call d :: after →
      ∃ id, (((Module.new pf version).run pf before).exec pf d.call).1 = some id ∧
        (listing pf version calls).tree id.value =
          (listing pf version calls).denotes pf d) ∧
    ∀ before d between e after,
      calls = before ++ DeclarationCall.call d :: between ++ DeclarationCall.call e :: after →
      ((((Module.new pf version).run pf before).exec pf d.call).1 =
          (((Module.new pf version).run pf (before ++ d.call :: between)).exec pf e.call).1 ↔
        (listing pf version calls).denotes pf d = (listing pf version calls).denotes pf e) := by
  have given : ∀ before c after, calls = before ++ c :: after →
      Supplied (Runs.trace (Listing.step pf) (Listing.new pf version) before) c := by
    rintro before c after cut
    have here := supplied before.length (by simp [cut])
    have traces := (run_refines pf (fun _ => False) version before fun _ _ _ none => none).1
    rw [← traces]
    simpa [cut] using here
  have injective := listing_tree_injective pf version few
  refine ⟨injective, fun before d after cut => tree_answered pf version few given cut, ?_⟩
  intro before d between e after cut
  obtain ⟨i, first, tree⟩ := tree_answered pf version few given
    (cut.trans (List.append_assoc before (d.call :: between) (e.call :: after)))
  obtain ⟨j, second, tree'⟩ := tree_answered pf version few given cut
  rw [first, second, ← tree, ← tree', injective.eq_iff, Option.some.injEq]
  exact ⟨congrArg Id.value, fun same => congrArg Id.mk same⟩

theorem declarations_denote_trees_vector :
    (((Module.new linuxX86 0).run linuxX86 [.type (.typeFloat 32)]).exec linuxX86
        (.type (.typeVector ⟨1⟩ 4))).1 =
      (((Module.new linuxX86 0).run linuxX86 [.type (.typeFloat 32), .type (.typeVector ⟨1⟩ 4),
        .type (.typeFloat 32)]).exec linuxX86 (.type (.typeVector ⟨1⟩ 4))).1 := by
  obtain ⟨_, _, same_iff⟩ := declarations_denote_trees linuxX86 0 [.type (.typeFloat 32),
    .type (.typeVector ⟨1⟩ 4), .type (.typeFloat 32), .type (.typeVector ⟨1⟩ 4)] (by decide)
    (by decide)
  exact (same_iff [.type (.typeFloat 32)] (.type (.typeVector ⟨1⟩ 4)) [.type (.typeFloat 32)]
    (.type (.typeVector ⟨1⟩ 4)) [] rfl).mpr rfl

end Sirit
