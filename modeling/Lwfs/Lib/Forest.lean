import Mathlib.Data.Set.Insert
import Mathlib.Logic.Relation

/-!
Forests that are given by the parents of their nodes.

`E p x` says that `p` is the parent of `x`. A set of nodes is rooted if every
node in it is reached from the root along the relation. A node that is put
under the root or under a node of the set keeps it rooted, and the removal of
a node keeps it rooted exactly if the node is a leaf.
-/

namespace SysLib

namespace Forest

open Relation

variable {α : Type*} {E E' : α → α → Prop} {r e p x : α} {S : Set α}

/-- Every node of `S` is reached from `r`. -/
def Rooted (E : α → α → Prop) (r : α) (S : Set α) : Prop :=
  ∀ x ∈ S, ReflTransGen E r x

theorem Rooted.insert (h : Rooted E r S) (hE : ∀ a b, E a b → E' a b)
    (hp : p = r ∨ p ∈ S) (hx : E' p x) : Rooted E' r (Set.insert x S) := by
  intro y hy
  rcases hy with rfl | hy
  · have hparent : ReflTransGen E r p := by
      rcases hp with rfl | hp
      · exact ReflTransGen.refl
      · exact h p hp
    exact (ReflTransGen.mono hE r p hparent).tail hx
  · exact ReflTransGen.mono hE r y (h y hy)

/-- No path leads through a leaf, so the others do without it. -/
theorem reach_of_leaf (hE : ∀ a b, E a b → b ≠ e → E' a b)
    (hleaf : ∀ c, ¬ E e c) (h : ReflTransGen E r x) (hx : x ≠ e) :
    ReflTransGen E' r x := by
  induction h with
  | refl => exact ReflTransGen.refl
  | @tail a b _ hab ih =>
      have ha : a ≠ e := by
        rintro rfl
        exact hleaf b hab
      exact (ih ha).tail (hE a b hab hx)

/-- What is reached and is not the root has a parent that is reached. -/
theorem exists_parent (h : ReflTransGen E r x) (hx : x ≠ r) :
    ∃ a, ReflTransGen E r a ∧ E a x := by
  rcases ReflTransGen.cases_tail h with heq | ⟨a, ha, hax⟩
  · exact absurd heq.symm (Ne.symm hx)
  · exact ⟨a, ha, hax⟩

theorem rooted_remove_iff (hrooted : Rooted E r S)
    (hE' : ∀ a b, E' a b ↔ E a b ∧ b ≠ e) (hr : r ∉ S) (he : e ∈ S)
    (hself : ¬ E e e) (hparent : ∀ a b c, E a c → E b c → a = b)
    (hchild : ∀ c, E e c → c ∈ S) :
    Rooted E' r (S \ {e}) ↔ ∀ c, ¬ E e c := by
  constructor
  · intro h c hc
    have hcS := hchild c hc
    have hne : c ≠ e := by
      rintro rfl
      exact hself hc
    have hcr : c ≠ r := by
      rintro rfl
      exact hr hcS
    have her : e ≠ r := by
      rintro rfl
      exact hr he
    -- the only way to `c` leads through `e`, and none leads to `e`
    obtain ⟨a, ha, hac⟩ := exists_parent (h c ⟨hcS, hne⟩) hcr
    obtain rfl := hparent a e c ((hE' a c).mp hac).1 hc
    obtain ⟨b, -, hb⟩ := exists_parent ha her
    exact ((hE' b a).mp hb).2 rfl
  · intro hleaf x hx
    exact reach_of_leaf (fun a b hab hb => (hE' a b).mpr ⟨hab, hb⟩) hleaf
      (hrooted x hx.1) hx.2

end Forest

end SysLib
