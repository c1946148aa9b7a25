import Mathlib.Algebra.BigOperators.Group.Finset.Piecewise
import Mathlib.Data.Fintype.Card

/-!
# How many parties are in a phase

`count p f` is the number of parties `i` whose phase `f i` satisfies `p`.

* `count_update` : what it becomes when one party changes its phase;
* `count_le_card`, `count_eq_card_iff`, `count_eq_zero_iff` : all of them, none of them;
* `count_mono`, `count_congr` : a phase that implies another.
-/

namespace Toshokan.Lib

variable {ι α : Type*} [Fintype ι]

/-- The parties in a phase that satisfies `p`. -/
def count (p : α → Bool) (f : ι → α) : Nat := (Finset.univ.filter fun i => p (f i) = true).card

theorem count_le_card (p : α → Bool) (f : ι → α) : count p f ≤ Fintype.card ι := Finset.card_filter_le _ _

theorem count_eq_card_iff {p : α → Bool} {f : ι → α} : count p f = Fintype.card ι ↔ ∀ i, p (f i) = true := by
  unfold count
  rw [← Finset.card_univ, Finset.card_filter_eq_iff]
  simp

theorem count_eq_zero_iff {p : α → Bool} {f : ι → α} : count p f = 0 ↔ ∀ i, p (f i) = false := by
  unfold count
  rw [Finset.card_eq_zero, Finset.filter_eq_empty_iff]
  simp

theorem count_mono {p q : α → Bool} {f : ι → α} (h : ∀ i, p (f i) = true → q (f i) = true) : count p f ≤ count q f := by
  apply Finset.card_le_card
  intro i hi
  rw [Finset.mem_filter] at hi ⊢
  exact ⟨hi.1, h i hi.2⟩

theorem count_congr {p q : α → Bool} {f : ι → α} (h : ∀ i, p (f i) = true ↔ q (f i) = true) : count p f = count q f :=
  Nat.le_antisymm (count_mono fun i => (h i).mp) (count_mono fun i => (h i).mpr)

theorem count_update [DecidableEq ι] (p : α → Bool) (f : ι → α) (i : ι) (x : α) :
    count p (Function.update f i x) + (p (f i)).toNat = count p f + (p x).toNat := by
  have hsum : ∀ g : ι → α, count p g = (∑ j ∈ Finset.univ.erase i, if p (g j) = true then 1 else 0) + (p (g i)).toNat := by
    intro g
    unfold count
    rw [Finset.card_filter, ← Finset.sum_erase_add _ _ (Finset.mem_univ i)]
    cases p (g i) <;> rfl
  have hrest : (∑ j ∈ Finset.univ.erase i, if p (Function.update f i x j) = true then 1 else 0) =
      ∑ j ∈ Finset.univ.erase i, if p (f j) = true then 1 else 0 := by
    refine Finset.sum_congr rfl fun j hj => ?_
    rw [Function.update_of_ne (Finset.ne_of_mem_erase hj)]
  rw [hsum (Function.update f i x), hsum f, hrest, Function.update_self]
  omega

end Toshokan.Lib
