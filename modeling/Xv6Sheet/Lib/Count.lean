import Mathlib.Algebra.BigOperators.Fin
import Mathlib.Data.Fintype.Card
import Mathlib.Tactic.Common

/-! # Counting the entries of a table

How many entries of a finite table satisfy a condition, and what a change of one entry
does to that number.
-/

namespace Xv6Sheet

variable {ι α : Type} [Fintype ι]

/-- The number of entries that satisfy `P`. -/
def count (P : α → Prop) [DecidablePred P] (g : ι → α) : ℕ :=
  (Finset.univ.filter fun i => P (g i)).card

theorem count_eq_sum (P : α → Prop) [DecidablePred P] (g : ι → α) :
    count P g = ∑ i, if P (g i) then 1 else 0 := Finset.card_filter ..

theorem count_pos {P : α → Prop} [DecidablePred P] {g : ι → α} {i : ι} (h : P (g i)) :
    0 < count P g := Finset.card_pos.mpr ⟨i, by simpa using h⟩

theorem count_eq_zero {P : α → Prop} [DecidablePred P] {g : ι → α} :
    count P g = 0 ↔ ∀ i, ¬ P (g i) := by
  simp [count, Finset.filter_eq_empty_iff]

theorem sum_add_of_eq [DecidableEq ι] {f g : ι → ℕ} {i : ι} (h : ∀ j, j ≠ i → g j = f j) :
    ∑ j, g j + f i = ∑ j, f j + g i := by
  have hrest : ∑ j ∈ Finset.univ.erase i, g j = ∑ j ∈ Finset.univ.erase i, f j :=
    Finset.sum_congr rfl fun j hj => h j (Finset.ne_of_mem_erase hj)
  have hi := Finset.mem_univ i
  rw [← Finset.add_sum_erase _ _ hi, ← Finset.add_sum_erase _ f hi, hrest]
  omega

theorem sum_update [DecidableEq ι] {M : Type} [AddCommMonoid M] (f : α → M) (g : ι → α) (i : ι)
    (a : α) : ∑ j, f (Function.update g i a j) + f (g i) = ∑ j, f (g j) + f a := by
  have hrest : ∑ j ∈ Finset.univ.erase i, f (Function.update g i a j) =
      ∑ j ∈ Finset.univ.erase i, f (g j) :=
    Finset.sum_congr rfl fun j hj => by rw [Function.update_of_ne (Finset.ne_of_mem_erase hj)]
  have hi := Finset.mem_univ i
  rw [← Finset.add_sum_erase _ _ hi, ← Finset.add_sum_erase _ (fun j => f (g j)) hi, hrest,
    Function.update_self, add_comm (f a), add_comm (f (g i)), add_right_comm]

theorem count_update [DecidableEq ι] (P : α → Prop) [DecidablePred P] (g : ι → α) (i : ι)
    (a : α) : count P (Function.update g i a) + (if P (g i) then 1 else 0) =
      count P g + if P a then 1 else 0 := by
  rw [count_eq_sum, count_eq_sum]
  exact sum_update (fun x => if P x then 1 else 0) g i a

end Xv6Sheet
