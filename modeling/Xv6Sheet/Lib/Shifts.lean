import Mathlib.Algebra.Group.Int.Defs
import Xv6Sheet.Lib.Exec

/-! # Programs that shift a count

How much a program changes a count, on every way on which it ends. What is opened and closed on all
ways adds up to nothing.
-/

namespace Xv6Sheet.Exec

variable {σ ε α β υ : Type} {f : σ → ℤ} {j k : ℤ} {m : Exec σ ε α}

/-- The count is `k` more whenever the program ends. -/
def Shifts (f : σ → ℤ) (k : ℤ) (m : Exec σ ε α) : Prop := ∀ s a t, Ends m s a t → f t = f s + k

theorem shifts_zero_iff : Shifts f 0 m ↔ Leaves f m := by
  simp only [Shifts, Leaves, add_zero]

theorem Leaves.shifts (h : Leaves f m) : Shifts f 0 m := shifts_zero_iff.mpr h

namespace Shifts

theorem leaves (h : Shifts f 0 m) : Leaves f m := shifts_zero_iff.mp h

theorem throw (e : ε) : Shifts f k (MonadExcept.throw e : Exec σ ε α) := fun _ _ _ h =>
  absurd h ends_throw

theorem bind {x : Exec σ ε α} {g : α → Exec σ ε β} (hx : Shifts f j x)
    (hg : ∀ a, Shifts f k (g a)) :
    Shifts f (j + k) (x >>= g) := fun s b u h => by
  obtain ⟨a, t, ha, hb⟩ := ends_bind.mp h
  rw [hg a t b u hb, hx s a t ha, add_assoc]

theorem after {x : Exec σ ε α} {g : α → Exec σ ε β} (hx : Leaves f x) (hg : ∀ a, Shifts f k (g a)) :
    Shifts f k (x >>= g) := by
  have h := hx.shifts.bind hg
  rwa [zero_add] at h

theorem before {x : Exec σ ε α} {g : α → Exec σ ε β} (hx : Shifts f k x)
    (hg : ∀ a, Leaves f (g a)) :
    Shifts f k (x >>= g) := by
  have h := hx.bind fun a => (hg a).shifts
  rwa [add_zero] at h

theorem around {x : Exec σ ε α} {g : α → Exec σ ε β} (hx : Shifts f k x)
    (hg : ∀ a, Shifts f (-k) (g a)) :
    Leaves f (x >>= g) := by
  have h := hx.bind hg
  rw [add_neg_cancel] at h
  exact h.leaves

theorem of_modify {g : σ → σ} (h : ∀ s, f (g s) = f s + k) :
    Shifts f k (modify g : Exec σ ε PUnit) := fun s _ t ht => by
  rw [ends_modify.mp ht, h]

/-- A program on one part of the state adds to the count of the whole what it adds to that of the
part. -/
theorem zoom {get : σ → υ} {put : υ → σ → σ} {g : υ → ℤ} {m : Exec υ ε α} (hm : Shifts g k m)
    (hget : ∀ s, g (get s) = f s) (hput : ∀ u s, f (put u s) = g u) :
    Shifts f k (Exec.zoom get put m) :=
  fun s a t ht => by
    obtain ⟨u, hu, rfl⟩ := ends_zoom.mp ht
    rw [hput, hm _ _ _ hu, hget]

end Shifts

end Xv6Sheet.Exec
