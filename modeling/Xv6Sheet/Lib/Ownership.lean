import Mathlib.Data.Set.Insert
import Mathlib.Algebra.Notation.Defs
import Mathlib.Tactic.Common

/-! # Exclusive ownership of a pool

Slots point into a pool. Every element in use is either reserved or owned by exactly
one slot. Filling an empty slot with an unused element and emptying a set of slots
keep this.
-/

namespace Xv6Sheet

variable {σ β : Type*} [Zero β]

/-- The elements in use are the reserved ones and those the valid slots point at, each
pointed at once. A slot is empty when its pointer is `0`. -/
structure Owns (valid : σ → Prop) (base used : Set β) (ptr : σ → β) : Prop where
  used_iff : ∀ b, b ∈ used ↔ b ∈ base ∨ ∃ x, valid x ∧ ptr x = b ∧ b ≠ 0
  not_base : ∀ x, valid x → ptr x ≠ 0 → ptr x ∉ base
  inj : ∀ x y, valid x → valid y → ptr x ≠ 0 → ptr x = ptr y → x = y

namespace Owns

variable {valid : σ → Prop} {base used : Set β} {ptr ptr' : σ → β}

theorem mem_used (h : Owns valid base used ptr) {x : σ} (hx : valid x) (hp : ptr x ≠ 0) :
    ptr x ∈ used :=
  (h.used_iff _).mpr (Or.inr ⟨x, hx, rfl, hp⟩)

theorem base_subset (h : Owns valid base used ptr) : base ⊆ used :=
  fun b hb => (h.used_iff b).mpr (Or.inl hb)

theorem ne_of_not_mem (h : Owns valid base used ptr) {x : σ} {b : β} (hx : valid x)
    (hp : ptr x ≠ 0) (hb : b ∉ used) : ptr x ≠ b :=
  fun he => hb (he ▸ h.mem_used hx hp)

theorem congr (h : Owns valid base used ptr) (he : ∀ x, valid x → ptr' x = ptr x) :
    Owns valid base used ptr' where
  used_iff b := by
    rw [h.used_iff]
    refine or_congr_right (exists_congr fun x => and_congr_right fun hx => ?_)
    rw [he x hx]
  not_base x hx hp := by rw [he x hx] at hp ⊢; exact h.not_base x hx hp
  inj x y hx hy hp hq := by
    rw [he x hx] at hp hq
    rw [he y hy] at hq
    exact h.inj x y hx hy hp hq

theorem of_empty (hz : ∀ x, valid x → ptr x = 0) : Owns valid base base ptr where
  used_iff b := by
    refine ⟨Or.inl, ?_⟩
    rintro (hb | ⟨x, hx, he, hb⟩)
    · exact hb
    · exact absurd (he.symm.trans (hz x hx)) hb
  not_base x hx hp := absurd (hz x hx) hp
  inj x _ hx _ hp := absurd (hz x hx) hp

theorem insert (h : Owns valid base used ptr) {x : σ} {b : β} (hx : valid x)
    (he : ptr x = 0) (hb : b ≠ 0) (hu : b ∉ used) (hxb : ptr' x = b)
    (hne : ∀ y, valid y → y ≠ x → ptr' y = ptr y) :
    Owns valid base (insert b used) ptr' where
  used_iff c := by
    rw [Set.mem_insert_iff, h.used_iff]
    constructor
    · rintro (rfl | hc | ⟨y, hy, hyc, hc⟩)
      · exact Or.inr ⟨x, hx, hxb, hb⟩
      · exact Or.inl hc
      · have hyx : y ≠ x := fun hyx => hc (hyc.symm.trans (hyx ▸ he))
        exact Or.inr ⟨y, hy, (hne y hy hyx).trans hyc, hc⟩
    · rintro (hc | ⟨y, hy, hyc, hc⟩)
      · exact Or.inr (Or.inl hc)
      · by_cases hyx : y = x
        · subst hyx; exact Or.inl (hyc.symm.trans hxb)
        · exact Or.inr (Or.inr ⟨y, hy, (hne y hy hyx).symm.trans hyc, hc⟩)
  not_base y hy hp := by
    by_cases hyx : y = x
    · subst hyx; rw [hxb]; exact fun hm => hu (h.base_subset hm)
    · rw [hne y hy hyx] at hp ⊢; exact h.not_base y hy hp
  inj y z hy hz hp hq := by
    by_cases hyx : y = x
    · by_cases hzx : z = x
      · rw [hyx, hzx]
      · subst hyx
        rw [hxb, hne z hz hzx] at hq
        exact absurd hq.symm (h.ne_of_not_mem hz (hq ▸ hb) hu)
    · rw [hne y hy hyx] at hp hq
      by_cases hzx : z = x
      · subst hzx
        rw [hxb] at hq
        exact absurd hq (h.ne_of_not_mem hy hp hu)
      · rw [hne z hz hzx] at hq
        exact h.inj y z hy hz hp hq

theorem release (h : Owns valid base used ptr) (S : Set σ)
    (hS : ∀ x, valid x → x ∈ S → ptr' x = 0)
    (hne : ∀ x, valid x → x ∉ S → ptr' x = ptr x) :
    Owns valid base {b ∈ used | ∀ x, valid x → x ∈ S → ptr x ≠ 0 → ptr x ≠ b} ptr' where
  used_iff b := by
    simp only [Set.mem_ofPred_eq]
    constructor
    · rintro ⟨hb, hfree⟩
      rcases (h.used_iff b).mp hb with hb | ⟨x, hx, rfl, hp⟩
      · exact Or.inl hb
      · have hxS : x ∉ S := fun hm => hfree x hx hm hp rfl
        exact Or.inr ⟨x, hx, hne x hx hxS, hp⟩
    · rintro (hb | ⟨x, hx, hxb, hb⟩)
      · exact ⟨h.base_subset hb, fun x hx _ hp he => h.not_base x hx hp (he ▸ hb)⟩
      · have hxS : x ∉ S := fun hm => hb (hxb.symm.trans (hS x hx hm))
        rw [hne x hx hxS] at hxb
        subst hxb
        refine ⟨h.mem_used hx hb, fun y hy hm hp he => hxS ?_⟩
        exact h.inj y x hy hx hp he ▸ hm
  not_base x hx hp := by
    have hxS : x ∉ S := fun hm => hp (hS x hx hm)
    rw [hne x hx hxS] at hp ⊢
    exact h.not_base x hx hp
  inj x y hx hy hp hq := by
    have hxS : x ∉ S := fun hm => hp (hS x hx hm)
    have hyS : y ∉ S := fun hm => hp (hq.trans (hS y hy hm))
    rw [hne x hx hxS] at hp hq
    rw [hne y hy hyS] at hq
    exact h.inj x y hx hy hp hq

/-- Another choice of slots: a slot that goes leaves what it points at reserved, a slot that
comes is empty. -/
theorem recut {valid' : σ → Prop} (h : Owns valid base used ptr)
    (hv : ∀ x, valid' x → ptr x ≠ 0 → valid x) :
    Owns valid' (base ∪ {b | ∃ x, valid x ∧ ¬ valid' x ∧ ptr x = b ∧ b ≠ 0}) used ptr where
  used_iff b := by
    rw [h.used_iff]
    constructor
    · rintro (hb | ⟨x, hx, hxb, hb⟩)
      · exact Or.inl (Or.inl hb)
      · by_cases hx' : valid' x
        · exact Or.inr ⟨x, hx', hxb, hb⟩
        · exact Or.inl (Or.inr ⟨x, hx, hx', hxb, hb⟩)
    · rintro ((hb | ⟨x, hx, -, hxb, hb⟩) | ⟨x, hx, hxb, hb⟩)
      · exact Or.inl hb
      · exact Or.inr ⟨x, hx, hxb, hb⟩
      · exact Or.inr ⟨x, hv x hx (hxb.trans_ne hb), hxb, hb⟩
  not_base x hx hp := by
    rintro (hb | ⟨y, hy, hy', hyx, -⟩)
    · exact h.not_base x (hv x hx hp) hp hb
    · have hxy := h.inj x y (hv x hx hp) hy hp hyx.symm
      exact hy' (hxy ▸ hx)
  inj x y hx hy hp hq := h.inj x y (hv x hx hp) (hv y hy (hq ▸ hp)) hp hq

end Owns

end Xv6Sheet
