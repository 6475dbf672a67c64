import Mathlib.Logic.Function.Basic
import Xv6Sheet.Lib.Bytes

/-! # Bit maps

A memory of bytes read as a sequence of bits, the low bit of a byte first.
-/

namespace Xv6Sheet.Bytes

/-- The mask `1 << (i % 8)` of the bit `i` in its byte. -/
def mask (i : ℕ) : UInt8 := 1 <<< UInt8.ofNat (i % 8)

def testBit (b : Bytes) (i : ℕ) : Prop := b (i / 8) &&& mask i ≠ 0

instance (b : Bytes) (i : ℕ) : Decidable (testBit b i) :=
  inferInstanceAs (Decidable (_ ≠ _))

def setBit (b : Bytes) (i : ℕ) : Bytes :=
  Function.update b (i / 8) (b (i / 8) ||| mask i)

def clearBit (b : Bytes) (i : ℕ) : Bytes :=
  Function.update b (i / 8) (b (i / 8) &&& ~~~ mask i)

theorem mask_getLsbD (i j : ℕ) :
    (mask i).toBitVec.getLsbD j = decide (j = i % 8) := by
  have hi : i % 8 < 8 := Nat.mod_lt _ (by decide)
  have hm : ∀ k < 8, ∀ j < 8,
      ((1 : UInt8) <<< UInt8.ofNat k).toBitVec.getLsbD j = decide (j = k) := by decide
  by_cases hj : j < 8
  · exact hm _ hi j hj
  · rw [BitVec.getLsbD_of_ge _ _ (by omega), eq_comm, decide_eq_false_iff_not]
    omega

theorem and_mask_ne_zero_iff (x : UInt8) (i : ℕ) :
    x &&& mask i ≠ 0 ↔ x.toBitVec.getLsbD (i % 8) = true := by
  have hi : i % 8 < 8 := Nat.mod_lt _ (by decide)
  rw [Ne, ← UInt8.toBitVec_inj, UInt8.toBitVec_and]
  constructor
  · intro h
    by_contra hx
    refine h (BitVec.eq_of_getLsbD_eq fun j _ => ?_)
    rw [BitVec.getLsbD_and, mask_getLsbD]
    by_cases hj : j = i % 8
    · simpa [hj] using hx
    · simp [hj]
  · intro hx h
    have hb := congrArg (fun v => BitVec.getLsbD v (i % 8)) h
    simp [hx, mask_getLsbD] at hb

theorem testBit_setBit (b : Bytes) (i j : ℕ) :
    testBit (setBit b i) j ↔ j = i ∨ testBit b j := by
  unfold testBit setBit
  by_cases hij : j / 8 = i / 8
  · rw [hij, Function.update_self, and_mask_ne_zero_iff, and_mask_ne_zero_iff,
      UInt8.toBitVec_or, BitVec.getLsbD_or, mask_getLsbD, Bool.or_eq_true, decide_eq_true_eq,
      or_comm, show j % 8 = i % 8 ↔ j = i by omega]
  · rw [Function.update_of_ne hij]
    exact ⟨Or.inr, fun h => h.resolve_left fun he => hij (he ▸ rfl)⟩

theorem testBit_clearBit (b : Bytes) (i j : ℕ) :
    testBit (clearBit b i) j ↔ j ≠ i ∧ testBit b j := by
  unfold testBit clearBit
  by_cases hij : j / 8 = i / 8
  · have hj : j % 8 < 8 := Nat.mod_lt _ (by decide)
    rw [hij, Function.update_self, and_mask_ne_zero_iff, and_mask_ne_zero_iff,
      UInt8.toBitVec_and, UInt8.toBitVec_not, BitVec.getLsbD_and, BitVec.getLsbD_not,
      mask_getLsbD]
    simp only [hj, decide_true, Bool.true_and, Bool.and_eq_true, Bool.not_eq_true',
      decide_eq_false_iff_not]
    rw [and_comm, show j % 8 = i % 8 ↔ j = i by omega]
  · rw [Function.update_of_ne hij]
    exact ⟨fun h => ⟨fun he => hij (he ▸ rfl), h⟩, fun h => h.2⟩

end Xv6Sheet.Bytes
