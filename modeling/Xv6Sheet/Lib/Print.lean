import Mathlib.Data.Nat.Digits.Lemmas

/-! # Text in print

Text is a list of bytes. A number is printed as its digits, the most significant first, without
leading zeros.
-/

namespace Xv6Sheet

variable {b n d : ℕ}

def ascii (s : String) : List UInt8 := s.toList.map fun c => .ofNat c.toNat

def printed (b n : ℕ) : List ℕ := if n = 0 then [0] else (Nat.digits b n).reverse

theorem printed_ne_nil : printed b n ≠ [] := by
  unfold printed
  split
  · simp
  · rename_i h
    simpa [Nat.digits_eq_nil_iff_eq_zero] using h

theorem ofDigits_printed (b n : ℕ) : Nat.ofDigits b (printed b n).reverse = n := by
  unfold printed
  split
  · rename_i h
    simp [h]
  · rw [List.reverse_reverse, Nat.ofDigits_digits]

theorem lt_of_mem_printed (hb : 1 < b) (h : d ∈ printed b n) : d < b := by
  unfold printed at h
  split at h
  · rw [List.mem_singleton.mp h]
    omega
  · exact Nat.digits_lt_base hb (List.mem_reverse.mp h)

def numeral {α : Type} (b : ℕ) (char : ℕ → α) (n : ℕ) : List α := (printed b n).map char

theorem numeral_ne_nil {α : Type} {char : ℕ → α} : numeral b char n ≠ [] := by
  simpa [numeral] using printed_ne_nil

end Xv6Sheet
