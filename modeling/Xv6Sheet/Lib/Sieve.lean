import Mathlib.Data.List.Infix
import Mathlib.Data.List.Sort
import Mathlib.NumberTheory.PrimeCounting
import Mathlib.Tactic.Common

/-! # Sieving by the primes

The numbers from 2 on that no one of the first primes divides: the first one left is the next
prime, and when none is left all primes have been found.
-/

namespace Xv6Sheet

noncomputable def prime (k : ℕ) : ℕ := Nat.nth Nat.Prime k

theorem prime_prime (k : ℕ) : (prime k).Prime := Nat.prime_nth_prime k

theorem prime_zero : prime 0 = 2 := Nat.nth_prime_zero_eq_two

theorem prime_lt {j k : ℕ} : prime j < prime k ↔ j < k :=
  Nat.nth_lt_nth Nat.infinite_setOfPred_prime

theorem exists_prime {p : ℕ} (hp : p.Prime) : ∃ k, prime k = p := ⟨_, Nat.nth_count hp⟩

open Classical in
/-- The numbers up to `n` that none of the first `k` primes divides. -/
noncomputable def sieve (n k : ℕ) : List ℕ :=
  (List.range' 2 (n - 1)).filter fun x => ∀ j < k, ¬ prime j ∣ x

theorem sieve_zero (n : ℕ) : sieve n 0 = List.range' 2 (n - 1) := by
  simp [sieve]

theorem sieve_succ (n k : ℕ) :
    sieve n (k + 1) = (sieve n k).filter fun x => ¬ prime k ∣ x := by
  unfold sieve
  rw [List.filter_filter]
  refine List.filter_congr fun x _ => ?_
  rw [← Bool.decide_and, decide_eq_decide]
  constructor
  · exact fun h => ⟨h k (Nat.lt_succ_self k), fun j hj => h j (Nat.lt_succ_of_lt hj)⟩
  · rintro ⟨hk, h⟩ j hj
    rcases Nat.lt_succ_iff_lt_or_eq.mp hj with hj | rfl
    · exact h j hj
    · exact hk

theorem mem_sieve {n k x : ℕ} :
    x ∈ sieve n k ↔ (2 ≤ x ∧ x ≤ n) ∧ ∀ j < k, ¬ prime j ∣ x := by
  unfold sieve
  rw [List.mem_filter, List.mem_range'_1, decide_eq_true_eq]
  constructor
  · rintro ⟨⟨h2, hlt⟩, h⟩
    exact ⟨⟨h2, by omega⟩, h⟩
  · rintro ⟨⟨h2, hle⟩, h⟩
    exact ⟨⟨h2, by omega⟩, h⟩

theorem prime_le_of_mem_sieve {n k x : ℕ} (h : x ∈ sieve n k) : prime k ≤ x := by
  obtain ⟨⟨h2, -⟩, hdvd⟩ := mem_sieve.mp h
  obtain ⟨j, hj⟩ := exists_prime (Nat.minFac_prime (by omega : x ≠ 1))
  have hjk : ¬ j < k := fun hjk => hdvd j hjk (hj ▸ Nat.minFac_dvd x)
  have hle : prime k ≤ prime j := not_lt.mp fun hlt => hjk (prime_lt.mp hlt)
  exact hle.trans (hj ▸ Nat.minFac_le (by omega))

theorem prime_mem_sieve {n k : ℕ} (h : prime k ≤ n) : prime k ∈ sieve n k := by
  refine mem_sieve.mpr ⟨⟨(prime_prime k).two_le, h⟩, fun j hj hdvd => ?_⟩
  have heq := (Nat.prime_dvd_prime_iff_eq (prime_prime j) (prime_prime k)).mp hdvd
  exact absurd heq (prime_lt.mpr hj).ne

theorem head_sieve {n k x : ℕ} {l : List ℕ} (h : sieve n k = x :: l) : x = prime k := by
  have hx : x ∈ sieve n k := h ▸ List.mem_cons_self
  have hle := prime_le_of_mem_sieve hx
  have hmem := prime_mem_sieve (hle.trans (mem_sieve.mp hx).1.2)
  have hsorted : (sieve n k).Pairwise (· < ·) := (List.pairwise_lt_range' ..).filter _
  rw [h] at hmem hsorted
  rcases List.mem_cons.mp hmem with heq | hmem
  · exact heq.symm
  · have hlt := (List.pairwise_cons.mp hsorted).1 _ hmem
    omega

theorem sieve_eq_nil {n k : ℕ} (h : sieve n k = []) : n < prime k := by
  by_contra hle
  have hmem := prime_mem_sieve (n := n) (k := k) (by omega)
  simp [h] at hmem

/-- The primes up to `n` in increasing order. -/
def primesTo (n : ℕ) : List ℕ := (List.range (n + 1)).filter fun p => p.Prime

theorem map_prime_range {n j : ℕ} (hle : ∀ i < j, prime i ≤ n) (hlt : n < prime j) :
    (List.range j).map prime = primesTo n := by
  have hmap : ((List.range j).map prime).Pairwise (· < ·) :=
    List.pairwise_map.mpr (List.pairwise_lt_range.imp fun h => prime_lt.mpr h)
  have hprimes : (primesTo n).Pairwise (· < ·) := List.pairwise_lt_range.filter _
  refine hmap.eq_of_mem_iff hprimes fun p => ?_
  unfold primesTo
  simp only [List.mem_map, List.mem_range, List.mem_filter, decide_eq_true_eq]
  constructor
  · rintro ⟨i, hi, rfl⟩
    exact ⟨Nat.lt_succ_of_le (hle i hi), prime_prime i⟩
  · rintro ⟨hp, hprime⟩
    obtain ⟨i, rfl⟩ := exists_prime hprime
    exact ⟨i, prime_lt.mp (by omega), rfl⟩

theorem map_prime_prefix {n j : ℕ} (hle : ∀ i < j, prime i ≤ n) :
    (List.range j).map prime <+: primesTo n := by
  cases j with
  | zero => exact List.nil_prefix
  | succ j =>
    have hj := hle j (Nat.lt_succ_self j)
    have hrange : (List.range (j + 1)).map prime = primesTo (prime j) :=
      map_prime_range (fun i hi => not_lt.mp fun h => by
        have := prime_lt.mp h
        omega) (prime_lt.mpr (Nat.lt_succ_self j))
    rw [hrange]
    have hpre : List.range (prime j + 1) <+: List.range (n + 1) := by
      have hlen : n + 1 = prime j + 1 + (n - prime j) := by omega
      rw [hlen, List.range_add (m := n - prime j)]
      exact List.prefix_append ..
    exact hpre.filter _

end Xv6Sheet
