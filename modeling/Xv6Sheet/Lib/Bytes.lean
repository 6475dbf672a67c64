import Mathlib.Data.Nat.Basic
import Mathlib.Data.List.Basic
import Mathlib.Tactic.Common
import Mathlib.Tactic.Ring

/-! # Byte memories

A memory is read by index. Little-endian words, block copies and NUL-terminated
strings are stated over it, with the comparison and copy functions of the C library.
-/

namespace Xv6Sheet

abbrev Bytes := ℕ → UInt8

namespace Bytes

/-- Copy `n` bytes of `src` from `j` on over `dst` from `i` on. -/
def copy (dst : Bytes) (i : ℕ) (src : Bytes) (j n : ℕ) : Bytes := fun k =>
  if i ≤ k ∧ k < i + n then src (j + (k - i)) else dst k

theorem copy_of_mem {dst src : Bytes} {i j n k : ℕ} (h : i ≤ k ∧ k < i + n) :
    copy dst i src j n k = src (j + (k - i)) := if_pos h

theorem copy_of_not_mem {dst src : Bytes} {i j n k : ℕ} (h : ¬ (i ≤ k ∧ k < i + n)) :
    copy dst i src j n k = dst k := if_neg h

@[simp] theorem copy_zero (dst src : Bytes) (i j : ℕ) : copy dst i src j 0 = dst := by
  funext k
  exact copy_of_not_mem (by omega)

theorem copy_copy (dst src : Bytes) (i j m n : ℕ) :
    copy (copy dst i src j m) (i + m) src (j + m) n = copy dst i src j (m + n) := by
  funext k
  unfold copy
  by_cases h : i ≤ k ∧ k < i + m
  · rw [if_neg (by omega), if_pos h, if_pos (by omega)]
  · by_cases h' : i + m ≤ k ∧ k < i + m + n
    · rw [if_pos h', if_pos (by omega)]
      congr 1; omega
    · rw [if_neg h', if_neg h, if_neg (by omega)]

/-- The little-endian value of the `n` bytes from `i` on. -/
def le (b : Bytes) : ℕ → ℕ → ℕ
  | _, 0 => 0
  | i, n + 1 => (b i).toNat + 256 * le b (i + 1) n

/-- Store `v` in the `n` bytes from `i` on, little-endian. -/
def putLe (b : Bytes) (i n v : ℕ) : Bytes := fun k =>
  if i ≤ k ∧ k < i + n then UInt8.ofNat (v / 256 ^ (k - i)) else b k

theorem le_congr {b c : Bytes} {i n : ℕ} (h : ∀ k, i ≤ k → k < i + n → b k = c k) :
    le b i n = le c i n := by
  induction n generalizing i with
  | zero => rfl
  | succ n ih =>
    rw [le, le, h i (Nat.le_refl _) (by omega),
      ih fun k hk hk' => h k (by omega) (by omega)]

theorem le_shift (b : Bytes) (o i n : ℕ) : le (fun j => b (o + j)) i n = le b (o + i) n := by
  induction n generalizing i with
  | zero => rfl
  | succ n ih => rw [le, le, ih, Nat.add_assoc]

theorem le_zero (i n : ℕ) : le (fun _ => 0) i n = 0 := by
  induction n generalizing i with
  | zero => rfl
  | succ n ih => simp [le, ih]

theorem putLe_of_not_mem {b : Bytes} {i n v k : ℕ} (h : ¬ (i ≤ k ∧ k < i + n)) :
    putLe b i n v k = b k := if_neg h

theorem le_putLe_shift (b : Bytes) (i n v : ℕ) :
    le (putLe b i (n + 1) v) (i + 1) n = le (putLe b (i + 1) n (v / 256)) (i + 1) n := by
  refine le_congr fun k hk hk' => ?_
  unfold putLe
  rw [if_pos (by omega), if_pos (by omega), Nat.div_div_eq_div_mul,
    show k - i = k - (i + 1) + 1 by omega, Nat.pow_succ, Nat.mul_comm]

theorem le_putLe {b : Bytes} {i n v : ℕ} (h : v < 256 ^ n) : le (putLe b i n v) i n = v := by
  induction n generalizing b i v with
  | zero => simp at h; simp [le, h]
  | succ n ih =>
    have hv : v / 256 < 256 ^ n := by
      rw [Nat.pow_succ, Nat.mul_comm] at h
      exact Nat.div_lt_of_lt_mul h
    rw [le, le_putLe_shift, ih hv]
    simp only [putLe, Nat.le_refl, true_and, Nat.sub_self, Nat.pow_zero, Nat.div_one]
    rw [if_pos (by omega), UInt8.toNat_ofNat']
    omega

theorem le_putLe_of_disjoint {b : Bytes} {i j n m v : ℕ} (h : j + m ≤ i ∨ i + n ≤ j) :
    le (putLe b i n v) j m = le b j m :=
  le_congr fun _ _ _ => putLe_of_not_mem (by omega)

def toList (b : Bytes) (n : ℕ) : List UInt8 := (List.range n).map b

@[simp] theorem length_toList (b : Bytes) (n : ℕ) : (toList b n).length = n := by simp [toList]

theorem toList_getElem? (b : Bytes) (n k : ℕ) :
    (toList b n)[k]? = if k < n then some (b k) else none := by
  unfold toList
  split
  · rename_i h; simp [h]
  · rename_i h; simpa using h

/-- The bytes of `bs` over those of `cs` from `off` on. -/
def overlay (cs : List UInt8) (off : ℕ) (bs : List UInt8) : List UInt8 :=
  cs.take off ++ bs ++ cs.drop (off + bs.length)

theorem length_overlay {cs bs : List UInt8} {off : ℕ} (h : off ≤ cs.length) :
    (overlay cs off bs).length = max cs.length (off + bs.length) := by
  simp only [overlay, List.length_append, List.length_take, List.length_drop]
  omega

theorem overlay_getElem? {cs bs : List UInt8} {off : ℕ} (h : off ≤ cs.length) (k : ℕ) :
    (overlay cs off bs)[k]? =
      if off ≤ k ∧ k < off + bs.length then bs[k - off]? else cs[k]? := by
  have htake : (cs.take off).length = off := by simpa using h
  unfold overlay
  by_cases h1 : k < off
  · rw [if_neg (by omega), List.append_assoc, List.getElem?_append_left (by omega),
      List.getElem?_take_of_lt h1]
  · by_cases h2 : k < off + bs.length
    · rw [if_pos ⟨by omega, h2⟩, List.getElem?_append_left (by simp [htake]; omega),
        List.getElem?_append_right (by omega), htake]
    · rw [if_neg (by omega), List.getElem?_append_right (by simp [htake]; omega),
        List.getElem?_drop, List.length_append, htake]
      congr 1
      omega

/-- The NUL-terminated string in the first `n` bytes, all of them when there is no NUL. -/
def str : Bytes → ℕ → List UInt8
  | _, 0 => []
  | b, n + 1 => if b 0 = 0 then [] else b 0 :: str (fun i => b (i + 1)) n

def ofList (l : List UInt8) : Bytes := fun i => l.getD i 0

theorem str_congr {b c : Bytes} {n : ℕ} (h : ∀ k < n, b k = c k) : str b n = str c n := by
  induction n generalizing b c with
  | zero => rfl
  | succ n ih =>
    have ht := ih (b := fun i => b (i + 1)) (c := fun i => c (i + 1))
      fun k hk => h (k + 1) (by omega)
    rw [str, str, h 0 (by omega), ht]

theorem str_length_le (b : Bytes) (n : ℕ) : (str b n).length ≤ n := by
  induction n generalizing b with
  | zero => simp [str]
  | succ n ih =>
    unfold str
    split
    · simp
    · simpa using ih _

theorem str_length_le_of_zero {b : Bytes} {k : ℕ} (h : b k = 0) (n : ℕ) : (str b n).length ≤ k := by
  induction n generalizing b k with
  | zero => simp [str]
  | succ n ih =>
    unfold str
    split
    · simp
    · rename_i h0
      cases k with
      | zero => exact absurd h h0
      | succ k => simpa using ih (b := fun i => b (i + 1)) h

theorem zero_not_mem_str (b : Bytes) (n : ℕ) : 0 ∉ str b n := by
  induction n generalizing b with
  | zero => simp [str]
  | succ n ih =>
    unfold str
    split
    · simp
    · rename_i h
      simpa [eq_comm, h] using ih _

/-- The string in a memory is `l` when `l` stands there and a NUL or the bound follows. -/
theorem str_eq_iff {b : Bytes} {n : ℕ} {l : List UInt8} (hl : 0 ∉ l) (hn : l.length ≤ n) :
    str b n = l ↔ (∀ i, (h : i < l.length) → b i = l[i]) ∧ (l.length < n → b l.length = 0) := by
  induction n generalizing b l with
  | zero =>
    obtain rfl := List.length_eq_zero_iff.mp (Nat.le_zero.mp hn)
    simp [str]
  | succ n ih =>
    unfold str
    cases l with
    | nil => by_cases h : b 0 = 0 <;> simp [h]
    | cons x l =>
      have hx : x ≠ 0 := fun h => hl (h ▸ List.mem_cons_self)
      have hl' : 0 ∉ l := fun h => hl (List.mem_cons_of_mem _ h)
      have ih' := ih (b := fun i => b (i + 1)) hl' (by simpa using hn)
      constructor
      · intro h
        split at h
        · simp at h
        · obtain ⟨h0, ht⟩ := List.cons.inj h
          obtain ⟨hb, hz⟩ := ih'.mp ht
          refine ⟨fun i hi => ?_, fun h => hz (by simpa using h)⟩
          cases i with
          | zero => exact h0
          | succ i => exact hb i (by simpa using hi)
      · rintro ⟨hb, hz⟩
        have h0 : b 0 = x := hb 0 (by simp)
        rw [if_neg (h0 ▸ hx), h0,
          ih'.mpr ⟨fun i hi => hb (i + 1) (by simpa using hi), fun h => hz (by simpa using h)⟩]

theorem str_ofList {l : List UInt8} {n : ℕ} (hl : 0 ∉ l) (hn : l.length ≤ n) :
    str (ofList l) n = l := by
  refine (str_eq_iff hl hn).mpr ⟨fun i hi => ?_, fun _ => ?_⟩
  · simp [ofList, hi]
  · simp [ofList]

theorem str_eq_takeWhile (b : Bytes) (n : ℕ) :
    str b n = (toList b n).takeWhile fun c => c ≠ 0 := by
  induction n generalizing b with
  | zero => rfl
  | succ n ih =>
    have ht := ih fun i => b (i + 1)
    unfold str
    unfold toList at ht ⊢
    rw [List.range_succ_eq_map, List.map_cons, List.map_map, List.takeWhile_cons]
    by_cases h : b 0 = 0
    · simp [h]
    · rw [if_neg h, if_pos (by simpa using h), ht]
      rfl

theorem toList_update (b : Bytes) (c : UInt8) (m : ℕ) :
    toList (Function.update b m c) (m + 1) = b.toList m ++ [c] := by
  unfold toList
  rw [List.range_succ, List.map_append, List.map_singleton, Function.update_self]
  refine congrArg (· ++ [c]) (List.map_congr_left fun j hj => ?_)
  rw [Function.update_of_ne (List.mem_range.mp hj).ne]

theorem str_update_zero {b : Bytes} {w : List UInt8} (h : b.toList w.length = w) :
    str (Function.update b w.length 0) (w.length + 1) = w.takeWhile fun c => c ≠ 0 := by
  rw [str_eq_takeWhile, toList_update, h]
  clear h
  induction w with
  | nil => rfl
  | cons c w ih => rw [List.cons_append, List.takeWhile_cons, List.takeWhile_cons, ih]

/-- `strncmp` of the C library: the difference of the first bytes that differ. -/
def strncmp : Bytes → Bytes → ℕ → ℤ
  | _, _, 0 => 0
  | s, t, n + 1 =>
    if s 0 = 0 ∨ s 0 ≠ t 0 then (s 0).toNat - (t 0).toNat
    else strncmp (fun i => s (i + 1)) (fun i => t (i + 1)) n

theorem strncmp_eq_zero_iff (s t : Bytes) (n : ℕ) :
    strncmp s t n = 0 ↔ str s n = str t n := by
  induction n generalizing s t with
  | zero => simp [strncmp, str]
  | succ n ih =>
    have hd : ((s 0).toNat : ℤ) - (t 0).toNat = 0 ↔ s 0 = t 0 := by
      rw [sub_eq_zero, Int.natCast_inj, UInt8.toNat_inj]
    unfold strncmp str
    by_cases he : s 0 = t 0
    · by_cases hz : s 0 = 0
      · simp [hz, ← he]
      · simp [hz, ← he, ih]
    · rw [if_pos (Or.inr he), hd]
      by_cases hz : s 0 = 0
      · have ht : t 0 ≠ 0 := fun h => he (hz.trans h.symm)
        simp only [hz, ht, if_true, if_false]
        simpa using ht.symm
      · by_cases ht : t 0 = 0 <;> simp [hz, ht, he]

theorem strncmp_congr {s s' t t' : Bytes} {n : ℕ} (hs : str s n = str s' n)
    (ht : str t n = str t' n) : strncmp s t n = strncmp s' t' n := by
  induction n generalizing s s' t t' with
  | zero => rfl
  | succ n ih =>
    have hstep : ∀ {b c : Bytes}, str b (n + 1) = str c (n + 1) → b 0 = c 0 ∧
        (b 0 ≠ 0 → str (fun i => b (i + 1)) n = str (fun i => c (i + 1)) n) := by
      intro b c h
      unfold str at h
      split_ifs at h with hb hc hc
      · exact ⟨hb.trans hc.symm, fun hne => absurd hb hne⟩
      · exact ⟨(List.cons.inj h).1, fun _ => (List.cons.inj h).2⟩
    obtain ⟨hs0, hsn⟩ := hstep hs
    obtain ⟨ht0, htn⟩ := hstep ht
    unfold strncmp
    rw [← hs0, ← ht0]
    split_ifs with hend
    · rfl
    · obtain ⟨hne, heq⟩ := not_or.mp hend
      rw [not_not] at heq
      exact ih (hsn hne) (htn (heq ▸ hne))

/-- `strncpy` of the C library: the string of `src`, padded with NULs to `n` bytes. -/
def strncpy (dst : Bytes) (i : ℕ) (src : Bytes) (n : ℕ) : Bytes :=
  copy dst i (ofList (str src n)) 0 n

end Bytes

end Xv6Sheet
