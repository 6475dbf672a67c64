import Xv6Sheet.Sixfive.Command

/-! # The numbers that are printed

A word of digits stands for its decimal value. What a version of the program makes of it may be
another number: `lab2/sixfive.c` keeps 31 digits and reads them into an `int`, and the state machine
computes in a `long long`.
-/

namespace Xv6Sheet.Sixfive

open Xargs (Str atoi)

variable {w v l content : List UInt8} {c : UInt8} {n i : ℕ} {b : Bytes}

def value (w : Str) : ℕ := w.foldl (fun n c => 10 * n + (c.toNat - 48)) 0

def IsNumber (w : Str) : Prop := w ≠ [] ∧ ∀ c ∈ w, isDigit c = true

instance (w : Str) : Decidable (IsNumber w) := inferInstanceAs (Decidable (_ ∧ _))

def report (w : Str) : List Line :=
  if IsNumber w ∧ (5 ∣ value w ∨ 6 ∣ value w) then [.number (value w)] else []

/-- What a program prints that takes a word of digits for the number `read`. -/
def verdict (read : Str → ℤ) (w : Str) : List Line :=
  if IsNumber w ∧ fiveOrSix (read w) then [.number (read w)] else []

@[simp] theorem verdict_nil (read : Str → ℤ) : verdict read [] = [] := by
  simp [verdict, IsNumber]

theorem value_concat (w : Str) (c : UInt8) : value (w ++ [c]) = 10 * value w + (c.toNat - 48) := by
  simp [value]

theorem value_le_append (w v : Str) : value w ≤ value (w ++ v) := by
  induction v using List.reverseRecOn with
  | nil => simp
  | append_singleton v c ih =>
    rw [← List.append_assoc, value_concat]
    omega

theorem value_prefix_le (h : w <+: v) : value w ≤ value v := by
  obtain ⟨u, rfl⟩ := h
  exact value_le_append w u

theorem isDigit_iff : isDigit c = true ↔ 48 ≤ c.toNat ∧ c.toNat ≤ 57 := by
  unfold isDigit
  rw [Bool.and_eq_true, decide_eq_true_eq, decide_eq_true_eq, UInt8.le_iff_toNat_le,
    UInt8.le_iff_toNat_le]
  rfl

theorem isSep_of_digit (h : isDigit c = true) : isSep c = false := by
  rw [isDigit_iff] at h
  unfold isSep
  rw [decide_eq_false_iff_not]
  intro hmem
  simp only [seps, List.mem_cons, List.not_mem_nil, or_false] at hmem
  rcases hmem with rfl | rfl | rfl | rfl | rfl | rfl | rfl | rfl <;> revert h <;> decide

theorem fiveOrSix_natCast (n : ℕ) : fiveOrSix n = true ↔ 5 ∣ n ∨ 6 ∣ n := by
  unfold fiveOrSix
  rw [Bool.or_eq_true, decide_eq_true_eq, decide_eq_true_eq, ← Int.dvd_iff_tmod_eq_zero,
    ← Int.dvd_iff_tmod_eq_zero]
  norm_cast

theorem verdict_eq_report {read : Str → ℤ} (h : IsNumber w → read w = value w) :
    verdict read w = report w := by
  unfold verdict report
  by_cases hw : IsNumber w
  · rw [h hw]
    simp only [hw, true_and, fiveOrSix_natCast]
  · simp [hw]

theorem isNumber_concat : IsNumber (w ++ [c]) ↔ (∀ c ∈ w, isDigit c = true) ∧ isDigit c = true := by
  simp [IsNumber, or_imp, forall_and]

theorem atoi_eq (h : ∀ c ∈ w, isDigit c = true) : atoi w = (value w : ℤ).bmod (2 ^ 32) := by
  have hall : w.takeWhile (fun c => 48 ≤ c && c ≤ 57) = w := List.takeWhile_eq_self_iff.mpr h
  unfold atoi
  rw [hall]
  clear hall
  congr 1
  induction w using List.reverseRecOn with
  | nil => rfl
  | append_singleton w c ih =>
    obtain ⟨hw, hc⟩ := (isNumber_concat (w := w) (c := c)).mp ⟨by simp, h⟩
    have hle := isDigit_iff.mp hc
    rw [List.foldl_append, ih hw, value_concat]
    simp only [List.foldl_cons, List.foldl_nil]
    omega

/-- A buffer with room for `n` bytes holds the first bytes of a string. -/
structure Filled (n : ℕ) (b : Bytes) (i : ℕ) (w : Str) : Prop where
  count : i = min n w.length
  bytes : b.toList i = w.take n

theorem filled_nil (n : ℕ) (b : Bytes) : Filled n b 0 [] := ⟨by simp, by simp [Bytes.toList]⟩

theorem Filled.push (h : Filled n b i w) (hi : i < n) (c : UInt8) :
    Filled n (Function.update b i c) (i + 1) (w ++ [c]) := by
  have hcount := h.count
  constructor
  · rw [List.length_append, List.length_singleton]
    omega
  · rw [Bytes.toList_update, h.bytes, List.take_of_length_le (by omega),
      List.take_of_length_le (by rw [List.length_append, List.length_singleton]; omega)]

theorem Filled.full (h : Filled n b i w) (hi : ¬ i < n) (c : UInt8) : Filled n b i (w ++ [c]) := by
  have hcount := h.count
  constructor
  · rw [List.length_append, List.length_singleton]
    omega
  · rw [h.bytes, List.take_append_of_le_length (by omega)]

theorem Filled.str (h : Filled n b i w) (hw : ∀ c ∈ w, isDigit c = true) :
    Bytes.str (Function.update b i 0) (i + 1) = w.take n := by
  have hlen : (w.take n).length = i := by
    rw [List.length_take]
    exact h.count.symm
  have hstr := Bytes.str_update_zero (b := b) (w := w.take n) (by rw [hlen, h.bytes])
  rw [hlen] at hstr
  rw [hstr, List.takeWhile_eq_self_iff]
  intro c hc
  have hdigit := isDigit_iff.mp (hw c (List.mem_of_mem_take hc))
  rw [decide_eq_true_eq]
  rintro rfl
  exact absurd hdigit.1 (by decide)

namespace Machine

structure At (w : Str) (s : State) : Prop where
  ready : s.state = .ready ↔ w = []
  digits : s.state = .digits ↔ IsNumber w
  current : s.state ≠ .invalid → s.current = (value w : ℤ).bmod (2 ^ 64)

def asLong (w : Str) : ℤ := (value w : ℤ).bmod (2 ^ 64)

theorem At.check {s : State} (h : At w s) : check s = verdict asLong w := by
  unfold Machine.check verdict
  by_cases hs : s.state = .digits
  · rw [if_pos hs, h.current (by rw [hs]; simp)]
    simp only [h.digits.mp hs, true_and]
    rfl
  · rw [if_neg hs, if_neg fun hw => hs (h.digits.mpr hw.1)]

theorem byWords : ByWords isSep (verdict asLong) turn At := by
  constructor
  · exact verdict_nil asLong
  · rintro w s c hc hs
    unfold turn
    rw [hc]
    simp only [Bool.false_eq_true, if_false]
    cases hd : isDigit c with
    | false =>
      refine ⟨⟨by simp, ?_, by simp⟩, rfl⟩
      simp [isNumber_concat, hd]
    | true =>
      simp only [if_true]
      by_cases hstate : s.state = .ready ∨ s.state = .digits
      · rw [if_pos hstate]
        have hw : ∀ c ∈ w, isDigit c = true := by
          rcases hstate with h | h
          · rw [hs.ready.mp h]
            simp
          · exact (hs.digits.mp h).2
        have hvalid : s.state ≠ .invalid := by
          rcases hstate with h | h <;> simp [h]
        refine ⟨⟨by simp, ?_, fun _ => ?_⟩, rfl⟩
        · exact iff_of_true rfl (isNumber_concat.mpr ⟨hw, hd⟩)
        · have hle := isDigit_iff.mp hd
          have hcast : ((10 * value w + (c.toNat - 48) : ℕ) : ℤ) =
              value w * 10 + (c.toNat - 48) := by omega
          rw [nextVal, hs.current hvalid, value_concat, hcast, Int.add_bmod, Int.bmod_mul_bmod,
            ← Int.add_bmod]
      · rw [if_neg hstate]
        obtain ⟨hready, hdigits⟩ := not_or.mp hstate
        refine ⟨⟨by simp [hready], ?_, fun hvalid => ?_⟩, rfl⟩
        · refine iff_of_false hdigits fun hnum => hdigits
            (hs.digits.mpr ⟨mt hs.ready.mpr hready, ?_⟩)
          exact (isNumber_concat.mp hnum).1
        · cases h : s.state <;> simp_all
  · rintro w s c hc hs
    unfold turn
    rw [hc]
    exact ⟨⟨by simp, by simp [IsNumber], fun _ => by simp [value]⟩, hs.check⟩

theorem at_nil : At [] ⟨.ready, 0⟩ := ⟨by simp, by simp [IsNumber], by simp [value]⟩

theorem sixfive_eq (content : List UInt8) :
    sixfive content = (words isSep content).flatMap (verdict asLong) := by
  exact byWords.words at_nil At.check content

theorem not_isDigit_of_sep (h : isSep c = true) : (!isDigit c) = true := by
  cases hd : isDigit c with
  | false => rfl
  | true =>
    rw [isSep_of_digit hd] at h
    cases h

theorem value_lt_of_runs (hruns : ∀ w ∈ words (!isDigit ·) (l ++ c :: content), value w < 2 ^ 63)
    (hc : isDigit c = true) (hw : ∀ c ∈ lastRun isSep l, isDigit c = true) :
    value (lastRun isSep l ++ [c]) < 2 ^ 63 := by
  obtain ⟨-, q, hq, hlast⟩ := lastRun_spec (p := isSep) (w := []) (by simp) l
  rw [List.nil_append] at hq
  have hrun : ∀ y ∈ lastRun isSep l ++ [c], (!isDigit y) = false :=
    forall_concat (by simpa using hw) (by simpa using hc)
  obtain ⟨v, hv, hprefix⟩ := exists_word (p := (!isDigit ·)) (l := content) hrun (by simp)
  refine lt_of_le_of_lt (value_prefix_le hprefix) (hruns v ?_)
  -- what is before the run ends in a separator
  rw [hq, List.append_assoc, List.append_cons]
  rcases List.eq_nil_or_concat q with rfl | ⟨q, x, rfl⟩
  · exact hv
  · have hx := not_isDigit_of_sep (hlast x (by simp))
    rw [List.concat_eq_append, List.append_assoc, List.singleton_append,
      words_append (p := (!isDigit ·)) hx]
    exact List.mem_append_right _ hv

/-- The state machine prints the numbers among the words of a file that are divisible by 5 or 6,
when no run of digits is too long for a `long long`. Nothing overflows then. -/
theorem sixfive_exact (hruns : ∀ w ∈ words (!isDigit ·) content, value w < 2 ^ 63) :
    sixfive content = (words isSep content).flatMap report ∧
    ∀ p c l, content = p ++ c :: l → isDigit c = true →
      (readAll turn ⟨.ready, 0⟩ p).1.state ≠ .invalid →
        0 ≤ (readAll turn ⟨.ready, 0⟩ p).1.current ∧
        nextVal (readAll turn ⟨.ready, 0⟩ p).1 c < 2 ^ 63 := by
  constructor
  · rw [sixfive_eq]
    refine List.flatMap_congr fun w hw => verdict_eq_report fun hnum => ?_
    have hlt := hruns w (mem_words_of_imp (w := []) (fun _ => not_isDigit_of_sep) (by simp) hw
      (by simpa using hnum.2))
    exact Int.bmod_eq_of_le (by omega) (by omega)
  · rintro p c l rfl hc hstate
    have hat := (byWords.readAll_nil at_nil p).1
    have hw : ∀ c ∈ lastRun isSep p, isDigit c = true := by
      by_cases hnil : lastRun isSep p = []
      · simp [hnil]
      · refine (hat.digits.mp ?_).2
        cases h : (readAll turn ⟨.ready, 0⟩ p).1.state with
        | ready => exact absurd (hat.ready.mp h) hnil
        | digits => rfl
        | invalid => exact absurd h hstate
    have hlt := value_lt_of_runs hruns hc hw
    have hdigit := isDigit_iff.mp hc
    rw [value_concat] at hlt
    have hcur : (readAll turn ⟨.ready, 0⟩ p).1.current = value (lastRun isSep p) := by
      rw [hat.current hstate]
      exact Int.bmod_eq_of_le (by omega) (by omega)
    rw [nextVal, hcur]
    omega

/-- The numbers 10 and 12, one at the end of the file. -/
theorem sixfive_exact_small : sixfive [49, 48, 32, 55, 44, 49, 50] = [.number 10, .number 12] :=
  (sixfive_exact (by decide +kernel)).1.trans (by decide +kernel)

end Machine

end Xv6Sheet.Sixfive
