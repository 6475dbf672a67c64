import Xv6Sheet.Lib.Print
import Xv6Sheet.Swap32.Parse

/-! # swap32_sys

The programs print the number in their argument with its bytes in the other order. What one run
prints is an argument for another, which prints the number of the first.
-/

namespace Xv6Sheet.Swap32

/-- The swap in `quiz1/swap32_sys.c` and in `sys_endianswap`. -/
def endianswap (val : UInt32) : UInt32 :=
  let b0 := (val &&& 0x000000FF) <<< 24
  let b1 := (val &&& 0x0000FF00) <<< 8
  let b2 := (val &&& 0x00FF0000) >>> 8
  let b3 := (val &&& 0xFF000000) >>> 24
  b0 ||| b1 ||| b2 ||| b3

/-- What a program leaves behind: the bytes on the console, those on the error output and its
status. -/
structure Outcome where
  out : List UInt8
  err : List UInt8
  status : ℕ
  deriving DecidableEq

section Code

variable (char : ℕ → UInt8)

/-- `0x%x` of a number, with the characters that stand for the digits. -/
def hex (v : UInt32) : Str := 48 :: 120 :: numeral 16 char v.toNat

def inputLine (s : Str) : List UInt8 := ascii "Input:  " ++ s ++ ascii "\n"

def outputLine (s : Str) : List UInt8 := ascii "Output: " ++ s ++ ascii "\n"

/-- `main` of `quiz1/swap32_sys.c`. -/
def quizMain : List Str → Outcome
  | [_, arg] =>
    let (r, val) := htoi_safe arg
    if r ≠ 0 then ⟨inputLine arg ++ ascii "Invalid argument\n", [], 1⟩
    else ⟨inputLine arg ++ outputLine (hex char (endianswap val)), [], 0⟩
  | _ => ⟨[], ascii "usage: swap32 <32-bit hex value>\n", 1⟩

/-- `main` of `COOKED/part3.c`. -/
def cookedMain : List Str → Outcome
  | [_, arg] =>
    let (r, val) := xtoi arg
    if r = 0 then ⟨inputLine arg ++ ascii "Invalid argument\n", [], 0⟩
    else ⟨inputLine arg ++ outputLine (hex char (endianswap val)), [], 0⟩
  | _ => ⟨[], ascii "usage: swap32_sys <32-bit hex value>\n", 1⟩

end Code

section Swap

theorem endianswap_getLsbD (val : UInt32) {i : ℕ} (hi : i < 32) :
    (endianswap val).toBitVec.getLsbD i = val.toBitVec.getLsbD (8 * (3 - i / 8) + i % 8) := by
  unfold endianswap
  simp only [UInt32.toBitVec_or, UInt32.toBitVec_shiftLeft, UInt32.toBitVec_shiftRight,
    UInt32.toBitVec_and, BitVec.getLsbD_or]
  interval_cases i <;> simp

theorem endianswap_byte (val : UInt32) {k : ℕ} (hk : k < 4) :
    (endianswap val).toNat / 256 ^ k % 256 = val.toNat / 256 ^ (3 - k) % 256 := by
  apply Nat.eq_of_testBit_eq
  intro j
  rw [show 256 = 2 ^ 8 by rfl, Nat.testBit_mod_two_pow, Nat.testBit_mod_two_pow, ← Nat.pow_mul,
    ← Nat.pow_mul, Nat.testBit_div_two_pow, Nat.testBit_div_two_pow]
  by_cases hj : j < 8
  · have hbit := endianswap_getLsbD val (i := 8 * k + j) (by omega)
    rw [show 8 * (3 - (8 * k + j) / 8) + (8 * k + j) % 8 = 8 * (3 - k) + j by omega] at hbit
    simpa [hj, BitVec.getLsbD, Nat.add_comm j] using hbit
  · simp [hj]

theorem endianswap_endianswap (val : UInt32) : endianswap (endianswap val) = val := by
  apply UInt32.toBitVec_inj.mp
  apply BitVec.eq_of_getLsbD_eq
  intro i hi
  rw [endianswap_getLsbD _ hi, endianswap_getLsbD _ (by omega)]
  congr 1
  omega

end Swap

section Runs

variable {char : ℕ → UInt8} {s name : Str} {v : ℕ}

/-- What is printed is a numeral, whether the digits above nine are capital letters or not. -/
theorem numeral_hex (hchar : ∀ d < 16, digit (char d) = some d) (val : UInt32) :
    Numeral (hex char val) val.toNat := by
  have hspells : Spells (numeral 16 char val.toNat) (printed 16 val.toNat) := by
    unfold Spells numeral
    rw [List.forall₂_map_left_iff, List.forall₂_same]
    exact fun d hd => hchar d (lt_of_mem_printed (by omega) hd)
  have h := Numeral.prefixed (.inl rfl) numeral_ne_nil hspells
  rwa [ofDigits_printed] at h

theorem quizMain_numeral (h : Numeral s v) : quizMain char [name, s] =
    ⟨inputLine s ++ outputLine (hex char (endianswap (.ofNat v))), [], 0⟩ := by
  have hparse : htoi_safe s = (0, .ofNat v) := parse_numeral shifts_or h
  simp [quizMain, hparse]

theorem cookedMain_numeral (h : Numeral s v) : cookedMain char [name, s] =
    ⟨inputLine s ++ outputLine (hex char (endianswap (.ofNat v))), [], 0⟩ := by
  have hparse : xtoi s = (1, .ofNat v) := parse_numeral shifts_and h
  simp [cookedMain, hparse]

/-- Both programs print a numeral of the value with its last four bytes in the other order, and
given that numeral they print the value. Other arguments they call invalid, and exit with different
statuses. -/
theorem swap_round_trip (hchar : ∀ d < 16, digit (char d) = some d) (name s : Str) :
    (∀ v, Numeral s v → ∃ t w u, Numeral t w ∧ Numeral u (v % 2 ^ 32) ∧ w < 2 ^ 32 ∧
      (∀ k < 4, w / 256 ^ k % 256 = v / 256 ^ (3 - k) % 256) ∧
      quizMain char [name, s] = ⟨inputLine s ++ outputLine t, [], 0⟩ ∧
      quizMain char [name, t] = ⟨inputLine t ++ outputLine u, [], 0⟩ ∧
      cookedMain char [name, s] = quizMain char [name, s] ∧
      cookedMain char [name, t] = quizMain char [name, t]) ∧
    ((¬ ∃ v, Numeral s v) →
      quizMain char [name, s] = ⟨inputLine s ++ ascii "Invalid argument\n", [], 1⟩ ∧
      cookedMain char [name, s] = ⟨inputLine s ++ ascii "Invalid argument\n", [], 0⟩) := by
  constructor
  · intro v hv
    have ht := numeral_hex hchar (endianswap (.ofNat v))
    have hback : UInt32.ofNat (endianswap (.ofNat v)).toNat = endianswap (.ofNat v) := by simp
    refine ⟨_, _, hex char (.ofNat v), ht, ?_, UInt32.toNat_lt _,
      fun k hk => ?_, quizMain_numeral hv, ?_,
      (cookedMain_numeral hv).trans (quizMain_numeral hv).symm,
      (cookedMain_numeral ht).trans (quizMain_numeral ht).symm⟩
    · simpa using numeral_hex hchar (.ofNat v)
    · rw [endianswap_byte _ hk, UInt32.toNat_ofNat']
      -- what is cut off lies above the four bytes
      interval_cases k <;> omega
    · rw [quizMain_numeral ht, hback, endianswap_endianswap]
  · intro hnone
    have hquiz : (htoi_safe s).1 = -1 := parse_fails hnone
    have hcooked : (xtoi s).1 = 0 := parse_fails hnone
    exact ⟨by simp [quizMain, hquiz], by simp [cookedMain, hcooked]⟩

def capital (d : ℕ) : UInt8 := (ascii "0123456789ABCDEF").getD d 0

/-- `12ab` and back. -/
theorem swap_round_trip_small : ∃ t u, Numeral u 0x12ab ∧
    quizMain capital [ascii "swap32", ascii "12ab"] =
    ⟨inputLine (ascii "12ab") ++ outputLine t, [], 0⟩ ∧
    quizMain capital [ascii "swap32", t] = ⟨inputLine t ++ outputLine u, [], 0⟩ := by
  have hs : Numeral (ascii "12ab") 0x12ab :=
    .plain (by decide) (show Spells _ [1, 2, 10, 11] by simp [Spells, ascii, digit])
  obtain ⟨t, w, u, -, hu, -, -, hout, hagain, -⟩ :=
    (@swap_round_trip capital (by decide) (ascii "swap32") (ascii "12ab")).1 _ hs
  exact ⟨t, u, hu, hout, hagain⟩

end Runs

end Xv6Sheet.Swap32
