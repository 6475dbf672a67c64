import Mathlib.Data.Nat.Digits.Defs

/-! # The parsers of swap32_sys

Two programs read a hexadecimal number from their argument, `COOKED/part3.c` and
`quiz1/swap32_sys.c`. Both shift digit after digit into a register of 32 bits, and do not see
when it is too small.
-/

namespace Xv6Sheet.Swap32

abbrev Str := List UInt8

variable {c : UInt8} {d v : ℕ} {s : Str} {ds : List ℕ} {res : UInt32} {ok bad : ℤ}

section Code

variable (ok bad : ℤ) (add : UInt32 → UInt32 → UInt32)

/-- The prefix `0x` or `0X` is left out. -/
def skipPrefix : Str → Str
  | c :: x :: s => if c = 48 ∧ (x = 120 ∨ x = 88) then s else c :: x :: s
  | s => s

/-- The loop over the digits, with the answer and the number in `*res`. -/
def digits : Str → UInt32 → ℤ × UInt32
  | [], res => (ok, res)
  | c :: s, res =>
    if 48 ≤ c ∧ c ≤ 57 then digits s (add res (c.toUInt32 - 48))
    else if 97 ≤ c ∧ c ≤ 102 then digits s (add res (c.toUInt32 - 97 + 10))
    else if 65 ≤ c ∧ c ≤ 70 then digits s (add res (c.toUInt32 - 65 + 10))
    else (bad, res)

/-- A parser that answers `ok` or `bad`, and puts a digit into the number by `add`. -/
def parse (s : Str) : ℤ × UInt32 :=
  if skipPrefix s = [] then (bad, 0) else digits ok bad add (skipPrefix s) 0

end Code

/-- `xtoi` of `COOKED/part3.c`. -/
def xtoi (s : Str) : ℤ × UInt32 := parse 1 0 (fun res val => res <<< 4 ||| (val &&& 0xF)) s

/-- `htoi_safe` of `quiz1/swap32_sys.c`. -/
def htoi_safe (s : Str) : ℤ × UInt32 := parse 0 (-1) (fun res d => res <<< 4 ||| d) s

def digit (c : UInt8) : Option ℕ :=
  if 48 ≤ c ∧ c ≤ 57 then some (c.toNat - 48)
  else if 97 ≤ c ∧ c ≤ 102 then some (c.toNat - 87)
  else if 65 ≤ c ∧ c ≤ 70 then some (c.toNat - 55)
  else none

def Spells (s : Str) (ds : List ℕ) : Prop := List.Forall₂ (fun c d => digit c = some d) s ds

/-- A hexadecimal numeral and its value: a prefix or none, then one digit or more. -/
inductive Numeral : Str → ℕ → Prop
  | plain {s : Str} {ds : List ℕ} : s ≠ [] → Spells s ds → Numeral s (Nat.ofDigits 16 ds.reverse)
  | prefixed {x : UInt8} {s : Str} {ds : List ℕ} : x = 120 ∨ x = 88 → s ≠ [] → Spells s ds →
      Numeral (48 :: x :: s) (Nat.ofDigits 16 ds.reverse)

theorem digit_lt (h : digit c = some d) : d < 16 := by
  unfold digit at h
  simp only [UInt8.le_iff_toNat_le] at h
  split_ifs at h with hdec hlow hup
  · obtain rfl := Option.some.inj h
    simp at hdec
    omega
  · obtain rfl := Option.some.inj h
    simp at hlow
    omega
  · obtain rfl := Option.some.inj h
    simp at hup
    omega

theorem toUInt32_sub {k : UInt8} (h : k ≤ c) :
    c.toUInt32 - k.toUInt32 = UInt32.ofNat (c.toNat - k.toNat) := by
  have hle : k.toNat ≤ c.toNat := UInt8.le_iff_toNat_le.mp h
  have hle32 : k.toUInt32 ≤ c.toUInt32 := UInt32.le_iff_toNat_le.mpr hle
  apply UInt32.toNat_inj.mp
  rw [UInt32.toNat_sub_of_le _ _ hle32, UInt32.toNat_ofNat', UInt8.toNat_toUInt32,
    UInt8.toNat_toUInt32]
  have := c.toNat_lt
  omega

theorem digits_cons (add : UInt32 → UInt32 → UInt32) (h : digit c = some d) :
    digits ok bad add (c :: s) res = digits ok bad add s (add res (UInt32.ofNat d)) := by
  unfold digit at h
  rw [digits]
  split_ifs at h ⊢ with hdec hlow hup
  · obtain rfl := Option.some.inj h
    exact congrArg (fun k => digits ok bad add s (add res k)) (toUInt32_sub hdec.1)
  · obtain rfl := Option.some.inj h
    have h97 : 97 ≤ c.toNat := UInt8.le_iff_toNat_le.mp hlow.1
    have hval : c.toNat - 87 = c.toNat - 97 + 10 := by omega
    rw [hval, UInt32.ofNat_add]
    exact congrArg (fun k => digits ok bad add s (add res (k + 10))) (toUInt32_sub hlow.1)
  · obtain rfl := Option.some.inj h
    have h65 : 65 ≤ c.toNat := UInt8.le_iff_toNat_le.mp hup.1
    have hval : c.toNat - 55 = c.toNat - 65 + 10 := by omega
    rw [hval, UInt32.ofNat_add]
    exact congrArg (fun k => digits ok bad add s (add res (k + 10))) (toUInt32_sub hup.1)

theorem digits_cons_none (add : UInt32 → UInt32 → UInt32) (h : digit c = none) :
    digits ok bad add (c :: s) res = (bad, res) := by
  unfold digit at h
  split_ifs at h with hdec hlow hup
  simp [digits, hdec, hlow, hup]

def Shifts (add : UInt32 → UInt32 → UInt32) : Prop :=
  ∀ (res : UInt32) (d : ℕ), d < 16 → add res (UInt32.ofNat d) = UInt32.ofNat (res.toNat * 16 + d)

theorem shifts_or : Shifts fun res d => res <<< 4 ||| d := by
  intro res d hd
  apply UInt32.toNat_inj.mp
  have hshift : res.toNat <<< 4 % 2 ^ 32 = (res.toNat % 2 ^ 28) <<< 4 := by
    simp only [Nat.shiftLeft_eq]
    omega
  have hd32 : d % 2 ^ 32 = d := Nat.mod_eq_of_lt (by omega)
  calc (res <<< 4 ||| UInt32.ofNat d).toNat = res.toNat <<< 4 % 2 ^ 32 ||| d % 2 ^ 32 := by
        simp
    _ = (res.toNat % 2 ^ 28) <<< 4 ||| d := by rw [hshift, hd32]
    _ = (res.toNat % 2 ^ 28) <<< 4 + d := (Nat.shiftLeft_add_eq_or_of_lt hd _).symm
    _ = (res.toNat * 16 + d) % 2 ^ 32 := by
      rw [Nat.shiftLeft_eq]
      omega
    _ = (UInt32.ofNat (res.toNat * 16 + d)).toNat := UInt32.toNat_ofNat'.symm

theorem shifts_and : Shifts fun res val => res <<< 4 ||| (val &&& 0xF) := by
  intro res d hd
  have hand : UInt32.ofNat d &&& 0xF = UInt32.ofNat d := by
    apply UInt32.toNat_inj.mp
    have hd32 : d % 2 ^ 32 = d := Nat.mod_eq_of_lt (by omega)
    calc (UInt32.ofNat d &&& 0xF).toNat = d % 2 ^ 32 &&& (2 ^ 4 - 1) := by simp
      _ = d % 2 ^ 32 := by
        rw [Nat.and_two_pow_sub_one_eq_mod, hd32]
        exact Nat.mod_eq_of_lt hd
      _ = (UInt32.ofNat d).toNat := UInt32.toNat_ofNat'.symm
  exact (congrArg (fun k => res <<< 4 ||| k) hand).trans (shifts_or res d hd)

section Parse

variable {add : UInt32 → UInt32 → UInt32}

theorem digits_spells (hadd : Shifts add) (h : Spells s ds) (n : ℕ) :
    digits ok bad add s (UInt32.ofNat n) =
      (ok, UInt32.ofNat (n * 16 ^ ds.length + Nat.ofDigits 16 ds.reverse)) := by
  induction h generalizing n with
  | nil => simp [digits]
  | @cons c d s ds hc _ ih =>
    have hstep : add (UInt32.ofNat n) (UInt32.ofNat d) = UInt32.ofNat (n * 16 + d) := by
      rw [hadd _ d (digit_lt hc)]
      apply UInt32.toNat_inj.mp
      simp only [UInt32.toNat_ofNat']
      omega
    rw [digits_cons add hc, hstep, ih, Nat.ofDigits_reverse_cons, List.length_cons]
    ring_nf

theorem digits_fails (h : ¬ ∃ ds, Spells s ds) (res : UInt32) :
    (digits ok bad add s res).1 = bad := by
  induction s generalizing res with
  | nil => exact absurd ⟨[], .nil⟩ h
  | cons c s ih =>
    cases hc : digit c with
    | none => rw [digits_cons_none add hc]
    | some d =>
      rw [digits_cons add hc]
      exact ih (fun ⟨ds, hds⟩ => h ⟨d :: ds, .cons hc hds⟩) _

theorem Spells.unique {es : List ℕ} (h : Spells s ds) (h' : Spells s es) : ds = es := by
  induction h generalizing es with
  | nil =>
    cases h'
    rfl
  | cons hc _ ih =>
    cases h' with
    | cons hc' hs => rw [Option.some.inj (hc.symm.trans hc'), ih hs]

theorem numeral_iff : Numeral s v ↔
    skipPrefix s ≠ [] ∧ ∃ ds, Spells (skipPrefix s) ds ∧ v = Nat.ofDigits 16 ds.reverse := by
  constructor
  · intro h
    cases h with
    | plain hne hs =>
      -- no digit is an x, so nothing is left out
      have hskip : skipPrefix s = s := by
        cases hs with
        | nil => rfl
        | cons _ hs =>
          cases hs with
          | nil => rfl
          | @cons x _ _ _ hx _ =>
            refine if_neg ?_
            rintro ⟨-, rfl | rfl⟩ <;> exact absurd hx (by simp [digit])
      rw [hskip]
      exact ⟨hne, _, hs, rfl⟩
    | @prefixed x s ds hx hne hs =>
      have hskip : skipPrefix (48 :: x :: s) = s := if_pos ⟨rfl, hx⟩
      rw [hskip]
      exact ⟨hne, ds, hs, rfl⟩
  · rintro ⟨hne, ds, hs, rfl⟩
    match s with
    | [] => exact .plain hne hs
    | [_] => exact .plain hne hs
    | c :: x :: s =>
      by_cases hpre : c = 48 ∧ (x = 120 ∨ x = 88)
      · have hskip : skipPrefix (c :: x :: s) = s := if_pos hpre
        rw [hskip] at hne hs
        obtain ⟨rfl, hx⟩ := hpre
        exact .prefixed hx hne hs
      · have hskip : skipPrefix (c :: x :: s) = c :: x :: s := if_neg hpre
        rw [hskip] at hne hs
        exact .plain hne hs

theorem Numeral.unique {u : ℕ} (h : Numeral s v) (h' : Numeral s u) : v = u := by
  obtain ⟨-, ds, hs, rfl⟩ := numeral_iff.mp h
  obtain ⟨-, es, hs', rfl⟩ := numeral_iff.mp h'
  rw [hs.unique hs']

theorem parse_numeral (hadd : Shifts add) (h : Numeral s v) :
    parse ok bad add s = (ok, UInt32.ofNat v) := by
  obtain ⟨hne, ds, hs, rfl⟩ := numeral_iff.mp h
  unfold parse
  rw [if_neg hne]
  have hrun : digits ok bad add (skipPrefix s) 0 = _ := digits_spells hadd hs 0
  rwa [Nat.zero_mul, Nat.zero_add] at hrun

theorem parse_fails (h : ¬ ∃ v, Numeral s v) : (parse ok bad add s).1 = bad := by
  unfold parse
  split_ifs with hnil
  · rfl
  · exact digits_fails (fun ⟨ds, hs⟩ => h ⟨_, numeral_iff.mpr ⟨hnil, ds, hs, rfl⟩⟩) 0

end Parse

/-- A parser accepts the numerals of 32 bits with their values, and nothing else. -/
def Exact (parser : Str → ℤ × UInt32) (ok bad : ℤ) (s : Str) : Prop :=
  (∀ v < 2 ^ 32, Numeral s v → (parser s).1 = ok ∧ (parser s).2.toNat = v) ∧
    ((¬ ∃ v < 2 ^ 32, Numeral s v) → (parser s).1 = bad)

theorem exact_parse_iff {add : UInt32 → UInt32 → UInt32} (hadd : Shifts add) (hne : ok ≠ bad) :
    Exact (parse ok bad add) ok bad s ↔ ¬ ∃ v, Numeral s v ∧ 2 ^ 32 ≤ v := by
  constructor
  · rintro ⟨-, hbad⟩ ⟨v, hv, hle⟩
    have hnone : ¬ ∃ u < 2 ^ 32, Numeral s u := by
      rintro ⟨u, hlt, hu⟩
      exact absurd hlt (by rw [hu.unique hv]; omega)
    have hans := hbad hnone
    rw [parse_numeral hadd hv] at hans
    exact hne hans
  · intro h
    constructor
    · intro v hlt hv
      rw [parse_numeral hadd hv]
      exact ⟨rfl, by simpa using hlt⟩
    · intro hnone
      refine parse_fails ?_
      rintro ⟨v, hv⟩
      exact h ⟨v, hv, not_lt.mp fun hlt => hnone ⟨v, hlt, hv⟩⟩

theorem parse_agree {add add' : UInt32 → UInt32 → UInt32} {ok' bad' : ℤ} (hadd : Shifts add)
    (hadd' : Shifts add') (hne : ok ≠ bad) (hne' : ok' ≠ bad') (s : Str) :
    ((parse ok bad add s).1 = ok ↔ (parse ok' bad' add' s).1 = ok') ∧
      ((parse ok bad add s).1 = ok → (parse ok bad add s).2 = (parse ok' bad' add' s).2) := by
  by_cases h : ∃ v, Numeral s v
  · obtain ⟨v, hv⟩ := h
    rw [parse_numeral hadd hv, parse_numeral hadd' hv]
    exact ⟨iff_of_true rfl rfl, fun _ => rfl⟩
  · rw [parse_fails h, parse_fails h]
    exact ⟨iff_of_false hne.symm hne'.symm, fun h => absurd h.symm hne⟩

/-- Both parsers accept the numerals of 32 bits and nothing else, exactly when the string is no
numeral that needs more bits. They never disagree. -/
theorem parsers_exact_iff (s : Str) :
    (Exact xtoi 1 0 s ∧ Exact htoi_safe 0 (-1) s ↔ ¬ ∃ v, Numeral s v ∧ 2 ^ 32 ≤ v) ∧
      ((xtoi s).1 = 1 ↔ (htoi_safe s).1 = 0) ∧
      ((xtoi s).1 = 1 → (xtoi s).2 = (htoi_safe s).2) := by
  constructor
  · have hx : Exact xtoi 1 0 s ↔ _ := exact_parse_iff shifts_and (by decide)
    have hh : Exact htoi_safe 0 (-1) s ↔ _ := exact_parse_iff shifts_or (by decide)
    rw [hx, hh, and_self]
  · exact parse_agree shifts_and shifts_or (by decide) (by decide) s

/-- Nine digits are accepted, and the first of them is lost. -/
theorem nine_digits_accepted : ¬ ∀ s, Exact xtoi 1 0 s ∧ Exact htoi_safe 0 (-1) s := by
  intro h
  have hspells : Spells [49, 48, 48, 48, 48, 48, 48, 48, 48] [1, 0, 0, 0, 0, 0, 0, 0, 0] := by
    simp [Spells, digit]
  have hbig : Numeral [49, 48, 48, 48, 48, 48, 48, 48, 48] (2 ^ 32) :=
    .plain (List.cons_ne_nil _ _) hspells
  refine absurd ((h _).1.2 ?_) (show (xtoi [49, 48, 48, 48, 48, 48, 48, 48, 48]).1 ≠ 0 by decide)
  rintro ⟨v, hlt, hv⟩
  exact absurd hlt (by rw [hv.unique hbig]; omega)

end Xv6Sheet.Swap32
