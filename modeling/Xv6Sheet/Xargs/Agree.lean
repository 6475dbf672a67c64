import Xv6Sheet.Lib.Lockstep
import Xv6Sheet.Xargs.Words

/-! # The versions of xargs

`lab2/xargs.c` counts all arguments and goes back to the base command after each word with `-n`.
`COOKED/xargs.c` counts the words of a command and compares their number with a limit. Without
`-n` and with `-n 1` they are in lockstep.
-/

namespace Xv6Sheet.Xargs

open Exec

variable [lim : Limits] {base argv : List Str} {input : List UInt8} {s : Proc} {limit : Option ℕ}

/-- The buffers hold as many bytes, and the arguments are those of the base command and the words.
With `-n` there are no words between two bytes. -/
structure Alike (useN : Bool) (base : ℕ) (v w : ℕ × ℕ) : Prop where
  m : w.1 = v.1
  argc : w.2 = base + v.2
  none : useN = true → v.2 = 0

/-- The limit that stands for the flag of `lab2/xargs.c`. -/
def flagLimit : Bool → ℤ
  | true => 1
  | false => -1

theorem lockstep_turn {useN : Bool} {base : ℕ} {v w : ℕ × ℕ} (c : UInt8)
    (h : Alike useN base v w) : Lockstep Eq (Alike useN base)
      (Cooked.turn (flagLimit useN) base v c) (Lab2.turn useN base w c) := by
  obtain ⟨m, count⟩ := v
  obtain ⟨m', argc⟩ := w
  obtain ⟨hm, hargc, hnone⟩ := h
  dsimp only at hm hargc hnone
  subst hm hargc
  unfold Cooked.turn Lab2.turn
  dsimp only
  split
  swap
  · exact (Lockstep.refl _).bind fun _ _ _ => .pure ⟨rfl, rfl, hnone⟩
  by_cases hm : m' = 0
  · rw [if_pos hm, if_neg (by omega)]
    exact .pure ⟨rfl, rfl, hnone⟩
  rw [if_neg hm, if_pos (Nat.pos_of_ne_zero hm)]
  refine (Lockstep.refl _).bind fun _ _ _ => ?_
  cases useN with
  | false =>
    rw [if_neg (by simp [flagLimit]), if_neg Bool.false_ne_true]
    exact .pure ⟨rfl, rfl, fun h => absurd h Bool.false_ne_true⟩
  | true =>
    obtain rfl := hnone rfl
    rw [if_pos (by simp [flagLimit]), if_pos rfl]
    refine (Lockstep.refl _).bind fun _ _ _ => (Lockstep.refl _).bind fun _ _ _ => ?_
    exact .pure ⟨rfl, rfl, fun _ => rfl⟩

theorem loop_eq (useN : Bool) (start : ℕ) (argv : List Str) (input : List UInt8) :
    Cooked.loop (flagLimit useN) start argv input = Lab2.loop useN start argv input := by
  refine Lockstep.eq ?_
  unfold Cooked.loop Lab2.loop
  have hstart : Alike useN (argv.length - start) (0, 0) (0, argv.length - start) :=
    ⟨rfl, rfl, fun _ => rfl⟩
  refine (Lockstep.refl _).bind fun _ _ _ => ?_
  refine (Lockstep.foldlM (fun _ _ c => lockstep_turn c) input hstart).bind ?_
  rintro ⟨m, count⟩ ⟨m', argc⟩ ⟨-, hargc, hnone⟩
  dsimp only at hargc hnone ⊢
  subst hargc
  refine .ite ?_ (fun _ => .refl _) fun _ => .refl _
  cases useN with
  | false => simp
  | true => simp [hnone rfl]

/-- Without `-n`, and with `-n 1`, the three programs run the same commands with the same
arguments. -/
theorem versions_agree (hlimit : limit = none ∨ limit = some 1) (hbase : base ≠ [])
    (hcall : Cooked.Called base argv limit) (hs : s.ran = [])
    (hfits : Cooked.Fits base limit (words isSpace input)) :
    ∃ t, Ends (Cooked.main argv input) s () t ∧ Ends (Lab2.main argv input) s () t ∧
      Ends (Gemgem.main argv input) s () t := by
  have hmain : Lab2.main argv input = Cooked.main argv input := by
    unfold Lab2.main Cooked.main
    rcases hlimit with rfl | rfl
    · obtain ⟨hhead, name, rfl⟩ := hcall
      have hlen := List.length_pos_iff.mpr hbase
      rw [List.head?_eq_getElem?] at hhead
      rw [if_neg (by simp only [List.length_cons]; omega), List.getElem?_cons_succ, if_neg hhead,
        if_neg hhead]
      exact (loop_eq false 1 _ input).symm
    · obtain ⟨-, name, count, rfl, hcount⟩ := hcall
      rw [if_neg (by simp only [List.length_cons]; omega)]
      simp only [List.getElem?_cons_succ, List.getElem?_cons_zero, if_true, hcount]
      exact (loop_eq true 3 _ input).symm
  obtain ⟨t, ht, -⟩ := Cooked.ends_main hs hcall hfits
  refine ⟨t, ht, ?_, ?_⟩
  · rwa [hmain]
  · rwa [Gemgem.main, hmain]

section Small

omit lim

/-- Two words, one for a command. -/
theorem versions_agree_small :
    letI := Cooked.smallLimits
    ∃ t, Ends (Cooked.main [[120], dashN, [49], [101]] [97, 32, 98, 10]) Cooked.newProc () t ∧
      Ends (Lab2.main [[120], dashN, [49], [101]] [97, 32, 98, 10]) Cooked.newProc () t ∧
      Ends (Gemgem.main [[120], dashN, [49], [101]] [97, 32, 98, 10]) Cooked.newProc () t := by
  let _ := Cooked.smallLimits
  have hcall : Cooked.Called [[101]] [[120], dashN, [49], [101]] (some 1) :=
    ⟨by decide, [120], [49], rfl, by decide⟩
  have hfits : Cooked.Fits [[101]] (some 1) (words isSpace [97, 32, 98, 10]) :=
    ⟨by decide +kernel, by decide +kernel⟩
  exact versions_agree (.inr rfl) (by simp) hcall rfl hfits

end Small

end Xv6Sheet.Xargs
