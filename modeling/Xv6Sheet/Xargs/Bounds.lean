import Xv6Sheet.Xargs.Words

/-! # The arrays of xargs

`lab2/xargs.c` checks neither the length of a word nor the number of words. The buffer has room for
a word and the NUL after it, which is written when a separator ends the word; the array of arguments
has room for the words and the null pointer after them, and with `-n` for one word at a time.
-/

namespace Xv6Sheet.Xargs

open Exec

variable [lim : Limits] {argv : List Str} {input w l : List UInt8} {s : Proc} {i m argc base : ℕ}
  {c : UInt8} {x : Option Str} {useN : Bool}

theorem faults_setArg (h : ¬ i < Limits.MAXARG) : Faults (setArg i x) s .argv := by
  unfold setArg
  rw [if_neg h]
  exact faults_throw.mpr rfl

omit lim in
theorem faults_setBuf (h : ¬ i < bufSize) : Faults (setBuf i c) s .buf := by
  unfold setBuf
  rw [if_neg h]
  exact faults_throw.mpr rfl

theorem ends_copyWord (hm : m < bufSize) (hargc : argc < Limits.MAXARG) :
    ∃ t, Ends (copyWord argc m) s () t :=
  ⟨_, (ends_setBuf hm).bind (ends_get_bind.mpr (ends_setArg hargc))⟩

theorem faults_copyWord (h : ¬ (m < bufSize ∧ argc < Limits.MAXARG)) :
    ∃ e, Faults (copyWord argc m) s e := by
  unfold copyWord
  by_cases hm : m < bufSize
  · have hargc : ¬ argc < Limits.MAXARG := fun hlt => h ⟨hm, hlt⟩
    exact ⟨_, faults_bind.mpr (.inr ⟨(), _, ends_setBuf hm,
      faults_get_bind.mpr (faults_setArg hargc)⟩)⟩
  · exact ⟨_, faults_bind.mpr (.inl (faults_setBuf hm))⟩

omit lim in
theorem ends_run_of_any [Limits] (s : Proc) : ∃ t, Ends run s () t := ⟨_, ends_modify.mpr rfl⟩

namespace Lab2

def argcAfter (useN : Bool) (base argc : ℕ) : ℕ := if useN then base else argc + 1

theorem ends_turn_letter (hc : isSpace c = false) (hm : m < bufSize) :
    ∃ t, Ends (turn useN base (m, argc) c) s (m + 1, argc) t := by
  unfold turn
  simp only [hc, Bool.false_eq_true, if_false]
  exact ⟨_, (ends_setBuf hm).bind (ends_pure.mpr ⟨rfl, rfl⟩)⟩

theorem faults_turn_letter (hc : isSpace c = false) (hm : ¬ m < bufSize) :
    ∃ e, Faults (turn useN base (m, argc) c) s e := by
  unfold turn
  simp only [hc, Bool.false_eq_true, if_false]
  exact ⟨_, faults_bind.mpr (.inl (faults_setBuf hm))⟩

theorem ends_turn_space (hc : isSpace c = true) :
    Ends (turn useN base (0, argc) c) s (0, argc) s := by
  unfold turn
  simp only [hc, if_true, Nat.lt_irrefl, if_false]
  exact ends_pure.mpr ⟨rfl, rfl⟩

theorem ends_turn_word (hc : isSpace c = true) (hpos : 0 < m) (hm : m < bufSize)
    (hargc : argc < Limits.MAXARG) (hrun : useN = true → argc + 1 < Limits.MAXARG) :
    ∃ t, Ends (turn useN base (m, argc) c) s (0, argcAfter useN base argc) t := by
  unfold turn
  simp only [hc, if_true, hpos]
  obtain ⟨t, ht⟩ := ends_copyWord (s := s) hm hargc
  cases useN with
  | false => exact ⟨t, ht.bind (ends_pure.mpr ⟨rfl, rfl⟩)⟩
  | true =>
    obtain ⟨u, hu⟩ := ends_run_of_any { t with argv := Function.update t.argv (argc + 1) none }
    exact ⟨u, ht.bind ((ends_setArg (hrun rfl)).bind (hu.bind (ends_pure.mpr ⟨rfl, rfl⟩)))⟩

theorem faults_turn_word (hc : isSpace c = true) (hpos : 0 < m)
    (h : ¬ (m < bufSize ∧ argc < Limits.MAXARG)) :
    ∃ e, Faults (turn useN base (m, argc) c) s e := by
  unfold turn
  simp only [hc, if_true, hpos]
  obtain ⟨e, he⟩ := faults_copyWord (s := s) h
  exact ⟨e, faults_bind.mpr (.inl he)⟩

/-- The words of the input have room: those that a separator ends with a NUL, the last run without,
and all that are ended side by side, unless they are passed on one at a time. -/
structure Room (useN : Bool) (argc : ℕ) (l : List UInt8) : Prop where
  word : ∀ w ∈ endedWords isSpace l, w.length < bufSize
  last : (lastRun isSpace l).length ≤ bufSize
  args : useN = false → argc + (endedWords isSpace l).length ≤ Limits.MAXARG

def argcAt (useN : Bool) (argc : ℕ) (l : List UInt8) : ℕ :=
  if useN then argc else argc + (endedWords isSpace l).length

theorem room_space (hc : isSpace c = true) : Room useN argc (c :: l) ↔ Room useN argc l := by
  have hended := endedWords_append_cons (w := []) (by simp) hc l
  have hlast := lastRun_append_cons (w := []) (by simp) hc l
  rw [List.nil_append, if_pos rfl] at hended
  rw [List.nil_append] at hlast
  constructor <;> rintro ⟨hword, hrun, hargs⟩
  all_goals constructor
  all_goals simp_all

theorem room_word (hw : ∀ y ∈ w, isSpace y = false) (hne : w ≠ []) (hc : isSpace c = true)
    (hbase : useN = true → argc = base) : Room useN argc (w ++ c :: l) ↔
      w.length < bufSize ∧ Room useN (argcAfter useN base argc) l := by
  have hended := endedWords_append_cons hw hc l
  rw [if_neg hne] at hended
  constructor
  · rintro ⟨hword, hlast, hargs⟩
    rw [hended] at hword hargs
    rw [lastRun_append_cons hw hc] at hlast
    refine ⟨hword w List.mem_cons_self, fun v hv => hword v (List.mem_cons_of_mem _ hv), hlast, ?_⟩
    rintro rfl
    have hle := hargs rfl
    simp only [List.length_cons, argcAfter, Bool.false_eq_true, if_false] at hle ⊢
    omega
  · rintro ⟨hlt, hword, hlast, hargs⟩
    constructor
    · rw [hended]
      intro v hv
      rcases List.mem_cons.mp hv with rfl | hv
      · exact hlt
      · exact hword v hv
    · rwa [lastRun_append_cons hw hc]
    · rintro rfl
      have hle := hargs rfl
      rw [hended]
      simp only [List.length_cons, argcAfter, Bool.false_eq_true, if_false] at hle ⊢
      omega

omit lim in
theorem argcAt_space (hc : isSpace c = true) : argcAt useN argc (c :: l) = argcAt useN argc l := by
  have hended := endedWords_append_cons (w := []) (by simp) hc l
  rw [List.nil_append, if_pos rfl] at hended
  unfold argcAt
  rw [hended]

omit lim in
theorem argcAt_word (hw : ∀ y ∈ w, isSpace y = false) (hne : w ≠ []) (hc : isSpace c = true)
    (hbase : useN = true → argc = base) :
    argcAt useN argc (w ++ c :: l) = argcAt useN (argcAfter useN base argc) l := by
  unfold argcAt argcAfter
  rw [endedWords_append_cons hw hc, if_neg hne, List.length_cons]
  cases useN with
  | false =>
    simp only [Bool.false_eq_true, if_false]
    omega
  | true => simp [hbase rfl]

/-- The loop stays in the arrays exactly when the words have room. The induction is over what is
still to come, with the word in the buffer before it. -/
theorem foldlM_room (hw : ∀ y ∈ w, isSpace y = false) (hm : w.length ≤ bufSize)
    (hargc : argc ≤ Limits.MAXARG)
    (hrun : useN = true → argc = base ∧ base + 1 < Limits.MAXARG) (l : List UInt8) :
    (Room useN argc (w ++ l) → ∃ m t, Ends (l.foldlM (turn useN base) (w.length, argc)) s
      (m, argcAt useN argc (w ++ l)) t) ∧
    (¬ Room useN argc (w ++ l) → ∃ e, Faults (l.foldlM (turn useN base) (w.length, argc)) s e) := by
  induction l generalizing w argc s with
  | nil =>
    have hended := endedWords_of_forall hw
    constructor
    · rintro -
      refine ⟨w.length, s, ends_pure.mpr ⟨?_, rfl⟩⟩
      simp [argcAt, hended]
    · intro hno
      refine absurd ⟨?_, ?_, ?_⟩ hno <;> simp [hended, lastRun_of_forall hw, hm, hargc]
  | cons c l ih =>
    rw [List.foldlM_cons]
    cases hc : isSpace c with
    | false =>
      have hrest := fun t => @ih (w ++ [c]) t argc (forall_concat hw hc)
      simp only [List.append_assoc, List.singleton_append, List.length_append,
        List.length_singleton] at hrest
      by_cases hlt : w.length < bufSize
      · obtain ⟨t, ht⟩ : ∃ t, Ends (turn useN base (w.length, argc) c) s (w.length + 1, argc) t :=
          ends_turn_letter hc hlt
        obtain ⟨hgood, hbad⟩ := hrest t hlt hargc hrun
        constructor
        · intro hroom
          obtain ⟨m, u, hu⟩ := hgood hroom
          exact ⟨m, u, ht.bind hu⟩
        · intro hroom
          obtain ⟨e, he⟩ := hbad hroom
          exact ⟨e, faults_bind.mpr (.inr ⟨_, t, ht, he⟩)⟩
      · constructor
        · -- the run with this byte is longer than the buffer
          intro hroom
          have hlen : bufSize < (w ++ [c]).length := by
            rw [List.length_append, List.length_singleton]
            omega
          rcases prefix_run (forall_concat hw hc) (by simp) l with ⟨v, hv, hle⟩ | hle
          all_goals rw [List.append_assoc, List.singleton_append] at *
          · have hword := hroom.word v hv
            have hlong := hle.length_le
            omega
          · have hlast := hroom.last
            have hlong := hle.length_le
            omega
        · rintro -
          obtain ⟨e, he⟩ : ∃ e, Faults (turn useN base (w.length, argc) c) s e :=
            faults_turn_letter hc hlt
          exact ⟨e, faults_bind.mpr (.inl he)⟩
    | true =>
      by_cases hnil : w = []
      · subst hnil
        have hturn : Ends (turn useN base (0, argc) c) s (0, argc) s := ends_turn_space hc
        obtain ⟨hgood, hbad⟩ := @ih [] s argc (by simp) hm hargc hrun
        rw [List.nil_append] at hgood hbad ⊢
        rw [room_space hc, argcAt_space hc]
        constructor
        · intro hroom
          obtain ⟨m, u, hu⟩ := hgood hroom
          exact ⟨m, u, hturn.bind hu⟩
        · intro hroom
          obtain ⟨e, he⟩ := hbad hroom
          exact ⟨e, faults_bind.mpr (.inr ⟨_, s, hturn, he⟩)⟩
      · have hpos := List.length_pos_iff.mpr hnil
        have hbase : useN = true → argc = base := fun h => (hrun h).1
        rw [room_word hw hnil hc hbase, argcAt_word hw hnil hc hbase]
        by_cases hfit : w.length < bufSize ∧ argc < Limits.MAXARG
        · obtain ⟨hlt, hargc'⟩ := hfit
          obtain ⟨t, ht⟩ : ∃ t, Ends (turn useN base (w.length, argc) c) s
              (0, argcAfter useN base argc) t :=
            ends_turn_word hc hpos hlt hargc' fun h => by rw [(hrun h).1]; exact (hrun h).2
          have hnext : argcAfter useN base argc ≤ Limits.MAXARG := by
            unfold argcAfter
            split
            · rename_i h
              have hlt := (hrun h).2
              omega
            · exact hargc'
          obtain ⟨hgood, hbad⟩ := @ih [] t _ (by simp) (Nat.zero_le _) hnext
            fun h => ⟨if_pos h, (hrun h).2⟩
          rw [List.nil_append] at hgood hbad
          constructor
          · rintro ⟨-, hroom⟩
            obtain ⟨m, u, hu⟩ := hgood hroom
            exact ⟨m, u, ht.bind hu⟩
          · intro hroom
            obtain ⟨e, he⟩ := hbad fun h => hroom ⟨hlt, h⟩
            exact ⟨e, faults_bind.mpr (.inr ⟨_, t, ht, he⟩)⟩
        · constructor
          · rintro ⟨hlt, hroom⟩
            refine absurd ⟨hlt, ?_⟩ hfit
            cases useN with
            | false =>
              have hle := hroom.args rfl
              simp only [argcAfter, Bool.false_eq_true, if_false] at hle
              omega
            | true =>
              have hlt := hrun rfl
              omega
          · rintro -
            obtain ⟨e, he⟩ : ∃ e, Faults (turn useN base (w.length, argc) c) s e :=
              faults_turn_word hc hpos hfit
            exact ⟨e, faults_bind.mpr (.inl he)⟩

/-- The program after its options stays in its arrays exactly when the words have room and, without
`-n`, the null pointer has room after them. -/
theorem loop_safe_iff {start : ℕ} (hbase : argv.length - start < Limits.MAXARG)
    (hrun : useN = true → argv.length - start + 1 < Limits.MAXARG) :
    (∀ e, ¬ Faults (loop useN start argv input) s e) ↔ Room useN (argv.length - start) input ∧
      (useN = false → argv.length - start + (endedWords isSpace input).length < Limits.MAXARG) := by
  obtain ⟨t, hcopy, -⟩ := ends_copyArgs s argv start hbase.le
  obtain ⟨hgood, hbad⟩ := foldlM_room (s := t) (w := []) (by simp) (Nat.zero_le _) hbase.le
    (fun h => ⟨rfl, hrun h⟩) input
  rw [List.nil_append] at hgood hbad
  by_cases hroom : Room useN (argv.length - start) input
  swap
  · refine iff_of_false (fun hsafe => ?_) fun h => hroom h.1
    obtain ⟨e, he⟩ := hbad hroom
    exact hsafe e (faults_bind.mpr (.inr ⟨_, t, hcopy, faults_bind.mpr (.inl he)⟩))
  obtain ⟨m, u, hfold⟩ := hgood hroom
  -- what is left is the null pointer of the last command
  have hend : ∀ e, Faults (loop useN start argv input) s e ↔
    Faults (if !useN ∧ argv.length - start <
      argcAt useN (argv.length - start) input then do
        setArg (argcAt useN (argv.length - start) input) none
        run
      else return () : ProcM Unit) u e := fun e =>
    (hcopy.faults_iff _ e).trans (hfold.faults_iff _ e)
  simp only [hend, hroom, true_and]
  cases useN with
  | true =>
    simp only [Bool.not_true, Bool.false_eq_true, false_and, if_false, faults_pure,
      not_false_eq_true,
      implies_true, reduceCtorEq, false_implies]
  | false =>
    simp only [argcAt, Bool.not_false, true_and, Bool.false_eq_true, if_false, forall_const]
    constructor
    · intro hsafe
      by_contra hno
      have hlt : argv.length - start <
          argv.length - start + (endedWords isSpace input).length := by omega
      rw [if_pos hlt] at hsafe
      exact hsafe _ (faults_bind.mpr (.inl (faults_setArg hno)))
    · intro hlt e he
      split at he
      · obtain ⟨v, hv⟩ := ends_run_of_any { u with argv := Function.update u.argv _ none }
        exact ((ends_setArg hlt).bind hv).not_faults he
      · exact faults_pure he

/-- The program stays in its arrays exactly when it has no command, or every word of the input has
room: a word that a separator ends leaves room for a NUL, what is left at the end fills the buffer
at most, and without `-n` the arguments and the words leave room for a null pointer. -/
theorem stays_inside_iff (hargc : argv.length < Limits.MAXARG) :
    (∀ e, ¬ Faults (main argv input) s e) ↔ argv.length < 2 ∨
      (∀ w ∈ endedWords isSpace input, w.length < bufSize) ∧
      (lastRun isSpace input).length ≤ bufSize ∧
      (argv[1]? ≠ some dashN → argv.length - 1 + (endedWords isSpace input).length <
      Limits.MAXARG) := by
  unfold main
  by_cases hnone : argv.length < 2
  · rw [if_pos hnone]
    exact iff_of_true (fun e => faults_pure) (.inl hnone)
  rw [if_neg hnone]
  by_cases hn : argv[1]? = some dashN
  · rw [if_pos hn, loop_safe_iff (by omega) fun _ => by omega]
    constructor
    · rintro ⟨⟨hword, hlast, -⟩, -⟩
      exact .inr ⟨hword, hlast, fun h => absurd hn h⟩
    · rintro (h | ⟨hword, hlast, -⟩)
      · exact absurd h hnone
      · exact ⟨⟨hword, hlast, by simp⟩, by simp⟩
  · rw [if_neg hn, loop_safe_iff (by omega) (by simp)]
    constructor
    · rintro ⟨⟨hword, hlast, -⟩, hargs⟩
      exact .inr ⟨hword, hlast, fun _ => hargs rfl⟩
    · rintro (h | ⟨hword, hlast, hargs⟩)
      · exact absurd h hnone
      · exact ⟨⟨hword, hlast, fun _ => (hargs hn).le⟩, fun _ => hargs hn⟩

section Small

omit lim

/-- The command `x e` and three words on two lines, the last of which does not end. -/
theorem stays_inside_small :
    letI := Cooked.smallLimits
    ¬ ∃ e, Faults (main [[120], [101]] [97, 98, 32, 99, 10, 100, 101, 102]) Cooked.newProc e := by
  let _ := Cooked.smallLimits
  rintro ⟨e, he⟩
  exact (stays_inside_iff (by decide)).mpr
    (.inr ⟨by decide +kernel, by decide +kernel, by decide +kernel⟩) e he

/-- Thirty-one words leave no room for the null pointer. -/
theorem many_words_overflow :
    letI := Cooked.smallLimits
    Faults (main [[120], [101]] (List.replicate 31 [97, 32]).flatten) Cooked.newProc .argv := by
  let _ := Cooked.smallLimits
  exact faults_of_fault (by decide +kernel)

end Small

end Lab2

end Xv6Sheet.Xargs
