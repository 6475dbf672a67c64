import Mathlib.Data.List.TakeWhile
import Xv6Sheet.Lib.Words
import Xv6Sheet.Xargs.Command

/-! # The words that are passed on

The loop of `COOKED/xargs.c` is a scanner that collects the words of the input in groups. It
forgets the word that it is at when the input ends.
-/

namespace Xv6Sheet.Xargs

open Exec

theorem arguments_eq {argv : ℕ → Option Str} {cmd : List Str} {n : ℕ}
    (h : ∀ i ≤ cmd.length, argv i = cmd[i]?) (hn : cmd.length < n) :
    arguments argv n = some cmd := by
  induction cmd generalizing argv n with
  | nil =>
    obtain ⟨n, rfl⟩ := Nat.exists_eq_add_of_lt hn
    have h0 : argv 0 = none := h 0 (Nat.le_refl _)
    rw [arguments, h0]
  | cons x cmd ih =>
    obtain ⟨n, rfl⟩ := Nat.exists_eq_add_of_lt hn
    have h0 : argv 0 = some x := h 0 (Nat.zero_le _)
    rw [arguments, h0]
    dsimp only
    rw [ih (fun i hi => h (i + 1) (Nat.succ_le_succ hi)) (by simp only [List.length_cons]; omega)]
    rfl

variable [lim : Limits] {base : List Str} {argv : List Str} {input l : List UInt8} {s t : Proc}
  {v : ℕ × ℕ} {c : UInt8} {i k : ℕ} {x : Option Str} {limit : Option ℕ} {sc : Scan UInt8}
  {ws : List Str}

theorem ends_setArg (h : i < Limits.MAXARG) :
    Ends (setArg i x) s () { s with argv := Function.update s.argv i x } := by
  unfold setArg
  rw [if_pos h]
  exact ends_modify.mpr rfl

omit lim in
theorem ends_setBuf (h : i < bufSize) :
    Ends (setBuf i c) s () { s with buf := Function.update s.buf i c } := by
  unfold setBuf
  rw [if_pos h]
  exact ends_modify.mpr rfl

theorem ends_run {cmd : List Str} (h : ∀ i ≤ cmd.length, s.argv i = cmd[i]?)
    (hlt : cmd.length < Limits.MAXARG) : Ends run s () { s with ran := s.ran ++ [cmd] } := by
  unfold run
  rw [ends_modify, arguments_eq h hlt]

theorem ends_copyArgs (s : Proc) (argv : List Str) (start : ℕ)
    (h : argv.length - start ≤ Limits.MAXARG) :
    ∃ t, Ends (copyArgs argv start) s () t ∧ t.ran = s.ran ∧
      ∀ i < argv.length - start, t.argv i = argv[start + i]? := by
  obtain ⟨t, ht, hran, hargv⟩ := each_ends (f := fun i => setArg (i - start) argv[i]?)
    (I := fun k t => t.ran = s.ran ∧ ∀ i < k - start, t.argv i = argv[start + i]?) (k := start)
    (n := argv.length - start) (s := s) ⟨rfl, fun i hi => by omega⟩ (by
      rintro i t hi hlt ⟨hran, hargv⟩
      refine ⟨_, ends_setArg (by omega), hran, fun j hj => ?_⟩
      dsimp only
      by_cases hji : j = i - start
      · subst hji
        rw [Function.update_self, Nat.add_sub_cancel' hi]
      · rw [Function.update_of_ne hji]
        exact hargv j (by omega))
  exact ⟨t, ht, hran, fun i hi => hargv i (by omega)⟩

omit lim in
theorem cString_eq_self {w : Str} (h : 0 ∉ w) : cString w = w :=
  List.takeWhile_eq_self_iff.mpr fun _ hc => decide_eq_true fun h0 => h (h0 ▸ hc)

namespace Cooked

def limitOf : Option ℕ → ℤ
  | none => -1
  | some n => n

def command (base group : List Str) : List Str := base ++ group.map cString

omit lim in
@[simp] theorem length_command (base group : List Str) :
    (command base group).length = base.length + group.length := by
  simp [command]

omit lim in
@[simp] theorem command_nil (base : List Str) : command base [] = base := List.append_nil base

omit lim in
theorem command_concat (base group : List Str) (w : Str) :
    command base (group ++ [w]) = command base group ++ [cString w] := by
  simp [command]

structure Holds (base : List Str) (sc : Scan UInt8) (v : ℕ × ℕ) (t : Proc) : Prop where
  m : v.1 = sc.word.length
  count : v.2 = sc.group.length
  buf : t.buf.toList sc.word.length = sc.word
  argv : ∀ i < base.length + sc.group.length, t.argv i = (command base sc.group)[i]?
  ran : t.ran = sc.done.map (command base)

omit lim in
theorem limit_iff : limitOf limit ≠ -1 ∧ (k : ℤ) = limitOf limit ↔ limit = some k := by
  cases limit with
  | none => simp [limitOf]
  | some n =>
    simp only [limitOf, Nat.cast_inj, Option.some.injEq]
    omega

theorem run_command {group : List Str}
    (hargv : ∀ i < base.length + group.length, t.argv i = (command base group)[i]?)
    (hlt : base.length + group.length < Limits.MAXARG) : Ends (do
      setArg (base.length + group.length) none
      Xargs.run) t () { t with
        argv := Function.update t.argv (base.length + group.length) none
        ran := t.ran ++ [command base group] } := by
  refine (ends_setArg hlt).bind (ends_run (fun i hi => ?_) (by rwa [length_command]))
  rw [length_command] at hi
  dsimp only
  by_cases hend : i = base.length + group.length
  · subst hend
    rw [Function.update_self, ← length_command, List.getElem?_eq_none (Nat.le_refl _)]
  · rw [Function.update_of_ne hend]
    exact hargv i (by omega)

theorem Holds.turn (h : Holds base sc v t) (limit : Option ℕ) (c : UInt8)
    (hword : sc.word.length < bufSize)
    (hroom : isSpace c = true → sc.word ≠ [] → base.length + sc.group.length + 1 < Limits.MAXARG) :
    ∃ v' t', Ends (turn (limitOf limit) base.length v c) t v' t' ∧
      Holds base (sc.step isSpace limit c) v' t' := by
  obtain ⟨m, count⟩ := v
  obtain ⟨rfl, rfl, hbuf, hargv, hran⟩ := h
  unfold Cooked.turn Scan.step
  dsimp only
  split
  swap
  · refine ⟨_, _, (ends_setBuf hword).bind
      (ends_pure.mpr ⟨rfl, rfl⟩), by simp, rfl, ?_, hargv, hran⟩
    dsimp only
    rw [List.length_append, List.length_singleton, Bytes.toList_update, hbuf]
  rename_i hspace
  by_cases hnil : sc.word = []
  · rw [if_pos (List.length_eq_zero_iff.mpr hnil), if_pos hnil]
    exact ⟨_, t, ends_pure.mpr ⟨rfl, rfl⟩, rfl, rfl, hbuf, hargv, hran⟩
  rw [if_neg (mt List.length_eq_zero_iff.mp hnil), if_neg hnil]
  have hroom := hroom hspace hnil
  -- the word becomes an argument
  obtain ⟨t₁, ht₁⟩ : ∃ t₁ : Proc, t₁ = { t with
    buf := Function.update t.buf sc.word.length 0
    argv := Function.update t.argv (base.length + sc.group.length) (some (cString sc.word)) } :=
    ⟨_, rfl⟩
  have hcopy : Ends (copyWord (base.length + sc.group.length) sc.word.length) t () t₁ := by
    refine (ends_setBuf hword).bind (ends_get_bind.mpr ?_)
    dsimp only
    rw [Bytes.str_update_zero hbuf, ht₁]
    exact ends_setArg (by omega)
  have hargv₁ : ∀ i < base.length + (sc.group ++ [sc.word]).length,
      t₁.argv i = (command base (sc.group ++ [sc.word]))[i]? := fun i hi => by
    rw [List.length_append, List.length_singleton] at hi
    rw [command_concat, ht₁]
    dsimp only
    by_cases hend : i = base.length + sc.group.length
    · subst hend
      rw [Function.update_self, ← length_command, List.getElem?_concat_length]
    · have hlt : i < (command base sc.group).length := by rw [length_command]; omega
      rw [Function.update_of_ne hend, List.getElem?_append_left hlt]
      exact hargv i (by omega)
  have hran₁ : t₁.ran = sc.done.map (command base) := by rw [ht₁]; exact hran
  by_cases hfull : limit = some (sc.group.length + 1)
  · rw [if_pos hfull]
    have hrun := run_command hargv₁ (by rw [List.length_append, List.length_singleton]; omega)
    rw [List.length_append, List.length_singleton] at hrun
    obtain ⟨_, u, hset, hrun⟩ := ends_bind.mp hrun
    refine ⟨(0, 0), { t₁ with
        argv := Function.update t₁.argv (base.length + (sc.group.length + 1)) none
        ran := t₁.ran ++ [command base (sc.group ++ [sc.word])] },
      hcopy.bind ?_, rfl, rfl, rfl, fun i hi => ?_, ?_⟩
    · rw [if_pos (limit_iff.mpr hfull)]
      exact hset.bind (hrun.bind (ends_pure.mpr ⟨rfl, rfl⟩))
    · rw [List.length_nil] at hi
      dsimp only
      rw [Function.update_of_ne (by omega), hargv₁ i (by rw [List.length_append]; omega), command,
        List.getElem?_append_left (by omega), command_nil]
    · dsimp only
      rw [hran₁, List.map_append, List.map_singleton]
  · rw [if_neg hfull]
    refine ⟨(0, sc.group.length + 1), t₁, hcopy.bind ?_, rfl, by simp, rfl, hargv₁, hran₁⟩
    rw [if_neg (mt limit_iff.mp hfull)]
    exact ends_pure.mpr ⟨rfl, rfl⟩

def most : Option ℕ → ℕ → ℕ
  | none, k => k
  | some n, k => min n k

/-- Every word has room in the buffer, and the words of a command have room in the array. -/
structure Fits (base : List Str) (limit : Option ℕ) (ws : List Str) : Prop where
  word : ∀ w ∈ ws, w.length < bufSize
  argv : base.length + most limit ws.length < Limits.MAXARG

theorem Fits.lt (h : Fits base limit ws) (hk : k ≤ ws.length) (hn : ∀ n, limit = some n → k ≤ n) :
    base.length + k < Limits.MAXARG := by
  have hargv := h.argv
  cases hlimit : limit with
  | none =>
    rw [hlimit, most] at hargv
    omega
  | some n =>
    have hle := hn n hlimit
    rw [hlimit, most] at hargv
    omega

theorem Holds.foldlM (h : Holds base sc v t) (hsound : sc.Sound isSpace limit)
    (hlimit : limit ≠ some 0) (hfits : Fits base limit ws)
    (hws : sc.done.flatten ++ sc.group ++ words isSpace (sc.word ++ l) = ws) :
    ∃ v' t', Ends (l.foldlM (Cooked.turn (limitOf limit) base.length) v) t v' t' ∧
      Holds base (l.foldl (Scan.step isSpace limit) sc) v' t' := by
  induction l generalizing sc v t with
  | nil => exact ⟨v, t, ends_pure.mpr ⟨rfl, rfl⟩, h⟩
  | cons c l ih =>
    have hword : sc.word.length < bufSize := by
      by_cases hnil : sc.word = []
      · rw [hnil]
        decide
      · obtain ⟨w, hw, hle⟩ := exists_word (l := c :: l) hsound.word hnil
        refine lt_of_le_of_lt hle.length_le (hfits.word w ?_)
        rw [← hws]
        exact List.mem_append_right _ hw
    obtain ⟨v₁, t₁, hturn, h₁⟩ := h.turn limit c hword fun hc hnil => by
      rw [words_append_cons hsound.word hc, if_neg hnil] at hws
      have hlen := congrArg List.length hws
      simp only [List.length_append, List.length_cons] at hlen
      exact hfits.lt (k := sc.group.length + 1) (by omega) hsound.group
    obtain ⟨v₂, t₂, hloop, h₂⟩ := ih h₁ (hsound.step hlimit c)
      ((hsound.words_step c l).trans hws)
    exact ⟨v₂, t₂, hturn.bind hloop, h₂⟩

/-- The program after its options runs the base command with each group of the scanner. -/
theorem ends_loop (limit : Option ℕ) (start : ℕ) (hs : s.ran = []) (hbase : argv.drop start = base)
    (hlimit : limit ≠ some 0) (hfits : Fits base limit (words isSpace input)) :
    ∃ t, Ends (loop (limitOf limit) start argv input) s () t ∧
      t.ran = (input.foldl (Scan.step isSpace limit) ⟨[], [], []⟩).groups.map (command base) := by
  have hlen : argv.length - start = base.length := by rw [← hbase, List.length_drop]
  have hargv := hfits.argv
  obtain ⟨t₀, hcopy, hran, hargs⟩ := ends_copyArgs s argv start (by omega)
  obtain ⟨sc, hsc⟩ : ∃ sc, sc = input.foldl (Scan.step isSpace limit) ⟨[], [], []⟩ := ⟨_, rfl⟩
  have hzero : (⟨[], [], []⟩ : Scan UInt8).Sound isSpace limit := Scan.sound_nil hlimit
  have hstart : Holds base ⟨[], [], []⟩ (0, 0) t₀ := by
    refine ⟨rfl, rfl, rfl, fun i hi => ?_, hran.trans hs⟩
    rw [List.length_nil] at hi
    rw [hargs i (by omega), command_nil, ← hbase, List.getElem?_drop]
  obtain ⟨⟨m, count⟩, t₁, hfold, h₁⟩ := hstart.foldlM hzero hlimit hfits rfl
  have hsound := hzero.foldl hlimit input
  have hws := hzero.words_foldl hlimit input
  rw [← hsc] at h₁ hsound hws ⊢
  obtain ⟨-, rfl, -, hargv₁, hran₁⟩ := h₁
  unfold loop
  rw [hlen]
  by_cases hgroup : sc.group = []
  · refine ⟨t₁, hcopy.bind (hfold.bind ?_), ?_⟩
    · dsimp only
      rw [hgroup, List.length_nil, if_neg (Nat.lt_irrefl 0)]
      exact ends_pure.mpr ⟨rfl, rfl⟩
    · rw [hran₁, Scan.groups, if_pos hgroup]
  · have hle := congrArg List.length hws
    simp only [List.flatten_nil, List.nil_append, List.length_append] at hle
    have hlt := hfits.lt (k := sc.group.length) (by omega) fun n hn => (hsound.group n hn).le
    have hrun := run_command hargv₁ hlt
    refine ⟨{ t₁ with
      argv := Function.update t₁.argv (base.length + sc.group.length) none
      ran := t₁.ran ++ [command base sc.group] }, hcopy.bind (hfold.bind ?_), ?_⟩
    · dsimp only
      rw [if_pos (List.length_pos_iff.mpr hgroup)]
      exact hrun
    · dsimp only
      rw [hran₁, Scan.groups, if_neg hgroup, List.map_append, List.map_singleton]

/-- The program is called with the base command, and with `-n` and a number or without. -/
def Called (base argv : List Str) : Option ℕ → Prop
  | none => base.head? ≠ some dashN ∧ ∃ name, argv = name :: base
  | some n => 0 < n ∧ ∃ name count, argv = name :: dashN :: count :: base ∧ atoi count = n

def Passes (base : List Str) (limit : Option ℕ) (ws : List Str) (t : Proc) : Prop :=
  ∃ gs, Grouped limit gs ∧ gs.flatten = ws ∧ t.ran = gs.map (base ++ ·)

theorem ends_main (hs : s.ran = []) (hcall : Called base argv limit)
    (hfits : Fits base limit (words isSpace input)) :
    ∃ t, Ends (main argv input) s () t ∧
      t.ran = (input.foldl (Scan.step isSpace limit) ⟨[], [], []⟩).groups.map (command base) := by
  unfold main
  cases limit with
  | none =>
    obtain ⟨hhead, name, rfl⟩ := hcall
    rw [if_neg (by rwa [List.getElem?_cons_succ, ← List.head?_eq_getElem?])]
    exact ends_loop none 1 hs rfl (by simp) hfits
  | some n =>
    obtain ⟨hn, name, count, rfl, hcount⟩ := hcall
    rw [if_pos (show (name :: dashN :: count :: base)[1]? = some dashN from rfl)]
    have hdrop : (name :: dashN :: count :: base).drop 3 = base := rfl
    have hloop := ends_loop (some n) 3 hs hdrop (by simp; omega) hfits
    rw [limitOf, ← hcount] at hloop
    exact hloop

/-- Every word of the input is passed on exactly when the input is empty or ends in a separator. -/
theorem words_passed_iff (hs : s.ran = []) (hcall : Called base argv limit)
    (hfits : Fits base limit (words isSpace input)) (hnul : 0 ∉ input) :
    ∃ t, Ends (main argv input) s () t ∧
      (Passes base limit (words isSpace input) t ↔ ∀ c ∈ input.getLast?, isSpace c = true) := by
  have hlimit : limit ≠ some 0 := by
    rintro rfl
    exact absurd hcall.1 (by simp)
  have hzero : (⟨[], [], []⟩ : Scan UInt8).Sound isSpace limit := Scan.sound_nil hlimit
  obtain ⟨t, ht, hran⟩ := ends_main hs hcall hfits
  refine ⟨t, ht, ?_⟩
  rw [← Scan.word_foldl_eq_nil isSpace limit input]
  have hws := hzero.words_foldl hlimit input
  have hsound := hzero.foldl hlimit input
  obtain ⟨sc, hsc⟩ : ∃ sc, sc = input.foldl (Scan.step isSpace limit) ⟨[], [], []⟩ := ⟨_, rfl⟩
  rw [← hsc] at hran hws hsound ⊢
  rw [← Scan.flatten_groups, words_of_forall hsound.word] at hws
  simp only [List.flatten_nil, List.nil_append] at hws
  -- the words are strings
  have hstr : ∀ g ∈ sc.groups, command base g = base ++ g := fun g hg => by
    have hmap : g.map cString = g.map id := List.map_congr_left fun w hw => by
      refine cString_eq_self fun h0 => hnul ?_
      refine mem_of_mem_words (p := isSpace) (w := []) (by simp) ?_ h0
      rw [List.nil_append, ← hws]
      exact List.mem_append_left _ (List.mem_flatten_of_mem hg hw)
    rw [command, hmap, List.map_id]
  rw [List.map_congr_left hstr] at hran
  constructor
  · rintro ⟨gs, -, hflat, hgs⟩
    obtain rfl : gs = sc.groups :=
      List.map_injective_iff.mpr (List.append_right_injective base) (hgs.symm.trans hran)
    rw [hflat] at hws
    by_contra hne
    rw [if_neg hne] at hws
    simp at hws
  · rintro hnil
    rw [if_pos hnil, List.append_nil] at hws
    exact ⟨sc.groups, hsound.grouped, hws, hran⟩

section Small

omit lim

@[reducible] def smallLimits : Limits := ⟨32⟩

def newProc : Proc := ⟨fun _ => none, fun _ => 0, []⟩

/-- The words `a`, `b` and `c`, two for a command. -/
theorem words_passed_small :
    letI := smallLimits
    ∃ t, Ends (main [[120], dashN, [50], [101]] [97, 32, 98, 10, 99, 10]) newProc () t ∧
      Passes [[101]] (some 2) (words isSpace [97, 32, 98, 10, 99, 10]) t := by
  let _ := smallLimits
  have hcall : Called [[101]] [[120], dashN, [50], [101]] (some 2) :=
    ⟨by decide, [120], [50], rfl, by decide⟩
  have hfits : Fits [[101]] (some 2) (words isSpace [97, 32, 98, 10, 99, 10]) :=
    ⟨by decide +kernel, by decide +kernel⟩
  obtain ⟨t, ht, hpass⟩ := words_passed_iff (s := newProc) rfl hcall hfits (by decide)
  exact ⟨t, ht, hpass.mpr (by decide +kernel)⟩

/-- The word `b` is at the end of the input, and is lost. -/
theorem last_word_lost :
    letI := smallLimits
    ∃ t, Ends (main [[120], [101]] [97, 32, 98]) newProc () t ∧ t.ran = [[[101], [97]]] ∧
      ¬ Passes [[101]] none (words isSpace [97, 32, 98]) t := by
  let _ := smallLimits
  have h := ends_answer (m := main [[120], [101]] [97, 32, 98]) (s := newProc) (a := ())
    (by decide +kernel)
  have hran : (after (main [[120], [101]] [97, 32, 98]) newProc).ran = [[[101], [97]]] := by
    decide +kernel
  refine ⟨_, h, hran, ?_⟩
  rintro ⟨gs, -, hflat, hgs⟩
  have hwords : words isSpace [97, 32, 98] = [[97], [98]] := by decide +kernel
  rw [hran] at hgs
  obtain ⟨g, rfl, hg⟩ := List.map_eq_singleton_iff.mp hgs.symm
  rw [hwords, List.flatten_singleton] at hflat
  rw [hflat] at hg
  exact absurd hg (by decide)

end Small

end Cooked

end Xv6Sheet.Xargs
