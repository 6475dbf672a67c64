import Xv6Sheet.Uthread.Program

/-! # What the program prints

`main` creates the three threads, each of them starts, and from then on they take turns in their
loops: the third one first, since it finds both others started. The process ends in the scheduler,
when the last thread leaves.
-/

namespace Xv6Sheet.Uthread

open Exec

def Func.slot : Func → ℕ
  | .a => 1
  | .b => 2
  | .c => 3

theorem Func.slot_pos (x : Func) : 0 < x.slot := by
  cases x <;> decide

theorem Func.slot_lt (x : Func) : x.slot < 4 := by
  cases x <;> decide

theorem Func.slot_injective : Function.Injective Func.slot := by
  intro x y h
  cases x <;> cases y <;> simp_all [Func.slot]

theorem Func.slot_inj {x y : Func} : x.slot = y.slot ↔ x = y := Func.slot_injective.eq_iff

theorem Func.slot_ne {x y : Func} (h : x ≠ y) : x.slot ≠ y.slot := Func.slot_injective.ne h

theorem Func.exists_slot {j : ℕ} (hj : j < 4) : j = 0 ∨ ∃ x : Func, j = x.slot := by
  match j with
  | 0 => exact Or.inl rfl
  | 1 => exact Or.inr ⟨.a, rfl⟩
  | 2 => exact Or.inr ⟨.b, rfl⟩
  | 3 => exact Or.inr ⟨.c, rfl⟩

def who (p : ℕ) : Func := if p % 3 = 0 then .c else if p % 3 = 1 then .a else .b

/-- The turns of a function among the first `p`. -/
def taken (p : ℕ) : Func → ℕ
  | .a => (p + 1) / 3
  | .b => p / 3
  | .c => (p + 2) / 3

/-- What is printed in the turn `p` of the loops. -/
def turnLine (p : ℕ) : String :=
  if p / 3 < bound then countLine (who p) (p / 3) else exitLine (who p) bound

def transcript : List String :=
  [startedLine .a, startedLine .b, startedLine .c] ++
    ((List.range bound).flatMap fun i => [countLine .c i, countLine .a i, countLine .b i]) ++
    [exitLine .c bound, exitLine .a bound, exitLine .b bound] ++ [noRunnable.msg]

section Order

variable {p n : ℕ} {x y : Func}

theorem who_cases (p : ℕ) : (p % 3 = 0 ∧ who p = .c ∧ who (p + 1) = .a) ∨
    (p % 3 = 1 ∧ who p = .a ∧ who (p + 1) = .b) ∨ (p % 3 = 2 ∧ who p = .b ∧ who (p + 1) = .c) := by
  unfold who
  rcases (by omega : p % 3 = 0 ∨ p % 3 = 1 ∨ p % 3 = 2) with h | h | h
  · exact Or.inl ⟨h, if_pos h, by rw [if_neg (by omega), if_pos (by omega)]⟩
  · exact Or.inr (Or.inl ⟨h, by rw [if_neg (by omega), if_pos h],
      by rw [if_neg (by omega), if_neg (by omega)]⟩)
  · exact Or.inr (Or.inr ⟨h, by rw [if_neg (by omega), if_neg (by omega)], if_pos (by omega)⟩)

theorem taken_who (p : ℕ) : taken p (who p) = p / 3 := by
  rcases who_cases p with ⟨h, hw, -⟩ | ⟨h, hw, -⟩ | ⟨h, hw, -⟩
  · rw [hw, taken]
    omega
  · rw [hw, taken]
    omega
  · rw [hw, taken]

theorem taken_succ (p : ℕ) (x : Func) : taken (p + 1) x = if x = who p then taken p x + 1 else
    taken p x := by
  rcases who_cases p with ⟨h, hw, -⟩ | ⟨h, hw, -⟩ | ⟨h, hw, -⟩
  all_goals
    rw [hw]
    cases x with
    | a =>
      simp only [taken, reduceCtorEq, if_false, if_true]
      omega
    | b =>
      simp only [taken, reduceCtorEq, if_false, if_true]
      omega
    | c =>
      simp only [taken, reduceCtorEq, if_false, if_true]
      omega

theorem turnLines (h : n ≤ bound) : (List.range (3 * n)).map turnLine =
    (List.range n).flatMap fun i => [countLine .c i, countLine .a i, countLine .b i] := by
  induction n with
  | zero => rfl
  | succ n ih =>
    have hc : turnLine (3 * n) = countLine .c n := by
      rw [turnLine, if_pos (by omega), who, if_pos (by omega),
        Nat.mul_div_cancel_left n (by decide)]
    have ha : turnLine (3 * n + 1) = countLine .a n := by
      rw [turnLine, if_pos (by omega), who, if_neg (by omega), if_pos (by omega),
        show (3 * n + 1) / 3 = n by omega]
    have hb : turnLine (3 * n + 2) = countLine .b n := by
      rw [turnLine, if_pos (by omega), who, if_neg (by omega), if_neg (by omega),
        show (3 * n + 2) / 3 = n by omega]
    rw [show 3 * (n + 1) = 3 * n + 1 + 1 + 1 by omega]
    simp only [List.range_succ, List.map_append, List.flatMap_append, List.map_singleton,
      List.flatMap_singleton, List.append_assoc, ih (by omega), hc, ha, hb]
    rfl

theorem transcript_eq : transcript = [startedLine .a, startedLine .b, startedLine .c] ++
    (List.range (3 * bound + 3)).map turnLine ++ [noRunnable.msg] := by
  have hc : turnLine (3 * bound) = exitLine .c bound := by
    rw [turnLine, if_neg (by omega), who, if_pos (by omega)]
  have ha : turnLine (3 * bound + 1) = exitLine .a bound := by
    rw [turnLine, if_neg (by omega), who, if_neg (by omega), if_pos (by omega)]
  have hb : turnLine (3 * bound + 2) = exitLine .b bound := by
    rw [turnLine, if_neg (by omega), who, if_neg (by omega), if_neg (by omega)]
  rw [transcript, show 3 * bound + 3 = 3 * bound + 1 + 1 + 1 by omega]
  simp only [List.range_succ, List.map_append, List.map_singleton,
    turnLines (Nat.le_refl bound), hc, ha,
    hb, List.append_assoc]
  rfl

end Order

variable [lay : Layout] {entry : Func → BitVec 64} {s t : System} {w : Work} {k p : ℕ} {x : Func}

theorem Func.slot_lt_max (h4 : Layout.MAX_THREAD = 4) (x : Func) : x.slot < Layout.MAX_THREAD :=
  h4 ▸ x.slot_lt

/-- `main` has created `k` threads. -/
structure Booting (entry : Func → BitVec 64) (k : ℕ) (s : System) : Prop where
  current : s.machine.current = 0
  point : s.points 0 = .main k
  main : state s.machine.mem 0 = RUNNING
  created : ∀ x : Func, x.slot ≤ k → state s.machine.mem x.slot = RUNNABLE ∧
    s.points x.slot = .entry x ∧
    ∀ r, savedReg s.machine.mem (context x.slot) r = initialRegs x.slot (entry x) r
  free : ∀ x : Func, k < x.slot → state s.machine.mem x.slot = FREE
  started : ∀ x, s.globals.started x = 0
  n : ∀ x, s.globals.n x = 0
  out : s.out = []

/-- The thread of `x` is about to start, and those before it have started. -/
structure Starting (entry : Func → BitVec 64) (x : Func) (s : System) : Prop where
  current : s.machine.current = x.slot
  main : state s.machine.mem 0 = FREE
  state : ∀ y : Func, Uthread.state s.machine.mem y.slot = if y = x then RUNNING else RUNNABLE
  earlier : ∀ y : Func, y.slot < x.slot → s.points y.slot = .waiting y ∧ s.globals.started y = 1
  later : ∀ y : Func, x.slot ≤ y.slot → s.points y.slot = .entry y ∧ s.globals.started y = 0
  contexts : ∀ y : Func, x.slot < y.slot →
    ∀ r, savedReg s.machine.mem (context y.slot) r = initialRegs y.slot (entry y) r
  pc : s.machine.pc = entry x
  regs : ∀ r, s.machine.regs (.saved r) = initialRegs x.slot (entry x) r
  n : ∀ y, s.globals.n y = 0
  out : s.out = ([.a, .b, .c].filter fun y => y.slot < x.slot).map startedLine

/-- All threads have started, and `p` turns of the loops have been taken. -/
structure Looping (p : ℕ) (s : System) : Prop where
  current : s.machine.current = (who p).slot
  main : state s.machine.mem 0 = FREE
  state : ∀ x : Func, Uthread.state s.machine.mem x.slot =
    if bound < taken p x then FREE else if x = who p then RUNNING else RUNNABLE
  point : ∀ x, taken p x ≤ bound →
    s.points x.slot = if taken p x = 0 then .waiting x else .loop x (taken p x)
  started : ∀ x, s.globals.started x = 1
  n : ∀ x, s.globals.n x = min (taken p x) bound
  out : s.out = [startedLine .a, startedLine .b, startedLine .c] ++ (List.range p).map turnLine

def Stage (entry : Func → BitVec 64) (s : System) : ℕ → Prop
  | 0 => Booting entry 0 s
  | 1 => Booting entry 1 s
  | 2 => Booting entry 2 s
  | 3 => Booting entry 3 s
  | 4 => Starting entry .a s
  | 5 => Starting entry .b s
  | 6 => Starting entry .c s
  | p + 7 => Looping (p + 1) s

section Boot

theorem Boot.booting (h4 : Layout.MAX_THREAD = 4) (h : Boot s) : Booting entry 0 s := by
  have hcur : s.machine.current = 0 := by
    obtain ⟨s₀, -, he⟩ := h.machine
    simp only [threadInit, modifyMem, ends_bind, ends_modify, ends_get] at he
    obtain ⟨_, _, rfl, _, _, ⟨rfl, rfl⟩, hs⟩ := he
    rw [hs]
  obtain ⟨-, hrun, hfree⟩ := start_state h.machine
  rw [hcur] at hrun hfree
  refine ⟨hcur, hcur ▸ h.point, hrun, fun x hx => ?_, fun x hx => ?_, h.started, h.n, h.out⟩
  · cases x <;> simp [Func.slot] at hx
  · exact hfree _ (by cases x <;> simp [Func.slot, h4]) (Nat.ne_of_gt hx)

theorem Booting.creates (h4 : Layout.MAX_THREAD = 4) (h : Booting entry k s) (hx : x.slot = k + 1)
    (hst : stretch s = ⟨s.globals, [], .create x, .main (k + 1)⟩) (hw : Outside s w) :
    ∃ t, Ends (turn entry w) s () t ∧ Booting entry (k + 1) t := by
  have hlt := Func.slot_lt_max h4
  have hbefore : ∀ j < x.slot, state s.machine.mem j ≠ FREE := by
    intro j hj
    rcases Func.exists_slot (hj.trans x.slot_lt) with rfl | ⟨y, rfl⟩
    · rw [h.main]
      decide
    · rw [(h.created y (by omega)).1]
      decide
  obtain ⟨t, he, ht⟩ : ∃ t, Ends (turn entry w) s () t ∧ Creates entry x s x.slot t :=
    turn_creates hw (by rw [hst]) (hlt x) (h.free x (by omega)) hbefore
  refine ⟨t, he, ht.current.trans h.current, ?_, ?_, fun y hy => ?_, fun y hy => ?_, fun y => ?_,
    fun y => ?_, ?_⟩
  · rw [ht.points, hst, h.current, Function.update_of_ne x.slot_pos.ne, Function.update_self]
  · rw [ht.state 0 lay.pos, if_neg x.slot_pos.ne, h.main]
  · by_cases hyx : y = x
    · subst hyx
      refine ⟨?_, ?_, ht.regs⟩
      · rw [ht.state _ (hlt y), if_pos rfl]
      · rw [ht.points, Function.update_self]
    · have hyk := Func.slot_ne hyx
      obtain ⟨hrun, hpoint, hregs⟩ := h.created y (by omega)
      refine ⟨?_, ?_, fun r => ?_⟩
      · rw [ht.state _ (hlt y), if_neg hyk, hrun]
      · rw [ht.points, Function.update_of_ne hyk, h.current,
          Function.update_of_ne y.slot_pos.ne', hpoint]
      · rw [ht.contexts _ (hlt y) hyk, hregs]
  · rw [ht.state _ (hlt y), if_neg (by omega), h.free y (by omega)]
  · rw [ht.globals, hst, h.started]
  · rw [ht.globals, hst, h.n]
  · rw [ht.out, hst, h.out]
    rfl

theorem Booting.leaves (h4 : Layout.MAX_THREAD = 4) (h : Booting entry 3 s) (hw : Outside s w) :
    ∃ t, Ends (turn entry w) s () t ∧ Starting entry .a t := by
  have hlt := Func.slot_lt_max h4
  have hst : stretch s = ⟨s.globals, [], .leave, .main 4⟩ := by
    rw [stretch, h.current, h.point]
    rfl
  have hall : ∀ y : Func, y.slot ≤ 3 := fun y => Nat.le_of_lt_succ y.slot_lt
  obtain ⟨t, he, ht⟩ : ∃ t, Ends (turn entry w) s () t ∧ Hands FREE s (Func.slot .a) t :=
    turn_hands hw
    (h.current ▸ lay.pos) (Or.inr ⟨by rw [hst], rfl⟩) (hlt .a) (by rw [h.current]; decide)
    (h.created .a (hall _)).1 (fun j hj hne _ => by
      rw [h.current] at hne ⊢
      simp only [turns, h4, Func.slot] at hj ⊢
      omega)
  refine ⟨t, he, ht.current, ?_, fun y => ?_,
    fun y hy => ?_, fun y _ => ?_, fun y _ r => ?_, ?_, fun r => ?_,
    fun y => ?_, ?_⟩
  · rw [ht.state 0 lay.pos, if_neg (by decide), if_pos h.current.symm]
  · rw [ht.state _ (hlt y), h.current, if_neg y.slot_pos.ne', (h.created y (hall y)).1]
    exact if_congr Func.slot_inj rfl rfl
  · have hy' : y.slot < 1 := hy
    have hpos := y.slot_pos
    omega
  · refine ⟨?_, ?_⟩
    · rw [ht.points, h.current, Function.update_of_ne y.slot_pos.ne', (h.created y (hall y)).2.1]
    · rw [ht.globals, hst, h.started]
  · rw [ht.contexts _ (hlt y) (by rw [h.current]; exact y.slot_pos.ne'), (h.created y (hall y)).2.2]
  · rw [ht.pc, (h.created .a (hall _)).2.2]
    rfl
  · rw [ht.regs, (h.created .a (hall _)).2.2]
  · rw [ht.globals, hst, h.n]
  · rw [ht.out, hst, h.out]
    rfl

end Boot

section Start

omit lay in
theorem resume_entry (x : Func) : resume (.entry x) = threadBody x := by
  cases x <;> rfl

theorem Starting.yields (h4 : Layout.MAX_THREAD = 4) {y : Func} (h : Starting entry x s)
    (hy : y.slot = x.slot + 1) (hw : Outside s w) :
    ∃ t, Ends (turn entry w) s () t ∧ Starting entry y t := by
  have hlt := Func.slot_lt_max h4
  have hcy : x.others.2 = .c ∧ x ≠ .c := by
    have hle := y.slot_lt
    cases x
    · exact ⟨rfl, by simp⟩
    · exact ⟨rfl, by simp⟩
    · simp only [Func.slot] at hy hle
      omega
  have hst : stretch s = ⟨{ s.globals with started := Function.update s.globals.started x 1 },
      [startedLine x], .yield, .waiting x⟩ := by
    have hzero : Function.update s.globals.started x 1 x.others.2 = 0 := by
      rw [hcy.1, Function.update_of_ne hcy.2.symm]
      exact (h.later .c (Nat.le_of_lt_succ x.slot_lt)).2
    rw [stretch, h.current, (h.later x (Nat.le_refl _)).1, resume_entry, threadBody, whileLoop,
      if_pos (Or.inr hzero)]
  have hne : y ≠ x := by
    rintro rfl
    omega
  obtain ⟨t, he, ht⟩ : ∃ t, Ends (turn entry w) s () t ∧ Hands RUNNABLE s y.slot t := turn_hands hw
    (h.current ▸ hlt x) (Or.inl ⟨by rw [hst], rfl⟩) (hlt y)
    (by rw [h.current]; exact Func.slot_ne hne)
    (by rw [h.state, if_neg hne]) (fun j _ _ _ => by
      rw [h.current, hy]
      simp [turns])
  refine ⟨t, he, ht.current, ?_, fun z => ?_,
    fun z hz => ?_, fun z hz => ?_, fun z hz r => ?_, ?_, fun r => ?_,
    fun z => ?_, ?_⟩
  · rw [ht.state 0 lay.pos, h.current, if_neg y.slot_pos.ne, if_neg x.slot_pos.ne, h.main]
  · rw [ht.state _ (hlt z), h.current, h.state]
    by_cases hzy : z = y
    · rw [if_pos (congrArg _ hzy), if_pos hzy]
    · rw [if_neg (Func.slot_ne hzy), if_neg hzy]
      by_cases hzx : z = x
      · rw [if_pos (congrArg _ hzx)]
      · rw [if_neg (Func.slot_ne hzx), if_neg hzx]
  · rw [ht.points, ht.globals, hst, h.current]
    by_cases hzx : z = x
    · subst hzx
      exact ⟨Function.update_self .., Function.update_self ..⟩
    · have hlt := Func.slot_ne hzx
      dsimp only
      rw [Function.update_of_ne hlt, Function.update_of_ne hzx]
      exact h.earlier z (by omega)
  · have hzx : z ≠ x := by
      rintro rfl
      omega
    rw [ht.points, ht.globals, hst, h.current]
    dsimp only
    rw [Function.update_of_ne (Func.slot_ne hzx), Function.update_of_ne hzx]
    exact h.later z (by omega)
  · rw [ht.contexts _ (hlt z) (by rw [h.current]; omega), h.contexts z (by omega)]
  · rw [ht.pc, h.contexts y (by omega)]
    rfl
  · rw [ht.regs, h.contexts y (by omega)]
  · rw [ht.globals, hst, h.n]
  · rw [ht.out, hst, h.out]
    cases x <;> cases y <;> simp [Func.slot] at hy ⊢

/-- The stretch of the last thread begins with its line, and goes on as if it had waited. -/
theorem Starting.looping (h : Starting entry .c s) : ∃ s' : System, Looping 0 s' ∧
    (Outside s w → Outside s' w) ∧ ∀ t, Ends (turn entry w) s' () t →
    Ends (turn entry w) s () t := by
  obtain ⟨s', hs'⟩ : ∃ s' : System, s' =
    ⟨s.machine, Function.update s.points (Func.slot .c) (.waiting .c),
      { s.globals with started := Function.update s.globals.started .c 1 },
      s.out ++ [startedLine .c]⟩ := ⟨_, rfl⟩
  have hst : stretch s = { stretch s' with printed := startedLine .c :: (stretch s').printed } := by
    rw [stretch, stretch, hs', h.current, (h.later .c (Nat.le_refl _)).1, resume_entry, threadBody]
    dsimp only
    rw [Function.update_self]
    rfl
  refine ⟨s', ⟨?_, ?_, fun x => ?_, fun x _ => ?_, fun x => ?_, fun x => ?_, ?_⟩,
    fun hw => ?_, fun t => ?_⟩
  · rw [hs']
    exact h.current
  · rw [hs']
    exact h.main
  · rw [hs']
    refine (h.state x).trans ?_
    cases x <;> simp [taken, who]
  · rw [hs']
    cases x <;> simp [taken, Func.slot]
    · exact (h.earlier .a (by decide)).1
    · exact (h.earlier .b (by decide)).1
  · rw [hs']
    cases x <;> simp
    · exact (h.earlier .a (by decide)).2
    · exact (h.earlier .b (by decide)).2
  · rw [hs']
    dsimp only
    rw [h.n]
    cases x <;> simp [taken]
  · rw [hs']
    dsimp only
    rw [h.out]
    rfl
  · rw [hs']
    exact hw
  · have hmachine : s'.machine = s.machine := by rw [hs']
    refine (ends_turn_congr hmachine ?_ ?_ ?_ ?_).mp
    · rw [hst]
    · rw [hst]
    · rw [hst, hs']
      dsimp only
      rw [h.current, Function.update_idem]
    · rw [hst, hs', List.append_assoc]
      rfl

end Start

section Loops

omit lay in
theorem next_ne (p : ℕ) : who (p + 1) ≠ who p := by
  rcases who_cases p with ⟨-, h, h'⟩ | ⟨-, h, h'⟩ | ⟨-, h, h'⟩ <;> simp [h, h']

theorem turns_next (h4 : Layout.MAX_THREAD = 4) (p : ℕ) {j : ℕ} (h0 : 0 < j) (hj : j < 4) :
    turns (who p).slot (who (p + 1)).slot ≤ turns (who p).slot j := by
  rcases who_cases p with ⟨-, h, h'⟩ | ⟨-, h, h'⟩ | ⟨-, h, h'⟩
  all_goals
    rw [h, h']
    simp only [turns, h4, Func.slot]
    omega

omit lay in
theorem taken_next (hp : p < 3 * bound + 2) : taken p (who (p + 1)) ≤ bound := by
  have hsucc := taken_succ p (who (p + 1))
  rw [if_neg (next_ne p), taken_who] at hsucc
  rw [← hsucc]
  omega

theorem Looping.stretch_eq (h : Looping p s) (hp : p / 3 ≤ bound) :
    stretch s = forLoop (who p) (p / 3) s.globals := by
  have hpoint := h.point (who p) (by rwa [taken_who])
  rw [taken_who] at hpoint
  rw [stretch, h.current, hpoint]
  by_cases h0 : p / 3 = 0
  · rw [if_pos h0, resume, whileLoop, if_neg (by simp [h.started]), h0]
  · rw [if_neg h0, resume]

theorem Looping.n_who (h : Looping p s) (hp : p / 3 ≤ bound) : s.globals.n (who p) = p / 3 := by
  rw [h.n, taken_who, Nat.min_eq_left hp]

theorem Looping.stretch_cases (h : Looping p s) (hp : p / 3 ≤ bound) :
    (p / 3 < bound ∧ stretch s =
      ⟨{ s.globals with n := Function.update s.globals.n (who p) (p / 3 + 1) },
        [turnLine p], .yield, .loop (who p) (p / 3 + 1)⟩) ∨
    (p / 3 = bound ∧ stretch s = ⟨s.globals, [turnLine p], .leave, .entry (who p)⟩) := by
  rw [h.stretch_eq hp, forLoop, turnLine, h.n_who hp]
  rcases Nat.lt_or_ge (p / 3) bound with hlt | hge
  · rw [if_pos hlt, if_pos hlt]
    exact Or.inl ⟨hlt, rfl⟩
  · have heq : p / 3 = bound := Nat.le_antisymm hp hge
    rw [if_neg (Nat.not_lt.mpr hge), if_neg (Nat.not_lt.mpr hge), heq]
    exact Or.inr ⟨rfl, rfl⟩

theorem Looping.hands (h4 : Layout.MAX_THREAD = 4) (h : Looping p s) (hp : p < 3 * bound + 2)
    (hw : Outside s w) : ∃ t, Ends (turn entry w) s () t ∧
      Hands (if p / 3 < bound then RUNNABLE else FREE) s (who (p + 1)).slot t := by
  have hlt := Func.slot_lt_max h4
  have hstop : (stretch s).stop = .yield ∧ (if p / 3 < bound then RUNNABLE else FREE) = RUNNABLE ∨
      (stretch s).stop = .leave ∧ (if p / 3 < bound then RUNNABLE else FREE) = FREE := by
    rcases h.stretch_cases (by omega) with ⟨hlt, hst⟩ | ⟨heq, hst⟩
    · exact Or.inl ⟨by rw [hst], if_pos hlt⟩
    · exact Or.inr ⟨by rw [hst], if_neg (by omega)⟩
  refine turn_hands hw (h.current ▸ hlt _) hstop (hlt _) ?_ ?_ fun j hj _ hrun => ?_
  · rw [h.current]
    exact Func.slot_ne (next_ne p)
  · rw [h.state, if_neg (Nat.not_lt.mpr (taken_next hp)), if_neg (next_ne p)]
  · rcases Func.exists_slot (h4 ▸ hj) with rfl | ⟨v, rfl⟩
    · rw [h.main] at hrun
      simp [FREE, RUNNABLE] at hrun
    · rw [h.current]
      exact turns_next h4 p v.slot_pos v.slot_lt

theorem Looping.next (h4 : Layout.MAX_THREAD = 4) (h : Looping p s) (hp : p < 3 * bound + 2)
    (ht : Hands (if p / 3 < bound then RUNNABLE else FREE) s (who (p + 1)).slot t) :
    Looping (p + 1) t := by
  have hlt := Func.slot_lt_max h4
  have hcases := h.stretch_cases (by omega)
  have hself := taken_who p
  have hnext := taken_next hp
  have hne := next_ne p
  refine ⟨ht.current, ?_, fun v => ?_, fun v hv => ?_, fun v => ?_, fun v => ?_, ?_⟩
  · rw [ht.state 0 lay.pos, h.current, if_neg (Func.slot_pos _).ne,
      if_neg (Func.slot_pos _).ne, h.main]
  · rw [ht.state _ (hlt v), h.current, h.state, taken_succ]
    simp only [Func.slot_inj]
    by_cases hv : v = who p
    · subst hv
      simp only [hne.symm, if_false, if_true, hself]
      by_cases hlt : p / 3 < bound
      · rw [if_pos hlt, if_neg (by omega)]
      · rw [if_neg hlt, if_pos (by omega)]
    · rw [if_neg hv, if_neg hv, if_neg hv]
      split
      · rename_i hv'
        rw [hv', if_neg (by omega)]
      · rfl
  · rw [ht.points, h.current]
    rw [taken_succ] at hv ⊢
    by_cases hv' : v = who p
    · rw [if_pos hv', hv', hself] at hv ⊢
      rcases hcases with ⟨-, hst⟩ | ⟨heq, -⟩
      · rw [hst, Function.update_self, if_neg (Nat.succ_ne_zero _)]
      · omega
    · rw [if_neg hv'] at hv ⊢
      rw [Function.update_of_ne (Func.slot_ne hv'), h.point v hv]
  · rcases hcases with ⟨-, hst⟩ | ⟨-, hst⟩
    · rw [ht.globals, hst, h.started]
    · rw [ht.globals, hst, h.started]
  · rw [taken_succ, ht.globals]
    rcases hcases with ⟨hlt, hst⟩ | ⟨heq, hst⟩
    · rw [hst]
      dsimp only
      by_cases hv : v = who p
      · rw [hv, Function.update_self, if_pos rfl, hself, Nat.min_eq_left (by omega)]
      · rw [Function.update_of_ne hv, if_neg hv, h.n]
    · rw [hst]
      dsimp only
      rw [h.n]
      split
      · rename_i hv
        rw [hv, hself]
        omega
      · rfl
  · rw [ht.out, h.out, List.range_succ, List.map_append, List.append_assoc]
    rcases hcases with ⟨-, hst⟩ | ⟨-, hst⟩
    · rw [hst]
      rfl
    · rw [hst]
      rfl

theorem Looping.ends (h4 : Layout.MAX_THREAD = 4) (h : Looping (3 * bound + 2) s)
    (hw : Outside s w) :
    Faults (turn entry w) s ⟨transcript, -1⟩ := by
  have hlt := Func.slot_lt_max h4
  have hb : who (3 * bound + 2) = .b := by
    rw [who, if_neg (by omega), if_neg (by omega)]
  have hst : stretch s = ⟨s.globals, [turnLine (3 * bound + 2)], .leave, .entry .b⟩ := by
    rcases h.stretch_cases (by omega) with ⟨hlt, -⟩ | ⟨-, hst⟩
    · omega
    · rw [hst, hb]
  have hfault : Faults (turn entry w) s ⟨s.out ++ (stretch s).printed ++ [noRunnable.msg], -1⟩ := by
    refine turn_ends hw (h.current ▸ hlt _) (by rw [hst]) fun j hj hne => ?_
    rcases Func.exists_slot (h4 ▸ hj) with rfl | ⟨v, rfl⟩
    · rw [h.main]
      decide
    · rw [h.current, hb] at hne
      rw [h.state, if_pos]
      · decide
      · cases v
        · simp only [taken]
          omega
        · exact absurd rfl hne
        · simp only [taken]
          omega
  have hlast : (List.range (3 * bound + 3)).map turnLine =
      (List.range (3 * bound + 2)).map turnLine ++ [turnLine (3 * bound + 2)] := by
    rw [show 3 * bound + 3 = 3 * bound + 2 + 1 by omega, List.range_succ, List.map_append,
      List.map_singleton]
  have hout : s.out ++ (stretch s).printed ++ [noRunnable.msg] = transcript := by
    rw [transcript_eq, hlast, hst, h.out, List.append_assoc _ _ [turnLine _]]
  rwa [hout] at hfault

end Loops

section Run

variable {n : ℕ}

theorem Stage.next (h4 : Layout.MAX_THREAD = 4) (h : Stage entry s n) (hn : n < 3 * bound + 8)
    (hw : Outside s w) : ∃ t, Ends (turn entry w) s () t ∧ Stage entry t (n + 1) := by
  have hmain : ∀ {k}, Booting entry k s → stretch s = main k s.globals := fun h => by
    rw [stretch, h.current, h.point]
    rfl
  rcases n with _ | _ | _ | _ | _ | _ | _ | p
  -- `main` makes the three threads and leaves
  · have hboot : Booting entry 0 s := h
    exact hboot.creates h4 (x := .a) rfl (hmain hboot) hw
  · have hboot : Booting entry 1 s := h
    exact hboot.creates h4 (x := .b) rfl (hmain hboot) hw
  · have hboot : Booting entry 2 s := h
    exact hboot.creates h4 (x := .c) rfl (hmain hboot) hw
  · have hboot : Booting entry 3 s := h
    exact hboot.leaves h4 hw
  -- each thread starts, and the last one goes on
  · have hstart : Starting entry .a s := h
    exact hstart.yields h4 rfl hw
  · have hstart : Starting entry .b s := h
    exact hstart.yields h4 rfl hw
  · have hstart : Starting entry .c s := h
    obtain ⟨s', hs', hout, hends⟩ := hstart.looping (w := w)
    have h0 : 0 < 3 * bound + 2 := Nat.succ_pos _
    obtain ⟨t, he, ht⟩ := hs'.hands h4 h0 (hout hw)
    exact ⟨t, hends t he, hs'.next h4 h0 ht⟩
  · have hloop : Looping (p + 1) s := h
    obtain ⟨t, he, ht⟩ := hloop.hands h4 (by omega) hw
    exact ⟨t, he, hloop.next h4 (by omega) ht⟩

theorem Stage.ends (h4 : Layout.MAX_THREAD = 4) (h : Stage entry s (3 * bound + 8))
    (hw : Outside s w) :
    Faults (turn entry w) s ⟨transcript, -1⟩ := by
  obtain ⟨p, hp⟩ : ∃ p, 3 * bound + 8 = p + 7 := ⟨3 * bound + 1, rfl⟩
  rw [hp] at h
  have hloop : Looping (p + 1) s := h
  rw [show p + 1 = 3 * bound + 2 by omega] at hloop
  exact hloop.ends h4 hw

theorem Booting.printed (h : Booting entry k s) : s.out <+: transcript :=
  h.out ▸ List.nil_prefix

theorem Starting.printed (h : Starting entry x s) : s.out <+: transcript := by
  rw [h.out, transcript_eq, List.append_assoc]
  refine List.IsPrefix.trans ?_ (List.prefix_append _ _)
  cases x with
  | a => exact List.nil_prefix
  | b => exact ⟨[_, _], rfl⟩
  | c => exact ⟨[_], rfl⟩

theorem Looping.printed (h : Looping p s) (hp : p ≤ 3 * bound + 3) : s.out <+: transcript := by
  have hrange : List.range p <+: List.range (3 * bound + 3) := by
    rw [← Nat.min_eq_left hp, ← List.take_range]
    exact List.take_prefix _ _
  rw [h.out, transcript_eq]
  exact ((List.prefix_append_right_inj _).mpr (hrange.map _)).trans (List.prefix_append _ _)

theorem Stage.kinds (h : Stage entry s n) : (∃ k, Booting entry k s) ∨ (∃ x, Starting entry x s) ∨
    ∃ p, n = p + 7 ∧ Looping (p + 1) s := by
  rcases n with _ | _ | _ | _ | _ | _ | _ | p
  · exact .inl ⟨0, h⟩
  · exact .inl ⟨1, h⟩
  · exact .inl ⟨2, h⟩
  · exact .inl ⟨3, h⟩
  · exact .inr (.inl ⟨.a, h⟩)
  · exact .inr (.inl ⟨.b, h⟩)
  · exact .inr (.inl ⟨.c, h⟩)
  · exact .inr (.inr ⟨p, rfl, h⟩)

theorem Stage.printed (h : Stage entry s n) (hn : n ≤ 3 * bound + 8) : s.out <+: transcript := by
  rcases h.kinds with ⟨k, h⟩ | ⟨x, h⟩ | ⟨p, rfl, h⟩
  · exact h.printed
  · exact h.printed
  · exact h.printed (by omega)

/-- The current thread is at the start of `x`, with the registers of a new thread. -/
def Enters (entry : Func → BitVec 64) (x : Func) (s : System) : Prop :=
  s.machine.pc = entry x ∧ ∀ r, s.machine.regs (.saved r) = initialRegs x.slot (entry x) r

theorem Booting.enters (h : Booting entry k s) (hx : s.points s.machine.current = .entry x) :
    Enters entry x s := by
  rw [h.current, h.point] at hx
  cases hx

theorem Starting.enters {y : Func} (h : Starting entry y s)
    (hx : s.points s.machine.current = .entry x) :
    Enters entry x s := by
  rw [h.current, (h.later y (Nat.le_refl _)).1] at hx
  cases hx
  exact ⟨h.pc, h.regs⟩

theorem Looping.enters (h : Looping p s) (hp : p / 3 ≤ bound)
    (hx : s.points s.machine.current = .entry x) :
    Enters entry x s := by
  rw [h.current, h.point _ (by rwa [taken_who])] at hx
  split at hx
  · cases hx
  · cases hx

theorem Stage.enters (h : Stage entry s n) (hn : n ≤ 3 * bound + 8)
    (hx : s.points s.machine.current = .entry x) : Enters entry x s := by
  rcases h.kinds with ⟨k, h⟩ | ⟨y, h⟩ | ⟨p, rfl, h⟩
  · exact h.enters hx
  · exact h.enters hx
  · exact h.enters (by omega) hx

theorem traced_stage (h4 : Layout.MAX_THREAD = 4) {tr : List (Taken System Work)}
    (h : Traced (turn entry) Outside Boot tr s) : tr.length ≤ 3 * bound + 8 ∧
    Stage entry s tr.length := by
  induction h with
  | init h => exact ⟨Nat.zero_le _, h.booting h4⟩
  | @call s t w r tr _ hw he ih =>
    obtain ⟨hle, hstage⟩ := ih
    have hlt : tr.length < 3 * bound + 8 := by
      refine Nat.lt_of_le_of_ne hle fun heq => ?_
      rw [heq] at hstage
      exact he.not_faults (hstage.ends h4 hw)
    obtain ⟨t', he', ht'⟩ := hstage.next h4 hlt hw
    obtain ⟨-, rfl⟩ := he.unique he'
    exact ⟨hlt, ht'⟩

/-- Whatever the compiled code does with the registers and with the memory of its own, the program
prints the same transcript: each thread starts, the threads count in turn, and each leaves after the
last count. A thread function starts at its address on a stack of its own. The program never gets
stuck before the end, and ends in the scheduler with -1, not in `main`. -/
theorem program_transcript (h4 : Layout.MAX_THREAD = 4) {tr : List (Taken System Work)}
    (h : Traced (turn entry) Outside Boot tr s) :
    tr.length ≤ 3 * bound + 8 ∧ s.out <+: transcript ∧
      (∀ x, s.points s.machine.current = .entry x → Enters entry x s) ∧
      ∀ w, Outside s w → (tr.length < 3 * bound + 8 → ∃ t, Ends (turn entry w) s () t) ∧
        (tr.length = 3 * bound + 8 → Faults (turn entry w) s ⟨transcript, -1⟩) := by
  obtain ⟨hle, hstage⟩ := traced_stage h4 h
  refine ⟨hle, hstage.printed hle, fun x hx => hstage.enters hle hx,
    fun w hw => ⟨fun hlt => ?_, fun heq => ?_⟩⟩
  · exact (hstage.next h4 hlt hw).imp fun _ ht => ht.1
  · rw [heq] at hstage
    exact hstage.ends h4 hw

omit lay in
/-- The program from zeros, to its end. -/
theorem program_transcript_small : letI := four
    ∃ s tr w, Traced (turn fun x => BitVec.ofNat 64 (4 * x.slot)) Outside Boot tr s ∧
      tr.length = 3 * bound + 8 ∧ Faults (turn (fun x => BitVec.ofNat 64 (4 * x.slot)) w) s
      ⟨transcript, -1⟩ := by
  let _ := four
  have hstay : ∀ s : System, Outside s ⟨s.machine.mem, s.machine.regs, s.machine.pc⟩ :=
    fun _ _ _ _ _ _ => rfl
  have hboot : Boot ⟨fourStart, fun _ => .main 0, ⟨fun _ => 0, fun _ => 0⟩, []⟩ :=
    ⟨fourStart_start, rfl, fun _ => rfl, fun _ => rfl, rfl⟩
  have hruns : ∀ n ≤ 3 * bound + 8, ∃ s tr,
      Traced (turn fun x => BitVec.ofNat 64 (4 * x.slot)) Outside Boot tr s ∧ tr.length = n := by
    intro n hn
    induction n with
    | zero => exact ⟨_, [], .init hboot, rfl⟩
    | succ n ih =>
      obtain ⟨s, tr, htr, rfl⟩ := ih (by omega)
      obtain ⟨t, he⟩ := ((program_transcript rfl htr).2.2.2 _ (hstay s)).1 hn
      exact ⟨t, _, htr.call (hstay s) he, rfl⟩
  obtain ⟨s, tr, htr, hlen⟩ := hruns _ (Nat.le_refl _)
  exact ⟨s, tr, _, htr, hlen, ((program_transcript rfl htr).2.2.2 _ (hstay s)).2 hlen⟩

end Run

end Xv6Sheet.Uthread
