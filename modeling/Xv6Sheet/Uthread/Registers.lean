import Xv6Sheet.Uthread.Schedule

/-! # Registers across a switch

What a thread finds in its registers when it runs again. The history of a run says what
they held when the thread last entered `thread_switch`; the contexts in memory agree with
it for every thread that is not running.
-/

namespace Xv6Sheet.Uthread

open Exec

section Run

variable [lay : Layout] {s t : Machine} {c : Call} {k : ℕ}

/-- The registers a new thread in slot `k` starts with. -/
def initialRegs (k : ℕ) (func : BitVec 64) : Saved → BitVec 64
  | .ra => func
  | .sp => BitVec.ofNat 64 (thread k + STACK_SIZE)
  | .s _ => 0

/-- The registers of the thread in slot `k` when it last entered `thread_switch`, or those it
starts with. On the way from a call to `thread_switch` only `a0` and `a1` are written. -/
def lastEntry (k : ℕ) : List (Taken Machine Call) → Option (Saved → BitVec 64)
  | [] => none
  | p :: tr =>
    if p.call.schedules ∧ p.before.current = k ∧ p.after.current ≠ k then
      some fun r => p.before.regs (.saved r)
    else match p.call with
      | .create func =>
        if state p.before.mem k = FREE ∧ state p.after.mem k = RUNNABLE then
          some (initialRegs k func)
        else lastEntry k tr
      | _ => lastEntry k tr

/-- The context of every live thread but the current one holds what the history says. -/
def Kept (tr : List (Taken Machine Call)) (s : Machine) : Prop :=
  ∀ k < Layout.MAX_THREAD, k ≠ s.current → state s.mem k ≠ FREE →
    lastEntry k tr = some fun r => savedReg s.mem (context k) r

theorem context_body {mem : Bytes} (h : ∀ k < Layout.MAX_THREAD, ∀ j, STACK_SIZE ≤ j →
    j < threadSize → mem (thread k + j) = s.mem (thread k + j)) (hk : k < Layout.MAX_THREAD) :
    ∀ i < contextSize, mem (context k + i) = s.mem (context k + i) := fun i hi => by
  have hj := h k hk (contextOffset + i)
    (by simp only [STACK_SIZE, contextOffset]; omega)
    (by simp only [contextOffset, contextSize, threadSize] at *; omega)
  rwa [← Nat.add_assoc] at hj

theorem context_leave (x : ℕ) : ∀ i < contextSize,
    (leave s x).mem (context k + i) = s.mem (context k + i) :=
  fun _ hi => setState_of_context hi k

theorem Created.context {func : BitVec 64} {j : ℕ} (h : Created s j func t) (hk : k ≠ j) :
    ∀ i < contextSize, t.mem (context k + i) = s.mem (context k + i) := fun i hi => by
  have hi' := h.other k hk (contextOffset + i)
    (by simp only [contextOffset, contextSize, threadSize] at *; omega)
  rwa [← Nat.add_assoc] at hi'

theorem Created.initial {func : BitVec 64} (h : Created s k func t) :
    (fun r => savedReg t.mem (Uthread.context k) r) = initialRegs k func := by
  funext r
  cases r with
  | ra => exact h.ra
  | sp => exact h.sp
  | s i => exact h.zero i

section History

variable {tr : List (Taken Machine Call)}

theorem lastEntry_body {mem : Bytes} {regs : Reg → BitVec 64} {pc : BitVec 64} :
    lastEntry k (⟨s, .body mem regs pc, t⟩ :: tr) = lastEntry k tr := by
  simp [lastEntry, Call.schedules]

theorem lastEntry_create {func : BitVec 64} : lastEntry k (⟨s, .create func, t⟩ :: tr) =
    if state s.mem k = FREE ∧ state t.mem k = RUNNABLE then some (initialRegs k func)
    else lastEntry k tr := by
  simp [lastEntry, Call.schedules]

theorem lastEntry_schedules (hc : c.schedules = true) : lastEntry k (⟨s, c, t⟩ :: tr) =
    if s.current = k ∧ t.current ≠ k then some fun r => s.regs (.saved r)
    else lastEntry k tr := by
  cases c with
  | body mem regs pc => simp [Call.schedules] at hc
  | create func => simp [Call.schedules] at hc
  | yield => simp [lastEntry, Call.schedules]
  | exit => simp [lastEntry, Call.schedules]

end History

theorem some_savedReg_congr {mem mem' : Bytes}
    (h : ∀ i < contextSize, mem' (context k + i) = mem (context k + i)) :
    (some fun r => savedReg mem (context k) r) = some fun r => savedReg mem' (context k) r :=
  congrArg some (funext fun r => (savedReg_congr h r).symm)

theorem Effect.kept {tr : List (Taken Machine Call)} (hkept : Kept tr s)
    (h : Effect s c t) : Kept (⟨s, c, t⟩ :: tr) t := by
  intro k hk hne hlive
  cases h with
  | body hmem =>
    rw [state_body hmem hk] at hlive
    rw [lastEntry_body, hkept k hk hne hlive]
    exact some_savedReg_congr (context_body hmem hk)
  | @create _ j _ hj ht =>
    rw [ht.current] at hne
    rw [lastEntry_create]
    rcases eq_or_ne k j with rfl | hkj
    · rw [if_pos ⟨ht.free, by rw [ht.state, if_pos rfl]⟩, ht.initial]
    · have hsame : state t.mem k = state s.mem k := by rw [ht.state, if_neg hkj]
      rw [hsame] at hlive ⊢
      rw [if_neg (fun h => hlive h.1), hkept k hk hne hlive]
      exact some_savedReg_congr (ht.context hkj)
  | @schedule _ j _ hc ht =>
    have hcur := ht.current
    rw [hcur] at hne
    rw [ht.state, if_neg (fun h => hne h.1), state_leave c.leaves_lt] at hlive
    rw [lastEntry_schedules hc, hcur]
    cases ht with
    | stay _ hj ht =>
      -- the current slot is the one that was picked
      rw [leave_current] at hj
      subst hj
      rw [if_neg hne] at hlive
      rw [if_neg (fun h => hne h.1.symm), hkept k hk hne hlive, ht]
      exact some_savedReg_congr (context_leave c.leaves)
    | switch _ hj ht =>
      rcases eq_or_ne k s.current with rfl | hks
      · rw [if_pos ⟨rfl, hj⟩]
        exact congrArg some (funext fun r => (ht.self r).symm)
      · rw [if_neg hks] at hlive
        rw [if_neg (fun h => hks h.1.symm), hkept k hk hks hlive]
        exact some_savedReg_congr fun i hi =>
          (ht.other k hks i hi).trans (context_leave c.leaves i hi)

theorem traced_kept {tr : List (Taken Machine Call)} (h : Traced step guard Start tr s) :
    Kept tr s := by
  induction h with
  | init hs => exact fun k hk hne hlive => absurd ((start_state hs).2.2 k hk hne) hlive
  | call htr hg he ih => exact (ends_step (reached_sound htr.reached).lt hg he).kept ih

/-- Whenever a thread is switched to, its registers hold what they held when it last entered
`thread_switch`, or what it starts with, and it goes on where they say. A switch changes no
context but that of the thread it leaves, and a creation none of a live thread. -/
theorem registers_preserved (p : Taken Machine Call) (tr : List (Taken Machine Call))
    (t : Machine) (h : Traced step guard Start (p :: tr) t) :
    (p.call.schedules = true → p.after.current ≠ p.before.current →
      lastEntry p.after.current tr = some (fun r => p.after.regs (.saved r)) ∧
        p.after.pc = p.after.regs (.saved .ra)) ∧
    (p.call.schedules = true → ∀ k, k ≠ p.before.current → ∀ i < contextSize,
      p.after.mem (context k + i) = p.before.mem (context k + i)) ∧
    ∀ func, p.call = .create func → p.after.current = p.before.current ∧
      p.after.regs = p.before.regs ∧ ∀ k, state p.before.mem k ≠ FREE → ∀ i < contextSize,
        p.after.mem (context k + i) = p.before.mem (context k + i) := by
  obtain ⟨s, c, u⟩ := p
  obtain ⟨hu, htr, hg, _, he⟩ := Traced.cons h
  dsimp only at *
  subst hu
  have hkept := traced_kept htr
  cases ends_step (reached_sound htr.reached).lt hg he with
  | body => simp [Call.schedules]
  | @create _ j _ _ ht =>
    refine ⟨by simp [Call.schedules], by simp [Call.schedules], fun _ _ => ?_⟩
    refine ⟨ht.current, ht.regs, fun k hlive => ht.context ?_⟩
    rintro rfl
    exact hlive ht.free
  | @schedule _ j _ hc ht =>
    refine ⟨fun _ hne => ?_, fun _ k hk i hi => ?_, ?_⟩
    · cases ht with
      | stay _ hj ht => exact absurd (by rw [ht]; rfl) hne
      | switch hpick hj ht =>
        have hcur := ht.current
        rw [leave_current] at hj
        have hlive : state s.mem j ≠ FREE := by
          have hrun := hpick.runnable
          rw [state_leave c.leaves_lt, if_neg hj] at hrun
          rw [hrun]
          decide
        have hregs : (fun r => u.regs (.saved r)) = fun r => savedReg s.mem (context j) r :=
          funext fun r => (ht.regs r).trans (savedReg_congr (context_leave c.leaves) r)
        rw [hcur, hregs]
        exact ⟨hkept j hpick.lt hj hlive, ht.pc.trans (ht.regs .ra).symm⟩
    · cases ht with
      | stay _ hj ht =>
        rw [ht]
        exact context_leave c.leaves i hi
      | switch _ hj ht => exact (ht.other k hk i hi).trans (context_leave c.leaves i hi)
    · rintro func rfl
      simp [Call.schedules] at hc

end Run

section Small

local instance : Layout := small

def smallRegs : Reg → BitVec 64
  | .saved .ra => 20
  | .saved .sp => 4000
  | .saved (.s i) => BitVec.ofNat 64 (100 + i)
  | _ => 0

/-- The first thread yields to a new one; when that yields back the registers return. -/
def smallSwitch : List Call := [.body smallStart.mem smallRegs 0, .create 4, .yield]

theorem registers_preserved_small :
    some (Saved.all.map fun r =>
      (after (step .yield) (afterAll step smallSwitch smallStart)).regs (.saved r)) =
    some (Saved.all.map fun r => smallRegs (.saved r)) := by
  obtain ⟨s, hs⟩ : ∃ s, s = afterAll step smallSwitch smallStart := ⟨_, rfl⟩
  obtain ⟨tr, htr⟩ : ∃ tr, tr = stepsAll step smallSwitch smallStart ++ [] := ⟨_, rfl⟩
  have hrun : Traced step guard Start tr s := by
    rw [hs, htr]
    exact Traced.calls (.init smallStart_start) (by decide +kernel)
  obtain ⟨_, he⟩ := ends_after (m := step .yield) (s := s) (by rw [hs]; decide +kernel)
  have hregs := ((registers_preserved ⟨s, .yield, after (step .yield) s⟩ tr _
    (hrun.call trivial he)).1 rfl (by rw [hs]; decide +kernel)).1
  have hentry : (lastEntry (after (step .yield) s).current tr).map (fun f => Saved.all.map f) =
      some (Saved.all.map fun r => smallRegs (.saved r)) := by
    rw [hs, htr]
    decide +kernel
  rw [hregs, Option.map_some, hs] at hentry
  exact hentry

end Small

end Xv6Sheet.Uthread
