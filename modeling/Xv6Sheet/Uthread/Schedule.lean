import Xv6Sheet.Uthread.Thread

/-! # The scheduler

Which thread runs, over whole runs of the thread package. The search of `thread_schedule`
starts one past the current slot, so a runnable thread is met before the search comes
round again.
-/

namespace Xv6Sheet.Uthread

open Exec

variable [lay : Layout] {s t : Machine} {c : Call} {j k : ℕ}

/-- What holds between the calls: the current thread is not free, and no other one is
running. -/
structure Sound (s : Machine) : Prop where
  lt : s.current < Layout.MAX_THREAD
  self : state s.mem s.current = RUNNING ∨ state s.mem s.current = RUNNABLE
  other : ∀ k < Layout.MAX_THREAD, k ≠ s.current → state s.mem k = FREE ∨ state s.mem k = RUNNABLE

/-- The current thread is running and no other one is. -/
structure CurrentRunning (s : Machine) : Prop where
  self : state s.mem s.current = RUNNING
  other : ∀ k < Layout.MAX_THREAD, k ≠ s.current → state s.mem k = FREE ∨ state s.mem k = RUNNABLE

/-- The state a call gives the current thread before `thread_schedule`. -/
def Call.leaves : Call → ℕ
  | .yield => RUNNABLE
  | _ => FREE

inductive Effect (s : Machine) : Call → Machine → Prop
  | body {mem : Bytes} {regs : Reg → BitVec 64} {pc : BitVec 64} :
      (∀ k < Layout.MAX_THREAD, ∀ j, STACK_SIZE ≤ j → j < threadSize →
        mem (thread k + j) = s.mem (thread k + j)) →
      Effect s (.body mem regs pc) { s with mem := mem, regs := regs, pc := pc }
  | create {func : BitVec 64} {k : ℕ} {t : Machine} : k < Layout.MAX_THREAD →
      Created s k func t → Effect s (.create func) t
  | schedule {c : Call} {k : ℕ} {t : Machine} : c.schedules = true →
      Scheduled (leave s c.leaves) k t → Effect s c t

theorem ends_step (hs : s.current < Layout.MAX_THREAD) (hg : guard s c)
    (h : Ends (step c) s () t) : Effect s c t := by
  cases c with
  | body mem regs pc =>
    obtain rfl := ends_modify.mp h
    exact .body hg
  | create func =>
    obtain ⟨k, hk, ht⟩ := ends_threadCreate hg h
    exact .create hk ht
  | yield =>
    obtain ⟨k, ht⟩ := ends_threadYield hs h
    exact .schedule rfl ht
  | exit =>
    obtain ⟨k, ht⟩ := ends_threadExit hs h
    exact .schedule rfl ht

@[simp] theorem leave_current (x : ℕ) : (leave s x).current = s.current := rfl

@[simp] theorem state_leave {x : ℕ} (hx : x < 2 ^ 32) :
    state (leave s x).mem k = if k = s.current then x else state s.mem k :=
  state_setState hx

omit lay in
theorem Call.leaves_lt (c : Call) : c.leaves < 2 ^ 32 := by
  cases c <;> simp [leaves, FREE, RUNNABLE]

omit lay in
theorem Call.leaves_eq (c : Call) : c.leaves = FREE ∨ c.leaves = RUNNABLE := by
  cases c <;> simp [leaves]

theorem Scheduled.state (h : Scheduled s k t) (j : ℕ) :
    state t.mem j = if j = k ∧ k ≠ s.current then RUNNING else state s.mem j := by
  cases h with
  | stay _ hk ht => simp [ht, hk]
  | switch _ hne ht => simp [ht.state, hne]

theorem start_state (h : Start s) : s.current < Layout.MAX_THREAD ∧
    state s.mem s.current = RUNNING ∧
    ∀ k < Layout.MAX_THREAD, k ≠ s.current → state s.mem k = FREE := by
  obtain ⟨s₀, hzero, h⟩ := h
  simp only [threadInit, modifyMem, ends_bind, ends_modify, ends_get] at h
  obtain ⟨_, _, rfl, _, _, ⟨rfl, rfl⟩, rfl⟩ := h
  refine ⟨lay.pos, ?_, fun k hk hne => ?_⟩
  · rw [state_setState (by decide), if_pos rfl]
  · rw [state_setState (by decide), if_neg hne]
    refine (Bytes.le_congr fun i hi hi' => ?_).trans (Bytes.le_zero (thread k + STACK_SIZE) 4)
    have hle := Nat.mul_le_mul_left threadSize (Nat.succ_le_of_lt hk)
    have hz := hzero (i - Layout.allThread) (by
      simp only [thread, threadSize, STACK_SIZE] at *
      omega)
    rwa [show Layout.allThread + (i - Layout.allThread) = i by
      simp only [thread, threadSize] at *; omega] at hz

theorem start_sound (h : Start s) : CurrentRunning s ∧ s.current < Layout.MAX_THREAD :=
  ⟨⟨(start_state h).2.1, fun k hk hne => Or.inl ((start_state h).2.2 k hk hne)⟩, (start_state h).1⟩

theorem CurrentRunning.sound (h : CurrentRunning s) (hs : s.current < Layout.MAX_THREAD) :
    Sound s := ⟨hs, Or.inl h.self, h.other⟩

theorem state_body {mem : Bytes} (h : ∀ k < Layout.MAX_THREAD, ∀ j, STACK_SIZE ≤ j →
    j < threadSize → mem (thread k + j) = s.mem (thread k + j)) (hk : k < Layout.MAX_THREAD) :
    state mem k = state s.mem k :=
  state_congr fun i hi => by
    have hj := h k hk (STACK_SIZE + i) (by omega) (by simp only [STACK_SIZE, threadSize]; omega)
    rwa [← Nat.add_assoc] at hj

theorem Effect.sound (hs : Sound s) (h : Effect s c t) : Sound t := by
  cases h with
  | body hmem =>
    refine ⟨hs.lt, ?_, fun k hk hne => ?_⟩
    · rw [state_body hmem hs.lt]
      exact hs.self
    · rw [state_body hmem hk]
      exact hs.other k hk hne
  | @create _ k _ hk ht =>
    have hne : s.current ≠ k := by
      rintro rfl
      rcases hs.self with h | h <;> rw [ht.free] at h <;> simp [FREE, RUNNING, RUNNABLE] at h
    refine ⟨ht.current ▸ hs.lt, ?_, fun j hj hjne => ?_⟩
    · rw [ht.current, ht.state, if_neg hne]
      exact hs.self
    · rw [ht.state]
      split
      · exact Or.inr rfl
      · exact hs.other j hj (ht.current ▸ hjne)
  | @schedule _ k _ _ ht =>
    have hlt := ht.picks.lt
    have hrun := ht.picks.runnable
    refine ⟨ht.current ▸ hlt, ?_, fun j hj hjne => ?_⟩
    · rw [ht.current, ht.state]
      split
      · exact Or.inl rfl
      · exact Or.inr hrun
    · rw [ht.current] at hjne
      rw [ht.state, if_neg (fun h => hjne h.1), state_leave c.leaves_lt]
      split
      · exact c.leaves_eq
      · rename_i hne
        exact hs.other j hj hne

theorem reached_sound (h : Reached step guard Start s) : Sound s := by
  apply Reached.invariant _ _ h
  · intro s hs
    exact (start_sound hs).1.sound (start_sound hs).2
  · intro s t c _ hs hg he
    exact (ends_step hs.lt hg he).sound hs

section Fairness

theorem turns_sub {c k x : ℕ} (hc : c < Layout.MAX_THREAD) (hk : k < Layout.MAX_THREAD)
    (hx : x < Layout.MAX_THREAD) (h : turns c k < turns c x) :
    turns k x = turns c x - turns c k - 1 := by
  have hlt := turns_lt c x
  have hxk : (k + 1 + (turns c x - turns c k - 1)) % Layout.MAX_THREAD = x := by
    calc (k + 1 + (turns c x - turns c k - 1)) % Layout.MAX_THREAD
        = ((c + 1 + turns c k) % Layout.MAX_THREAD + (turns c x - turns c k)) %
            Layout.MAX_THREAD := by rw [add_turns hc hk]; congr 1; omega
      _ = (c + 1 + turns c x) % Layout.MAX_THREAD := by rw [Nat.mod_add_mod]; congr 1; omega
      _ = x := add_turns hc hx
  conv_lhs => rw [← hxk]
  exact turns_add hk (by omega)

theorem turns_inj {c k x : ℕ} (hc : c < Layout.MAX_THREAD) (hk : k < Layout.MAX_THREAD)
    (hx : x < Layout.MAX_THREAD) (h : turns c k = turns c x) : k = x := by
  rw [← add_turns hc hk, h, add_turns hc hx]

theorem turns_self {c k : ℕ} (hc : c < Layout.MAX_THREAD) (hk : k < Layout.MAX_THREAD)
    (hne : k ≠ c) : turns c k < turns c c := by
  have hcc : turns c c = Layout.MAX_THREAD - 1 := by
    unfold turns
    rw [show c + Layout.MAX_THREAD - (c + 1) = Layout.MAX_THREAD - 1 by omega,
      Nat.mod_eq_of_lt (by omega)]
  have hlt := turns_lt c k
  have hinj : turns c k ≠ turns c c := fun h => hne (turns_inj hc hk hc h)
  omega

/-- Thread `u` waits, and the search meets it before thread `x`. -/
structure Waits (s : Machine) (u x : ℕ) : Prop where
  ne : s.current ≠ u
  runnable : state s.mem u = RUNNABLE
  before : turns s.current u < turns s.current x

/-- A step selects the waiting thread, or leaves it waiting and does not select the other. -/
theorem Effect.waits {u x : ℕ} (hs : Sound s) (h : Effect s c t) (hu : u < Layout.MAX_THREAD)
    (hx : x < Layout.MAX_THREAD) (hw : Waits s u x) :
    (c.schedules = true ∧ t.current = u) ∨
      (Waits t u x ∧ (c.schedules = true → t.current ≠ x)) := by
  cases h with
  | body hmem => exact Or.inr ⟨⟨hw.ne, by rw [state_body hmem hu]; exact hw.runnable, hw.before⟩,
      by simp [Call.schedules]⟩
  | @create _ k _ hk ht =>
    refine Or.inr ⟨⟨ht.current ▸ hw.ne, ?_, ht.current ▸ hw.before⟩, by simp [Call.schedules]⟩
    rw [ht.state]
    split
    · rfl
    · exact hw.runnable
  | @schedule _ k _ hc ht =>
    have hrun : Uthread.state (leave s c.leaves).mem u = RUNNABLE := by
      rw [state_leave c.leaves_lt, if_neg (Ne.symm hw.ne)]
      exact hw.runnable
    have hle := ht.picks.first u hu hrun
    have hk := ht.picks.lt
    rw [leave_current] at hle
    rcases eq_or_ne k u with rfl | hku
    · exact Or.inl ⟨hc, ht.current⟩
    · have hlt : turns s.current k < turns s.current u :=
        lt_of_le_of_ne hle fun he => hku (turns_inj hs.lt hk hu he)
      have hbefore := hw.before
      refine Or.inr ⟨⟨ht.current ▸ hku, ?_, ?_⟩, fun _ he => ?_⟩
      · rw [ht.state, if_neg (fun h => hku h.1.symm)]
        exact hrun
      · rw [ht.current, turns_sub hs.lt hk hu hlt, turns_sub hs.lt hk hx (hlt.trans hbefore)]
        omega
      · rw [ht.current] at he
        subst he
        omega

theorem waits_run {u x : ℕ} (hu : u < Layout.MAX_THREAD) (hx : x < Layout.MAX_THREAD)
    {p : Taken Machine Call} {mid old : List (Taken Machine Call)} (hw : Waits p.after u x)
    (h : Traced step guard Start (mid ++ p :: old) s) :
    (∃ later y earlier, mid = later ++ y :: earlier ∧ y.call.schedules = true ∧
      y.after.current = u ∧ ∀ z ∈ earlier, state z.after.mem u = RUNNABLE) ∨
    (Waits s u x ∧ ∀ z ∈ mid, state z.after.mem u = RUNNABLE) := by
  induction mid generalizing s with
  | nil => exact Or.inr ⟨h.cons.1 ▸ hw, by simp⟩
  | cons y mid ih =>
    obtain ⟨hy, htr, hg, _, he⟩ := Traced.cons h
    rcases ih htr with ⟨later, z, earlier, hmid, hz⟩ | ⟨hwait, hall⟩
    · exact Or.inl ⟨y :: later, z, earlier, by rw [hmid, List.cons_append], hz⟩
    · have hs := reached_sound htr.reached
      rcases (ends_step hs.lt hg he).waits hs hu hx hwait with ⟨hsch, hcur⟩ | ⟨hwait', -⟩
      · exact Or.inl ⟨[], y, mid, rfl, hsch, hy ▸ hcur, hall⟩
      · refine Or.inr ⟨hwait', fun z hz => ?_⟩
        rcases List.mem_cons.mp hz with rfl | hz
        · exact hy ▸ hwait'.runnable
        · exact hall z hz

end Fairness

theorem faults_step {e : Exit} (hs : s.current < Layout.MAX_THREAD) (hc : c.schedules = true) :
    Faults (step c) s e ↔
      e = noRunnable ∧ ∀ k < Layout.MAX_THREAD, state (leave s c.leaves).mem k ≠ RUNNABLE := by
  cases c with
  | body mem regs pc => simp [Call.schedules] at hc
  | create func => simp [Call.schedules] at hc
  | yield =>
    refine Iff.trans ?_ (faults_threadSchedule (s := leave s RUNNABLE) hs)
    simp [step, threadYield, modifyMem, leave]
  | exit =>
    refine Iff.trans ?_ (faults_threadSchedule (s := leave s FREE) hs)
    simp [step, threadExit, modifyMem, leave]

/-- Between two selections of the same thread every other thread that was runnable at the
first one is selected, and it has been runnable until then. The scheduler gives up when no
slot is runnable, and only then. -/
theorem schedule_fair :
    (∀ (p q : Taken Machine Call) (mid old : List (Taken Machine Call)) (t : Machine) (u : ℕ),
      Traced step guard Start (q :: (mid ++ p :: old)) t →
      p.call.schedules = true → q.call.schedules = true → q.after.current = p.after.current →
      u < Layout.MAX_THREAD → u ≠ p.after.current → state p.after.mem u = RUNNABLE →
      ∃ later y earlier, mid = later ++ y :: earlier ∧ y.call.schedules = true ∧
        y.after.current = u ∧ ∀ z ∈ earlier, state z.after.mem u = RUNNABLE) ∧
    ∀ (s : Machine) (c : Call) (e : Exit), Reached step guard Start s → c.schedules = true →
      (Faults (step c) s e ↔ e = noRunnable ∧
        ∀ k < Layout.MAX_THREAD, state (leave s c.leaves).mem k ≠ RUNNABLE) := by
  constructor
  · intro p q mid old t u h _ hq hsame hu hne hrun
    obtain ⟨hqt, htr, hg, _, he⟩ := Traced.cons h
    obtain ⟨_, hp⟩ := htr.suffix
    obtain ⟨rfl, -⟩ := Traced.cons hp
    have hlt := (reached_sound hp.reached).lt
    have hw : Waits p.after u p.after.current := ⟨Ne.symm hne, hrun, turns_self hlt hu hne⟩
    rcases waits_run hu hlt hw htr with hfound | ⟨hwait, -⟩
    · exact hfound
    · have hs := reached_sound htr.reached
      rw [hqt] at hsame
      rcases (ends_step hs.lt hg he).waits hs hu hlt hwait with ⟨-, hcur⟩ | ⟨-, hnot⟩
      · exact absurd (hcur.symm.trans hsame) hne
      · exact absurd hsame (hnot hq)
  · intro s c e h hc
    exact faults_step (reached_sound h).lt hc

section Small

abbrev small : Layout := ⟨3, 0, by decide, by decide⟩

/-- The machine after `thread_init` on the array of `small`. -/
def smallStart : Machine :=
  letI := small
  ⟨setState (fun _ => 0) 0 RUNNING, fun _ => 0, 0, 0⟩

omit lay in
theorem smallStart_start : letI := small; Start smallStart :=
  ⟨⟨fun _ => 0, fun _ => 0, 0, 0⟩, fun _ _ => rfl, rfl⟩

def smallCalls : List Call := [.create 4, .create 8, .yield, .yield, .yield, .yield]

omit lay in
theorem schedule_fair_small : letI := small
    ∃ y ∈ stepsAll step [.yield, .yield] (afterAll step (smallCalls.take 3) smallStart),
      y.after.current = 2 := by
  let _ := small
  have htr : Traced step guard Start (stepsAll step smallCalls smallStart ++ []) _ :=
    Traced.calls (.init smallStart_start) (by decide +kernel)
  obtain ⟨later, y, earlier, hmid, -, hy, -⟩ := schedule_fair.1 _ _
    (stepsAll step [.yield, .yield] (afterAll step (smallCalls.take 3) smallStart)) _ _ 2 htr
    rfl rfl (by decide +kernel) (by decide) (by decide +kernel) (by decide +kernel)
  exact ⟨y, by rw [hmid]; simp, hy⟩

end Small

def HasOther (s : Machine) : Call → Prop
  | .yield => ∃ k < Layout.MAX_THREAD, k ≠ s.current ∧ state s.mem k = RUNNABLE
  | _ => True

instance (s : Machine) (c : Call) : Decidable (HasOther s c) :=
  match c with
  | .yield => inferInstanceAs (Decidable (∃ k < _, _ ∧ _))
  | .body _ _ _ => inferInstanceAs (Decidable True)
  | .create _ => inferInstanceAs (Decidable True)
  | .exit => inferInstanceAs (Decidable True)

/-- After a call of `thread_schedule` the current thread is running, unless it was the only
runnable one. -/
theorem currentRunning_iff (hs : Sound s) (hc : c.schedules = true) (he : Ends (step c) s () t) :
    CurrentRunning t ↔ HasOther s c := by
  have hg : guard s c := by
    cases c with
    | body mem regs pc => simp [Call.schedules] at hc
    | create func => simp [Call.schedules] at hc
    | yield => trivial
    | exit => trivial
  have ht := ends_step hs.lt hg he
  have hsound := ht.sound hs
  cases ht with
  | body => simp [Call.schedules] at hc
  | create => simp [Call.schedules] at hc
  | @schedule _ k _ _ hk =>
    have hrun := hk.picks.runnable
    rw [state_leave c.leaves_lt] at hrun
    have hswitch : CurrentRunning t ↔ k ≠ s.current := by
      constructor
      · rintro h rfl
        have hself := h.self
        rw [hk.current, hk.state, if_neg (fun h => h.2 rfl), hk.picks.runnable] at hself
        simp [RUNNING, RUNNABLE] at hself
      · intro hne
        refine ⟨?_, hsound.other⟩
        rw [hk.current, hk.state, if_pos ⟨rfl, hne⟩]
    rw [hswitch]
    constructor
    · intro hne
      rw [if_neg hne] at hrun
      cases c with
      | yield => exact ⟨k, hk.picks.lt, hne, hrun⟩
      | _ => trivial
    · rintro h rfl
      rw [if_pos rfl] at hrun
      cases c with
      | yield =>
        obtain ⟨j, hj, hne, hstate⟩ := h
        have hfirst := hk.picks.first j hj (by rwa [state_leave (by decide), if_neg hne])
        have hself := turns_self hs.lt hj hne
        rw [leave_current] at hfirst
        omega
      | _ => simp [Call.leaves, FREE, RUNNABLE] at hrun

theorem Effect.currentRunning (hs : CurrentRunning s) (hlt : s.current < Layout.MAX_THREAD)
    (h : Effect s c t) (hc : c.schedules = false) : CurrentRunning t := by
  have hsound := h.sound (hs.sound hlt)
  refine ⟨?_, hsound.other⟩
  cases h with
  | body hmem => exact (state_body hmem hlt).trans hs.self
  | @create _ k _ hk ht =>
    rw [ht.current, ht.state, if_neg, hs.self]
    rintro rfl
    have hfree := ht.free
    rw [hs.self] at hfree
    simp [FREE, RUNNING] at hfree
  | schedule hc' => simp [hc'] at hc

/-- Where every thread that yields leaves another one runnable, the current thread is always
the one that is running. After any call of `thread_schedule` it is, unless the call came
from a yield with no other runnable thread: then the thread stays current, but runnable. -/
theorem current_running :
    (∀ s, Reached step (fun s c => guard s c ∧ HasOther s c) Start s → CurrentRunning s) ∧
    ∀ s c t, Reached step guard Start s → c.schedules = true → Ends (step c) s () t →
      (CurrentRunning t ↔ HasOther s c) := by
  constructor
  · intro s h
    refine (Reached.invariant (I := fun s => CurrentRunning s ∧ s.current < Layout.MAX_THREAD)
      (fun s hs => start_sound hs) (fun s t c _ hs hg he => ?_) h).1
    have ht := ends_step hs.2 hg.1 he
    have hsound := hs.1.sound hs.2
    refine ⟨?_, (ht.sound hsound).lt⟩
    cases hc : c.schedules with
    | false => exact ht.currentRunning hs.1 hs.2 hc
    | true => exact (currentRunning_iff hsound hc he).mpr hg.2
  · intro s c t h hc he
    exact currentRunning_iff (reached_sound h) hc he

omit lay in
theorem current_running_small : letI := small
    CurrentRunning (afterAll step [.create 4, .yield] smallStart) := by
  let _ := small
  have htr : Traced step (fun s c => guard s c ∧ HasOther s c) Start
      (stepsAll step [.create 4, .yield] smallStart ++ []) _ :=
    Traced.calls (.init smallStart_start) (by decide +kernel)
  exact current_running.1 _ htr.reached

omit lay in
/-- The only thread yields: it stays current, and its state stays the one `thread_yield`
set. -/
theorem current_not_running : letI := small
    ¬ ∀ s c t, Reached step guard Start s → c.schedules = true → Ends (step c) s () t →
      CurrentRunning t := by
  let _ := small
  intro h
  obtain ⟨_, he⟩ := ends_after (m := step .yield) (s := smallStart) (by decide +kernel)
  have hself := (h _ _ _ (.init smallStart_start) rfl he).self
  exact absurd hself (by decide +kernel)

end Xv6Sheet.Uthread
