import Xv6Sheet.Lib.Run
import Xv6Sheet.Uthread.Switch

/-! # User threads

The thread package over the memory that holds the array `all_thread`. Thread bodies run
between the calls: they may do anything to the registers and to the memory outside the
states and the contexts of the slots.
-/

namespace Xv6Sheet.Uthread

open Exec

def FREE : ℕ := 0x0
def RUNNING : ℕ := 0x1
def RUNNABLE : ℕ := 0x2

def STACK_SIZE : ℕ := 8192

/-- The offset of `context` in `struct thread`, after the stack and the padded state. -/
def contextOffset : ℕ := 8200

def threadSize : ℕ := 8312

/-- The size of the array `all_thread` and its address. -/
class Layout where
  MAX_THREAD : ℕ
  allThread : ℕ
  pos : 0 < MAX_THREAD
  fits : allThread + threadSize * MAX_THREAD ≤ 2 ^ 64

/-- What `exit` is called with, and the line printed before. -/
structure Exit where
  msg : String
  code : ℤ
  deriving DecidableEq

abbrev ThreadM := Exec Machine Exit

def noRunnable : Exit := ⟨"thread_schedule: no runnable threads\n", -1⟩

variable [lay : Layout]

def thread (k : ℕ) : ℕ := Layout.allThread + threadSize * k

def context (k : ℕ) : ℕ := thread k + contextOffset

def state (mem : Bytes) (k : ℕ) : ℕ := mem.le (thread k + STACK_SIZE) 4

def setState (mem : Bytes) (k x : ℕ) : Bytes := mem.putLe (thread k + STACK_SIZE) 4 x

def modifyMem (f : Bytes → Bytes) : ThreadM Unit := modify fun s => { s with mem := f s.mem }

def threadInit : ThreadM Unit := do
  modify fun s => { s with current := 0 }
  let s ← get
  modifyMem fun mem => setState mem s.current RUNNING

/-- The search of `thread_schedule`: `n` more turns, the next one at slot `t`. -/
def findNext (mem : Bytes) : ℕ → ℕ → Option ℕ
  | 0, _ => none
  | n + 1, t =>
    -- wrap around to index 0 if at the end
    let t := if t ≥ Layout.MAX_THREAD then 0 else t
    if state mem t = RUNNABLE then some t
    else findNext mem n (t + 1)

/-- The switch of `thread_schedule` from the current thread to another one. -/
def switchTo (s : Machine) (next : ℕ) : Machine :=
  let t := s.current
  Instr.run threadSwitch { s with
    mem := setState s.mem next RUNNING
    current := next
    regs := Function.update (Function.update s.regs .a0 (BitVec.ofNat 64 (context t)))
      .a1 (BitVec.ofNat 64 (context next)) }

def threadSchedule : ThreadM Unit := do
  let s ← get
  match findNext s.mem Layout.MAX_THREAD (s.current + 1) with
  | none => throw noRunnable
  | some next =>
    if s.current ≠ next then set (switchTo s next)
    else return ()

/-- The first free slot; without one the loop of `thread_create` ends past the array. -/
def freeSlot (mem : Bytes) : ℕ :=
  ((List.range Layout.MAX_THREAD).find? fun k => state mem k = FREE).getD Layout.MAX_THREAD

def threadCreate (func : BitVec 64) : ThreadM Unit := do
  let t := freeSlot (← get).mem
  modifyMem fun mem => setState mem t RUNNABLE
  modifyMem fun mem => mem.copy (context t) (fun _ => 0) 0 contextSize
  modifyMem fun mem => mem.putLe (context t + Saved.ra.offset) 8 func.toNat
  modifyMem fun mem => mem.putLe (context t + Saved.sp.offset) 8 ((thread t + STACK_SIZE) % 2 ^ 64)

def threadYield : ThreadM Unit := do
  let s ← get
  modifyMem fun mem => setState mem s.current RUNNABLE
  threadSchedule

def threadExit : ThreadM Unit := do
  let s ← get
  modifyMem fun mem => setState mem s.current FREE
  threadSchedule

/-- What happens after `thread_init`: a thread body runs for a while, or makes a call. -/
inductive Call
  | body (mem : Bytes) (regs : Reg → BitVec 64) (pc : BitVec 64)
  | create (func : BitVec 64)
  | yield
  | exit

def step : Call → ThreadM Unit
  | .body mem regs pc => modify fun s => { s with mem := mem, regs := regs, pc := pc }
  | .create func => threadCreate func
  | .yield => threadYield
  | .exit => threadExit

/-- A body leaves the states and the contexts of the slots alone, and a thread is created
while there is a free slot. -/
def guard (s : Machine) : Call → Prop
  | .body mem _ _ => ∀ k < Layout.MAX_THREAD, ∀ j, STACK_SIZE ≤ j → j < threadSize →
      mem (thread k + j) = s.mem (thread k + j)
  | .create _ => ∃ k < Layout.MAX_THREAD, state s.mem k = FREE
  | .yield => True
  | .exit => True

instance (s : Machine) (c : Call) : Decidable (guard s c) :=
  match c with
  | .body _ _ _ => inferInstanceAs (Decidable (∀ k < _, ∀ j, _ ≤ j → j < _ → _ = _))
  | .create _ => inferInstanceAs (Decidable (∃ k < _, _ = _))
  | .yield => inferInstanceAs (Decidable True)
  | .exit => inferInstanceAs (Decidable True)

/-- The call goes through `thread_schedule`. -/
def Call.schedules : Call → Bool
  | .yield | .exit => true
  | .body .. | .create _ => false

/-- The machine after `thread_init`; before it, the array holds zeros. -/
def Start (s : Machine) : Prop :=
  ∃ s₀ : Machine, (∀ j < threadSize * Layout.MAX_THREAD, s₀.mem (Layout.allThread + j) = 0) ∧
    Ends threadInit s₀ () s

section Memory

variable {mem mem' : Bytes} {j k x : ℕ}

theorem thread_disjoint (h : j ≠ k) :
    thread j + threadSize ≤ thread k ∨ thread k + threadSize ≤ thread j := by
  simp only [thread, threadSize]
  omega

theorem thread_fits (h : k < Layout.MAX_THREAD) : thread k + threadSize ≤ 2 ^ 64 := by
  have hfits := lay.fits
  have hle := Nat.mul_le_mul_left threadSize (Nat.succ_le_of_lt h)
  simp only [thread, threadSize] at *
  omega

theorem context_fits (h : k < Layout.MAX_THREAD) : context k + contextSize ≤ 2 ^ 64 := by
  have hk := thread_fits h
  simp only [context, contextOffset, contextSize, threadSize] at *
  omega

theorem context_disjoint (h : j ≠ k) :
    context j + contextSize ≤ context k ∨ context k + contextSize ≤ context j := by
  have hjk := thread_disjoint h
  simp only [context, contextOffset, contextSize, threadSize] at *
  omega

theorem state_congr (h : ∀ i < 4, mem' (thread k + STACK_SIZE + i) = mem
    (thread k + STACK_SIZE + i)) :
    state mem' k = state mem k :=
  Bytes.le_congr fun i hi hi' => by
    have := h (i - (thread k + STACK_SIZE)) (by omega)
    rwa [show thread k + STACK_SIZE + (i - (thread k + STACK_SIZE)) = i by omega] at this

@[simp] theorem state_setState (hx : x < 2 ^ 32) :
    state (setState mem k x) j = if j = k then x else state mem j := by
  unfold setState
  split
  · rename_i h
    subst h
    exact Bytes.le_putLe hx
  · rename_i h
    have hjk := thread_disjoint h
    simp only [threadSize] at hjk
    exact Bytes.le_putLe_of_disjoint (by omega)

theorem setState_of_context (hj : j < contextSize) (k' : ℕ) :
    setState mem k x (context k' + j) = mem (context k' + j) := by
  refine Bytes.putLe_of_not_mem ?_
  rcases eq_or_ne k k' with rfl | h
  · simp only [context, contextOffset, STACK_SIZE, contextSize] at *
    omega
  · have hk := thread_disjoint h
    simp only [context, contextOffset, STACK_SIZE, contextSize, threadSize] at *
    omega

theorem state_of_context (h : ∀ i, ¬ (context k ≤ i ∧ i < context k + contextSize) →
    mem' i = mem i) (j : ℕ) : state mem' j = state mem j := by
  refine state_congr fun i hi => h _ ?_
  rcases eq_or_ne j k with rfl | hjk
  · simp only [context, contextOffset, STACK_SIZE, contextSize] at *
    omega
  · have hdis := thread_disjoint hjk
    simp only [context, contextOffset, STACK_SIZE, contextSize, threadSize] at *
    omega

end Memory

section Specs

variable {s t : Machine} {k : ℕ}

theorem findNext_eq (mem : Bytes) (n : ℕ) {t : ℕ} (ht : t ≤ Layout.MAX_THREAD) :
    findNext mem n t = ((List.range n).map fun i => (t + i) % Layout.MAX_THREAD).find? fun k =>
      state mem k = RUNNABLE := by
  have hpos := lay.pos
  induction n generalizing t with
  | zero => rfl
  | succ n ih =>
    have hwrap : (if t ≥ Layout.MAX_THREAD then 0 else t) = t % Layout.MAX_THREAD := by
      split
      · rename_i h
        rw [Nat.le_antisymm ht h, Nat.mod_self]
      · rename_i h
        rw [Nat.mod_eq_of_lt (by omega)]
    have hlt : t % Layout.MAX_THREAD < Layout.MAX_THREAD := Nat.mod_lt _ hpos
    rw [findNext, hwrap, List.range_succ_eq_map, List.map_cons]
    split
    · rename_i h
      simp [h]
    · rename_i h
      have hmap : (List.range n).map (fun i =>
        (t % Layout.MAX_THREAD + 1 + i) % Layout.MAX_THREAD) =
          ((List.range n).map Nat.succ).map fun i => (t + i) % Layout.MAX_THREAD := by
        rw [List.map_map]
        refine List.map_congr_left fun i _ => ?_
        rw [Function.comp_apply, Nat.add_assoc, Nat.mod_add_mod, Nat.add_comm 1 i]
      rw [ih (by omega), hmap]
      simp [h]

/-- How many turns of the search after slot `c` it takes to come to slot `k`. -/
def turns (c k : ℕ) : ℕ := (k + Layout.MAX_THREAD - (c + 1)) % Layout.MAX_THREAD

theorem turns_lt (c k : ℕ) : turns c k < Layout.MAX_THREAD := Nat.mod_lt _ lay.pos

theorem add_turns {c : ℕ} (hc : c < Layout.MAX_THREAD) (hk : k < Layout.MAX_THREAD) :
    (c + 1 + turns c k) % Layout.MAX_THREAD = k := by
  unfold turns
  rw [Nat.add_mod_mod, show c + 1 + (k + Layout.MAX_THREAD - (c + 1)) = k + Layout.MAX_THREAD by
    omega, Nat.add_mod_right, Nat.mod_eq_of_lt hk]

theorem turns_add {c i : ℕ} (hc : c < Layout.MAX_THREAD) (hi : i < Layout.MAX_THREAD) :
    turns c ((c + 1 + i) % Layout.MAX_THREAD) = i := by
  unfold turns
  rw [Nat.add_sub_assoc (by omega), Nat.mod_add_mod,
    show c + 1 + i + (Layout.MAX_THREAD - (c + 1)) = i + Layout.MAX_THREAD by omega,
    Nat.add_mod_right, Nat.mod_eq_of_lt hi]

/-- The slot `thread_schedule` picks: the first runnable one after the current one. -/
structure Picks (s : Machine) (k : ℕ) : Prop where
  lt : k < Layout.MAX_THREAD
  runnable : state s.mem k = RUNNABLE
  first : ∀ j < Layout.MAX_THREAD, state s.mem j = RUNNABLE → turns s.current k ≤ turns s.current j

theorem findNext_eq_some (hs : s.current < Layout.MAX_THREAD)
    (h : findNext s.mem Layout.MAX_THREAD (s.current + 1) = some k) : Picks s k := by
  rw [findNext_eq _ _ (by omega)] at h
  obtain ⟨hk, i, hi, hik, hfirst⟩ := List.find?_eq_some_iff_getElem.mp h
  simp only [List.length_map, List.length_range, List.getElem_map, List.getElem_range]
    at hi hik hfirst
  refine ⟨hik ▸ Nat.mod_lt _ lay.pos, by simpa using hk, fun j hj hstate => ?_⟩
  rw [← hik, turns_add hs hi]
  by_contra hlt
  have hno := hfirst (turns s.current j) (by omega)
  rw [add_turns hs hj, hstate] at hno
  simp at hno

theorem findNext_eq_none {mem : Bytes} {c : ℕ} (hc : c < Layout.MAX_THREAD) :
    findNext mem Layout.MAX_THREAD (c + 1) = none ↔
      ∀ k < Layout.MAX_THREAD, state mem k ≠ RUNNABLE := by
  rw [findNext_eq _ _ (by omega), List.find?_eq_none]
  simp only [List.mem_map, List.mem_range, forall_exists_index, and_imp, decide_eq_true_eq]
  constructor
  · intro h k hk
    exact h k (turns c k) (turns_lt c k) (add_turns hc hk)
  · rintro h k i - rfl
    exact h _ (Nat.mod_lt _ lay.pos)

/-- What a switch does: it saves the registers in the context of the thread it leaves, loads
those in the context of the other, and makes that one current. -/
structure Switched (s : Machine) (k : ℕ) (t : Machine) : Prop where
  current : t.current = k
  state : ∀ j, state t.mem j = if j = k then RUNNING else state s.mem j
  regs : ∀ r, t.regs (.saved r) = savedReg s.mem (context k) r
  pc : t.pc = savedReg s.mem (context k) .ra
  self : ∀ r, savedReg t.mem (context s.current) r = s.regs (.saved r)
  other : ∀ j, j ≠ s.current → ∀ i < contextSize, t.mem (context j + i) = s.mem (context j + i)

theorem switchTo_spec (hs : s.current < Layout.MAX_THREAD) (hk : k < Layout.MAX_THREAD)
    (hne : s.current ≠ k) : Switched s k (switchTo s k) := by
  obtain ⟨m, hm⟩ : ∃ m : Machine, m = { s with
    mem := setState s.mem k RUNNING
    current := k
    regs := Function.update (Function.update s.regs .a0 (BitVec.ofNat 64 (context s.current)))
      .a1 (BitVec.ofNat 64 (context k)) } := ⟨_, rfl⟩
  have hregs : ∀ r, m.regs (.saved r) = s.regs (.saved r) := fun r => by simp [hm]
  have hsaved : ∀ j r, savedReg m.mem (context j) r = savedReg s.mem (context j) r := fun j r => by
    rw [hm]
    exact savedReg_congr (fun i hi => setState_of_context hi j) r
  have hrun : switchTo s k = { m with
      mem := saveAll (fun r => m.regs (.saved r)) (context s.current) Saved.all m.mem
      regs := loadAll m.mem (context k) Saved.all m.regs
      pc := savedReg m.mem (context k) .ra } := by
    rw [switchTo, ← hm]
    exact run_threadSwitch (by simp [hm]) (by simp [hm]) (context_fits hs) (context_fits hk)
      (context_disjoint hne)
  rw [hrun]
  refine ⟨by rw [hm], fun j => ?_, fun r => ?_, hsaved k .ra, fun r => ?_, fun j hj i hi => ?_⟩
  · have hstate : state (saveAll (fun r => m.regs (.saved r)) (context s.current) Saved.all
      m.mem) j =
        state m.mem j := state_of_context (fun i hi => saveAll_of_not_mem hi) j
    rw [hstate, hm, state_setState (by decide)]
  · simp only [loadAll, Saved.mem_all, if_true]
    exact hsaved k r
  · rw [savedReg_saveAll, if_pos (Saved.mem_all r), hregs]
  · have hdis := context_disjoint hj
    simp only
    rw [saveAll_of_not_mem (by omega), hm]
    exact setState_of_context hi j

/-- What `thread_schedule` does with the slot it picks: a switch, or nothing when it is the
current one. -/
inductive Scheduled (s : Machine) (k : ℕ) (t : Machine) : Prop
  | stay : Picks s k → k = s.current → t = s → Scheduled s k t
  | switch : Picks s k → k ≠ s.current → Switched s k t → Scheduled s k t

theorem Scheduled.picks (h : Scheduled s k t) : Picks s k := by
  cases h <;> assumption

theorem Scheduled.current (h : Scheduled s k t) : t.current = k := by
  cases h with
  | stay _ hk ht => rw [ht, hk]
  | switch _ _ ht => exact ht.current

theorem ends_threadSchedule (hs : s.current < Layout.MAX_THREAD)
    (h : Ends threadSchedule s () t) : ∃ k, Scheduled s k t := by
  rw [threadSchedule, ends_get_bind] at h
  cases hnext : findNext s.mem Layout.MAX_THREAD (s.current + 1) with
  | none => simp [hnext] at h
  | some k =>
    have hpick := findNext_eq_some hs hnext
    simp only [hnext] at h
    refine ⟨k, ?_⟩
    split at h
    · rename_i hne
      exact .switch hpick (Ne.symm hne) (ends_set.mp h ▸ switchTo_spec hs hpick.lt hne)
    · rename_i heq
      exact .stay hpick (not_not.mp heq).symm (ends_pure.mp h).2

theorem faults_threadSchedule (hs : s.current < Layout.MAX_THREAD) {e : Exit} :
    Faults threadSchedule s e ↔
      e = noRunnable ∧ ∀ k < Layout.MAX_THREAD, state s.mem k ≠ RUNNABLE := by
  rw [← findNext_eq_none hs, threadSchedule, faults_get_bind]
  cases hnext : findNext s.mem Layout.MAX_THREAD (s.current + 1) with
  | none => simp
  | some k =>
    simp only [reduceCtorEq, and_false, iff_false]
    split
    · exact faults_set
    · exact faults_pure

/-- A new thread: its slot was free and is runnable, its context holds the function and the
end of its own stack, and the other slots are as before. -/
structure Created (s : Machine) (k : ℕ) (func : BitVec 64) (t : Machine) : Prop where
  current : t.current = s.current
  regs : t.regs = s.regs
  free : Uthread.state s.mem k = FREE
  state : ∀ j, state t.mem j = if j = k then RUNNABLE else state s.mem j
  ra : savedReg t.mem (context k) .ra = func
  sp : savedReg t.mem (context k) .sp = BitVec.ofNat 64 (thread k + STACK_SIZE)
  zero : ∀ i, savedReg t.mem (context k) (.s i) = 0
  other : ∀ j, j ≠ k → ∀ i < threadSize, t.mem (thread j + i) = s.mem (thread j + i)

theorem ends_threadCreate {func : BitVec 64} (hfree : ∃ k < Layout.MAX_THREAD, state s.mem k = FREE)
    (h : Ends (threadCreate func) s () t) : ∃ k < Layout.MAX_THREAD, Created s k func t := by
  obtain ⟨k, hk⟩ : ∃ k, (List.range Layout.MAX_THREAD).find? (fun k => state s.mem k = FREE) =
      some k := by
    obtain ⟨k, hk, hstate⟩ := hfree
    exact Option.isSome_iff_exists.mp (List.find?_isSome.mpr ⟨k, by simpa using hk, by simpa⟩)
  have hslot : freeSlot s.mem = k := by rw [freeSlot, hk]; rfl
  have hlt : k < Layout.MAX_THREAD := List.mem_range.mp (List.mem_of_find?_eq_some hk)
  have hstate : state s.mem k = FREE := by simpa using List.find?_some hk
  rw [threadCreate, ends_get_bind, hslot] at h
  simp only [modifyMem, ends_bind, ends_modify] at h
  obtain ⟨_, _, rfl, _, _, rfl, _, _, rfl, rfl⟩ := h
  obtain ⟨m₁, hm₁⟩ : ∃ m, m = setState s.mem k RUNNABLE := ⟨_, rfl⟩
  obtain ⟨m₂, hm₂⟩ : ∃ m, m = m₁.copy (context k) (fun _ => 0) 0 contextSize := ⟨_, rfl⟩
  obtain ⟨m₃, hm₃⟩ : ∃ m, m = m₂.putLe (context k + Saved.ra.offset) 8 func.toNat := ⟨_, rfl⟩
  obtain ⟨m₄, hm₄⟩ : ∃ m, m = m₃.putLe (context k + Saved.sp.offset) 8
    ((thread k + STACK_SIZE) % 2 ^ 64) := ⟨_, rfl⟩
  simp only [← hm₁, ← hm₂, ← hm₃, ← hm₄]
  -- all but the state is written in the context
  have hctx : ∀ i, ¬ (context k ≤ i ∧ i < context k + contextSize) → m₄ i = m₁ i := fun i hi => by
    have hra := Saved.ra.offset_lt
    have hsp := Saved.sp.offset_lt
    rw [hm₄, Bytes.putLe_of_not_mem (by omega), hm₃, Bytes.putLe_of_not_mem (by omega), hm₂,
      Bytes.copy_of_not_mem hi]
  have hzero : ∀ r : Saved, m₂.le (context k + r.offset) 8 = 0 := fun r => by
    have hr := r.offset_lt
    rw [← Bytes.le_zero (context k + r.offset) 8, hm₂]
    exact Bytes.le_congr fun i hi hi' => Bytes.copy_of_mem (by omega)
  refine ⟨k, hlt, rfl, rfl, hstate, fun j => ?_, ?_, ?_, fun i => ?_, fun j hj i hi => ?_⟩
  · rw [state_of_context hctx, hm₁, state_setState (by decide)]
  · rw [savedReg, hm₄, Bytes.le_putLe_of_disjoint (by simp only [Saved.offset]; omega), hm₃,
      Bytes.le_putLe func.isLt, BitVec.ofNat_toNat, BitVec.setWidth_eq]
  · have hlt : (thread k + STACK_SIZE) % 2 ^ 64 < 256 ^ 8 := Nat.mod_lt _ (by decide)
    rw [savedReg, hm₄, Bytes.le_putLe hlt]
    exact BitVec.eq_of_toNat_eq (by simp)
  · have hra := Saved.offset_disjoint (.s i) .ra (by simp)
    have hsp := Saved.offset_disjoint (.s i) .sp (by simp)
    rw [savedReg, hm₄, Bytes.le_putLe_of_disjoint (by omega), hm₃,
      Bytes.le_putLe_of_disjoint (by omega), hzero]
    rfl
  · have hdis := thread_disjoint hj
    have hmem : m₁ (thread j + i) = s.mem (thread j + i) := by
      rw [hm₁]
      refine Bytes.putLe_of_not_mem ?_
      simp only [STACK_SIZE, threadSize] at *
      omega
    have hout : ¬ (context k ≤ thread j + i ∧ thread j + i < context k + contextSize) := by
      simp only [context, contextOffset, contextSize, threadSize] at *
      omega
    exact (hctx _ hout).trans hmem

/-- The machine in which the current thread has changed its state, about to call
`thread_schedule`. -/
def leave (s : Machine) (x : ℕ) : Machine := { s with mem := setState s.mem s.current x }

theorem ends_threadYield (hs : s.current < Layout.MAX_THREAD) (h : Ends threadYield s () t) :
    ∃ k, Scheduled (leave s RUNNABLE) k t := by
  simp only [threadYield, modifyMem, ends_get_bind, ends_bind (x := modify _), ends_modify] at h
  obtain ⟨_, _, rfl, h⟩ := h
  exact ends_threadSchedule (s := leave s RUNNABLE) hs h

theorem ends_threadExit (hs : s.current < Layout.MAX_THREAD) (h : Ends threadExit s () t) :
    ∃ k, Scheduled (leave s FREE) k t := by
  simp only [threadExit, modifyMem, ends_get_bind, ends_bind (x := modify _), ends_modify] at h
  obtain ⟨_, _, rfl, h⟩ := h
  exact ends_threadSchedule (s := leave s FREE) hs h

end Specs

end Xv6Sheet.Uthread
