import Xv6Sheet.Uthread.Create
import Xv6Sheet.Uthread.Registers

/-! # The program of the thread package

`main` and the three thread functions. A thread runs in its function up to the next call of the
package, which may hand the processor to another thread. Between two calls the compiled code may do
anything to the registers and to the memory outside the states and the contexts of the slots.
-/

namespace Xv6Sheet.Uthread

open Exec

/-- The thread functions `thread_a`, `thread_b` and `thread_c`. -/
inductive Func
  | a | b | c
  deriving DecidableEq

namespace Func

def name : Func → String
  | a => "thread_a"
  | b => "thread_b"
  | c => "thread_c"

def others : Func → Func × Func
  | a => (b, c)
  | b => (a, c)
  | c => (a, b)

end Func

def bound : ℕ := 100

inductive Point
  /-- in `main`, after `k` calls that follow `thread_init` -/
  | main (k : ℕ)
  | entry (x : Func)
  /-- at the test of the `while` loop -/
  | waiting (x : Func)
  /-- at the test of the `for` loop -/
  | loop (x : Func) (i : ℕ)
  deriving DecidableEq

/-- The volatile variables, `a_started` and `a_n` and those of the other functions. -/
structure Globals where
  started : Func → ℕ
  n : Func → ℕ

/-- How a stretch of a function ends: with a call of the package, or with `exit(0)`. -/
inductive Stop
  | create (x : Func)
  | yield
  | leave
  | exit

/-- What a function does up to its next call, and where it goes on. -/
structure Stretch where
  globals : Globals
  printed : List String
  stop : Stop
  point : Point

def startedLine (x : Func) : String := x.name ++ " started\n"

def countLine (x : Func) (i : ℕ) : String := x.name ++ " " ++ toString i ++ "\n"

def exitLine (x : Func) (i : ℕ) : String := x.name ++ ": exit after " ++ toString i ++ "\n"

/-- The `for` loop of a thread function and what follows it. -/
def forLoop (x : Func) (i : ℕ) (g : Globals) : Stretch :=
  if i < bound then
    ⟨{ g with n := Function.update g.n x (g.n x + 1) }, [countLine x i], .yield, .loop x (i + 1)⟩
  else
    -- `ra` of the function is its own address, where it would return to
    ⟨g, [exitLine x (g.n x)], .leave, .entry x⟩

/-- The `while` loop of a thread function and what follows it. -/
def whileLoop (x : Func) (g : Globals) : Stretch :=
  if g.started x.others.1 = 0 ∨ g.started x.others.2 = 0 then ⟨g, [], .yield, .waiting x⟩
  else forLoop x 0 g

def threadBody (x : Func) (g : Globals) : Stretch :=
  let st := whileLoop x { g with started := Function.update g.started x 1 }
  { st with printed := startedLine x :: st.printed }

def threadA : Globals → Stretch := threadBody .a

def threadB : Globals → Stretch := threadBody .b

def threadC : Globals → Stretch := threadBody .c

def main (k : ℕ) (g : Globals) : Stretch :=
  match k with
  | 0 => ⟨g, [], .create .a, .main 1⟩
  | 1 => ⟨g, [], .create .b, .main 2⟩
  | 2 => ⟨g, [], .create .c, .main 3⟩
  -- main frees its own slot
  | 3 => ⟨g, [], .leave, .main 4⟩
  | k => ⟨g, [], .exit, .main k⟩

def resume : Point → Globals → Stretch
  | .main k => main k
  | .entry .a => threadA
  | .entry .b => threadB
  | .entry .c => threadC
  | .waiting x => whileLoop x
  | .loop x i => forLoop x i

/-- The whole program: the machine, where the thread of each slot goes on, the variables and what
was printed. -/
structure System where
  machine : Machine
  points : ℕ → Point
  globals : Globals
  out : List String

/-- The end of the process: all that was printed, and the argument of `exit`. -/
structure Ending where
  out : List String
  code : ℤ

/-- What the compiled code of a stretch leaves in the memory and the registers. -/
structure Work where
  mem : Bytes
  regs : Reg → BitVec 64
  pc : BitVec 64

variable [lay : Layout]

/-- Run the package on the machine. When it gives up, its message is printed. -/
def onMachine (m : ThreadM Unit) : Exec System Ending Unit := do
  let s ← get
  match m.run s.machine with
  | .ok (_, t) => set { s with machine := t }
  | .error e => throw ⟨s.out ++ [e.msg], e.code⟩

/-- The current thread runs up to its next call, and makes it. `entry` gives the addresses of the
thread functions. -/
def turn (entry : Func → BitVec 64) (w : Work) : Exec System Ending Unit := do
  let s ← get
  let st := resume (s.points s.machine.current) s.globals
  set { s with
    globals := st.globals
    points := Function.update s.points s.machine.current st.point
    out := s.out ++ st.printed }
  onMachine (step (.body w.mem w.regs w.pc))
  match st.stop with
  | .create x =>
    modify fun s =>
      { s with points := Function.update s.points (freeSlot s.machine.mem) (.entry x) }
    onMachine (step (.create (entry x)))
  | .yield => onMachine (step .yield)
  | .leave => onMachine (step .exit)
  | .exit => do
    let s ← get
    throw ⟨s.out, 0⟩

/-- The program after `thread_init`. -/
structure Boot (s : System) : Prop where
  machine : Start s.machine
  point : s.points s.machine.current = .main 0
  started : ∀ x, s.globals.started x = 0
  n : ∀ x, s.globals.n x = 0
  out : s.out = []

def Outside (s : System) (w : Work) : Prop := guard s.machine (.body w.mem w.regs w.pc)

def Work.on (w : Work) (m : Machine) : Machine :=
  { m with mem := w.mem, regs := w.regs, pc := w.pc }

section Rules

variable {m t : Machine} {c : Call} {func : BitVec 64} {j k : ℕ}

theorem Picks.unique (hm : m.current < Layout.MAX_THREAD) (h : Picks m j)
    (h' : Picks m k) : j = k :=
  turns_inj hm h.lt h'.lt
    (Nat.le_antisymm (h.first k h'.lt h'.runnable) (h'.first j h.lt h.runnable))

theorem schedules_to (hm : m.current < Layout.MAX_THREAD) (hc : c.schedules = true)
    (hp : Picks (leave m c.leaves) k) :
    ∃ t, Ends (step c) m () t ∧ Scheduled (leave m c.leaves) k t := by
  rcases ends_or_faults (step c) m with ⟨⟨⟩, t, he⟩ | ⟨e, he⟩
  · have hg : guard m c := by
      cases c with
      | body mem regs pc => simp [Call.schedules] at hc
      | create func => simp [Call.schedules] at hc
      | yield => trivial
      | exit => trivial
    have heffect := ends_step hm hg he
    cases heffect with
    | body => simp [Call.schedules] at hc
    | create => simp [Call.schedules] at hc
    | schedule _ ht =>
      obtain rfl := hp.unique (m := leave m c.leaves) hm ht.picks
      exact ⟨t, he, ht⟩
  · exact absurd hp.runnable (((faults_step hm hc).mp he).2 k hp.lt)

theorem freeSlot_eq {mem : Bytes} (hk : k < Layout.MAX_THREAD) (hfree : state mem k = FREE)
    (hbefore : ∀ j < k, state mem j ≠ FREE) : freeSlot mem = k := by
  have hfind : (List.range Layout.MAX_THREAD).find? (fun k => state mem k = FREE) = some k := by
    refine List.find?_eq_some_iff_getElem.mpr
      ⟨by simpa using hfree, k, by simpa using hk, by simp, ?_⟩
    intro j hj
    simpa using hbefore j hj
  rw [freeSlot, hfind]
  rfl

theorem created_freeSlot (hfree : HasFree m) (h : Ends (threadCreate func) m () t) :
    Created m (freeSlot m.mem) func t := by
  obtain ⟨k, -, hk⟩ := ends_threadCreate hfree h
  obtain ⟨t', h', -, -, hstate⟩ := ends_threadCreate_frame m func
  obtain ⟨-, rfl⟩ := h.unique h'
  rw [hk.state] at hstate
  split at hstate
  · rename_i heq
    rwa [heq]
  · rw [state_freeSlot hfree] at hstate
    simp [FREE, RUNNABLE] at hstate

variable {s : System} {x : ThreadM Unit}

omit lay in
theorem ends_onMachine (h : Ends x s.machine () t) :
    Ends (onMachine x) s () { s with machine := t } := by
  have hrun : x.run s.machine = .ok ((), t) := h
  rw [onMachine, ends_get_bind, hrun]
  exact ends_set.mpr rfl

omit lay in
theorem faults_onMachine {e : Exit} (h : Faults x s.machine e) :
    Faults (onMachine x) s ⟨s.out ++ [e.msg], e.code⟩ := by
  have hrun : x.run s.machine = .error e := h
  rw [onMachine, faults_get_bind, hrun]
  exact faults_throw.mpr rfl

theorem ends_work (w : Work) (s : System) :
    Ends (onMachine (step (.body w.mem w.regs w.pc))) s () { s with machine := w.on s.machine } :=
  ends_onMachine (ends_modify.mpr rfl)

end Rules

section Turns

variable {entry : Func → BitVec 64} {w : Work} {s t : System} {k x : ℕ}

def stretch (s : System) : Stretch := resume (s.points s.machine.current) s.globals

/-- What a turn does that hands the processor to the slot `k`, where the current thread leaves the
state `x`. -/
structure Hands (x : ℕ) (s : System) (k : ℕ) (t : System) : Prop where
  globals : t.globals = (stretch s).globals
  points : t.points = Function.update s.points s.machine.current (stretch s).point
  out : t.out = s.out ++ (stretch s).printed
  current : t.machine.current = k
  state : ∀ j < Layout.MAX_THREAD, Uthread.state t.machine.mem j =
    if j = k then RUNNING else if j = s.machine.current then x else Uthread.state s.machine.mem j
  regs : ∀ r, t.machine.regs (.saved r) = savedReg s.machine.mem (context k) r
  pc : t.machine.pc = savedReg s.machine.mem (context k) .ra
  contexts : ∀ j < Layout.MAX_THREAD, j ≠ s.machine.current → ∀ r,
    savedReg t.machine.mem (context j) r = savedReg s.machine.mem (context j) r

/-- What a turn does that creates a thread for the function `f` in the slot `k`. -/
structure Creates (entry : Func → BitVec 64) (f : Func) (s : System) (k : ℕ) (t : System) :
    Prop where
  globals : t.globals = (stretch s).globals
  points : t.points =
    Function.update (Function.update s.points s.machine.current (stretch s).point) k (.entry f)
  out : t.out = s.out ++ (stretch s).printed
  current : t.machine.current = s.machine.current
  state : ∀ j < Layout.MAX_THREAD, Uthread.state t.machine.mem j =
    if j = k then RUNNABLE else Uthread.state s.machine.mem j
  regs : ∀ r, savedReg t.machine.mem (context k) r = initialRegs k (entry f) r
  contexts : ∀ j < Layout.MAX_THREAD, j ≠ k → ∀ r,
    savedReg t.machine.mem (context j) r = savedReg s.machine.mem (context j) r

theorem Outside.state (hw : Outside s w) (hk : k < Layout.MAX_THREAD) :
    Uthread.state w.mem k = Uthread.state s.machine.mem k :=
  state_body hw hk

theorem Outside.savedReg (hw : Outside s w) (hk : k < Layout.MAX_THREAD) (r : Saved) :
    Uthread.savedReg w.mem (context k) r = Uthread.savedReg s.machine.mem (context k) r :=
  savedReg_congr (context_body hw hk) r

theorem Outside.state_leave (hw : Outside s w) (hx : x < 2 ^ 32) (hk : k < Layout.MAX_THREAD) :
    Uthread.state (leave (w.on s.machine) x).mem k =
      if k = s.machine.current then x else Uthread.state s.machine.mem k := by
  rw [Uthread.state_leave hx]
  exact if_congr Iff.rfl rfl (hw.state hk)

theorem Outside.savedReg_leave (hw : Outside s w) (hk : k < Layout.MAX_THREAD) (r : Saved) :
    Uthread.savedReg (leave (w.on s.machine) x).mem (context k) r =
      Uthread.savedReg s.machine.mem (context k) r :=
  (savedReg_congr (context_leave x) r).trans (hw.savedReg hk r)

theorem Outside.picks (hw : Outside s w) (hs : s.machine.current < Layout.MAX_THREAD)
    (hx : x < 2 ^ 32) (hk : k < Layout.MAX_THREAD) (hne : k ≠ s.machine.current)
    (hrun : Uthread.state s.machine.mem k = RUNNABLE)
    (hfirst : ∀ j < Layout.MAX_THREAD, j ≠ s.machine.current →
      Uthread.state s.machine.mem j = RUNNABLE →
      turns s.machine.current k ≤ turns s.machine.current j) :
    Picks (leave (w.on s.machine) x) k := by
  refine ⟨hk, ?_, fun j hj hstate => ?_⟩
  · rw [hw.state_leave hx hk, if_neg hne]
    exact hrun
  · rw [hw.state_leave hx hj] at hstate
    by_cases hj' : j = s.machine.current
    · subst hj'
      exact (turns_self hs hk hne).le
    · rw [if_neg hj'] at hstate
      exact hfirst j hj hj' hstate

theorem turn_hands (hw : Outside s w) (hs : s.machine.current < Layout.MAX_THREAD)
    (hstop : (stretch s).stop = .yield ∧ x = RUNNABLE ∨ (stretch s).stop = .leave ∧ x = FREE)
    (hk : k < Layout.MAX_THREAD) (hne : k ≠ s.machine.current)
    (hrun : state s.machine.mem k = RUNNABLE)
    (hfirst : ∀ j < Layout.MAX_THREAD, j ≠ s.machine.current →
      state s.machine.mem j = RUNNABLE → turns s.machine.current k ≤ turns s.machine.current j) :
    ∃ t, Ends (turn entry w) s () t ∧ Hands x s k t := by
  have hcall : ∃ c : Call, c.schedules = true ∧ c.leaves = x ∧ ∀ t,
      Ends (step c) (w.on s.machine) () t → Ends (turn entry w) s () ⟨t,
        Function.update s.points s.machine.current (stretch s).point, (stretch s).globals,
        s.out ++ (stretch s).printed⟩ := by
    rcases hstop with ⟨hstop, rfl⟩ | ⟨hstop, rfl⟩
    · refine ⟨.yield, rfl, rfl, fun t ht => ?_⟩
      rw [turn, ends_get_bind]
      refine (ends_set.mpr rfl : Ends _ _ () _).bind ((ends_work w _).bind ?_)
      rw [stretch] at hstop
      rw [hstop]
      exact ends_onMachine ht
    · refine ⟨.exit, rfl, rfl, fun t ht => ?_⟩
      rw [turn, ends_get_bind]
      refine (ends_set.mpr rfl : Ends _ _ () _).bind ((ends_work w _).bind ?_)
      rw [stretch] at hstop
      rw [hstop]
      exact ends_onMachine ht
  obtain ⟨c, hc, rfl, hcall⟩ := hcall
  obtain ⟨t, he, ht⟩ := schedules_to (m := w.on s.machine) hs hc
    (hw.picks hs c.leaves_lt hk hne hrun hfirst)
  obtain ⟨-, -, hswitch⟩ : Picks _ k ∧ k ≠ s.machine.current ∧
      Switched (leave (w.on s.machine) c.leaves) k t := by
    cases ht with
    | stay _ hk' _ => exact absurd hk' hne
    | switch hpick hk' hswitch => exact ⟨hpick, hk', hswitch⟩
  refine ⟨_, hcall t he, rfl, rfl, rfl, hswitch.current, fun j hj => ?_, fun r => ?_, ?_,
    fun j hj hj' r => ?_⟩
  · rw [hswitch.state, hw.state_leave c.leaves_lt hj]
  · rw [hswitch.regs, hw.savedReg_leave hk]
  · rw [hswitch.pc, hw.savedReg_leave hk]
  · rw [savedReg_congr (hswitch.other j hj'), hw.savedReg_leave hj]

theorem turn_ends (hw : Outside s w) (hs : s.machine.current < Layout.MAX_THREAD)
    (hstop : (stretch s).stop = .leave)
    (hnone : ∀ j < Layout.MAX_THREAD, j ≠ s.machine.current → state s.machine.mem j ≠ RUNNABLE) :
    Faults (turn entry w) s ⟨s.out ++ (stretch s).printed ++ [noRunnable.msg],
    noRunnable.code⟩ := by
  have hfault : Faults (step .exit) (w.on s.machine) noRunnable := by
    refine (faults_step (s := w.on s.machine) (c := .exit) hs rfl).mpr ⟨rfl, fun j hj => ?_⟩
    rw [hw.state_leave (by decide) hj]
    split
    · simp [Call.leaves, FREE, RUNNABLE]
    · exact hnone j hj ‹_›
  rw [turn, faults_get_bind, (ends_set.mpr rfl : Ends _ _ () _).faults_iff,
    (ends_work w _).faults_iff]
  rw [stretch] at hstop
  rw [hstop]
  exact faults_onMachine hfault

theorem turn_creates {f : Func} (hw : Outside s w) (hstop : (stretch s).stop = .create f)
    (hk : k < Layout.MAX_THREAD) (hfree : state s.machine.mem k = FREE)
    (hbefore : ∀ j < k, state s.machine.mem j ≠ FREE) :
    ∃ t, Ends (turn entry w) s () t ∧ Creates entry f s k t := by
  have hfree' : state (w.on s.machine).mem k = FREE := (hw.state hk).trans hfree
  have hslot : freeSlot (w.on s.machine).mem = k := by
    refine freeSlot_eq hk hfree' fun j hj => ?_
    exact (hw.state (hj.trans hk)).trans_ne (hbefore j hj)
  obtain ⟨t, he, -⟩ := ends_threadCreate_frame (w.on s.machine) (entry f)
  have ht := created_freeSlot ⟨k, hk, hfree'⟩ he
  rw [hslot] at ht
  refine ⟨⟨t, Function.update (Function.update s.points s.machine.current (stretch s).point) k
    (.entry f),
    (stretch s).globals, s.out ++ (stretch s).printed⟩, ?_, rfl, rfl, rfl, ht.current,
    fun j hj => ?_,
    fun r => ?_, fun j hj hj' r => ?_⟩
  · rw [turn, ends_get_bind]
    refine (ends_set.mpr rfl : Ends _ _ () _).bind ((ends_work w _).bind ?_)
    rw [stretch] at hstop
    rw [hstop]
    refine (ends_modify.mpr rfl : Ends _ _ () _).bind ?_
    rw [← hslot]
    exact ends_onMachine he
  · dsimp only
    rw [ht.state]
    exact if_congr Iff.rfl rfl (hw.state hj)
  · exact congrFun ht.initial r
  · exact (savedReg_congr (ht.context hj') r).trans (hw.savedReg hj r)

theorem ends_turn_congr {s' : System} {r : Unit} (hm : s'.machine = s.machine)
    (hstop : (stretch s').stop = (stretch s).stop) (hg : (stretch s').globals = (stretch s).globals)
    (hp : Function.update s'.points s'.machine.current (stretch s').point =
      Function.update s.points s.machine.current (stretch s).point)
    (ho : s'.out ++ (stretch s').printed = s.out ++ (stretch s).printed) :
    Ends (turn entry w) s' r t ↔ Ends (turn entry w) s r t := by
  simp only [stretch] at hstop hg hp ho
  rw [turn, ends_get_bind, ends_get_bind]
  dsimp only
  rw [hstop, hg, hp, ho, hm]
  constructor
  · intro h
    obtain ⟨⟨⟩, u, hu, h⟩ := ends_bind.mp h
    exact (ends_set.mpr (ends_set.mp hu) : Ends _ _ () _).bind h
  · intro h
    obtain ⟨⟨⟩, u, hu, h⟩ := ends_bind.mp h
    exact (ends_set.mpr (ends_set.mp hu) : Ends _ _ () _).bind h

end Turns

end Xv6Sheet.Uthread
