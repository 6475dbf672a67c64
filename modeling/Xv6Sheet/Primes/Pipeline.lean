import Mathlib.Logic.Function.Basic
import Mathlib.Tactic.Common

/-! # The prime pipeline

The processes of `primes.c`, one system call at a time. A pipe is a queue of ints without a
bound; its read end is at its end when the queue is empty and no process holds a write end.
-/

namespace Xv6Sheet.Primes

def NOFILE : ℕ := 16

inductive End
  | console
  | read (q : ℕ)
  | write (q : ℕ)
  deriving DecidableEq

/-- A pipe: all that has been written to it, and how much of that has been read. -/
@[ext]
structure Pipe where
  written : List ℕ
  taken : ℕ

/-- The system call a process makes next. The descriptors are rearranged in the same way by
the first process and by a new child. -/
inductive Pc
  | pipe
  | fill (i : ℕ)
  | close0 (child : Bool)
  | dup (child : Bool)
  | closeRd (child : Bool)
  | closeWr (child : Bool)
  | print (child : Bool)
  | read
  | pipeNext
  | fork
  | closeRead
  | write
  | closeWrite
  | wait
  | exit
  | exited
  deriving DecidableEq

/-- A process: where it is, its descriptors, its parent, and the variables of `main`, with
`pp[RD]` and `pp[WR]` as `rd` and `wr`. -/
structure Proc where
  pc : Pc
  fds : ℕ → Option End
  parent : Option ℕ
  rd : ℕ
  wr : ℕ
  prime : ℕ
  data : ℕ
  pid : ℕ

/-- The processes and the pipes by number, in the order in which they were made, and the
lines printed. A process has its number as its pid. -/
structure State where
  proc : ℕ → Proc
  nproc : ℕ
  pipe : ℕ → Pipe
  npipe : ℕ
  out : List ℕ

def freeFd (fds : ℕ → Option End) : Option ℕ := (List.range NOFILE).find? fun k => (fds k).isNone

namespace State

def setProc (s : State) (i : ℕ) (p : Proc) : State := { s with proc := Function.update s.proc i p }

section

variable (s : State) (i : ℕ) (p : Proc)

@[simp] theorem setProc_self : (s.setProc i p).proc i = p := Function.update_self ..

theorem setProc_ne {k : ℕ} (h : k ≠ i) : (s.setProc i p).proc k = s.proc k :=
  Function.update_of_ne h ..

@[simp] theorem setProc_nproc : (s.setProc i p).nproc = s.nproc := rfl

@[simp] theorem setProc_pipe : (s.setProc i p).pipe = s.pipe := rfl

@[simp] theorem setProc_npipe : (s.setProc i p).npipe = s.npipe := rfl

@[simp] theorem setProc_out : (s.setProc i p).out = s.out := rfl

end

/-- Some process holds a write end of pipe `q`. -/
def HoldsWrite (s : State) (q : ℕ) : Prop :=
  ∃ i < s.nproc, ∃ fd < NOFILE, (s.proc i).fds fd = some (.write q)

instance (s : State) (q : ℕ) : Decidable (s.HoldsWrite q) :=
  inferInstanceAs (Decidable (∃ i < _, ∃ fd < _, _ = _))

/-- `pipe(pp)`. -/
def openPipe (s : State) (i : ℕ) (pc : Pc) : State :=
  let p := s.proc i
  match freeFd p.fds with
  | none => s.setProc i { p with pc := pc }
  | some rd =>
    let fds := Function.update p.fds rd (some (.read s.npipe))
    match freeFd fds with
    | none => s.setProc i { p with pc := pc }
    | some wr =>
      { s.setProc i { p with
          pc := pc
          fds := Function.update fds wr (some (.write s.npipe))
          rd := rd
          wr := wr } with
        npipe := s.npipe + 1 }

/-- The pipe `q` holds one more number. -/
def push (s : State) (q x : ℕ) : State :=
  { s with pipe := Function.update s.pipe q { s.pipe q with written := (s.pipe q).written ++ [x] } }

/-- The next number of the pipe `q` is taken. -/
def pull (s : State) (q : ℕ) : State :=
  { s with pipe := Function.update s.pipe q { s.pipe q with taken := (s.pipe q).taken + 1 } }

section

variable (s : State) (q x k : ℕ)

@[simp] theorem push_proc : (s.push q x).proc = s.proc := rfl

@[simp] theorem push_nproc : (s.push q x).nproc = s.nproc := rfl

@[simp] theorem push_npipe : (s.push q x).npipe = s.npipe := rfl

@[simp] theorem push_out : (s.push q x).out = s.out := rfl

@[simp] theorem push_taken : ((s.push q x).pipe k).taken = (s.pipe k).taken := by
  rcases eq_or_ne k q with rfl | h
  · simp [push]
  · simp [push, h]

@[simp] theorem push_written :
    ((s.push q x).pipe q).written = (s.pipe q).written ++ [x] := by
  simp [push]

theorem push_ne (h : k ≠ q) : (s.push q x).pipe k = s.pipe k := Function.update_of_ne h ..

theorem push_grow : (s.pipe k).written <+: ((s.push q x).pipe k).written := by
  rcases eq_or_ne k q with rfl | h
  · rw [push_written]
    exact List.prefix_append ..
  · exact (congrArg Pipe.written (push_ne s q x k h)) ▸ List.prefix_refl _

@[simp] theorem pull_proc : (s.pull q).proc = s.proc := rfl

@[simp] theorem pull_nproc : (s.pull q).nproc = s.nproc := rfl

@[simp] theorem pull_npipe : (s.pull q).npipe = s.npipe := rfl

@[simp] theorem pull_out : (s.pull q).out = s.out := rfl

@[simp] theorem pull_written : ((s.pull q).pipe k).written = (s.pipe k).written := by
  rcases eq_or_ne k q with rfl | h
  · simp [pull]
  · simp [pull, h]

@[simp] theorem pull_taken : ((s.pull q).pipe q).taken = (s.pipe q).taken + 1 := by
  simp [pull]

theorem pull_ne (h : k ≠ q) : (s.pull q).pipe k = s.pipe k := Function.update_of_ne h ..

end

/-- `write(fd, &x, sizeof(int))`, which fails on a closed descriptor. -/
def send (s : State) (i fd x : ℕ) (pc : Pc) : State :=
  let p := s.proc i
  let s := s.setProc i { p with pc := pc }
  match p.fds fd with
  | some (.write q) => s.push q x
  | _ => s

def close (s : State) (i fd : ℕ) (pc : Pc) : State :=
  let p := s.proc i
  s.setProc i { p with pc := pc, fds := Function.update p.fds fd none }

/-- `dup(fd)`: the lowest free descriptor becomes a copy. -/
def dup (s : State) (i fd : ℕ) (pc : Pc) : State :=
  let p := s.proc i
  match freeFd p.fds with
  | none => s.setProc i { p with pc := pc }
  | some k => s.setProc i { p with pc := pc, fds := Function.update p.fds k (p.fds fd) }

def afterRead (p : Proc) : Pc :=
  if p.data % p.prime ≠ 0 then if p.pid = 0 then .pipeNext else .write else .read

/-- `read(0, &data, sizeof(int))`, which blocks while the pipe is empty and may still be
written to. -/
def receive (s : State) (i : ℕ) : Option State :=
  let p := s.proc i
  match p.fds 0 with
  | some (.read q) =>
    match (s.pipe q).written[(s.pipe q).taken]? with
    | some x =>
      let p := { p with data := x }
      some ((s.setProc i { p with pc := afterRead p }).pull q)
    | none => if s.HoldsWrite q then none else some (s.setProc i { p with pc := .closeWrite })
  | _ => some (s.setProc i { p with pc := afterRead p })

/-- `fork()`: the child is a copy of the parent with `pid` 0. -/
def fork (s : State) (i : ℕ) : State :=
  let p := s.proc i
  let child := { p with pc := .close0 true, parent := some i, pid := 0 }
  { s with
    proc := Function.update (Function.update s.proc i { p with pc := .closeRead, pid := s.nproc })
      s.nproc child
    nproc := s.nproc + 1 }

/-- `wait(0)` returns: a child has exited, or there is none. -/
def Waited (s : State) (i : ℕ) : Prop :=
  (∃ j < s.nproc, (s.proc j).parent = some i ∧ (s.proc j).pc = .exited) ∨
    ∀ j < s.nproc, (s.proc j).parent ≠ some i

instance (s : State) (i : ℕ) : Decidable (s.Waited i) :=
  inferInstanceAs (Decidable ((∃ j < _, _ ∧ _) ∨ ∀ j < _, _ ≠ _))

end State

/-- The next step of process `i`, if it can take one. -/
def act (n i : ℕ) (s : State) : Option State :=
  let p := s.proc i
  match p.pc with
  | .pipe => some (s.openPipe i (.fill 2))
  | .fill k => if k ≤ n then some (s.send i p.wr k (.fill (k + 1)))
    else some (s.setProc i { p with pc := .close0 false })
  | .close0 child => some (s.close i 0 (.dup child))
  | .dup child => some (s.dup i p.rd (.closeRd child))
  | .closeRd child => some (s.close i p.rd (.closeWr child))
  | .closeWr child => some (s.close i p.wr (.print child))
  | .print child =>
    let prime := if child then p.data else 2
    some { s.setProc i { p with pc := if child then .write else .read, prime := prime } with
      out := s.out ++ [prime] }
  | .read => s.receive i
  | .pipeNext => some (s.openPipe i .fork)
  | .fork => some (s.fork i)
  | .closeRead => some (s.close i p.rd .write)
  | .write => some (s.send i p.wr p.data .read)
  | .closeWrite => some (s.close i p.wr .wait)
  | .wait => if s.Waited i then some (s.setProc i { p with pc := .exit }) else none
  | .exit => some (s.setProc i { p with pc := .exited, fds := fun _ => none })
  | .exited => none

def Step (n i : ℕ) (s t : State) : Prop := i < s.nproc ∧ act n i s = some t

/-- One process, with the console on its first three descriptors. -/
structure Start (s : State) : Prop where
  nproc : s.nproc = 1
  pc : (s.proc 0).pc = .pipe
  fds : (s.proc 0).fds = fun k => if k < 3 then some .console else none
  parent : (s.proc 0).parent = none
  pid : (s.proc 0).pid = 0
  pipe : ∀ q, s.pipe q = ⟨[], 0⟩
  npipe : s.npipe = 0
  out : s.out = []

/-- A run in which the processes of a list take a step each, the last one first. -/
inductive Run (n : ℕ) : State → List ℕ → State → Prop
  | nil (s : State) : Run n s [] s
  | snoc {s t u : State} {is : List ℕ} {i : ℕ} : Run n s is t → Step n i t u →
      Run n s (i :: is) u

def runAll (n : ℕ) : List ℕ → State → Option State
  | [], s => some s
  | i :: is, s => if i < s.nproc then (act n i s).bind (runAll n is) else none

theorem Run.append {n : ℕ} {s t u : State} {is js : List ℕ} (h : Run n s is t)
    (h' : Run n t js u) : Run n s (js ++ is) u := by
  induction h' with
  | nil => exact h
  | snoc _ hs ih => exact .snoc ih hs

theorem Run.of_runAll {n : ℕ} {s t : State} {is : List ℕ} (h : runAll n is s = some t) :
    ∃ js, Run n s js t := by
  induction is generalizing s with
  | nil =>
    obtain rfl := Option.some.inj h
    exact ⟨[], .nil s⟩
  | cons i is ih =>
    rw [runAll] at h
    split at h
    · rename_i hi
      obtain ⟨u, hu, h⟩ := Option.bind_eq_some_iff.mp h
      obtain ⟨js, hr⟩ := ih h
      exact ⟨js ++ [i], (Run.snoc (.nil s) ⟨hi, hu⟩).append hr⟩
    · cases h

end Xv6Sheet.Primes
