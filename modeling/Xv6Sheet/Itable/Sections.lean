import Xv6Sheet.Disk.Layout

/-! # The critical sections of the inode table

Any number of processes work on the inode table, and each critical section under the table
lock, the sleep lock of an inode or the lock of a buffer is one step. A process only passes
references that it holds, and keeps one to each inode that it has locked.
-/

namespace Xv6Sheet.Itable

/-- An entry of the table, with the process that holds its sleep lock. -/
structure Entry (ι : Type) extends Dinode where
  dev : ℕ
  inum : ℕ
  ref : ℤ
  valid : Bool
  holder : Option ι

/-- Where a process is: outside of these functions, in `ilock` behind `acquiresleep`, in the
part of `iput` that frees the inode, in the last section of `iput`, in the loop of `ialloc`
or in its call of `iget`. -/
inductive Pc (n : ℕ)
  | idle
  | load (ip : Fin n)
  | trunc (ip : Fin n)
  | clear (ip : Fin n)
  | invalidate (ip : Fin n)
  | release (ip : Fin n)
  | drop (ip : Fin n)
  | alloc (dev inum : ℕ) (type : ℤ)
  | get (dev inum : ℕ)
  | panicked

/-- A process, with the number of references it holds to each entry. -/
structure Proc (n : ℕ) where
  pc : Pc n
  held : Fin n → ℕ

structure State (ι : Type) (n : ℕ) where
  entry : Fin n → Entry ι
  disk : ℕ → ℕ → Dinode
  proc : ι → Proc n

/-- The calls of a process that is outside of these functions. While it has an inode locked
it may also change the fields of the inode; it may give a reference to another process. -/
inductive Call (ι : Type) (n : ℕ)
  | iget (dev inum : ℕ)
  | idup (ip : Fin n)
  | ilock (ip : Fin n)
  | iunlock (ip : Fin n)
  | iput (ip : Fin n)
  | ialloc (dev : ℕ) (type : ℤ)
  | store (ip : Fin n) (dip : Dinode)
  | iupdate (ip : Fin n)
  | pass (j : ι) (ip : Fin n)

variable {ι : Type} [DecidableEq ι] {n : ℕ}

namespace State

variable (s : State ι n) (i : ι) (ip : Fin n)

def setEntry (x : Entry ι) : State ι n := { s with entry := Function.update s.entry ip x }

def setDisk (dev inum : ℕ) (dip : Dinode) : State ι n :=
  { s with disk := Function.update s.disk dev (Function.update (s.disk dev) inum dip) }

def setProc (p : Proc n) : State ι n := { s with proc := Function.update s.proc i p }

def goto (pc : Pc n) : State ι n := s.setProc i { s.proc i with pc := pc }

/-- The process holds `k` references to the entry. -/
def setHeld (k : ℕ) (pc : Pc n) : State ι n :=
  s.setProc i ⟨pc, Function.update (s.proc i).held ip k⟩

def lookup (dev inum : ℕ) : Option (Fin n) :=
  (List.finRange n).find? fun ip =>
    decide (0 < (s.entry ip).ref ∧ (s.entry ip).dev = dev ∧ (s.entry ip).inum = inum)

def empty : Option (Fin n) := (List.finRange n).find? fun ip => decide ((s.entry ip).ref = 0)

def idup : State ι n :=
  (s.setEntry ip { s.entry ip with ref := (s.entry ip).ref + 1 }).setHeld i ip
    ((s.proc i).held ip + 1) .idle

/-- Find the inode with number `inum` on device `dev`. -/
def iget (dev inum : ℕ) : State ι n :=
  match s.lookup dev inum with
  | some ip => s.idup i ip
  | none =>
    match s.empty with
    | some ip =>
      (s.setEntry ip { s.entry ip with dev := dev, inum := inum, ref := 1, valid := false }).setHeld
        i ip ((s.proc i).held ip + 1) .idle
    | none => s.goto i .panicked

/-- Drop a reference: the last section of `iput`, and the first one if it frees nothing. -/
def drop : State ι n :=
  (s.setEntry ip { s.entry ip with ref := (s.entry ip).ref - 1 }).setHeld i ip
    ((s.proc i).held ip - 1) .idle

/-- The first section of `iput`. It waits in `acquiresleep` while the inode is locked. -/
def iput : Option (State ι n) :=
  let x := s.entry ip
  if x.ref = 1 ∧ x.valid ∧ x.nlink = 0 then
    if x.holder = none then
      some ((s.setEntry ip { x with holder := some i }).goto i (.trunc ip))
    else none
  else some (s.drop i ip)

/-- Lock the given inode, up to the end of `acquiresleep`, which waits for the lock. -/
def ilock : Option (State ι n) :=
  let x := s.entry ip
  if x.ref < 1 then some (s.goto i .panicked)
  else if x.holder = none then
    some ((s.setEntry ip { x with holder := some i }).goto i (.load ip))
  else none

/-- The rest of `ilock`: read the inode from disk if necessary. -/
def load : State ι n :=
  let x := s.entry ip
  if x.valid = false then
    let dip := s.disk x.dev x.inum
    (s.setEntry ip { x with toDinode := dip, valid := true }).goto i
      (if dip.type = 0 then .panicked else .idle)
  else s.goto i .idle

def iunlock : State ι n :=
  let x := s.entry ip
  if x.holder ≠ some i ∨ x.ref < 1 then s.goto i .panicked
  else s.setEntry ip { x with holder := none }

def iupdate : State ι n :=
  let x := s.entry ip
  s.setDisk x.dev x.inum x.toDinode

end State

/-- A process may use a reference it holds, but not the last one to an inode it has locked. -/
def Spare (s : State ι n) (i : ι) (ip : Fin n) : Prop :=
  0 < (s.proc i).held ip ∧ ((s.entry ip).holder = some i → 1 < (s.proc i).held ip)

instance (s : State ι n) (i : ι) (ip : Fin n) : Decidable (Spare s i ip) :=
  inferInstanceAs (Decidable (_ ∧ (_ → _)))

def call (i : ι) (c : Call ι n) (s : State ι n) : Option (State ι n) :=
  let p := s.proc i
  match c with
  | .iget dev inum => some (s.iget i dev inum)
  | .idup ip => if 0 < p.held ip then some (s.idup i ip) else none
  | .ilock ip => if 0 < p.held ip then s.ilock i ip else none
  | .iunlock ip => if 0 < p.held ip then some (s.iunlock i ip) else none
  | .iput ip => if Spare s i ip then s.iput i ip else none
  | .ialloc dev type => some (s.goto i (.alloc dev 1 type))
  | .store ip dip => if (s.entry ip).holder = some i then
      some (s.setEntry ip { s.entry ip with toDinode := dip })
    else none
  | .iupdate ip => if (s.entry ip).holder = some i then some (s.iupdate ip) else none
  | .pass j ip => if Spare s i ip then
      let s := s.setHeld i ip (p.held ip - 1) .idle
      some (s.setHeld j ip ((s.proc j).held ip + 1) (s.proc j).pc)
    else none

def resume [sb : Superblock] (i : ι) (s : State ι n) : Option (State ι n) :=
  match (s.proc i).pc with
  | .idle | .panicked => none
  | .load ip => some (s.load i ip)
  | .trunc ip =>
    let s := s.setEntry ip { s.entry ip with addrs := fun _ => 0, size := 0 }
    some ((s.iupdate ip).goto i (.clear ip))
  | .clear ip =>
    let s := s.setEntry ip { s.entry ip with type := 0 }
    some ((s.iupdate ip).goto i (.invalidate ip))
  | .invalidate ip =>
    some ((s.setEntry ip { s.entry ip with valid := false }).goto i (.release ip))
  | .release ip =>
    some ((s.setEntry ip { s.entry ip with holder := none }).goto i (.drop ip))
  | .drop ip => some (s.drop i ip)
  | .alloc dev inum type =>
    if inum < sb.ninodes then
      if (s.disk dev inum).type = 0 then
        some ((s.setDisk dev inum { Dinode.zero with type := type }).goto i (.get dev inum))
      else some (s.goto i (.alloc dev (inum + 1) type))
    else some (s.goto i .idle)
  | .get dev inum => some (s.iget i dev inum)

def act [Superblock] (i : ι) (c : Option (Call ι n)) (s : State ι n) : Option (State ι n) :=
  match c, (s.proc i).pc with
  | some c, .idle => call i c s
  | some _, _ => none
  | none, _ => resume i s

def Step [Superblock] (i : ι) (s t : State ι n) : Prop := ∃ c, act i c s = some t

/-- Nobody holds a reference, and the processes are outside. -/
structure Start (s : State ι n) : Prop where
  ref : ∀ ip, (s.entry ip).ref = 0
  holder : ∀ ip, (s.entry ip).holder = none
  pc : ∀ i, (s.proc i).pc = .idle
  held : ∀ i ip, (s.proc i).held ip = 0

/-- The states reached by steps of the processes in any order. -/
inductive Reached [Superblock] : State ι n → Prop
  | start {s : State ι n} : Start s → Reached s
  | step {s t : State ι n} {i : ι} : Reached s → Step i s t → Reached t

def runAll [Superblock] : List (ι × Option (Call ι n)) → State ι n → Option (State ι n)
  | [], s => some s
  | (i, c) :: is, s => (act i c s).bind (runAll is)

theorem Reached.of_runAll [Superblock] {s t : State ι n} {is : List (ι × Option (Call ι n))}
    (hs : Reached s) (h : runAll is s = some t) : Reached t := by
  induction is generalizing s with
  | nil =>
    obtain rfl := Option.some.inj h
    exact hs
  | cons p is ih =>
    obtain ⟨u, hu, h⟩ := Option.bind_eq_some_iff.mp h
    exact ih (hs.step ⟨p.2, hu⟩) h

end Xv6Sheet.Itable
