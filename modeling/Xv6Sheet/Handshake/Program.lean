import Xv6Sheet.Lib.Interleaving
import Xv6Sheet.Lib.Print
import Xv6Sheet.Pingpong.Exchange

/-! # handshake

The parent and the child of `handshake.c` after `fork`, in the version of lab 3 and in the cooked
one. The parent sends a byte through one pipe and waits for it on the other. A `printf` reaches the
console in pieces, between which the other process may go on.
-/

namespace Xv6Sheet.Handshake

open Pingpong (Who)

inductive Version | lab3 | cooked
  deriving DecidableEq, Repr

/-- The pipe from the parent to the child, and the one back. -/
inductive Pipe | p1 | p2
  deriving DecidableEq, Repr

/-- What a `write` sends. The argument is `val` in one program and `byte_to_send` in the other. -/
inductive Var | val | buf
  deriving DecidableEq, Repr

inductive Fd | stdout | stderr
  deriving DecidableEq, Repr

/-- `%d` of a number that is not negative. -/
def decimal (n : ℕ) : List UInt8 := numeral 10 (fun d => .ofNat (48 + d)) n

inductive Line
  /-- `"%d: received %c from parent\n"` of the child, `"%d: received %c from child\n"` of the
  parent -/
  | received (w : Who)
  /-- `"fork failed\n"` -/
  | forkFailed
  deriving DecidableEq, Repr

/-- The text of a line of the process `pid` with the byte `b` in its buffer. -/
def Line.text (pid : ℕ) (b : UInt8) : Line → List UInt8
  | .received .child => decimal pid ++ ascii ": received " ++ [b] ++ ascii " from parent\n"
  | .received .parent => decimal pid ++ ascii ": received " ++ [b] ++ ascii " from child\n"
  | .forkFailed => ascii "fork failed\n"

/-- What a process still does. The text of a line is put out after its values were read. -/
inductive Stmt
  | read (p : Pipe)
  | write (p : Pipe) (v : Var)
  | printf (fd : Fd) (l : Line)
  | put (fd : Fd) (text : List UInt8)
  | wait
  | exit (status : ℕ)

def Version.waits : Version → List Stmt
  | .lab3 => []
  | .cooked => [.wait]

def childMain : List Stmt :=
  [.read .p1, .printf .stdout (.received .child), .write .p2 .buf, .exit 0]

def parentMain (v : Version) : List Stmt :=
  [.write .p1 .val, .read .p2, .printf .stdout (.received .parent)] ++ v.waits ++ [.exit 0]

/-- What the parent does when there is no child. The program of lab 3 takes the -1 for a child. -/
def Version.noChild : Version → List Stmt
  | .lab3 => parentMain .lab3
  | .cooked => [.printf .stderr .forkFailed, .exit 1]

/-- A process. It has exited, or was never made, when it has nothing left to do. -/
structure Proc where
  code : List Stmt
  pid : ℕ
  val : UInt8
  buf : UInt8
  status : Option ℕ

def Proc.get (p : Proc) : Var → UInt8
  | .val => p.val
  | .buf => p.buf

structure State where
  proc : Who → Proc
  pipe : Pipe → List UInt8
  out : Fd → List UInt8

namespace State

def setProc (s : State) (w : Who) (p : Proc) : State :=
  { s with proc := Function.update s.proc w p }

def setPipe (s : State) (q : Pipe) (bs : List UInt8) : State :=
  { s with pipe := Function.update s.pipe q bs }

def print (s : State) (fd : Fd) (text : List UInt8) : State :=
  { s with out := Function.update s.out fd (s.out fd ++ text) }

def Open (s : State) : Prop := ∃ w, (s.proc w).code ≠ []

instance (s : State) : Decidable s.Open :=
  decidable_of_iff ((s.proc .parent).code.isEmpty = false ∨
  (s.proc .child).code.isEmpty = false) <| by
    simp only [List.isEmpty_eq_false_iff, Open]
    exact ⟨fun h => h.elim (⟨_, ·⟩) (⟨_, ·⟩), fun ⟨w, h⟩ => by cases w <;> simp [h]⟩

end State

/-- The process that `wait` waits for. -/
def childOf : Who → Option Who
  | .parent => some .child
  | .child => none

/-- The next step of a process, if it can take one. It puts out `n + 1` bytes when it prints. -/
def step (s : State) (c : Who × ℕ) : Option State :=
  let p := s.proc c.1
  match p.code with
  | [] => none
  | .read q :: code =>
    match s.pipe q with
    | b :: bs => some ((s.setProc c.1 { p with code := code, buf := b }).setPipe q bs)
    -- at the end of the file the buffer stays as it was
    | [] => if s.Open then none else some (s.setProc c.1 { p with code := code })
  | .write q v :: code =>
    let s' := s.setProc c.1 { p with code := code }
    some (if s.Open then s'.setPipe q (s.pipe q ++ [p.get v]) else s')
  | .printf fd l :: code => some (s.setProc c.1
      { p with code := .put fd (l.text p.pid p.buf) :: code })
  | .put fd text :: code =>
    let rest := if text.length ≤ c.2 + 1 then code else .put fd (text.drop (c.2 + 1)) :: code
    some ((s.setProc c.1 { p with code := rest }).print fd (text.take (c.2 + 1)))
  | .wait :: code =>
    match childOf c.1 with
    | some w => if (s.proc w).code = [] then some (s.setProc c.1 { p with code := code }) else none
    | none => some (s.setProc c.1 { p with code := code })
  | .exit status :: _ => some (s.setProc c.1 { p with code := [], status := some status })

/-- The state after `fork`, which answers the number of the child or fails. What the buffers hold at
first is not known. -/
def start (v : Version) (parent : ℕ) (child : Option ℕ) (val garbage : UInt8) : State where
  proc
    | .parent => ⟨if child.isSome then parentMain v else v.noChild, parent, val, garbage, none⟩
    | .child => ⟨if child.isSome then childMain else [], child.getD 0, val, garbage, none⟩
  pipe _ := []
  out _ := []

def State.mk' (p c : Proc) (q₁ q₂ out err : List UInt8) : State where
  proc
    | .parent => p
    | .child => c
  pipe
    | .p1 => q₁
    | .p2 => q₂
  out
    | .stdout => out
    | .stderr => err

section Parts

variable {p c x : Proc} {q₁ q₂ out err l : List UInt8}

open State

@[simp] theorem proc_parent : (mk' p c q₁ q₂ out err).proc .parent = p := rfl

@[simp] theorem proc_child : (mk' p c q₁ q₂ out err).proc .child = c := rfl

@[simp] theorem pipe_p1 : (mk' p c q₁ q₂ out err).pipe .p1 = q₁ := rfl

@[simp] theorem pipe_p2 : (mk' p c q₁ q₂ out err).pipe .p2 = q₂ := rfl

@[simp] theorem out_stdout : (mk' p c q₁ q₂ out err).out .stdout = out := rfl

@[simp] theorem out_stderr : (mk' p c q₁ q₂ out err).out .stderr = err := rfl

theorem eq_parts (s : State) : s = mk' (s.proc .parent) (s.proc .child) (s.pipe .p1) (s.pipe .p2)
    (s.out .stdout) (s.out .stderr) := by
  obtain ⟨proc, pipe, out⟩ := s
  simp only [mk', mk.injEq]
  constructor
  · ext w
    cases w <;> rfl
  constructor
  · ext q
    cases q <;> rfl
  · ext fd
    cases fd <;> rfl

@[simp] theorem setProc_parent : (mk' p c q₁ q₂ out err).setProc .parent x =
    mk' x c q₁ q₂ out err :=
  (eq_parts _).trans (by simp [setProc])

@[simp] theorem setProc_child : (mk' p c q₁ q₂ out err).setProc .child x = mk' p x q₁ q₂ out err :=
  (eq_parts _).trans (by simp [setProc])

@[simp] theorem setPipe_p1 : (mk' p c q₁ q₂ out err).setPipe .p1 l = mk' p c l q₂ out err :=
  (eq_parts _).trans (by simp [setPipe])

@[simp] theorem setPipe_p2 : (mk' p c q₁ q₂ out err).setPipe .p2 l = mk' p c q₁ l out err :=
  (eq_parts _).trans (by simp [setPipe])

@[simp] theorem print_stdout :
    (mk' p c q₁ q₂ out err).print .stdout l = mk' p c q₁ q₂ (out ++ l) err :=
  (eq_parts _).trans (by simp [print])

@[simp] theorem print_stderr :
    (mk' p c q₁ q₂ out err).print .stderr l = mk' p c q₁ q₂ out (err ++ l) :=
  (eq_parts _).trans (by simp [print])

end Parts

section Steps

variable {s : State} {w : Who} {n : ℕ} {q : Pipe} {x : Var} {code : List Stmt} {b : UInt8}
  {bs text : List UInt8} {fd : Fd} {l : Line} {status : ℕ}

theorem step_nil (h : (s.proc w).code = []) : step s (w, n) = none := by
  simp [step, h]

theorem step_read (h : (s.proc w).code = .read q :: code) (hq : s.pipe q = b :: bs) :
    step s (w, n) = some ((s.setProc w { s.proc w with code := code, buf := b }).setPipe q bs) := by
  simp [step, h, hq]

theorem step_read_empty (h : (s.proc w).code = .read q :: code) (hq : s.pipe q = []) :
    step s (w, n) = none := by
  have hopen : s.Open := ⟨w, by simp [h]⟩
  simp [step, h, hq, hopen]

theorem step_write (h : (s.proc w).code = .write q x :: code) : step s (w, n) =
    some ((s.setProc w { s.proc w with code := code }).setPipe q
    (s.pipe q ++ [(s.proc w).get x])) := by
  have hopen : s.Open := ⟨w, by simp [h]⟩
  simp [step, h, hopen]

theorem step_printf (h : (s.proc w).code = .printf fd l :: code) : step s (w, n) =
    some (s.setProc w { s.proc w with
      code := .put fd (l.text (s.proc w).pid (s.proc w).buf) :: code }) := by
  simp [step, h]

theorem step_put (h : (s.proc w).code = .put fd text :: code) : step s (w, n) =
    some ((s.setProc w { s.proc w with
      code := if text.length ≤ n + 1 then code else .put fd (text.drop (n + 1)) :: code }).print fd
        (text.take (n + 1))) := by
  simp [step, h]

theorem step_put_all (h : (s.proc w).code = .put fd text :: code) (hn : text.length ≤ n + 1) :
    step s (w, n) = some ((s.setProc w { s.proc w with code := code }).print fd text) := by
  rw [step_put h, if_pos hn, List.take_of_length_le hn]

theorem step_wait (h : (s.proc .parent).code = .wait :: code) : step s (.parent, n) =
    if (s.proc .child).code = [] then some (s.setProc .parent { s.proc .parent with code := code })
    else none := by
  simp [step, h, childOf]

theorem step_exit (h : (s.proc w).code = .exit status :: code) : step s (w, n) =
    some (s.setProc w { s.proc w with code := [], status := some status }) := by
  simp [step, h]

end Steps

end Xv6Sheet.Handshake
