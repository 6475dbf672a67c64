import Mathlib.Data.List.DropRight
import Xv6Sheet.Kernel.Components
import Xv6Sheet.Lib.Wp
import Xv6Sheet.Xargs.Command

/-! # find

The two programs that look for a file below a directory. They go down the tree by opening one path
after the other, which grows in a buffer on the stack of every call. The system calls they use work
on the directory tree and on the descriptors of the process.
-/

namespace Xv6Sheet.Find

open Exec Kernel
open Xargs (Str Limits)

def bufSize : ℕ := 512

/-- What stops the program: a write outside an array, or a bound of a recursion or of a loop. -/
inductive Stop
  | buf
  | argv
  | depth
  | turns
  deriving DecidableEq, Repr

structure OpenFile where
  inum : ℕ
  off : ℕ

inductive Event
  | print (path : Str)
  | exec (argv : List Str)
  deriving DecidableEq, Repr

variable [pm : Param]

/-- The descriptors of the process, the number of free entries in the file table of the system, and
what the process has done. -/
structure Process where
  ofile : Fin Param.NOFILE → Option OpenFile
  files : ℕ
  log : List Event

abbrev FindM := Exec Process Stop

def Process.freeFd (s : Process) : Option (Fin Param.NOFILE) :=
  (List.finRange Param.NOFILE).find? fun fd => (s.ofile fd).isNone

section Calls

variable (T : Tree) (cwd : ℕ)

/-- The inode that `open` finds for a path, which must fit with its NUL in a buffer of the kernel.
Every entry of a directory names a node. -/
def openNode (path : Str) : Option (ℕ × Node) :=
  if path.length < Param.MAXPATH then do
    let (i, _) ← T.namex cwd (Bytes.ofList path) false
    let n ← T i
    if n.type = T_DEVICE ∧ (n.major < 0 ∨ n.major ≥ Param.NDEV) then none
    else return (i, n)
  else none

/-- `open(path, O_RDONLY)`. -/
def openRead (path : Str) : FindM (Option (Fin Param.NOFILE)) := do
  let s ← get
  match openNode T cwd path with
  | none => return none
  | some (i, _) =>
    if s.files = 0 then return none
    else
      match s.freeFd with
      | none => return none
      | some fd => do
        set { s with ofile := Function.update s.ofile fd (some ⟨i, 0⟩), files := s.files - 1 }
        return some fd

/-- `fstat`, of which the programs use the type. -/
def fstat (fd : Fin Param.NOFILE) : FindM (Option ℤ) := do
  return ((← get).ofile fd).bind fun f => (T f.inum).map Node.type

/-- `read` of `n` bytes: how many bytes were read, and the bytes. -/
def read (fd : Fin Param.NOFILE) (n : ℕ) : FindM (ℤ × Bytes) := do
  let s ← get
  match (s.ofile fd).bind fun f => (T f.inum).map fun node => (f, node) with
  | none => return (-1, fun _ => 0)
  | some (f, node) => do
    let r := min n (node.data.length - f.off)
    set { s with ofile := Function.update s.ofile fd (some { f with off := f.off + r }) }
    return (r, fun k => Bytes.ofList node.data (f.off + k))

end Calls

def close (fd : Fin Param.NOFILE) : FindM Unit := modify fun s =>
  match s.ofile fd with
  | none => s
  | some _ => { s with ofile := Function.update s.ofile fd none, files := s.files + 1 }

section Text

omit pm

def fmtname (path : Str) : Str := path.rtakeWhile fun c => c ≠ 47

/-- `strcmp`, which reads no further than the NUL of `t`. -/
def strcmp (s : Bytes) (t : Str) : ℤ := Bytes.strncmp s (Bytes.ofList t) (t.length + 1)

end Text

def store (buf : Bytes) (i : ℕ) (src : Bytes) (n : ℕ) : FindM Bytes :=
  if i + n ≤ bufSize then return buf.copy i src 0 n else throw .buf

section Walk

variable (T : Tree) (cwd : ℕ)

/-- The loop over the entries of the directory `fd`, whose names are put at `buf[p]`. -/
def scan (find : Str → FindM Unit) (fd : Fin Param.NOFILE) (p : ℕ) : ℕ → Bytes → FindM Unit
  | 0, _ => throw .turns
  | turns + 1, buf => do
    let (r, de) ← read T fd direntSize
    if r ≠ direntSize then return ()
    else if Dirent.inum de = 0 then scan find fd p turns buf
    else if strcmp (Dirent.name de) [46] = 0 ∨ strcmp (Dirent.name de) [46, 46] = 0 then
      scan find fd p turns buf
    else do
      let buf ← store buf p (Dirent.name de) DIRSIZ
      let buf ← store buf (p + DIRSIZ) (fun _ => 0) 1
      find (Bytes.str buf bufSize)
      scan find fd p turns buf

/-- The entries of the directory `fd`, whose path starts the buffer. Every turn of the loop reads
one more of them. -/
def descend (find : Str → FindM Unit) (fd : Fin Param.NOFILE) (path : Str) (junk : Bytes) :
    FindM Unit := do
  let buf ← store junk 0 (Bytes.ofList path) (path.length + 1)
  let p := (Bytes.str buf bufSize).length
  let buf ← store buf p (fun _ => 47) 1
  let node := ((← get).ofile fd).bind fun f => T f.inum
  scan T find fd (p + 1) (node.elim 0 (fun n => n.entries.length) + 1) buf

def inspect (found find : Str → FindM Unit) (target : Str) (junk : Bytes) (fd : Fin Param.NOFILE)
    (path : Str) (type : ℤ) : FindM Unit :=
  if type = T_FILE then
    if strcmp (Bytes.ofList (fmtname path)) target = 0 then found path else pure ()
  else if type = T_DIR then descend T find fd path junk
  else pure ()

/-- `find` with what it does with a file that it found. The buffers on the stack hold `junk` at
first. -/
def walk (found : Str → FindM Unit) (target : Str) (junk : Bytes) : ℕ → Str → FindM Unit
  | 0, _ => throw .depth
  | depth + 1, path => do
    match ← openRead T cwd path with
    | none => return ()
    | some fd =>
      match ← fstat T fd with
      | none => close fd
      | some type => do
        inspect T found (walk found target junk depth) target junk fd path type
        close fd

/-- `printf("%s\n", path)`. -/
def print (path : Str) : FindM Unit := modify fun s => { s with log := s.log ++ [.print path] }

/-- `find` of `find.c`. -/
def Plain.find (target : Str) (junk : Bytes) : ℕ → Str → FindM Unit :=
  walk T cwd print target junk

end Walk

variable [Limits]

/-- Run a command on a found file: a child executes it, and the parent waits for it. -/
def runExec (cmd : List Str) (path : Str) : FindM Unit :=
  if cmd.length + 2 ≤ Limits.MAXARG then
    modify fun s => { s with log := s.log ++ [.exec (cmd ++ [path])] }
  else throw .argv

/-- Run the command on a found file, or print its path when there is none. -/
def handle (cmd : Option (List Str)) (path : Str) : FindM Unit := match cmd with
  | none => print path
  | some argv => runExec argv path

/-- `find` of `exec.c`, with the command of its option `-exec`. -/
def Command.find (T : Tree) (cwd : ℕ) (cmd : Option (List Str)) (target : Str) (junk : Bytes) :
    ℕ → Str → FindM Unit :=
  walk T cwd (handle cmd) target junk

end Xv6Sheet.Find
