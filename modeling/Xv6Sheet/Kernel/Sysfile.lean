import Xv6Sheet.Kernel.Dir
import Xv6Sheet.Vm.Mmap

/-! # File-system system calls

The calls of `sysfile.c` over the inode table, the open files and the process that makes
them. The file layer, the pipes and the user memory lie outside the code verified here:
what the calls use of them is a parameter.
-/

namespace Xv6Sheet.Kernel

open Exec

inductive FileType
  | none
  | pipe
  | inode
  | device
  deriving DecidableEq

/-- `struct file`. -/
structure File where
  type : FileType
  ref : ℤ
  readable : Bool
  writable : Bool
  ip : ℕ
  off : ℕ
  major : ℤ

def O_RDONLY : ℤ := 0
def O_WRONLY : ℕ := 0x001
def O_RDWR : ℕ := 0x002
def O_CREATE : ℕ := 0x200
def O_TRUNC : ℕ := 0x400

/-- The `short` an `int` is stored as. -/
def toShort (x : ℤ) : ℤ := Int.bmod x (2 ^ 16)

/-- A string argument of a call: the user memory at its address, with `none` where it is
not mapped, and what the buffer it is fetched to held before. -/
structure StrArg where
  mem : ℕ → Option UInt8
  buf : Bytes

/-- Fetch a string argument of at most `max` bytes with its NUL. -/
def argstr (a : StrArg) (max : ℕ) : Option Bytes :=
  match (List.range max).find? fun i => a.mem i = none || a.mem i = some 0 with
  | none => none
  | some n =>
    if a.mem n = none then none
    else some (a.buf.copy 0 (fun i => (a.mem i).getD 0) 0 (n + 1))

variable {χ : Type}

section FileSystem

variable [sb : Superblock] [pm : Param]

/-- The links of a new inode: `.` and `..` in a directory, and its name in its parent. -/
def createLinks (ip dp : ℕ) (name : Bytes) (type : ℤ) : FsM Bool := do
  let inum := (← inode ip).inum
  if type = T_DIR then do
    -- no ip->nlink++ for ".": avoid cyclic ref count
    if (← dirlink ip dot inum) < 0 then return false
    else if (← dirlink ip dotdot (← inode dp).inum) < 0 then return false
    else if (← dirlink dp name inum) < 0 then return false
    else return true
  else if (← dirlink dp name inum) < 0 then return false
  else return true

def create (cwd : ℕ) (path : Bytes) (type major minor : ℤ) : FsM (Option ℕ) := do
  match ← nameiparent cwd path with
  | none => return none
  | some (dp, name) => do
    ilock dp
    match ← dirlookup dp name with
    | some (ip, _) => do
      iunlockput dp
      ilock ip
      let t := (← inode ip).type
      if type = T_FILE ∧ (t = T_FILE ∨ t = T_DEVICE) then return some ip
      else do
        iunlockput ip
        return none
    | none =>
      match ← ialloc (← inode dp).dev type with
      | none => do
        iunlockput dp
        return none
      | some ip => do
        ilock ip
        modifyInode ip fun i => { i with major := major, minor := minor, nlink := 1 }
        iupdate ip
        if ← createLinks ip dp name type then do
          if type = T_DIR then do
            -- for ".."
            modifyInode dp fun i => { i with nlink := toShort (i.nlink + 1) }
            iupdate dp
            iunlockput dp
            return some ip
          else do
            iunlockput dp
            return some ip
        else do
          -- something went wrong: de-allocate ip
          modifyInode ip fun i => { i with nlink := 0 }
          iupdate ip
          iunlockput ip
          iunlockput dp
          return none

/-- The way out of `sys_link` after a failure. -/
def linkBad (ip : ℕ) : FsM ℤ := do
  ilock ip
  modifyInode ip fun i => { i with nlink := toShort (i.nlink - 1) }
  iupdate ip
  iunlockput ip
  endOp
  return -1

/-- Create the path `new` as a link to the same inode as `old`. -/
def sysLink (cwd : ℕ) (old new : StrArg) : FsM ℤ := do
  match argstr old Param.MAXPATH, argstr new Param.MAXPATH with
  | some old, some new => do
    beginOp
    match ← namei cwd old with
    | none => do
      endOp
      return -1
    | some ip => do
      ilock ip
      if (← inode ip).type = T_DIR then do
        iunlockput ip
        endOp
        return -1
      else do
        modifyInode ip fun i => { i with nlink := toShort (i.nlink + 1) }
        iupdate ip
        iunlock ip
        match ← nameiparent cwd new with
        | none => linkBad ip
        | some (dp, name) => do
          ilock dp
          let d ← inode dp
          let i ← inode ip
          if d.dev ≠ i.dev then do
            iunlockput dp
            linkBad ip
          else if (← dirlink dp name i.inum) < 0 then do
            iunlockput dp
            linkBad ip
          else do
            iunlockput dp
            iput ip
            endOp
            return 0
  | _, _ => return -1

/-- The way out of `sys_unlink` after a failure. -/
def unlinkBad (dp : ℕ) : FsM ℤ := do
  iunlockput dp
  endOp
  return -1

def sysUnlink (cwd : ℕ) (path : StrArg) : FsM ℤ := do
  match argstr path Param.MAXPATH with
  | none => return -1
  | some path => do
    beginOp
    match ← nameiparent cwd path with
    | none => do
      endOp
      return -1
    | some (dp, name) => do
      ilock dp
      -- cannot unlink "." or ".."
      if namecmp name dot = 0 ∨ namecmp name dotdot = 0 then unlinkBad dp
      else
        match ← dirlookup dp name with
        | none => unlinkBad dp
        | some (ip, off) => do
          ilock ip
          let i ← inode ip
          if i.nlink < 1 then panicAt "unlink: nlink < 1"
          else if ← (if i.type = T_DIR then isdirempty ip else return true) then do
            let r ← writei dp (fun _ => 0) off direntSize
            if r ≠ direntSize then panicAt "unlink: writei"
            else do
              (if i.type = T_DIR then do
                modifyInode dp fun d => { d with nlink := toShort (d.nlink - 1) }
                iupdate dp
              else return ())
              iunlockput dp
              modifyInode ip fun i => { i with nlink := toShort (i.nlink - 1) }
              iupdate ip
              iunlockput ip
              endOp
              return 0
          else do
            iunlockput ip
            unlinkBad dp

def sysMkdir (cwd : ℕ) (path : StrArg) : FsM ℤ := do
  beginOp
  match argstr path Param.MAXPATH with
  | none => do
    endOp
    return -1
  | some path =>
    match ← create cwd path T_DIR 0 0 with
    | none => do
      endOp
      return -1
    | some ip => do
      iunlockput ip
      endOp
      return 0

def sysMknod (cwd : ℕ) (path : StrArg) (major minor : ℤ) : FsM ℤ := do
  beginOp
  match argstr path Param.MAXPATH with
  | none => do
    endOp
    return -1
  | some path =>
    match ← create cwd path T_DEVICE (toShort major) (toShort minor) with
    | none => do
      endOp
      return -1
    | some ip => do
      iunlockput ip
      endOp
      return 0

end FileSystem

variable [pm : Param]

abbrev FilePtr := Fin Param.NFILE

/-- What the calls of a process work on besides the process itself: the file system, the
file table, and the rest of the kernel with the pipes and the user memory. -/
structure Sys (χ : Type) [Param] where
  fs : FsState
  ftable : FilePtr → File
  rest : χ

/-- The file layer, the pipes and the copies to user memory. -/
structure FileLayer (χ : Type) [Param] extends FileOps FilePtr (Sys χ) where
  filealloc : Exec (Sys χ) Fault (Option FilePtr)
  pipealloc : Exec (Sys χ) Fault (Option (FilePtr × FilePtr))
  copyout : ℕ → Bytes → ℕ → Exec (Sys χ) Fault Bool

abbrev TaskM (χ α : Type) := Exec (Task FilePtr (Sys χ)) Fault α

def onFs {α : Type} (m : FsM α) : TaskM χ α :=
  onSys (zoom Sys.fs (fun u s => { s with fs := u }) m)

def modifyFile (f : FilePtr) (g : File → File) : TaskM χ Unit :=
  onSys (modify fun s => { s with ftable := Function.update s.ftable f (g (s.ftable f)) })

@[simp] theorem wp_onFs {α : Type} {E : Fault → Prop} {m : FsM α}
    {Q : α → Task FilePtr (Sys χ) → Prop} {s : Task FilePtr (Sys χ)} :
    Wp E (onFs m) Q s ↔
      Wp E m (fun a u => Q a ⟨s.proc, { s.sys with fs := u }⟩) s.sys.fs := by
  simp only [onFs, wp_onSys, wp_zoom]

@[simp] theorem wp_modifyFile {E : Fault → Prop} {f : FilePtr} {g : File → File}
    {Q : Unit → Task FilePtr (Sys χ) → Prop} {s : Task FilePtr (Sys χ)} :
    Wp E (modifyFile f g) Q s ↔ Q () ⟨s.proc,
      { s.sys with ftable := Function.update s.sys.ftable f (g (s.sys.ftable f)) }⟩ := by
  simp only [modifyFile, wp_onSys, wp_modify]

/-- `filealloc` and `fdalloc`; a file without a descriptor is closed again. -/
def openFile (L : FileLayer χ) : TaskM χ (Option (FilePtr × Fin Param.NOFILE)) := do
  match ← onSys L.filealloc with
  | none => return none
  | some f =>
    match ← fdalloc f with
    | none => do
      onSys (L.fileclose f)
      return none
    | some fd => return some (f, fd)

variable [sb : Superblock]

/-- What `sys_open` does with the locked inode: make a descriptor for it. -/
def openInode (L : FileLayer χ) (ip : ℕ) (omode : ℤ) : TaskM χ ℤ := do
  let i ← onFs (inode ip)
  if i.type = T_DEVICE ∧ (i.major < 0 ∨ i.major ≥ Param.NDEV) then do
    onFs (iunlockput ip)
    onFs endOp
    return -1
  else
    match ← openFile L with
    | none => do
      onFs (iunlockput ip)
      onFs endOp
      return -1
    | some (f, fd) => do
      let i ← onFs (inode ip)
      modifyFile f fun x =>
        if i.type = T_DEVICE then { x with type := .device, major := i.major }
        else { x with type := .inode, off := 0 }
      modifyFile f fun x => { x with
        ip := ip
        readable := !hasFlag omode O_WRONLY
        writable := hasFlag omode O_WRONLY || hasFlag omode O_RDWR }
      (if hasFlag omode O_TRUNC ∧ i.type = T_FILE then onFs (itrunc ip) else return ())
      onFs (iunlock ip)
      onFs endOp
      return fd

def sysOpen (L : FileLayer χ) (path : StrArg) (omode : ℤ) : TaskM χ ℤ := do
  let cwd := (← get).proc.cwd
  match argstr path Param.MAXPATH with
  | none => return -1
  | some path => do
    onFs beginOp
    if hasFlag omode O_CREATE then
      match ← onFs (create cwd path T_FILE 0 0) with
      | none => do
        onFs endOp
        return -1
      | some ip => openInode L ip omode
    else
      match ← onFs (namei cwd path) with
      | none => do
        onFs endOp
        return -1
      | some ip => do
        onFs (ilock ip)
        if (← onFs (inode ip)).type = T_DIR ∧ omode ≠ O_RDONLY then do
          onFs (iunlockput ip)
          onFs endOp
          return -1
        else openInode L ip omode

def sysChdir (path : StrArg) : TaskM χ ℤ := do
  let cwd := (← get).proc.cwd
  onFs beginOp
  match argstr path Param.MAXPATH with
  | none => do
    onFs endOp
    return -1
  | some path =>
    match ← onFs (namei cwd path) with
    | none => do
      onFs endOp
      return -1
    | some ip => do
      onFs (ilock ip)
      if (← onFs (inode ip)).type ≠ T_DIR then do
        onFs (iunlockput ip)
        onFs endOp
        return -1
      else do
        onFs (iunlock ip)
        onFs (iput cwd)
        onFs endOp
        modifyProc fun p => { p with cwd := ip }
        return 0

omit sb

def sysDup (L : FileLayer χ) (fd : ℤ) : TaskM χ ℤ := do
  match (← get).proc.argfd fd with
  | none => return -1
  | some (_, f) =>
    match ← fdalloc f with
    | none => return -1
    | some k => do
      onSys (L.filedup f)
      return k

def sysClose (L : FileLayer χ) (fd : ℤ) : TaskM χ ℤ := do
  match (← get).proc.argfd fd with
  | none => return -1
  | some (k, f) => do
    modifyProc fun p => p.setFile k none
    onSys (L.fileclose f)
    return 0

def intBytes (x : ℕ) : Bytes := Bytes.putLe (fun _ => 0) 0 4 x

/-- The way out of `sys_pipe` after a failure: drop the descriptors and close both ends. -/
def pipeBad (L : FileLayer χ) (rf wf : FilePtr) (fds : List (Fin Param.NOFILE)) :
    TaskM χ ℤ := do
  modifyProc fun p => fds.foldl (fun p fd => p.setFile fd none) p
  onSys (L.fileclose rf)
  onSys (L.fileclose wf)
  return -1

def sysPipe (L : FileLayer χ) (fdarray : ℕ) : TaskM χ ℤ := do
  match ← onSys L.pipealloc with
  | none => return -1
  | some (rf, wf) =>
    match ← fdalloc rf with
    | none => pipeBad L rf wf []
    | some fd0 =>
      match ← fdalloc wf with
      | none => pipeBad L rf wf [fd0]
      | some fd1 => do
        if ← onSys (L.copyout fdarray (intBytes fd0) 4) then
          if ← onSys (L.copyout (fdarray + 4) (intBytes fd1) 4) then return 0
          else pipeBad L rf wf [fd0, fd1]
        else pipeBad L rf wf [fd0, fd1]

end Xv6Sheet.Kernel
