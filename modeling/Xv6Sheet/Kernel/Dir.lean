import Xv6Sheet.Kernel.Itable

/-! # Directories and paths

A directory is a file of 16-byte entries, an inode number and a name each. Paths are looked
up element by element, each directory locked while it is searched.
-/

namespace Xv6Sheet.Kernel

open Exec

def T_DIR : ℤ := 1
def T_FILE : ℤ := 2
def T_DEVICE : ℤ := 3
def T_SYMLINK : ℤ := 4

def ROOTDEV : ℕ := 1
def ROOTINO : ℕ := 1

def DIRSIZ : ℕ := 14

/-- Size of `struct dirent`: the inode number and the name. -/
def direntSize : ℕ := 16

namespace Dirent

def inum (de : Bytes) : ℕ := de.le 0 2

def name (de : Bytes) : Bytes := fun k => de (2 + k)

/-- The entry that names the inode `inum` by `name`. -/
def make (inum : ℕ) (name : Bytes) : Bytes :=
  (Bytes.strncpy (fun _ => 0) 2 name DIRSIZ).putLe 0 2 (inum % 2 ^ 16)

end Dirent

def namecmp (s t : Bytes) : ℤ := Bytes.strncmp s t DIRSIZ

/-- The names `.` and `..`. -/
def dot : Bytes := Bytes.ofList [46]

@[inherit_doc dot]
def dotdot : Bytes := Bytes.ofList [46, 46]

variable [sb : Superblock] [pm : Param]

omit pm in
/-- Read the directory entry at an offset, stopping with `msg` when it is not there. -/
def readDirent (msg : String) (dp off : ℕ) : FsM Bytes := do
  let (n, de) ← readi dp (fun _ => 0) off direntSize
  if n ≠ direntSize then panicAt msg
  else return de

omit sb pm in
/-- The number of entries the loops over a directory of this size visit. -/
def numEntries (size : ℕ) : ℕ := (size + (direntSize - 1)) / direntSize

/-- Look for a directory entry in a directory. The answer is the inode and the byte offset
of the entry. -/
def dirlookup (dp : ℕ) (name : Bytes) : FsM (Option (ℕ × ℕ)) := do
  let d ← inode dp
  if d.type ≠ T_DIR then panicAt "dirlookup not DIR"
  else search (fun k => do
    let de ← readDirent "dirlookup read" dp (direntSize * k)
    if Dirent.inum de = 0 then return none
    else if namecmp name (Dirent.name de) = 0 then do
      let ip ← iget d.dev (Dirent.inum de)
      return some (ip, direntSize * k)
    else return none) 0 (numEntries d.size)

/-- Write a new directory entry into the directory `dp`. -/
def dirlink (dp : ℕ) (name : Bytes) (inum : ℕ) : FsM ℤ := do
  -- check that name is not present
  match ← dirlookup dp name with
  | some (ip, _) => do
    iput ip
    return -1
  | none => do
    -- look for an empty dirent
    let n := numEntries (← inode dp).size
    let off ← search (fun k => do
      let de ← readDirent "dirlink read" dp (direntSize * k)
      if Dirent.inum de = 0 then return some (direntSize * k)
      else return none) 0 n
    let r ← writei dp (Dirent.make inum name) (off.getD (direntSize * n)) direntSize
    if r ≠ direntSize then return -1
    else return 0

omit pm in
/-- Is the directory empty except for `.` and `..`? -/
def isdirempty (dp : ℕ) : FsM Bool := do
  let r ← search (fun k => do
    let de ← readDirent "isdirempty: readi" dp (direntSize * k)
    if Dirent.inum de ≠ 0 then return some ()
    else return none) 2 (numEntries (← inode dp).size - 2)
  return r.isNone

section Path

omit sb

/-- Skip the slashes from `p` on. The path is a buffer of `MAXPATH` bytes; there is no
answer when a byte beyond it is read. -/
def skipSlashes (path : Bytes) : ℕ → ℕ → Option ℕ
  | 0, _ => none
  | n + 1, p => if path p = 47 then skipSlashes path n (p + 1) else some p

/-- The end of the path element at `p`. -/
def skipName (path : Bytes) : ℕ → ℕ → Option ℕ
  | 0, _ => none
  | n + 1, p => if path p ≠ 47 ∧ path p ≠ 0 then skipName path n (p + 1) else some p

inductive Elem
  | last
  | elem (next : ℕ) (name : Bytes)

/-- Copy the next path element from `path` into `name`. The answer has the position of the
element following the copied one. -/
def skipelem (path : Bytes) (p : ℕ) (name : Bytes) : Option Elem := do
  let s ← skipSlashes path (Param.MAXPATH - p) p
  if path s = 0 then return .last
  else do
    let e ← skipName path (Param.MAXPATH - s) s
    let name := if e - s ≥ DIRSIZ then name.copy 0 path s DIRSIZ
      else Function.update (name.copy 0 path s (e - s)) (e - s) 0
    let next ← skipSlashes path (Param.MAXPATH - e) e
    return .elem next name

end Path

/-- The loop of `namex`. Every turn moves on in the path, so that after `MAXPATH` turns the
next read is beyond the buffer. -/
def namexLoop (path : Bytes) (nameiparent : Bool) :
    ℕ → ℕ → ℕ → Bytes → FsM (Option (ℕ × Bytes))
  | 0, _, _, _ => throw .overread
  | n + 1, ip, p, name =>
    match skipelem path p name with
    | none => throw .overread
    | some .last =>
      if nameiparent then do
        iput ip
        return none
      else return some (ip, name)
    | some (.elem p name) => do
      ilock ip
      if (← inode ip).type ≠ T_DIR then do
        iunlockput ip
        return none
      else if nameiparent ∧ path p = 0 then do
        -- stop one level early
        iunlock ip
        return some (ip, name)
      else
        match ← dirlookup ip name with
        | none => do
          iunlockput ip
          return none
        | some (next, _) => do
          iunlockput ip
          namexLoop path nameiparent n next p name

/-- Look up and return the inode for a path name, or its parent and the final element. -/
def namex (cwd : ℕ) (path : Bytes) (nameiparent : Bool) : FsM (Option (ℕ × Bytes)) := do
  if path 0 = 47 then do
    let ip ← iget ROOTDEV ROOTINO
    namexLoop path nameiparent Param.MAXPATH ip 0 (fun _ => 0)
  else do
    let ip ← idup cwd
    namexLoop path nameiparent Param.MAXPATH ip 0 (fun _ => 0)

def namei (cwd : ℕ) (path : Bytes) : FsM (Option ℕ) := do
  return (← namex cwd path false).map (·.1)

def nameiparent (cwd : ℕ) (path : Bytes) : FsM (Option (ℕ × Bytes)) :=
  namex cwd path true

end Xv6Sheet.Kernel
