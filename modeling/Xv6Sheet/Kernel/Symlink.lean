import Xv6Sheet.Kernel.Sysfile

/-! # Symbolic links

A symbolic link is an inode whose content is a path. `sys_open` follows links in a loop of at
most ten turns, reading each target over the path in its buffer. The variants of it differ in
the loop and in the test of the inode found.
-/

namespace Xv6Sheet.Kernel

open Exec

def O_NOFOLLOW : ℕ := 0x800

/-- How many links the loop of `sys_open` follows. -/
def maxDepth : ℕ := 10

variable {χ : Type}

section FileSystem

variable [sb : Superblock] [pm : Param]

/-- Make `path` a symbolic link to `target`. -/
def sysSymlink (cwd : ℕ) (target path : StrArg) : FsM ℤ := do
  match argstr target Param.MAXPATH, argstr path Param.MAXPATH with
  | some target, some path => do
    beginOp
    match ← create cwd path T_SYMLINK 0 0 with
    | none => do
      endOp
      return -1
    | some ip => do
      let strlen := (Bytes.str target Param.MAXPATH).length
      if (← writei ip target 0 strlen) ≠ strlen then do
        iunlockput ip
        endOp
        return -1
      else do
        iunlockput ip
        endOp
        return 0
  | _, _ => return -1

/-- Read the target of a symbolic link into the user's buffer. The answer has the buffer after
the call. -/
def sysReadlink (cwd : ℕ) (path : StrArg) (ubuf : Bytes) (bufsize : Int32) :
    FsM (ℤ × Bytes) := do
  match argstr path Param.MAXPATH with
  | none => return (-1, ubuf)
  | some path => do
    beginOp
    match ← namei cwd path with
    | none => do
      endOp
      return (-1, ubuf)
    | some ip => do
      ilock ip
      if (← inode ip).type ≠ T_SYMLINK then do
        iunlockput ip
        endOp
        return (-1, ubuf)
      else do
        let (n, ubuf) ← readi ip ubuf 0 bufsize.toUInt32.toNat
        iunlockput ip
        endOp
        return (n, ubuf)

/-- The inode that the path of `sys_open` names, locked. -/
def openPath (cwd : ℕ) (path : Bytes) (omode : ℤ) : FsM (Option ℕ) := do
  if hasFlag omode O_CREATE then create cwd path T_FILE 0 0
  else
    match ← namei cwd path with
    | none => return none
    | some ip => do
      ilock ip
      return some ip

def isLink (i : Inode) (omode : ℤ) : Bool :=
  i.type = T_SYMLINK && !hasFlag omode O_NOFOLLOW

/-- The loop over links with `n` turns left. The answer is the inode found, locked, and the
turns that are left then. -/
def followLinks (cwd : ℕ) (omode : ℤ) : ℕ → ℕ → Bytes → FsM (Option (ℕ × ℕ))
  | n, ip, path => do
    if isLink (← inode ip) omode then
      match n with
      | 0 => do
        iunlockput ip
        return none
      | n + 1 => do
        let (r, path) ← readi ip path 0 Param.MAXPATH
        if r ≤ 0 then do
          iunlockput ip
          return none
        else do
          iunlockput ip
          match ← namei cwd path with
          | none => return none
          | some ip => do
            ilock ip
            followLinks cwd omode n ip path
    else return some (ip, n)

/-- The loop that frees a link whose target is not found. The link stays locked while its
target is looked up. -/
def followDangling (cwd : ℕ) (omode : ℤ) : ℕ → ℕ → Bytes → FsM (Option (ℕ × ℕ))
  | n, ip, path => do
    if isLink (← inode ip) omode then
      match n with
      | 0 => do
        iunlockput ip
        return none
      | n + 1 => do
        let (r, path) ← readi ip path 0 Param.MAXPATH
        if r ≤ 0 then do
          iunlockput ip
          return none
        else
          match ← namei cwd path with
          | none => do
            itrunc ip
            modifyInode ip fun i => { i with type := 0 }
            iupdate ip
            iunlockput ip
            return none
          | some next => do
            iunlockput ip
            ilock next
            followDangling cwd omode n next path
    else return some (ip, n)

end FileSystem

variable [sb : Superblock] [pm : Param]

/-- The way out of `sys_open` after a failure. -/
def giveUp (ip : ℕ) : TaskM χ ℤ := do
  onFs (iunlockput ip)
  onFs endOp
  return -1

/-- What `sys_open` does with the answer of the loop over links: it refuses some inodes, which
may depend on the number of links followed, and opens the others. -/
def openFound (L : FileLayer χ) (refused : Inode → ℕ → Bool) (omode : ℤ) :
    Option (ℕ × ℕ) → TaskM χ ℤ
  | none => do
    onFs endOp
    return -1
  | some (ip, n) => do
    let i ← onFs (inode ip)
    if refused i (maxDepth - n) then giveUp ip
    else if i.type = T_DIR ∧ omode ≠ O_RDONLY then giveUp ip
    else openInode L ip omode

/-- `sys_open` with a loop over links and a test for the inodes it refuses. -/
def openFollowing (L : FileLayer χ) (follow : ℕ → ℤ → ℕ → ℕ → Bytes → FsM (Option (ℕ × ℕ)))
    (refused : Inode → ℕ → Bool) (path : StrArg) (omode : ℤ) : TaskM χ ℤ := do
  let cwd := (← get).proc.cwd
  match argstr path Param.MAXPATH with
  | none => return -1
  | some path => do
    onFs beginOp
    match ← onFs (openPath cwd path omode) with
    | none => do
      onFs endOp
      return -1
    | some ip => do
      let found ← onFs (follow cwd omode maxDepth ip path)
      openFound L refused omode found

/-- `sys_open` with symbolic links. -/
def symlinkOpen (L : FileLayer χ) (path : StrArg) (omode : ℤ) : TaskM χ ℤ :=
  openFollowing L followLinks (fun _ _ => false) path omode

/-- `sys_open` that refuses devices reached through a link. -/
def securityOpen (L : FileLayer χ) (path : StrArg) (omode : ℤ) : TaskM χ ℤ :=
  openFollowing L followLinks (fun i depth => 0 < depth && i.type = T_DEVICE) path omode

/-- `sys_open` that frees dangling links. -/
def danglingOpen (L : FileLayer χ) (path : StrArg) (omode : ℤ) : TaskM χ ℤ :=
  openFollowing L followDangling (fun _ _ => false) path omode

end Xv6Sheet.Kernel
