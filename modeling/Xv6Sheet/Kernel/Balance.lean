import Xv6Sheet.Kernel.Symlink

/-! # Operations begun and ended

Only `begin_op` and `end_op` count operations. What a system call runs between the two leaves
the count as it is.
-/

namespace Xv6Sheet.Kernel

open Exec

/-- A part of the state that the inode table is no part of. -/
class OffTable {τ : Type} (f : FsState → τ) : Prop where
  off : ∀ s g, f { s with inodes := g } = f s

instance : OffTable FsState.ops := ⟨fun _ _ => rfl⟩

instance : OffTable (fun s : FsState => s.disk) := ⟨fun _ _ => rfl⟩

namespace Leaves

open Exec.Leaves

variable {α τ : Type} {f : FsState → τ} [hf : OffTable f]

omit hf in
theorem inode (ip : ℕ) : Leaves f (inode ip) := get.bind fun _ => .pure _

theorem modifyInode (ip : ℕ) (g : Inode → Inode) : Leaves f (modifyInode ip g) :=
  .of_modify fun s => hf.off s _

omit hf in
theorem onInode (ip : ℕ) (m : Inode → DiskM (α × Inode)) : Leaves FsState.ops (onInode ip m) :=
  fun _ _ _ h => by
    obtain ⟨i, d, -, rfl⟩ := ends_onInode.mp h
    rfl

variable [sb : Superblock]

theorem ilock (ip : ℕ) : Leaves f (ilock ip) := by
  refine (inode ip).bind fun i => ?_
  split
  · exact .throw _
  split
  · exact .throw _
  split
  · exact modifyInode ip _
  · refine get.bind fun s => (modifyInode ip _).bind fun _ => ?_
    split
    · exact .throw _
    · exact .pure ()

omit sb in
theorem iunlock (ip : ℕ) : Leaves f (iunlock ip) := by
  refine (inode ip).bind fun i => ?_
  split
  · exact .throw _
  · exact modifyInode ip _

theorem ifree (ip : ℕ) : Leaves FsState.ops (ifree ip) :=
  (onInode ip _).bind fun _ => (modifyInode ip _).bind fun _ => (onInode ip _).bind fun _ =>
    modifyInode ip _

theorem iput (ip : ℕ) : Leaves FsState.ops (iput ip) := by
  refine (inode ip).bind fun i => ?_
  split
  · split
    · exact .throw _
    · exact (ifree ip).bind fun _ => modifyInode ip _
  · exact modifyInode ip _

theorem iunlockput (ip : ℕ) : Leaves FsState.ops (iunlockput ip) :=
  (iunlock ip).bind fun _ => iput ip

theorem readDirent (msg : String) (dp off : ℕ) : Leaves FsState.ops (readDirent msg dp off) := by
  refine (onInode dp _).bind fun r => ?_
  dsimp only
  split
  · exact .throw _
  · exact .pure _

variable [pm : Param]

omit sb pm in
theorem idup (ip : ℕ) : Leaves f (idup ip) := (modifyInode ip _).bind fun _ => .pure ip

omit sb in
theorem iget (dev inum : ℕ) : Leaves f (iget dev inum) := by
  refine get.bind fun s => ?_
  split
  · exact idup _
  split
  · exact (modifyInode _ _).bind fun _ => .pure _
  · exact .throw _

theorem ialloc (dev : ℕ) (type : ℤ) : Leaves FsState.ops (ialloc dev type) := by
  refine .search (fun inum s r t h => ?_) _ _
  have hrun := ends_get_bind.mp h
  split at hrun
  · exact set_of ((iget dev inum).bind fun _ => .pure _) hrun rfl
  · rw [(ends_pure.mp hrun).2]

theorem dirlookup (dp : ℕ) (name : Bytes) : Leaves FsState.ops (dirlookup dp name) := by
  refine (inode dp).bind fun d => ?_
  split
  · exact .throw _
  refine .search (fun k => (readDirent _ _ _).bind fun de => ?_) _ _
  split
  · exact .pure _
  split
  · exact (iget _ _).bind fun _ => .pure _
  · exact .pure _

theorem dirlink (dp : ℕ) (name : Bytes) (inum : ℕ) :
    Leaves FsState.ops (dirlink dp name inum) := by
  refine (dirlookup dp name).bind fun r => ?_
  split
  · exact (iput _).bind fun _ => .pure _
  refine (inode dp).bind fun d => .bind (.search
    (fun k => (readDirent _ _ _).bind fun de => ?_) _ _)
    fun off => (onInode dp _).bind fun r => ?_
  · split
    · exact .pure _
    · exact .pure _
  · split
    · exact .pure _
    · exact .pure _

theorem namexLoop (path : Bytes) (parent : Bool) (n ip p : ℕ) (name : Bytes) :
    Leaves FsState.ops (namexLoop path parent n ip p name) := by
  induction n generalizing ip p name with
  | zero => exact .throw _
  | succ n ih =>
    unfold Kernel.namexLoop
    split
    · exact .throw _
    · split
      · exact (iput ip).bind fun _ => .pure _
      · exact .pure _
    · refine (ilock ip).bind fun _ => (inode ip).bind fun i => ?_
      split
      · exact (iunlockput ip).bind fun _ => .pure _
      split
      · exact (iunlock ip).bind fun _ => .pure _
      refine (dirlookup ip _).bind fun r => ?_
      split
      · exact (iunlockput ip).bind fun _ => .pure _
      · exact (iunlockput ip).bind fun _ => ih _ _ _

theorem namex (cwd : ℕ) (path : Bytes) (parent : Bool) :
    Leaves FsState.ops (namex cwd path parent) := by
  unfold Kernel.namex
  split
  · exact (iget _ _).bind fun _ => namexLoop path parent _ _ _ _
  · exact (idup _).bind fun _ => namexLoop path parent _ _ _ _

theorem namei (cwd : ℕ) (path : Bytes) : Leaves FsState.ops (namei cwd path) :=
  (namex cwd path false).bind fun _ => .pure _

theorem createLinks (ip dp : ℕ) (name : Bytes) (type : ℤ) :
    Leaves FsState.ops (createLinks ip dp name type) := by
  have hname : ∀ inum, Leaves FsState.ops (do
      if (← Kernel.dirlink dp name inum) < 0 then return false else return true) := by
    refine fun inum => (dirlink _ _ _).bind fun r => ?_
    split
    · exact .pure _
    · exact .pure _
  refine (inode ip).bind fun i => ?_
  dsimp only
  split
  · refine (dirlink _ _ _).bind fun r => ?_
    split
    · exact .pure _
    refine (inode dp).bind fun d => (dirlink _ _ _).bind fun r => ?_
    split
    · exact .pure _
    · exact hname _
  · exact hname _

theorem create (cwd : ℕ) (path : Bytes) (type major minor : ℤ) :
    Leaves FsState.ops (create cwd path type major minor) := by
  refine (namex cwd path true).bind fun r => ?_
  split
  · exact .pure _
  refine (ilock _).bind fun _ => (dirlookup _ _).bind fun r => ?_
  split
  · refine (iunlockput _).bind fun _ => (ilock _).bind fun _ => (inode _).bind fun i => ?_
    dsimp only
    split
    · exact .pure _
    · exact (iunlockput _).bind fun _ => .pure _
  refine (inode _).bind fun d => (ialloc _ _).bind fun r => ?_
  split
  · exact (iunlockput _).bind fun _ => .pure _
  refine (ilock _).bind fun _ => (modifyInode _ _).bind fun _ => (onInode _ _).bind fun _ =>
    (createLinks _ _ _ _).bind fun ok => ?_
  split
  · split
    · exact (modifyInode _ _).bind fun _ => (onInode _ _).bind fun _ =>
        (iunlockput _).bind fun _ => .pure _
    · exact (iunlockput _).bind fun _ => .pure _
  · exact (modifyInode _ _).bind fun _ => (onInode _ _).bind fun _ =>
      (iunlockput _).bind fun _ => (iunlockput _).bind fun _ => .pure _

theorem openPath (cwd : ℕ) (path : Bytes) (omode : ℤ) :
    Leaves FsState.ops (openPath cwd path omode) := by
  unfold Kernel.openPath
  split
  · exact create cwd path _ _ _
  · refine (namei cwd path).bind fun r => ?_
    split
    · exact .pure _
    · exact (ilock _).bind fun _ => .pure _

theorem followLinks (cwd : ℕ) (omode : ℤ) (n ip : ℕ) (path : Bytes) :
    Leaves FsState.ops (followLinks cwd omode n ip path) := by
  induction n generalizing ip path with
  | zero =>
    unfold Kernel.followLinks
    refine (inode ip).bind fun i => ?_
    split
    · exact (iunlockput ip).bind fun _ => .pure _
    · exact .pure _
  | succ n ih =>
    unfold Kernel.followLinks
    refine (inode ip).bind fun i => ?_
    split
    · refine (onInode ip _).bind fun r => ?_
      dsimp only
      split
      · exact (iunlockput ip).bind fun _ => .pure _
      refine (iunlockput ip).bind fun _ => (namei cwd _).bind fun r => ?_
      split
      · exact .pure _
      · exact (ilock _).bind fun _ => ih _ _
    · exact .pure _

end Leaves

end Xv6Sheet.Kernel
