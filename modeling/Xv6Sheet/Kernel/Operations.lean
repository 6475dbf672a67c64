import Xv6Sheet.Kernel.Balance
import Xv6Sheet.Kernel.NamespaceRun
import Xv6Sheet.Kernel.Reclaim
import Xv6Sheet.Lib.Shifts

/-! # Every operation is ended

A system call that changes the disk begins an operation of the log, and the log can only commit when
all operations are ended. Whatever is on the disk, each way out of each call ends the operation that
the call has begun.
-/

namespace Xv6Sheet.Kernel

open Exec

variable {χ : Type} [sb : Superblock] [pm : Param]

omit sb pm in
theorem shifts_beginOp : Shifts FsState.ops 1 beginOp := .of_modify fun _ => rfl

omit sb pm in
theorem shifts_endOp : Shifts FsState.ops (-1) endOp := .of_modify fun _ => rfl

omit sb pm in
theorem shifts_leave {α : Type} (r : α) : Shifts FsState.ops (-1) (do
    endOp
    return r) := shifts_endOp.before fun _ => .pure _

section FileSystem

omit pm in
theorem shifts_putLeave {α : Type} (ip : ℕ) (r : α) : Shifts FsState.ops (-1) (do
    iunlockput ip
    endOp
    return r) := .after (Leaves.iunlockput ip) fun _ => shifts_leave r

omit pm in
theorem shifts_linkBad (ip : ℕ) : Shifts FsState.ops (-1) (linkBad ip) :=
  .after (Leaves.ilock ip) fun _ => .after (Leaves.modifyInode ip _)
  fun _ => .after (Leaves.onInode ip _) fun _ =>
    shifts_putLeave ip _

omit pm in
theorem shifts_unlinkBad (dp : ℕ) : Shifts FsState.ops (-1) (unlinkBad dp) := shifts_putLeave dp _

omit pm in
theorem leaves_isdirempty (dp : ℕ) : Leaves FsState.ops (isdirempty dp) := by
  refine (Leaves.inode dp).bind fun d => .bind (.search (fun k => ?_) _ _) fun r => .pure _
  refine (Leaves.readDirent _ dp _).bind fun de => ?_
  split
  · exact .pure _
  · exact .pure _

theorem leaves_sysLink (cwd : ℕ) (old new : StrArg) : Leaves FsState.ops (sysLink cwd old new) := by
  unfold sysLink
  split
  · refine shifts_beginOp.around fun _ => .after (Leaves.namei cwd _) fun r => ?_
    split
    · exact shifts_leave _
    rename_i ip
    refine .after (Leaves.ilock ip) fun _ => .after (Leaves.inode ip) fun i => ?_
    split
    · exact shifts_putLeave ip _
    refine .after (Leaves.modifyInode ip _)
      fun _ => .after (Leaves.onInode ip _) fun _ => .after (Leaves.iunlock ip) fun _ =>
      .after (Leaves.namex cwd _ true) fun r => ?_
    split
    · exact shifts_linkBad ip
    rename_i dp name
    refine .after (Leaves.ilock dp) fun _ => .after (Leaves.inode dp)
      fun d => .after (Leaves.inode ip) fun i => ?_
    split
    · exact .after (Leaves.iunlockput dp) fun _ => shifts_linkBad ip
    refine .after (Leaves.dirlink dp name _) fun r => ?_
    split
    · exact .after (Leaves.iunlockput dp) fun _ => shifts_linkBad ip
    · exact .after (Leaves.iunlockput dp) fun _ => .after (Leaves.iput ip) fun _ => shifts_leave _
  · exact .pure _

theorem leaves_sysUnlink (cwd : ℕ) (path : StrArg) : Leaves FsState.ops (sysUnlink cwd path) := by
  unfold sysUnlink
  split
  · exact .pure _
  refine shifts_beginOp.around fun _ => .after (Leaves.namex cwd _ true) fun r => ?_
  split
  · exact shifts_leave _
  rename_i dp name
  refine .after (Leaves.ilock dp) fun _ => ?_
  split
  · exact shifts_unlinkBad dp
  refine .after (Leaves.dirlookup dp name) fun r => ?_
  split
  · exact shifts_unlinkBad dp
  rename_i ip off
  refine .after (Leaves.ilock ip) fun _ => .after (Leaves.inode ip) fun i => ?_
  split
  · exact .throw _
  refine .after ?_ fun empty => ?_
  · split
    · exact leaves_isdirempty ip
    · exact .pure _
  split
  · refine .after (Leaves.onInode dp _) fun r => ?_
    split
    · exact .throw _
    refine .after ?_ fun _ => .after (Leaves.iunlockput dp)
      fun _ => .after (Leaves.modifyInode ip _) fun _ =>
      .after (Leaves.onInode ip _) fun _ => shifts_putLeave ip _
    split
    · exact (Leaves.modifyInode dp _).bind fun _ => Leaves.onInode dp _
    · exact .pure _
  · exact .after (Leaves.iunlockput ip) fun _ => shifts_unlinkBad dp

theorem shifts_make (cwd : ℕ) (path : Bytes) (type major minor : ℤ) :
    Shifts FsState.ops (-1) (do
      match ← create cwd path type major minor with
      | none => do
        endOp
        return -1
      | some ip => do
        iunlockput ip
        endOp
        return (0 : ℤ)) := by
  refine .after (Leaves.create cwd path type major minor) fun r => ?_
  split
  · exact shifts_leave _
  · exact shifts_putLeave _ _

theorem leaves_sysMkdir (cwd : ℕ) (path : StrArg) : Leaves FsState.ops (sysMkdir cwd path) := by
  refine shifts_beginOp.around fun _ => ?_
  split
  · exact shifts_leave _
  · exact shifts_make cwd _ _ _ _

theorem leaves_sysMknod (cwd : ℕ) (path : StrArg) (major minor : ℤ) :
    Leaves FsState.ops (sysMknod cwd path major minor) := by
  refine shifts_beginOp.around fun _ => ?_
  split
  · exact shifts_leave _
  · exact shifts_make cwd _ _ _ _

theorem leaves_entryCall (cwd : ℕ) (c : EntryCall) : Leaves FsState.ops (c.run cwd) := by
  cases c with
  | link old new => exact leaves_sysLink cwd old new
  | mkdir path => exact leaves_sysMkdir cwd path
  | mknod path major minor => exact leaves_sysMknod cwd path major minor
  | unlink path => exact leaves_sysUnlink cwd path

theorem leaves_sysSymlink (cwd : ℕ) (target path : StrArg) :
    Leaves FsState.ops (sysSymlink cwd target path) := by
  unfold sysSymlink
  split
  · refine shifts_beginOp.around fun _ => .after (Leaves.create cwd _ _ _ _) fun r => ?_
    split
    · exact shifts_leave _
    refine .after (Leaves.onInode _ _) fun r => ?_
    split
    · exact shifts_putLeave _ _
    · exact shifts_putLeave _ _
  · exact .pure _

theorem leaves_sysReadlink (cwd : ℕ) (path : StrArg) (ubuf : Bytes) (bufsize : Int32) :
    Leaves FsState.ops (sysReadlink cwd path ubuf bufsize) := by
  unfold sysReadlink
  split
  · exact .pure _
  refine shifts_beginOp.around fun _ => .after (Leaves.namei cwd _) fun r => ?_
  split
  · exact shifts_leave _
  refine .after (Leaves.ilock _) fun _ => .after (Leaves.inode _) fun i => ?_
  split
  · exact shifts_putLeave _ _
  · exact .after (Leaves.onInode _ _) fun r => shifts_putLeave _ _

theorem leaves_followDangling (cwd : ℕ) (omode : ℤ) (n ip : ℕ) (path : Bytes) :
    Leaves FsState.ops (followDangling cwd omode n ip path) := by
  induction n generalizing ip path with
  | zero =>
    unfold followDangling
    refine (Leaves.inode ip).bind fun i => ?_
    split
    · exact (Leaves.iunlockput ip).bind fun _ => .pure _
    · exact .pure _
  | succ n ih =>
    unfold followDangling
    refine (Leaves.inode ip).bind fun i => ?_
    split
    · refine (Leaves.onInode ip _).bind fun r => ?_
      dsimp only
      split
      · exact (Leaves.iunlockput ip).bind fun _ => .pure _
      refine (Leaves.namei cwd _).bind fun r => ?_
      split
      · exact (Leaves.onInode ip _).bind fun _ => (Leaves.modifyInode ip _).bind fun _ =>
          (Leaves.onInode ip _).bind fun _ => (Leaves.iunlockput ip).bind fun _ => .pure _
      · exact (Leaves.iunlockput ip).bind fun _ => (Leaves.ilock _).bind fun _ => ih _ _
    · exact .pure _

theorem leaves_ireclaim (dev : ℕ) : Leaves FsState.ops (ireclaim dev) := by
  unfold ireclaim
  generalize sb.ninodes - 1 = n
  generalize 1 = k
  induction n generalizing k with
  | zero => exact .pure _
  | succ n ih =>
    refine .bind (Leaves.get.bind fun s => ?_) fun _ => ih (k + 1)
    dsimp only
    split
    · refine (Leaves.iget dev k).bind fun ip => shifts_beginOp.around fun _ => ?_
      exact .after (Leaves.ilock ip) fun _ => .after (Leaves.iunlock ip)
        fun _ => .after (Leaves.iput ip) fun _ => shifts_endOp
    · exact .pure _

end FileSystem

section Processes

/-- The operations begun and not ended, for a process and for all of them. -/
def opsOf (a : Task FilePtr (Sys χ)) : ℤ := a.sys.fs.ops

omit sb in
theorem Shifts.sys {α : Type} {m : Exec (Sys χ) Fault α} {k : ℤ}
    (h : Shifts (fun s : Sys χ => s.fs.ops) k m) : Shifts (@opsOf χ _) k (onSys m) :=
    fun _ _ _ ht => by
  obtain ⟨u, hu, rfl⟩ := ends_onSys.mp ht
  exact h _ _ _ hu

omit sb in
theorem Leaves.sys {α : Type} {m : Exec (Sys χ) Fault α}
    (h : Leaves (fun s : Sys χ => s.fs.ops) m) :
    Leaves (@opsOf χ _) (onSys m) := (Shifts.sys h.shifts).leaves

omit sb in
theorem Shifts.fs {α : Type} {m : FsM α} {k : ℤ} (h : Shifts FsState.ops k m) :
    Shifts (@opsOf χ _) k (onFs m) := by
  have hsys : Shifts (fun s : Sys χ => s.fs.ops) k
    (zoom Sys.fs (fun u s => { s with fs := u }) m) :=
    h.zoom (fun _ => rfl) fun _ _ => rfl
  exact Shifts.sys hsys

omit sb in
theorem Leaves.fs {α : Type} {m : FsM α} (h : Leaves FsState.ops m) :
    Leaves (@opsOf χ _) (onFs m) := (Shifts.fs h.shifts).leaves

omit sb in
theorem shifts_fail : Shifts (@opsOf χ _) (-1) (do
    onFs endOp
    return (-1 : ℤ)) := (Shifts.fs shifts_endOp).before fun _ => .pure _

theorem shifts_giveUp (ip : ℕ) : Shifts (@opsOf χ _) (-1) (giveUp ip) :=
  .after (Leaves.fs (Leaves.iunlockput ip)) fun _ => shifts_fail

omit sb in
theorem leaves_modifyFile (f : FilePtr) (g : File → File) : Leaves (@opsOf χ _) (modifyFile f g) :=
  Leaves.sys (.of_modify fun _ => rfl)

omit sb in
theorem leaves_modifyProc (g : Proc FilePtr → Proc FilePtr) :
    Leaves (@opsOf χ _) (modifyProc g) := .of_modify fun _ => rfl

omit sb in
theorem leaves_fdalloc (f : FilePtr) : Leaves (@opsOf χ _) (fdalloc f) := by
  refine Leaves.get.bind fun s => ?_
  split
  · exact (leaves_modifyProc _).bind fun _ => .pure _
  · exact .pure _

section Files

variable {L : FileLayer χ}

omit pm in
theorem leaves_release (x : File) : Leaves FsState.ops x.release := by
  unfold File.release
  split
  · exact shifts_beginOp.around fun _ => .after (Leaves.iput _) fun _ => shifts_endOp
  · exact .pure _

theorem leaves_fileclose (hL : CloseLaws L) (f : FilePtr) :
    Leaves (fun s : Sys χ => s.fs.ops) (L.fileclose f) := by
  intro s _ t ht
  obtain ⟨-, hfs, -⟩ | ⟨-, hrelease, -⟩ := hL.fileclose_ends ht
  · exact congrArg FsState.ops hfs
  · exact leaves_release _ _ _ _ hrelease

theorem leaves_filedup (hL : CloseLaws L) (f : FilePtr) :
    Leaves (fun s : Sys χ => s.fs.ops) (L.filedup f) := fun _ _ _ ht =>
  congrArg FsState.ops (hL.filedup_ends ht).2.1

omit sb in
theorem leaves_filealloc (hL : OpenLaws L) : Leaves (fun s : Sys χ => s.fs.ops) L.filealloc := by
  intro s r t ht
  rcases r with - | f
  · exact congrArg FsState.ops (hL.filealloc ht).1
  · exact congrArg FsState.ops (hL.filealloc_some ht).2.1

theorem leaves_openFile (hL : CloseLaws L) : Leaves (@opsOf χ _) (openFile L) := by
  refine (Leaves.sys (leaves_filealloc hL.toOpenLaws)).bind fun r => ?_
  split
  · exact .pure _
  refine (leaves_fdalloc _).bind fun fd => ?_
  split
  · exact (Leaves.sys (leaves_fileclose hL _)).bind fun _ => .pure _
  · exact .pure _

theorem fileTable_pipeLaws : PipeLaws (fileTable (χ := χ)) where
  pipealloc {s t r} ht := by
    have hL := fileTable_closeLaws (χ := χ)
    have hleaves : Leaves (fun s : Sys χ => s.fs.ops) fileTable.pipealloc := by
      refine (leaves_filealloc hL.toOpenLaws).bind fun r => ?_
      split
      · exact .pure _
      refine (leaves_filealloc hL.toOpenLaws).bind fun w => ?_
      split
      · exact (leaves_fileclose hL _).bind fun _ => .pure _
      · exact .pure _
    exact hleaves s r t ht
  copyout ht := by rw [(ends_pure.mp ht).2]

end Files

section Calls

variable {L : FileLayer χ} (hL : CloseLaws L)

include hL

theorem shifts_openInode (ip : ℕ) (omode : ℤ) :
    Shifts (@opsOf χ _) (-1) (openInode L ip omode) := by
  refine .after (Leaves.fs (Leaves.inode ip)) fun i => ?_
  split
  · exact shifts_giveUp ip
  refine .after (leaves_openFile hL) fun r => ?_
  split
  · exact shifts_giveUp ip
  refine .after (Leaves.fs (Leaves.inode ip)) fun i => .after (leaves_modifyFile _ _) fun _ =>
    .after (leaves_modifyFile _ _) fun _ =>
    .after ?_ fun _ => .after (Leaves.fs (Leaves.iunlock ip)) fun _ =>
      (Shifts.fs shifts_endOp).before fun _ => .pure _
  split
  · exact Leaves.fs (Leaves.onInode ip _)
  · exact .pure _

theorem leaves_sysOpen (path : StrArg) (omode : ℤ) :
    Leaves (@opsOf χ _) (sysOpen L path omode) := by
  refine Leaves.get.bind fun a => ?_
  dsimp only
  split
  · exact .pure _
  refine (Shifts.fs shifts_beginOp).around fun _ => ?_
  split
  · refine .after (Leaves.fs (Leaves.create _ _ _ _ _)) fun r => ?_
    split
    · exact shifts_fail
    · exact shifts_openInode hL _ omode
  · refine .after (Leaves.fs (Leaves.namei _ _)) fun r => ?_
    split
    · exact shifts_fail
    refine .after (Leaves.fs (Leaves.ilock _))
      fun _ => .after (Leaves.fs (Leaves.inode _)) fun i => ?_
    split
    · exact shifts_giveUp _
    · exact shifts_openInode hL _ omode

theorem leaves_openFollowing {follow : ℕ → ℤ → ℕ → ℕ → Bytes → FsM (Option (ℕ × ℕ))}
    (hfollow : ∀ cwd omode n ip path, Leaves FsState.ops (follow cwd omode n ip path))
    (refused : Inode → ℕ → Bool) (path : StrArg) (omode : ℤ) :
    Leaves (@opsOf χ _) (openFollowing L follow refused path omode) := by
  refine Leaves.get.bind fun a => ?_
  dsimp only
  split
  · exact .pure _
  refine (Shifts.fs shifts_beginOp).around
    fun _ => .after (Leaves.fs (Leaves.openPath _ _ omode)) fun r => ?_
  split
  · exact shifts_fail
  refine .after (Leaves.fs (hfollow _ omode _ _ _)) fun found => ?_
  unfold openFound
  split
  · exact shifts_fail
  refine .after (Leaves.fs (Leaves.inode _)) fun i => ?_
  split
  · exact shifts_giveUp _
  split
  · exact shifts_giveUp _
  · exact shifts_openInode hL _ omode

omit hL in
theorem leaves_sysChdir (path : StrArg) : Leaves (@opsOf χ _) (sysChdir path) := by
  refine Leaves.get.bind fun a => (Shifts.fs shifts_beginOp).around fun _ => ?_
  split
  · exact shifts_fail
  refine .after (Leaves.fs (Leaves.namei _ _)) fun r => ?_
  split
  · exact shifts_fail
  refine .after (Leaves.fs (Leaves.ilock _))
    fun _ => .after (Leaves.fs (Leaves.inode _)) fun i => ?_
  split
  · exact shifts_giveUp _
  · exact .after (Leaves.fs (Leaves.iunlock _)) fun _ => .after (Leaves.fs (Leaves.iput _)) fun _ =>
      (Shifts.fs shifts_endOp).before fun _ => (leaves_modifyProc _).bind fun _ => .pure _

theorem leaves_sysDup (fd : ℤ) : Leaves (@opsOf χ _) (sysDup L fd) := by
  refine Leaves.get.bind fun a => ?_
  split
  · exact .pure _
  refine (leaves_fdalloc _).bind fun k => ?_
  split
  · exact .pure _
  · exact (Leaves.sys (leaves_filedup hL _)).bind fun _ => .pure _

theorem leaves_sysClose (fd : ℤ) : Leaves (@opsOf χ _) (sysClose L fd) := by
  refine Leaves.get.bind fun a => ?_
  split
  · exact .pure _
  · exact (leaves_modifyProc _).bind fun _ => (Leaves.sys (leaves_fileclose hL _)).bind
      fun _ => .pure _

theorem leaves_pipeBad (rf wf : FilePtr) (fds : List (Fin Param.NOFILE)) :
    Leaves (@opsOf χ _) (pipeBad L rf wf fds) :=
  (leaves_modifyProc _).bind fun _ => (Leaves.sys (leaves_fileclose hL rf)).bind fun _ =>
    (Leaves.sys (leaves_fileclose hL wf)).bind fun _ => .pure _

theorem leaves_sysPipe (hP : PipeLaws L) (fdarray : ℕ) :
    Leaves (@opsOf χ _) (sysPipe L fdarray) := by
  refine (Leaves.sys fun _ _ _ ht => hP.pipealloc ht).bind fun r => ?_
  split
  · exact .pure _
  refine (leaves_fdalloc _).bind fun fd0 => ?_
  split
  · exact leaves_pipeBad hL _ _ _
  refine (leaves_fdalloc _).bind fun fd1 => ?_
  split
  · exact leaves_pipeBad hL _ _ _
  refine (Leaves.sys fun _ _ _ ht => hP.copyout ht).bind fun ok => ?_
  split
  · refine (Leaves.sys fun _ _ _ ht => hP.copyout ht).bind fun ok => ?_
    split
    · exact .pure _
    · exact leaves_pipeBad hL _ _ _
  · exact leaves_pipeBad hL _ _ _

theorem leaves_treeCall (c : TreeCall) : Leaves (@opsOf χ _) (treeCall L c) := by
  refine Leaves.get.bind fun a => ?_
  cases c with
  | open' path omode => exact leaves_sysOpen hL path _
  | symlinkOpen path omode => exact leaves_openFollowing hL Leaves.followLinks _ path _
  | securityOpen path omode => exact leaves_openFollowing hL Leaves.followLinks _ path _
  | close fd => exact leaves_sysClose hL _
  | dup fd => exact leaves_sysDup hL _
  | chdir path => exact leaves_sysChdir path
  | symlink target path => exact Leaves.fs (leaves_sysSymlink _ target path)
  | readlink path ubuf bufsize =>
    exact Leaves.fs ((leaves_sysReadlink _ path ubuf bufsize).bind fun _ => .pure _)
  | entry c => exact Leaves.fs (leaves_entryCall _ c)

end Calls

end Processes

/-- The calls of a process, with `sys_pipe` and the `sys_open` that frees dangling links. -/
inductive SysCall
  | tree (c : TreeCall)
  | danglingOpen (path : StrArg) (omode : Int32)
  | pipe (fdarray : ℕ)

def sysCall (L : FileLayer χ) : SysCall → TaskM χ ℤ
  | .tree c => treeCall L c
  | .danglingOpen path omode => danglingOpen L path omode.toInt
  | .pipe fdarray => sysPipe L fdarray

def sysStep (L : FileLayer χ) (c : Fin Param.NPROC × SysCall) : Exec (Machine χ) Fault ℤ :=
  runAs c.1 (sysCall L c.2)

section Run

variable {L : FileLayer χ} (hL : CloseLaws L) (hP : PipeLaws L)

include hL hP

theorem leaves_sysCall (c : SysCall) : Leaves (@opsOf χ _) (sysCall L c) := by
  cases c with
  | tree c => exact leaves_treeCall hL c
  | danglingOpen path omode => exact leaves_openFollowing hL leaves_followDangling _ path _
  | pipe fdarray => exact leaves_sysPipe hL hP fdarray

theorem leaves_sysStep (c : Fin Param.NPROC × SysCall) :
    Leaves (fun s : Machine χ => s.sys.fs.ops) (sysStep L c) := fun s r t ht => by
  obtain ⟨b, hb, rfl⟩ := ends_runAs.mp ht
  exact leaves_sysCall hL hP c.2 _ _ _ hb

/-- Whatever the disk, the table of inodes and the files hold, and with any arguments: after any
calls, one after the other, no operation is open, so that the log can commit. The same holds after
the clean-up of the system start. -/
theorem operations_ended {s : Machine χ}
    (h : Reached (sysStep L) (fun _ _ => True) (fun s => s.sys.fs.ops = 0) s) :
    s.sys.fs.ops = 0 ∧ ∀ dev t, Ends (ireclaim dev) s.sys.fs () t → t.ops = 0 := by
  have hops : s.sys.fs.ops = 0 :=
    h.invariant (fun _ hs => hs) fun s t c r hs _ ht =>
      (leaves_sysStep hL hP c s r t ht).trans hs
  exact ⟨hops, fun dev t ht => (leaves_ireclaim dev _ _ _ ht).trans hops⟩

end Run

section Small

def blindTable : FileLayer χ := { fileTable with copyout := fun _ _ _ => return false }

theorem blindTable_closeLaws : CloseLaws (blindTable (χ := χ)) :=
  { fileTable_closeLaws (χ := χ) with }

theorem blindTable_pipeLaws : PipeLaws (blindTable (χ := χ)) where
  pipealloc := (fileTable_pipeLaws (χ := χ)).pipealloc
  copyout ht := by rw [(ends_pure.mp ht).2]

omit sb pm

/-- A file is made, opened through a link and removed, and a pipe fails at the user memory. -/
def mixedCalls : List (@Fin (@Param.NPROC smallParam) × SysCall) :=
  [(⟨0, smallParam_procs⟩, .tree (.open' (pathArg [47, 102]) 0x202)),
    (⟨0, smallParam_procs⟩, .tree (.symlink (pathArg [47, 102]) (pathArg [47, 108]))),
    (⟨1, smallParam_procs_one⟩, .tree (.symlinkOpen (pathArg [47, 108]) 0)),
    (⟨0, smallParam_procs⟩, .tree (.entry (.unlink (pathArg [47, 102])))),
    (⟨0, smallParam_procs⟩, .pipe 0)]

theorem runs_mixedCalls :
    letI := smallDisk
    letI := smallParam
    let s := afterAll (sysStep blindTable) (mixedCalls.take 4) smallMachine
    allEnd (sysStep blindTable) mixedCalls smallMachine = true ∧
      answer (sysStep blindTable (⟨0, smallParam_procs⟩, .pipe 0)) s = some (-1) ∧
      (tree s.sys.fs.disk 2).map (fun n => (n.type, n.nlink)) = some (T_FILE, 0) := by
  decide +kernel

theorem operations_ended_small :
    letI := smallDisk
    letI := smallParam
    ∃ s, Reached (sysStep (blindTable (χ := Unit))) (fun _ _ => True)
    (fun s => s.sys.fs.ops = 0) s ∧
      s.sys.fs.ops = 0 := by
  let _ := smallDisk
  let _ := smallParam
  have hinit : Reached (sysStep blindTable) (fun _ _ => True) (fun s => s.sys.fs.ops = 0)
      smallMachine := .init rfl
  have hreached := hinit.calls runs_mixedCalls.1
  exact ⟨_, hreached, (operations_ended (@blindTable_closeLaws Unit smallDisk smallParam)
    blindTable_pipeLaws hreached).1⟩

end Small

end Xv6Sheet.Kernel
