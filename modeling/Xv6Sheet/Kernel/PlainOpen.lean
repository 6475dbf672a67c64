import Xv6Sheet.Kernel.Symlink
import Xv6Sheet.Kernel.Types
import Xv6Sheet.Kernel.WriteThrough

/-! # Opening without links

Where no inode is a symbolic link, `sys_open` with links runs as the one without: its loop is
left at once, and its later test for directories refuses nothing that `create` answers.
-/

namespace Xv6Sheet.Kernel

open Exec

variable {χ : Type} [pm : Param]

theorem onFs_bind {α β : Type} (m : FsM α) (f : α → FsM β) :
    (onFs (m >>= f) : TaskM χ β) = onFs m >>= fun a => onFs (f a) := by
  unfold onFs onSys
  rw [zoom_bind Sys.fs (fun u (s : Sys χ) => { s with fs := u }) (fun _ _ => rfl) fun _ _ _ => rfl,
    zoom_bind Task.sys (fun u s => { s with sys := u }) (fun _ _ => rfl) fun _ _ _ => rfl]

theorem onFs_pure {α : Type} (a : α) : (onFs (pure a) : TaskM χ α) = pure a := by
  unfold onFs onSys
  rw [zoom_pure Sys.fs (fun u (s : Sys χ) => { s with fs := u }) fun _ => rfl,
    zoom_pure Task.sys (fun u s => { s with sys := u }) fun _ => rfl]

variable [sb : Superblock] {L : FileLayer χ} {H : ℕ → ℕ} {a : Task FilePtr (Sys χ)}
  {omode : ℤ} {ip : ℕ}

theorem followLinks_of_not_link {s : FsState} {cwd n : ℕ} {path : Bytes}
    (h : isLink (s.inodes ip) omode = false) :
    Ends (followLinks cwd omode n ip path) s (some (ip, n)) s := by
  unfold followLinks
  have hinode : Ends (inode ip) s (s.inodes ip) s := by simp [inode]
  refine hinode.bind ?_
  rw [h]
  exact ends_pure.mpr ⟨rfl, rfl⟩

/-- Where the path does not lead to a link, the inode found is opened unless it is a directory. -/
theorem openFound_run {b : Task FilePtr (Sys χ)} {cwd : ℕ} {path : Bytes}
    (h : isLink (b.sys.fs.inodes ip) omode = false) :
    (onFs (followLinks cwd omode maxDepth ip path) >>= openFound L (fun _ _ => false) omode).run b =
      (if (b.sys.fs.inodes ip).type = T_DIR ∧ omode ≠ O_RDONLY then giveUp ip
        else openInode L ip omode : TaskM χ ℤ).run b := by
  have hfollow : Ends (onFs (followLinks cwd omode maxDepth ip path)) b (some (ip, maxDepth)) b :=
    ends_onSys.mpr ⟨b.sys, ends_zoom.mpr ⟨b.sys.fs, followLinks_of_not_link h, rfl⟩, rfl⟩
  have hinode : Ends (onFs (inode ip)) b (b.sys.fs.inodes ip) b :=
    ends_onSys.mpr ⟨b.sys, ends_zoom.mpr ⟨b.sys.fs, by simp [inode], rfl⟩, rfl⟩
  rw [hfollow.run_bind]
  unfold openFound
  rw [hinode.run_bind]
  rfl

theorem wp_lock_type {s : FsState} (h : Cached (H + Pi.single ip 1) s)
    (hno : ∀ i, (s.disk.dinode i).type ≠ T_SYMLINK) :
    Wp (fun _ => True) (ilock ip) (fun _ t => (t.inodes ip).type ≠ T_SYMLINK) s := by
  refine ((h.ilock ip).and (wp_ilock_disk ip)).mono fun _ t ht => ?_
  obtain ⟨⟨ht, -, hpos, hv⟩, hd⟩ := ht
  rw [(ht.sync ip hpos hv).1, hd]
  exact hno _

omit pm sb in
theorem isLink_of_type {i : Inode} (h : i.type ≠ T_SYMLINK) : isLink i omode = false := by
  simp [isLink, h]

/-- On a file system without symbolic links, `sys_open` with links does what `sys_open` does,
in every branch and also when it stops. -/
theorem symlinkOpen_plain (h : Cached H a.sys.fs) (hcwd : 0 < H a.proc.cwd)
    (hno : ∀ i, (a.sys.fs.disk.dinode i).type ≠ T_SYMLINK) (path : StrArg) (omode : ℤ) :
    (symlinkOpen L path omode).run a = (sysOpen L path omode).run a := by
  unfold symlinkOpen openFollowing sysOpen
  have hget : Ends (get : TaskM χ _) a a a := ends_get.mpr ⟨rfl, rfl⟩
  rw [hget.run_bind, hget.run_bind]
  dsimp only
  cases argstr path Param.MAXPATH with
  | none => rfl
  | some path =>
    obtain ⟨b, hb⟩ : ∃ b : Task FilePtr (Sys χ),
        b = ⟨a.proc, { a.sys with fs.ops := a.sys.fs.ops + 1 }⟩ := ⟨_, rfl⟩
    have hbegin : Ends (onFs beginOp) a () b := by
      rw [hb]
      exact ends_onSys.mpr ⟨_, ends_zoom.mpr ⟨_, ends_modify.mpr rfl, rfl⟩, rfl⟩
    have hcached : Cached H b.sys.fs := by
      rw [hb]
      exact h.ops _
    have hnone : ∀ i, (b.sys.fs.disk.dinode i).type ≠ T_SYMLINK := by
      rw [hb]
      exact hno
    dsimp only
    rw [hbegin.run_bind, hbegin.run_bind]
    unfold openPath
    split
    · -- `create` answers neither a link nor a directory
      have hcreate : Wp (fun _ => True) (onFs (create a.proc.cwd path T_FILE 0 0))
          (fun r c => ∀ ip, r = some ip → (c.sys.fs.inodes ip).type = T_FILE ∨
            (c.sys.fs.inodes ip).type = T_DEVICE) b := wp_onFs.mpr (hcached.create_types hcwd)
      refine hcreate.run_congr fun r c hc => ?_
      rcases r with - | ip
      · rfl
      have hne : (c.sys.fs.inodes ip).type ≠ T_SYMLINK ∧ (c.sys.fs.inodes ip).type ≠ T_DIR := by
        rcases hc ip rfl with hc | hc <;> rw [hc] <;> decide
      refine (openFound_run (isLink_of_type hne.1)).trans ?_
      rw [if_neg fun hdir => hne.2 hdir.1]
    · have hnamei : Wp (fun _ => True) (onFs (namei a.proc.cwd path))
          (fun r c => Cached (H + inHand r) c.sys.fs ∧
            ∀ i, (c.sys.fs.disk.dinode i).type ≠ T_SYMLINK) b := by
        refine wp_onFs.mpr (((hcached.namei hcwd).and (hcached.namei_types hcwd)).mono
          fun r c hc => ⟨hc.1.1, fun i hi => hnone i ?_⟩)
        rw [← hc.2 i (by rw [hi]; decide), hi]
      rw [onFs_bind, bind_assoc]
      refine hnamei.run_congr fun r c hc => ?_
      rcases r with - | ip
      · simp only [onFs_pure, pure_bind]
      have hlock : Wp (fun _ => True) (onFs (ilock ip))
          (fun _ d => (d.sys.fs.inodes ip).type ≠ T_SYMLINK) c :=
        wp_onFs.mpr (wp_lock_type hc.1 hc.2)
      simp only [onFs_bind, onFs_pure, bind_assoc, pure_bind]
      refine hlock.run_congr fun _ d hd => ?_
      have hinode : Ends (onFs (inode ip)) d (d.sys.fs.inodes ip) d :=
        ends_onSys.mpr ⟨d.sys, ends_zoom.mpr ⟨d.sys.fs, by simp [inode], rfl⟩, rfl⟩
      rw [hinode.run_bind]
      exact openFound_run (isLink_of_type hd)

omit pm sb in
/-- The root directory has no links: a file is created in it by either call. -/
theorem symlinkOpen_plain_small :
    letI := smallDisk
    letI := smallParam
    let a : Task FilePtr (Sys Unit) := ⟨smallMachine.procs 0, smallMachine.sys⟩
    (symlinkOpen fileTable (pathArg [47, 97]) 0x202).run a =
      (sysOpen fileTable (pathArg [47, 97]) 0x202).run a := by
  let _ := smallDisk
  let _ := smallParam
  refine symlinkOpen_plain booted_smallMachine.coherent.1 (cwds_pos smallMachine.procs 0)
    (fun i => ?_) _ _
  show (if _ then _ else Dinode.zero : Dinode).type ≠ T_SYMLINK
  split <;> decide

end Xv6Sheet.Kernel
