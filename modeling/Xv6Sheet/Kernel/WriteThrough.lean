import Xv6Sheet.Kernel.CacheCalls
import Xv6Sheet.Kernel.FileTable
import Xv6Sheet.Lib.Count
import Xv6Sheet.Lib.Run

/-! # The inode cache is written through

Processes call the file system one after the other. Each holds a reference to its directory, and
a call drops every other reference it takes but those that it leaves in open files.
-/

namespace Xv6Sheet.Kernel

open Exec

section Others

variable [sb : Superblock] {α : Type} {s t : FsState} {ip : ℕ}

/-- The number of an inode of the table, and the records on the disk of all other inodes. -/
def others (ip : ℕ) (s : FsState) : ℕ × (ℕ → Option Dinode) :=
  ((s.inodes ip).inum, fun j => if j = (s.inodes ip).inum then none else some (s.disk.dinode j))

theorem dinode_of_others (h : others ip t = others ip s) {j : ℕ} (hj : j ≠ (s.inodes ip).inum) :
    t.disk.dinode j = s.disk.dinode j := by
  obtain ⟨hinum, hrecords⟩ := Prod.mk.inj h
  have hj' := congrFun hrecords j
  rw [hinum, if_neg hj, if_neg hj] at hj'
  exact Option.some.inj hj'

theorem others_eq (hinum : (t.inodes ip).inum = (s.inodes ip).inum)
    (hdisk : ∀ j, j ≠ (s.inodes ip).inum → t.disk.dinode j = s.disk.dinode j) :
    others ip t = others ip s := by
  unfold others
  rw [hinum]
  refine Prod.mk.injEq .. |>.mpr ⟨rfl, funext fun j => ?_⟩
  split
  · rfl
  · rw [hdisk j ‹_›]

theorem leaves_others_modifyInode {g : Inode → Inode} (h : ∀ i, (g i).inum = i.inum) :
    Leaves (others ip) (modifyInode ip g) :=
  .of_modify fun s => others_eq (by simp [h]) fun _ _ => rfl

theorem leaves_others_onInode {m : Inode → DiskM (α × Inode)}
    (hm : ∀ x a y d d', Ends (m x) d (a, y) d' → y.inum = x.inum ∧
      (d'.dinodes = d.dinodes ∨ ∃ dip, d'.dinodes = (d.setDinode x.inum dip).dinodes)) :
    Leaves (others ip) (onInode ip m) := fun s _ t ht => by
  obtain ⟨y, d, hy, rfl⟩ := ends_onInode.mp ht
  obtain ⟨hinum, hd⟩ := hm _ _ _ _ _ hy
  refine others_eq (by simpa using hinum) fun j hj => ?_
  show d.dinode j = s.disk.dinode j
  rcases hd with hd | ⟨dip, hd⟩
  · rw [Disk.dinode, Disk.dinode, hd]
  · rw [Disk.dinode, hd]
    exact (Disk.dinode_setDinode ..).trans (if_neg hj)

theorem leaves_others_iupdate (ip : ℕ) : Leaves (others ip) (iupdate ip) :=
  leaves_others_onInode fun x _ y d d' h => by
    obtain ⟨_, v, hv, hpure⟩ := ends_bind.mp h
    obtain rfl := ends_iupdateDisk.mp hv
    obtain ⟨hy, rfl⟩ := ends_pure.mp hpure
    obtain ⟨-, rfl⟩ := Prod.mk.inj hy
    exact ⟨rfl, .inr ⟨_, rfl⟩⟩

theorem leaves_others_itrunc (ip : ℕ) : Leaves (others ip) (itrunc ip) :=
  leaves_others_onInode fun x _ y d d' h => by
    obtain ⟨z, v, hv, hpure⟩ := ends_bind.mp h
    obtain ⟨hy, rfl⟩ := ends_pure.mp hpure
    obtain ⟨-, rfl⟩ := Prod.mk.inj hy
    obtain ⟨⟨a, rfl⟩, hd⟩ := Fs.itrunc_record hv
    exact ⟨rfl, .inr ⟨_, hd⟩⟩

theorem leaves_others_writei (ip : ℕ) (ok : ℕ → Bool) (src : Bytes) (off n : ℕ) :
    Leaves (others ip) (onInode ip fun i => Fs.writei i ok src off n) :=
  leaves_others_onInode fun x _ y d d' h => by
    rcases Fs.writei_record h with ⟨rfl, hd⟩ | ⟨⟨a, k, rfl⟩, -, hd⟩
    · exact ⟨rfl, .inl hd⟩
    · exact ⟨rfl, .inr ⟨_, hd⟩⟩

theorem leaves_others_iput (ip : ℕ) : Leaves (others ip) (iput ip) := by
  refine .bind (.bind .get fun _ => .pure _) fun i => ?_
  have hdrop : Leaves (others ip) (modifyInode ip fun i => { i with ref := i.ref - 1 }) :=
    leaves_others_modifyInode fun _ => rfl
  split
  swap
  · exact hdrop
  split
  · exact .throw _
  refine .bind (.bind (leaves_others_itrunc ip) fun _ => ?_) fun _ => hdrop
  refine .bind ?_ fun _ => .bind (leaves_others_iupdate ip) fun _ => ?_
  all_goals exact leaves_others_modifyInode fun _ => rfl

end Others

section Run

variable {χ : Type} [sb : Superblock] [pm : Param] {L : FileLayer χ} {H : ℕ → ℕ} {ip : ℕ}
  {a b : Task FilePtr (Sys χ)}

/-- A process and a file system whose cache is written through. -/
structure Coherent (H : ℕ → ℕ) (a : Task FilePtr (Sys χ)) : Prop where
  cached : Cached H a.sys.fs
  closed : FilesClosed a.sys

theorem Coherent.openFile (h : Coherent H a) (hL : OpenLaws L) :
    Wp (fun _ => True) (openFile L) (fun r b => Coherent H b ∧ b.sys.fs = a.sys.fs ∧
      b.proc.cwd = a.proc.cwd ∧ ∀ f fd, r = some (f, fd) → (b.sys.ftable f).ref = 1) a := by
  refine wp_bind.mpr (wp_onSys.mpr ⟨fun r u hu => ?_, fun _ _ => trivial⟩)
  rcases r with - | f
  · obtain ⟨hfs, hft⟩ := hL.filealloc hu
    refine wp_pure.mpr ⟨⟨?_, ?_⟩, hfs, rfl, by simp⟩
    · rw [hfs]
      exact h.cached
    · rw [FilesClosed, hft]
      exact h.closed
  obtain ⟨h0, hfs, hft⟩ := hL.filealloc_some hu
  have hclosed : FilesClosed u := h.closed.setFile hft (by simp)
  have href : (u.ftable f).ref = 1 := by
    rw [hft, Function.update_self]
  have hu : Coherent H ⟨a.proc, u⟩ := ⟨by rw [hfs]; exact h.cached, hclosed⟩
  refine wp_bind.mpr (wp_fdalloc.mono fun r b hb => ?_)
  obtain ⟨-, hb⟩ := hb
  rcases r with - | fd
  · subst hb
    refine wp_bind.mpr (wp_onSys.mpr ⟨fun _ v hv => wp_pure.mpr ?_, fun _ _ => trivial⟩)
    have htype : (u.ftable f).type = .none := by
      rw [hft, Function.update_self]
      exact h.closed f h0
    obtain ⟨hfs', hft'⟩ := hL.fileclose href htype hv
    refine ⟨⟨?_, hclosed.setFile hft' fun _ => htype⟩, hfs'.trans hfs, rfl, by simp⟩
    rw [hfs', hfs]
    exact h.cached
  · obtain ⟨-, rfl⟩ := hb
    refine wp_pure.mpr ⟨⟨hu.cached, hclosed⟩, hfs, rfl, fun g k he => ?_⟩
    obtain ⟨rfl, -⟩ := Prod.mk.inj (Option.some.inj he)
    exact href

theorem Coherent.modifyFile (h : Coherent H a) {f : FilePtr} {g : File → File}
    (href : (a.sys.ftable f).ref = 1) (hg : ∀ x, (g x).ref = x.ref) :
    Wp (fun _ => True) (modifyFile f g) (fun _ b => Coherent H b ∧ b.sys.fs = a.sys.fs ∧
      b.proc = a.proc ∧ (b.sys.ftable f).ref = 1) a := by
  have hone : (g (a.sys.ftable f)).ref = 1 := (hg _).trans href
  refine wp_modifyFile.mpr ⟨⟨h.cached, h.closed.setFile rfl fun h0 => ?_⟩, rfl, rfl, ?_⟩
  · omega
  · show (Function.update a.sys.ftable f (g (a.sys.ftable f)) f).ref = 1
    rwa [Function.update_self]

theorem Coherent.giveUp (h : Coherent (H + Pi.single ip 1) a) : Wp (fun _ => True) (do
      onFs (iunlockput ip)
      onFs endOp
      return (-1 : ℤ)) (fun _ b => Coherent H b ∧ b.proc = a.proc) a := by
  refine wp_bind.mpr (wp_onFs.mpr (h.cached.iunlockput.mono fun _ u hu => ?_))
  exact wp_bind.mpr (wp_onFs.mpr (wp_modify.mpr (wp_pure.mpr ⟨⟨hu.1.ops _, h.closed⟩, rfl⟩)))

theorem Coherent.openInode (h : Coherent (H + Pi.single ip 1) a) (hL : OpenLaws L)
    (hv : (a.sys.fs.inodes ip).valid = true) (omode : ℤ) :
    Wp (fun _ => True) (openInode L ip omode)
      (fun _ b => Coherent H b ∧ b.proc.cwd = a.proc.cwd) a := by
  have hbad : ∀ {b : Task FilePtr (Sys χ)}, Coherent (H + Pi.single ip 1) b →
      b.proc.cwd = a.proc.cwd → Wp (fun _ => True) (do
        onFs (iunlockput ip)
        onFs endOp
        return (-1 : ℤ)) (fun _ b => Coherent H b ∧ b.proc.cwd = a.proc.cwd) b :=
    fun hb hcwd => hb.giveUp.mono fun _ c hc => ⟨hc.1, by rw [hc.2, hcwd]⟩
  refine wp_bind.mpr (wp_onFs.mpr (wp_inode.mpr ?_))
  split
  · exact hbad h rfl
  refine wp_bind.mpr ((h.openFile hL).mono fun r b hb => ?_)
  obtain ⟨hb, hfs, hcwd, href⟩ := hb
  rcases r with - | ⟨f, fd⟩
  · exact hbad hb hcwd
  have href := href f fd rfl
  refine wp_bind.mpr (wp_onFs.mpr (wp_inode.mpr ?_))
  refine wp_bind.mpr ((hb.modifyFile href fun x => by split <;> rfl).mono fun _ c hc => ?_)
  obtain ⟨hc, hfsc, hprocc, href⟩ := hc
  refine wp_bind.mpr ((hc.modifyFile href ?_).mono fun _ d hd => ?_)
  · exact fun _ => rfl
  obtain ⟨hd, hfsd, hprocd, -⟩ := hd
  have hvd : (d.sys.fs.inodes ip).valid = true := by rwa [hfsd, hfsc, hfs]
  have hcwd : d.proc.cwd = a.proc.cwd := by rw [hprocd, hprocc, hcwd]
  have htrunc : Wp (fun _ => True)
      (if hasFlag omode O_TRUNC ∧ (b.sys.fs.inodes ip).type = T_FILE then onFs (itrunc ip)
        else return ())
      (fun _ e => Coherent (H + Pi.single ip 1) e ∧ e.proc.cwd = a.proc.cwd) d := by
    split
    · have hpos : 0 < (d.sys.fs.inodes ip).ref := hd.cached.ref_pos (by simp)
      exact wp_onFs.mpr ((hd.cached.itrunc hpos hvd).mono fun _ u hu =>
        ⟨⟨hu.1, hd.closed⟩, hcwd⟩)
    · exact wp_pure.mpr ⟨hd, hcwd⟩
  refine wp_bind.mpr (htrunc.mono fun _ e he => ?_)
  obtain ⟨he, hcwd⟩ := he
  refine wp_bind.mpr (wp_onFs.mpr ((he.cached.iunlock ip).mono fun _ u hu => ?_))
  refine wp_bind.mpr (wp_onFs.mpr (wp_modify.mpr (wp_pure.mpr ⟨⟨?_, he.closed⟩, hcwd⟩)))
  exact (hu.1.mono fun _ => Nat.le_add_right _ _).ops _

theorem Coherent.sysOpen (h : Coherent H a) (hcwd : 0 < H a.proc.cwd) (hL : OpenLaws L)
    (path : StrArg) (omode : ℤ) : Wp (fun _ => True) (sysOpen L path omode)
      (fun _ b => Coherent H b ∧ b.proc.cwd = a.proc.cwd) a := by
  refine wp_bind.mpr (wp_get.mpr ?_)
  dsimp only
  split
  · exact wp_pure.mpr ⟨h, rfl⟩
  refine wp_bind.mpr (wp_onFs.mpr (wp_modify.mpr ?_))
  have hend : ∀ {u : FsState}, Cached H u → Wp (fun _ => True) (do
      onFs endOp
      return (-1 : ℤ)) (fun _ b => Coherent H b ∧ b.proc.cwd = a.proc.cwd)
      ⟨a.proc, { a.sys with fs := u }⟩ := fun hu =>
    wp_bind.mpr (wp_onFs.mpr (wp_modify.mpr (wp_pure.mpr ⟨⟨hu.ops _, h.closed⟩, rfl⟩)))
  split
  · refine wp_bind.mpr (wp_onFs.mpr (((h.cached.ops _).create hcwd _ _ _).mono fun r u hu => ?_))
    obtain ⟨hu, -, hv⟩ := hu
    rcases r with - | ip
    · exact hend hu
    · have hb : Coherent (H + Pi.single ip 1) ⟨a.proc, { a.sys with fs := u }⟩ := ⟨hu, h.closed⟩
      exact hb.openInode hL (hv ip rfl) omode
  · refine wp_bind.mpr (wp_onFs.mpr (((h.cached.ops _).namei hcwd).mono fun r u hu => ?_))
    obtain ⟨hu, -⟩ := hu
    rcases r with - | ip
    · exact hend hu
    refine wp_bind.mpr (wp_onFs.mpr ((hu.ilock ip).mono fun _ v hv => ?_))
    obtain ⟨hv, -, -, hvalid⟩ := hv
    have hb : Coherent (H + Pi.single ip 1) ⟨a.proc, { a.sys with fs := v }⟩ := ⟨hv, h.closed⟩
    refine wp_bind.mpr (wp_onFs.mpr (wp_inode.mpr ?_))
    split
    · exact hb.giveUp.mono fun _ c hc => ⟨hc.1, by rw [hc.2]⟩
    · exact hb.openInode hL hvalid omode

theorem Coherent.sysChdir (h : Coherent H a) (hcwd : 0 < H a.proc.cwd) (path : StrArg) :
    Wp (fun _ => True) (sysChdir path) (fun _ b => ∃ K : ℕ → ℕ, Coherent K b ∧
      K + Pi.single a.proc.cwd 1 = H + Pi.single b.proc.cwd 1) a := by
  refine wp_bind.mpr (wp_get.mpr (wp_bind.mpr (wp_onFs.mpr (wp_modify.mpr ?_))))
  have hend : ∀ {u : FsState}, Cached H u → Wp (fun _ => True) (do
      onFs endOp
      return (-1 : ℤ)) (fun _ b => ∃ K : ℕ → ℕ, Coherent K b ∧
        K + Pi.single a.proc.cwd 1 = H + Pi.single b.proc.cwd 1)
      ⟨a.proc, { a.sys with fs := u }⟩ := fun hu => wp_bind.mpr (wp_onFs.mpr (wp_modify.mpr
    (wp_pure.mpr ⟨H, ⟨hu.ops _, h.closed⟩, rfl⟩)))
  split
  · exact hend (h.cached.ops _)
  refine wp_bind.mpr (wp_onFs.mpr (((h.cached.ops _).namei hcwd).mono fun r u hu => ?_))
  obtain ⟨hu, -⟩ := hu
  rcases r with - | ip
  · exact hend hu
  refine wp_bind.mpr (wp_onFs.mpr ((hu.ilock ip).mono fun _ v hv => ?_))
  obtain ⟨hv, -⟩ := hv
  have hb : Coherent (H + Pi.single ip 1) ⟨a.proc, { a.sys with fs := v }⟩ := ⟨hv, h.closed⟩
  refine wp_bind.mpr (wp_onFs.mpr (wp_inode.mpr ?_))
  split
  · exact hb.giveUp.mono fun _ c hc => ⟨H, hc.1, by rw [hc.2]⟩
  refine wp_bind.mpr (wp_onFs.mpr ((hv.iunlock ip).mono fun _ w hw => ?_))
  obtain ⟨K, hK⟩ : ∃ K : ℕ → ℕ, H + Pi.single ip 1 = K + Pi.single a.proc.cwd 1 := by
    refine ⟨fun k => (H + Pi.single ip 1 : ℕ → ℕ) k - (Pi.single a.proc.cwd 1 : ℕ → ℕ) k, ?_⟩
    funext k
    simp only [Pi.add_apply, Pi.single_apply]
    split <;> split <;> subst_vars <;> omega
  have hw := hw.1
  rw [inHand_some, hK] at hw
  refine wp_bind.mpr (wp_onFs.mpr (hw.iput.mono fun _ x hx => ?_))
  refine wp_bind.mpr (wp_onFs.mpr (wp_modify.mpr ?_))
  refine wp_bind.mpr (wp_modifyProc.mpr (wp_pure.mpr ⟨K, ⟨hx.1.ops _, h.closed⟩, hK.symm⟩))

structure Machine (χ : Type) [Param] where
  procs : Fin Param.NPROC → Proc FilePtr
  sys : Sys χ

def runAs {α : Type} (i : Fin Param.NPROC) (m : TaskM χ α) : Exec (Machine χ) Fault α :=
  zoom (fun s => ⟨s.procs i, s.sys⟩)
    (fun b s => ⟨Function.update s.procs i b.proc, b.sys⟩) m

omit sb in
theorem ends_runAs {α : Type} {i : Fin Param.NPROC} {m : TaskM χ α} {s t : Machine χ} {r : α} :
    Ends (runAs i m) s r t ↔ ∃ b, Ends m ⟨s.procs i, s.sys⟩ r b ∧
      t = ⟨Function.update s.procs i b.proc, b.sys⟩ := ends_zoom

/-- The calls on the file system, with the arguments as machine words. -/
inductive FsCall
  | open' (path : StrArg) (omode : Int32)
  | mkdir (path : StrArg)
  | mknod (path : StrArg) (major minor : Int32)
  | link (old new : StrArg)
  | unlink (path : StrArg)
  | chdir (path : StrArg)
  | readi (ip : ℕ) (ok : ℕ → Bool) (dst : Bytes) (off n : UInt32)
  | writei (ip : ℕ) (ok : ℕ → Bool) (src : Bytes) (off n : UInt32)

def fsCall (L : FileLayer χ) (c : FsCall) : TaskM χ ℤ := do
  let cwd := (← get).proc.cwd
  match c with
  | .open' path omode => sysOpen L path omode.toInt
  | .mkdir path => onFs (sysMkdir cwd path)
  | .mknod path major minor => onFs (sysMknod cwd path major.toInt minor.toInt)
  | .link old new => onFs (sysLink cwd old new)
  | .unlink path => onFs (sysUnlink cwd path)
  | .chdir path => sysChdir path
  | .readi ip ok dst off n => onFs (readLocked ip ok dst off.toNat n.toNat)
  | .writei ip ok src off n => onFs (writeLocked ip ok src off.toNat n.toNat)

def fsStep (L : FileLayer χ) (c : Fin Param.NPROC × FsCall) : Exec (Machine χ) Fault ℤ :=
  runAs c.1 (fsCall L c.2)

omit sb in
def cwds (procs : Fin Param.NPROC → Proc FilePtr) (ip : ℕ) : ℕ :=
  count (fun p => p.cwd = ip) procs

omit sb in
theorem cwds_pos (procs : Fin Param.NPROC → Proc FilePtr) (i : Fin Param.NPROC) :
    0 < cwds procs (procs i).cwd := count_pos (i := i) rfl

omit sb in
theorem cwds_update (procs : Fin Param.NPROC → Proc FilePtr) (i : Fin Param.NPROC)
    (p : Proc FilePtr) : cwds (Function.update procs i p) + Pi.single (procs i).cwd 1 =
      cwds procs + Pi.single p.cwd 1 := by
  funext ip
  have hc := count_update (fun p : Proc FilePtr => p.cwd = ip) procs i p
  simpa only [Pi.add_apply, Pi.single_apply, cwds, eq_comm (a := ip)] using hc

/-- An image without holes below the sizes of the inodes, right after the boot: no inode is
cached, no file is open, and the processes hold the only references. That the blocks of its files
lie outside the inode area is in the type of the disk. -/
structure Booted (s : Machine χ) : Prop where
  mapped : ∀ i, (s.sys.fs.disk.dinode i).type ≠ 0 → ∀ k < (s.sys.fs.disk.dinode i).size,
    Fs.BlockAt s.sys.fs.disk (s.sys.fs.disk.dinode i) k
  ref : ∀ ip, (s.sys.fs.inodes ip).ref = cwds s.procs ip
  valid : ∀ ip, (s.sys.fs.inodes ip).valid = false
  cwd : ∀ i, (s.procs i).cwd < Param.NINODE ∧ (s.sys.fs.inodes (s.procs i).cwd).dev = ROOTDEV
  unique : ∀ i j, (s.sys.fs.inodes (s.procs i).cwd).inum = (s.sys.fs.inodes (s.procs j).cwd).inum →
    (s.procs i).cwd = (s.procs j).cwd
  files : ∀ f, (s.sys.ftable f).type = .none

theorem Booted.coherent {s : Machine χ} (h : Booted s) :
    Cached (cwds s.procs) s.sys.fs ∧ FilesClosed s.sys := by
  have huse : ∀ ip, 0 < (s.sys.fs.inodes ip).ref → ∃ i, (s.procs i).cwd = ip := by
    intro ip hpos
    by_contra hnone
    push Not at hnone
    rw [h.ref, cwds, count_eq_zero.mpr hnone] at hpos
    exact absurd hpos (by decide)
  refine ⟨⟨fun ip => (h.ref ip).ge, fun ip hip => ?_,
    fun ip hip => ?_, fun ip ip' hip hip' he => ?_,
    fun ip _ hv => ?_, fun i hi k hk => (h.mapped i hi k hk).rootAt⟩, fun f _ => h.files f⟩
  · obtain ⟨i, rfl⟩ := huse ip hip
    exact (h.cwd i).1
  · obtain ⟨i, rfl⟩ := huse ip hip
    exact (h.cwd i).2
  · obtain ⟨i, rfl⟩ := huse ip hip
    obtain ⟨j, rfl⟩ := huse ip' hip'
    exact h.unique i j he
  · rw [h.valid] at hv
    exact absurd hv (by decide)

theorem Coherent.fsCall (h : Coherent H a) (hcwd : 0 < H a.proc.cwd) (hL : OpenLaws L)
    (c : FsCall) : Wp (fun _ => True) (fsCall L c) (fun _ b => ∃ K : ℕ → ℕ, Coherent K b ∧
      K + Pi.single a.proc.cwd 1 = H + Pi.single b.proc.cwd 1) a := by
  have hfs : ∀ {m : FsM ℤ}, Wp (fun _ => True) m (fun _ u => Cached H u) a.sys.fs →
      Wp (fun _ => True) (onFs m) (fun _ b => ∃ K : ℕ → ℕ, Coherent K b ∧
        K + Pi.single a.proc.cwd 1 = H + Pi.single b.proc.cwd 1) a :=
    fun hm => wp_onFs.mpr (hm.mono fun _ u hu => ⟨H, ⟨hu, h.closed⟩, rfl⟩)
  refine wp_bind.mpr (wp_get.mpr ?_)
  cases c with
  | open' path omode =>
    exact (h.sysOpen hcwd hL path _).mono fun _ b hb => ⟨H, hb.1, by rw [hb.2]⟩
  | mkdir path => exact hfs (h.cached.sysMkdir hcwd path)
  | mknod path major minor => exact hfs (h.cached.sysMknod hcwd path _ _)
  | link old new => exact hfs (h.cached.sysLink hcwd old new)
  | unlink path => exact hfs (h.cached.sysUnlink hcwd path)
  | chdir path => exact h.sysChdir hcwd path
  | readi ip ok dst off n => exact hfs (h.cached.readLocked ip ok dst off n)
  | writei ip ok src off n => exact hfs (h.cached.writeLocked ip ok src off n)

theorem fsStep_coherent (hL : OpenLaws L) {s t : Machine χ} {c : Fin Param.NPROC × FsCall} {r : ℤ}
    (hs : Cached (cwds s.procs) s.sys.fs ∧ FilesClosed s.sys) (he : Ends (fsStep L c) s r t) :
    Cached (cwds t.procs) t.sys.fs ∧ FilesClosed t.sys := by
  obtain ⟨b, hb, rfl⟩ := ends_runAs.mp he
  have h : Coherent (cwds s.procs) (⟨s.procs c.1, s.sys⟩ : Task FilePtr (Sys χ)) := ⟨hs.1, hs.2⟩
  obtain ⟨K, hK, hadd⟩ := (h.fsCall (cwds_pos s.procs c.1) hL c.2).1 r b hb
  rw [← cwds_update s.procs c.1 b.proc] at hadd
  obtain rfl := add_right_cancel hadd
  exact ⟨hK.cached, hK.closed⟩

/-- `create` calls `ialloc` in the state `w`, for a name that the directory `dp` has not. -/
def CallsIalloc (cwd : ℕ) (path : Bytes) (s w : FsState) (dp : ℕ) : Prop :=
  ∃ name u v, Ends (nameiparent cwd path) s (some (dp, name)) u ∧ Ends (ilock dp) u () v ∧
    Ends (dirlookup dp name) v none w

theorem CallsIalloc.cached {s w : FsState} {cwd dp : ℕ} {path : Bytes} (h : Cached H s)
    (hcwd : 0 < H cwd) (hw : CallsIalloc cwd path s w dp) :
    Cached (H + Pi.single dp 1) w ∧ (w.inodes dp).dev = ROOTDEV := by
  obtain ⟨name, u, v, hu, hv, hw⟩ := hw
  obtain ⟨hu, -⟩ := (h.namex hcwd).1 _ _ hu
  have hdp : 0 < (H + Pi.single dp 1 : ℕ → ℕ) dp := by simp
  obtain ⟨hv, -, -, hvalid⟩ := (hu.ilock dp).1 _ _ hv
  obtain ⟨hw, -⟩ := (hv.dirlookup hdp hvalid name).1 _ _ hw
  exact ⟨hw, hw.dev dp (hw.ref_pos hdp)⟩

/-- An inode that is cached as valid and not locked is the inode on the disk. An update of one
inode changes no other one's record, and none is allocated that is cached as valid. -/
theorem write_through (hL : OpenLaws L) {s : Machine χ}
    (h : Reached (fsStep L) (fun _ _ => True) Booted s) :
    (∀ ip, let i := s.sys.fs.inodes ip
      0 < i.ref → i.valid = true → i.locked = false →
        i.toDinode = s.sys.fs.disk.dinode i.inum) ∧
    (∀ ip (u t : FsState) j, j ≠ (u.inodes ip).inum →
      (Ends (iupdate ip) u () t ∨ Ends (itrunc ip) u () t ∨ Ends (iput ip) u () t ∨
        ∃ ok src off n r, Ends (onInode ip fun i => Fs.writei i ok src off n) u r t) →
      t.disk.dinode j = u.disk.dinode j) ∧
    (∀ dev type (u t : FsState) r j, Ends (ialloc dev type) u r t →
      (∀ ip, r = some ip → j ≠ (t.inodes ip).inum) → t.disk.dinode j = u.disk.dinode j) ∧
    (∀ i path dp w type ip t,
      CallsIalloc (s.procs i).cwd path { s.sys.fs with ops := s.sys.fs.ops + 1 } w dp →
      Ends (ialloc (w.inodes dp).dev type) w (some ip) t →
      ∀ k, 0 < (w.inodes k).ref → (w.inodes k).valid = true →
        (w.inodes k).inum ≠ (t.inodes ip).inum) := by
  obtain ⟨hcached, -⟩ := h.invariant (I := fun s => Cached (cwds s.procs) s.sys.fs ∧
    FilesClosed s.sys) (fun _ hs => hs.coherent) fun _ _ _ _ hs _ he => fsStep_coherent hL hs he
  refine ⟨fun ip hpos hv _ => (hcached.sync ip hpos hv).1, fun ip u t j hj he => ?_,
    fun dev type u t r j ht hj => ?_, fun i path dp w type ip t hw ht => ?_⟩
  · rcases he with he | he | he | ⟨ok, src, off, n, r, he⟩
    · exact dinode_of_others (leaves_others_iupdate ip _ _ _ he) hj
    · exact dinode_of_others (leaves_others_itrunc ip _ _ _ he) hj
    · exact dinode_of_others (leaves_others_iput ip _ _ _ he) hj
    · exact dinode_of_others (leaves_others_writei ip ok src off n _ _ _ he) hj
  · have hdisk := (wp_ialloc_disk dev type).1 _ _ ht
    cases r with
    | none => rw [hdisk.1]
    | some ip =>
      rw [hdisk, Disk.dinode_setDinode, if_neg (hj ip rfl)]
  · obtain ⟨hw, hdev⟩ := CallsIalloc.cached (hcached.ops _) (cwds_pos s.procs i) hw
    rw [hdev] at ht
    exact ((hw.ialloc type).1 _ _ ht).2.2

end Run

section Small

def rootDisk : Disk where
  block := freshDisk.block
  dinodes b k := if b = 2 ∧ k = 1 then { Dinode.zero with type := 1, nlink := 1 } else .zero

def smallMachine : @Machine Unit smallParam :=
  let _ := smallParam
  { procs := fun _ => ⟨fun _ => none, fun _ => ⟨false, 0, 0, 0, 0, ⟨0, by decide⟩, 0⟩, 0, 0⟩
    sys :=
      { fs :=
          { inodes := fun ip => { Dinode.zero with
              dev := 1, inum := 1, ref := if ip = 0 then 64 else 0,
              valid := false, locked := false }
            disk := rootDisk
            ops := 0 }
        ftable := fun _ => ⟨.none, 0, false, false, 0, 0, 0⟩
        rest := () } }

def pathArg (path : List UInt8) : StrArg where
  mem i := some (path.getD i 0)
  buf _ := 0

theorem booted_smallMachine :
    letI := smallDisk
    letI := smallParam
    Booted smallMachine := by
  let _ := smallDisk
  let _ := smallParam
  have hsize : ∀ i, (smallMachine.sys.fs.disk.dinode i).size = 0 := by
    intro i
    show (if _ then _ else Dinode.zero : Dinode).size = 0
    split <;> rfl
  refine ⟨fun i _ k hk => ?_, fun ip => ?_, fun _ => rfl, fun _ => ⟨Nat.zero_lt_succ 49, rfl⟩,
    fun _ _ _ => rfl, fun _ => rfl⟩
  · rw [hsize] at hk
    exact absurd hk (Nat.not_lt_zero k)
  · by_cases hip : ip = 0
    · subst hip
      decide +kernel
    · have hnone : cwds smallMachine.procs ip = 0 := count_eq_zero.mpr fun _ he => hip he.symm
      rw [hnone]
      exact if_neg hip

/-- A file is made and written while another process makes a directory. -/
theorem write_through_small :
    letI := smallDisk
    letI := smallParam
    ∃ s : Machine Unit, Reached (fsStep fileTable) (fun _ _ => True) Booted s ∧
      (s.sys.fs.inodes 1).toDinode = s.sys.fs.disk.dinode 2 ∧
      (s.sys.fs.disk.dinode 2).size = 10 := by
  let _ := smallDisk
  let _ := smallParam
  let calls : List (Fin Param.NPROC × FsCall) :=
    [(0, .open' (pathArg [47, 97]) 0x202), (1, .mkdir (pathArg [100])),
      (0, .writei 1 (fun _ => true) (fun _ => 7) 0 10)]
  have h : Reached (fsStep fileTable) (fun _ _ => True) Booted
      (afterAll (fsStep fileTable) calls smallMachine) :=
    (Reached.init booted_smallMachine).calls (by decide +kernel)
  have hinum : ((afterAll (fsStep fileTable) calls smallMachine).sys.fs.inodes 1).inum = 2 := by
    decide +kernel
  have hcopy := (write_through fileTable_openLaws h).1 1 (by decide +kernel) (by decide +kernel)
    (by decide +kernel)
  rw [hinum] at hcopy
  refine ⟨_, h, hcopy, ?_⟩
  decide +kernel

end Small

end Xv6Sheet.Kernel
