import Mathlib.Algebra.BigOperators.Pi
import Mathlib.Tactic.Abel
import Xv6Sheet.Kernel.NamespaceOpen
import Xv6Sheet.Kernel.OpenSpec

/-! # A process on a proper tree

Each inode of the table has one reference for each process whose directory it is and one for each
open file on it. A call of a process leaves a proper tree, and of the references that it takes only
those of its directory and of an open file.
-/

namespace Xv6Sheet.Kernel

open Exec

variable {χ : Type} [pm : Param]

def File.hold (x : File) : ℕ → ℤ :=
  if x.type = .inode ∨ x.type = .device then Pi.single x.ip 1 else 0

def fileHolds (ftable : FilePtr → File) : ℕ → ℤ := ∑ f, (ftable f).hold

def filesOn (ftable : FilePtr → File) (ip : ℕ) : ℕ :=
  count (fun x : File => (x.type = .inode ∨ x.type = .device) ∧ x.ip = ip) ftable

theorem fileHolds_apply (ftable : FilePtr → File) (ip : ℕ) :
    fileHolds ftable ip = filesOn ftable ip := by
  rw [fileHolds, Finset.sum_apply, filesOn, count_eq_sum, Nat.cast_sum]
  refine Finset.sum_congr rfl fun f _ => ?_
  unfold File.hold
  by_cases htype : (ftable f).type = .inode ∨ (ftable f).type = .device
  · simp [htype, Pi.single_apply, eq_comm (a := ip)]
  · simp [htype]

theorem fileHolds_update (ftable : FilePtr → File) (f : FilePtr) (x : File) :
    fileHolds (Function.update ftable f x) + (ftable f).hold = fileHolds ftable + x.hold :=
  sum_update File.hold ftable f x

omit pm in
theorem File.hold_none {x : File} (h : x.type = .none) : x.hold = 0 := by
  unfold hold
  rw [if_neg (by simp [h])]

theorem fileHolds_ref (ftable : FilePtr → File) (f : FilePtr) (r : ℤ) :
    fileHolds (Function.update ftable f { ftable f with ref := r }) = fileHolds ftable :=
  add_right_cancel (fileHolds_update ftable f { ftable f with ref := r })

theorem fileHolds_closed (ftable : FilePtr → File) (f : FilePtr) :
    fileHolds ftable - (ftable f).hold =
      fileHolds (Function.update ftable f { ftable f with ref := 0, type := .none }) := by
  have h := fileHolds_update ftable f { ftable f with ref := 0, type := .none }
  rw [File.hold_none (x := { ftable f with ref := 0, type := .none }) rfl, add_zero] at h
  exact sub_eq_of_eq_add h.symm

theorem fileHolds_nonneg (ftable : FilePtr → File) (ip : ℕ) : 0 ≤ fileHolds ftable ip := by
  rw [fileHolds_apply]
  omega

theorem fileHolds_pos {ftable : FilePtr → File} {f : FilePtr}
    (h : (ftable f).type = .inode ∨ (ftable f).type = .device) :
    0 < fileHolds ftable (ftable f).ip := by
  have hpos : 0 < filesOn ftable (ftable f).ip := count_pos (i := f) ⟨h, rfl⟩
  rw [fileHolds_apply]
  omega

variable [sb : Superblock] {base : Set ℕ} {T T' : Tree} {H : ℕ → ℤ} {L : FileLayer χ}
  {a b : Task FilePtr (Sys χ)}  {ip : ℕ} {omode : ℤ} {E : Fault → Prop} [hE : Permits E]

/-- A process over a proper tree, where `H` are the references of the processes to their
directories. -/
structure Tended (base : Set ℕ) (T : Tree) (H : ℕ → ℤ) (a : Task FilePtr (Sys χ)) : Prop where
  orderly : Orderly base T (H + fileHolds a.sys.ftable) a.sys.fs
  closed : FilesClosed a.sys

def Stays (base : Set ℕ) (H : ℕ → ℤ) (cwd : ℕ) (P : ℤ → Tree → Prop) (r : ℤ)
    (b : Task FilePtr (Sys χ)) :
    Prop :=
  b.proc.cwd = cwd ∧ ∃ T, P r T ∧ Tended base T H b

omit sb hE in
theorem cwd_pos (hcwd : 0 < H a.proc.cwd) : 0 < (H + fileHolds a.sys.ftable) a.proc.cwd :=
  Int.add_pos_of_pos_of_nonneg hcwd (fileHolds_nonneg ..)

variable {P : ℤ → Tree → Prop}

omit hE in
theorem stays_fail (hclosed : FilesClosed a.sys) (hP : P (-1) T) {u : FsState}
    (hu : Orderly base T (H + fileHolds a.sys.ftable) u) :
    Wp E (do
      onFs endOp
      return (-1 : ℤ)) (Stays base H a.proc.cwd P)
      (⟨a.proc, { a.sys with fs := u }⟩ : Task FilePtr (Sys χ)) :=
  wp_bind.mpr (wp_onFs.mpr (wp_modify.mpr (wp_pure.mpr ⟨rfl, T, hP, hu.ops _, hclosed⟩)))

omit hE in
theorem OnHand.giveUp (h : OnHand base T (H + fileHolds a.sys.ftable) ip a.sys.fs)
    (hclosed : FilesClosed a.sys) (hP : P (-1) T) :
    Wp E (giveUp ip) (Stays base H a.proc.cwd P) a :=
  wp_bind.mpr (wp_onFs.mpr (h.giveBack.mono fun _ _ hu => stays_fail hclosed hP hu))

/-- What `sys_open` does to the tree with the inode that it found. -/
def Tree.Emptied (T : Tree) (omode r : ℤ) (T' : Tree) : Prop :=
  T' = T ∨ r ≠ -1 ∧ hasFlag omode O_TRUNC = true ∧ ∃ i n, T i = some n ∧ n.type = T_FILE ∧
    T' = Function.update T i (some { n with data := [] })

omit hE in
theorem OnHand.openInode (hL : TableLaws L)
    (h : OnHand base T (H + fileHolds a.sys.ftable) ip a.sys.fs)
    (hclosed : FilesClosed a.sys) :
    Wp E (openInode L ip omode) (Stays base H a.proc.cwd (T.Emptied omode)) a := by
  refine wp_openInode hL.toOpenLaws (fun e he => absurd he (openFile_returns hL hclosed))
    (fun b hb _ => ?_) fun f k c _ hc => ?_
  · rw [← hb.fs hclosed, ← hb.ftable hclosed] at h
    rw [← hb.proc]
    exact h.giveUp (hb.closed hclosed) (.inl rfl)
  have hholds : fileHolds c.sys.ftable = fileHolds a.sys.ftable + Pi.single ip 1 := by
    have hadd := fileHolds_update a.sys.ftable f
      ((a.sys.ftable f).onInode ip (a.sys.fs.inodes ip) omode)
    have hnew : File.hold ((a.sys.ftable f).onInode ip (a.sys.fs.inodes ip) omode) =
      Pi.single ip 1 := by
      unfold File.hold File.onInode
      dsimp only
      split <;> simp
    rwa [File.hold_none (hclosed f hc.ref), add_zero, hnew, ← hc.ftable] at hadd
  have hclosed' : FilesClosed c.sys :=
    hclosed.setFile hc.ftable fun href => absurd href (by simp [File.onInode])
  have hk : (k : ℤ) ≠ -1 := by omega
  have htrunc : Wp E (if hasFlag omode O_TRUNC ∧ (a.sys.fs.inodes ip).type = T_FILE then
    onFs (Kernel.itrunc ip)
      else return ()) (fun _ b => b.proc = c.proc ∧ b.sys.ftable = c.sys.ftable ∧
        ∃ T', T.Emptied omode k T' ∧ OnHand base T' (H + fileHolds a.sys.ftable) ip
        b.sys.fs) c := by
    rw [← hc.fs] at h ⊢
    split
    · rename_i htr
      refine wp_onFs.mpr ((OnHand.itrunc h htr.2).mono fun _ u hu => ⟨rfl, rfl, ?_⟩)
      obtain ⟨i, n, T', hn, hfile, hT', hu⟩ := hu
      exact ⟨T', .inr ⟨hk, htr.1, i, n, hn, hfile, hT'⟩, hu⟩
    · exact wp_pure.mpr ⟨rfl, rfl, T, .inl rfl, h⟩
  refine wp_bind.mpr (htrunc.mono fun _ b hb => ?_)
  obtain ⟨hproc, hft, T', hemptied, hb⟩ := hb
  refine wp_bind.mpr (wp_onFs.mpr (hb.keep.mono fun _ u hu => ?_))
  refine wp_bind.mpr (wp_onFs.mpr (wp_modify.mpr (wp_pure.mpr ⟨?_, T', hemptied, ?_, ?_⟩)))
  · show b.proc.cwd = a.proc.cwd
    rw [hproc, hc.proc]
    rfl
  · rw [add_assoc, ← hholds, ← hft] at hu
    exact hu.ops _
  · intro g hg
    have hg : (b.sys.ftable g).ref = 0 := hg
    show (b.sys.ftable g).type = .none
    rw [hft] at hg ⊢
    exact hclosed' g hg

/-- What `sys_open` does to the tree in the directory `c`, by its answer. -/
def Tree.Opened (T : Tree) (c : ℕ) (path : StrArg) (omode r : ℤ) (T' : Tree) : Prop :=
  r = -1 ∧ T' = T ∨ ∃ p T₁, argstr path Param.MAXPATH = some p ∧ T.Found c p omode T₁ ∧
    T₁.Emptied omode r T'

/-- What `sys_symlink` does to the tree: it makes the link, and when it succeeds the link holds the
target. -/
def Tree.Symlinked (T : Tree) (c : ℕ) (target path : StrArg) (r : ℤ) (T' : Tree) : Prop :=
  r = -1 ∧ T' = T ∨ (r = 0 ∨ r = -1) ∧ ∃ q p i n T₁ data, argstr target Param.MAXPATH = some q ∧
    argstr path Param.MAXPATH = some p ∧ T.Creates c p T_SYMLINK i n T₁ ∧
    T' = Function.update T₁ i (some { n with data := data }) ∧
    (r = 0 → data = Bytes.str q Param.MAXPATH)

omit hE in
theorem OnHand.opened {c : ℕ} {p : Bytes} {path : StrArg} {T₀ : Tree}
    (hL : TableLaws L) (h : OnHand base T (H + fileHolds a.sys.ftable) ip a.sys.fs)
    (hclosed : FilesClosed a.sys) (hp : argstr path Param.MAXPATH = some p)
    (hfound : T₀.Found c p omode T) :
    Wp E (Kernel.openInode L ip omode) (Stays base H a.proc.cwd (T₀.Opened c path omode)) a :=
  (OnHand.openInode hL h hclosed).mono fun _ _ ⟨hcwd, T', hempty, hb⟩ =>
    ⟨hcwd, T', .inr ⟨p, T, hp, hfound, hempty⟩, hb⟩

namespace Tended

variable (h : Tended base T H a) (hcwd : 0 < H a.proc.cwd)

include h

theorem stays {r : ℤ} (hP : P r T) : Stays base H a.proc.cwd P r a := ⟨rfl, T, hP, h⟩

omit hE in
theorem onFs {m : FsM ℤ} (hm : Wp E m (fun r t => ∃ T', P r T' ∧
    Orderly base T' (H + fileHolds a.sys.ftable) t) a.sys.fs) :
    Wp E (onFs m) (Stays base H a.proc.cwd P) a :=
  wp_onFs.mpr (hm.mono fun _ _ hu => ⟨rfl, hu.imp fun _ hu => ⟨hu.1, hu.2, h.closed⟩⟩)

theorem fileclose (hL : CloseLaws L) (hH : ∀ k, 0 ≤ H k) (f : FilePtr) :
    Wp E (onSys (L.fileclose f)) (fun _ b => Stays base H a.proc.cwd (fun _ => T.Released) 0 b)
    a := by
  have hrelease : Wp E (a.sys.ftable f).release (fun _ u => ∃ T', T.Released T' ∧
      Orderly base T' (H + fileHolds a.sys.ftable - (a.sys.ftable f).hold) u) a.sys.fs := by
    unfold File.release File.hold
    by_cases htype : (a.sys.ftable f).type = .inode ∨ (a.sys.ftable f).type = .device
    · rw [if_pos htype, if_pos htype]
      have hpos : 0 < (H + fileHolds a.sys.ftable) (a.sys.ftable f).ip :=
        Int.add_pos_of_nonneg_of_pos (hH _) (fileHolds_pos htype)
      refine wp_bind.mpr (wp_modify.mpr (wp_bind.mpr ?_))
      refine ((h.orderly.ops (a.sys.fs.ops + 1)).iput _ hpos).mono fun _ u hu => ?_
      exact wp_modify.mpr (hu.imp fun _ hu => ⟨hu.1, hu.2.ops _⟩)
    · rw [if_neg htype, if_neg htype, sub_zero]
      exact wp_pure.mpr ⟨T, .inl rfl, h.orderly⟩
  refine wp_onSys.mpr ⟨fun _ t ht => ?_, fun e he => ?_⟩
  · rcases hL.fileclose_ends ht with ⟨hmore, hfs, hft⟩ | ⟨-, hfs, hft⟩
    · refine ⟨rfl, T, .inl rfl, ?_, h.closed.setFile hft fun h0 => ?_⟩
      · dsimp only
        rw [hft, fileHolds_ref, hfs]
        exact h.orderly
      · dsimp only at h0
        omega
    · obtain ⟨T', hreleased, hu⟩ := hrelease.1 _ _ hfs
      refine ⟨rfl, T', hreleased, ?_, h.closed.setFile hft fun _ => rfl⟩
      dsimp only
      rwa [hft, ← fileHolds_closed, ← add_sub_assoc]
  · rcases hL.fileclose_faults he with rfl | ⟨-, he⟩
    · exact permits_panic (by decide)
    · exact hrelease.2 e he

theorem sysClose (hL : CloseLaws L) (hH : ∀ k, 0 ≤ H k) (fd : ℤ) :
    Wp E (sysClose L fd) (Stays base H a.proc.cwd fun _ => T.Released) a := by
  refine wp_bind.mpr (wp_get.mpr ?_)
  split
  · exact wp_pure.mpr (h.stays (.inl rfl))
  rename_i k f _
  refine wp_bind.mpr (wp_modifyProc.mpr (wp_bind.mpr ?_))
  have hb : Tended base T H (⟨a.proc.setFile k none, a.sys⟩ : Task FilePtr (Sys χ)) :=
    ⟨h.orderly, h.closed⟩
  exact (hb.fileclose hL hH f).mono fun _ b hb => wp_pure.mpr hb

theorem sysDup (hL : CloseLaws L) (fd : ℤ) :
    Wp E (sysDup L fd) (Stays base H a.proc.cwd fun _ T' => T' = T) a := by
  refine wp_bind.mpr (wp_get.mpr ?_)
  split
  · exact wp_pure.mpr (h.stays rfl)
  rename_i k f _
  refine wp_bind.mpr (wp_fdalloc.mono fun r b hb => ?_)
  obtain ⟨-, hb⟩ := hb
  rcases r with - | k'
  · exact wp_pure.mpr (hb ▸ h.stays rfl)
  obtain ⟨-, rfl⟩ := hb
  refine wp_bind.mpr (wp_onSys.mpr ⟨fun _ t ht => wp_pure.mpr ?_, fun e he => ?_⟩)
  · obtain ⟨hpos, hfs, hft⟩ := hL.filedup_ends ht
    have hpos : 1 ≤ (a.sys.ftable f).ref := hpos
    refine ⟨rfl, T, rfl, ?_, h.closed.setFile hft fun h0 => ?_⟩
    · dsimp only
      rw [hft, fileHolds_ref, hfs]
      exact h.orderly
    · dsimp only at h0
      omega
  · obtain rfl := hL.filedup_faults he
    exact permits_panic (by decide)

include hcwd

theorem sysReadlink (path : StrArg) (ubuf : Bytes) (bufsize : Int32) :
    Wp E (sysReadlink a.proc.cwd path ubuf bufsize)
      (fun _ t => Orderly base T (H + fileHolds a.sys.ftable) t) a.sys.fs := by
  have hpos := cwd_pos (a := a) hcwd
  unfold Kernel.sysReadlink
  split
  · exact wp_pure.mpr h.orderly
  refine wp_bind.mpr (wp_modify.mpr ?_)
  have hbegun := h.orderly.ops (a.sys.fs.ops + 1)
  refine wp_bind.mpr ((hbegun.namei hpos).mono fun r u hu => ?_)
  rcases r with - | ip
  · exact wp_bind.mpr (wp_modify.mpr (wp_pure.mpr (hu.ops _)))
  refine wp_bind.mpr ((hbegun.locked hu.1 hu.2.1 hu.2.2).mono fun _ v hv => ?_)
  have hback : ∀ x : ℤ × Bytes, Wp E (do
      iunlockput ip
      endOp
      return x) (fun _ t => Orderly base T (H + fileHolds a.sys.ftable) t) v := fun x =>
    wp_bind.mpr (hv.giveBack.mono fun _ w hw => wp_bind.mpr
      (wp_modify.mpr (wp_pure.mpr (hw.ops _))))
  refine wp_bind.mpr (wp_inode.mpr ?_)
  split
  · exact hback _
  obtain ⟨n, hn, -⟩ := hv.node
  have hsize : bufsize.toUInt32.toNat < 2 ^ 32 := UInt32.toNat_lt _
  refine wp_bind.mpr ((hv.view.readi (Function.update_self ..) hn ubuf (by decide) hsize).mono
    fun r w hw => ?_)
  obtain ⟨rfl, -⟩ := hw
  exact hback _

theorem sysOpen (hL : TableLaws L) (hN : sb.ninodes ≤ 2 ^ 16) (hroom : T.Roomy) (path : StrArg)
    (omode : ℤ) :
    Wp E (sysOpen L path omode)
      (Stays base H a.proc.cwd (T.Opened (a.sys.fs.inodes a.proc.cwd).inum path omode)) a := by
  have hpos := cwd_pos (a := a) hcwd
  refine wp_bind.mpr (wp_get.mpr ?_)
  dsimp only
  split
  · exact wp_pure.mpr (h.stays (.inl ⟨rfl, rfl⟩))
  rename_i p hp
  refine wp_bind.mpr (wp_onFs.mpr (wp_modify.mpr ?_))
  have hbegun := h.orderly.ops (a.sys.fs.ops + 1)
  split
  · rename_i hcreate
    refine wp_bind.mpr (wp_onFs.mpr ((hbegun.created hpos hN hroom p (by decide) 0 0).mono
      fun r u hu => ?_))
    rcases r with - | ip
    · exact stays_fail h.closed (.inl ⟨rfl, rfl⟩) hu
    · obtain ⟨T', hu, hkind⟩ := hu
      exact OnHand.opened hL (a := ⟨a.proc, { a.sys with fs := u }⟩) hu h.closed hp
        (hkind.imp And.right fun hnew => ⟨hcreate, _, hnew⟩)
  · refine wp_bind.mpr (wp_onFs.mpr ((hbegun.namei hpos).mono fun r u hu => ?_))
    rcases r with - | ip
    · exact stays_fail h.closed (.inl ⟨rfl, rfl⟩) hu
    refine wp_bind.mpr (wp_onFs.mpr ((hbegun.locked hu.1 hu.2.1 hu.2.2).mono fun _ v hv => ?_))
    refine wp_bind.mpr (wp_onFs.mpr (wp_inode.mpr ?_))
    split
    · exact OnHand.giveUp (a := ⟨a.proc, { a.sys with fs := v }⟩) hv h.closed (.inl ⟨rfl, rfl⟩)
    · exact OnHand.opened hL (a := ⟨a.proc, { a.sys with fs := v }⟩) hv h.closed hp (.inl rfl)

theorem openFollowing (hL : TableLaws L) (hN : sb.ninodes ≤ 2 ^ 16) (hmax : Param.MAXPATH ≤ BSIZE)
    (hroom : T.Roomy)
    (refused : Inode → ℕ → Bool) (path : StrArg) (omode : ℤ) :
    Wp E (openFollowing L followLinks refused path omode)
      (Stays base H a.proc.cwd (T.Opened (a.sys.fs.inodes a.proc.cwd).inum path omode)) a := by
  have hpos := cwd_pos (a := a) hcwd
  refine wp_bind.mpr (wp_get.mpr ?_)
  dsimp only
  split
  · exact wp_pure.mpr (h.stays (.inl ⟨rfl, rfl⟩))
  rename_i p hp
  refine wp_bind.mpr (wp_onFs.mpr (wp_modify.mpr ?_))
  have hbegun := h.orderly.ops (a.sys.fs.ops + 1)
  refine wp_bind.mpr (wp_onFs.mpr ((hbegun.openPath hpos hN hroom p omode).mono fun r u hu => ?_))
  rcases r with - | ip
  · exact stays_fail h.closed (.inl ⟨rfl, rfl⟩) hu
  obtain ⟨T', hfound, hu⟩ := hu
  have hleft : T.Opened (a.sys.fs.inodes a.proc.cwd).inum path omode (-1) T' :=
    .inr ⟨p, T', hp, hfound, .inl rfl⟩
  refine wp_bind.mpr (wp_onFs.mpr ((hu.followLinks hpos hmax).mono fun r v hv => ?_))
  rcases r with - | ⟨ip, m⟩
  · exact stays_fail h.closed hleft hv
  refine wp_bind.mpr (wp_onFs.mpr (wp_inode.mpr ?_))
  split
  · exact OnHand.giveUp (a := ⟨a.proc, { a.sys with fs := v }⟩) hv h.closed hleft
  split
  · exact OnHand.giveUp (a := ⟨a.proc, { a.sys with fs := v }⟩) hv h.closed hleft
  · exact OnHand.opened hL (a := ⟨a.proc, { a.sys with fs := v }⟩) hv h.closed hp hfound

theorem sysSymlink (hN : sb.ninodes ≤ 2 ^ 16) (hmax : Param.MAXPATH ≤ BSIZE) (hroom : T.Roomy)
    (target path : StrArg) : Wp E (sysSymlink a.proc.cwd target path)
      (fun r t => ∃ T', T.Symlinked (a.sys.fs.inodes a.proc.cwd).inum target path r T' ∧
        Orderly base T' (H + fileHolds a.sys.ftable) t) a.sys.fs := by
  have hpos := cwd_pos (a := a) hcwd
  unfold Kernel.sysSymlink
  split
  swap
  · exact wp_pure.mpr ⟨T, .inl ⟨rfl, rfl⟩, h.orderly⟩
  rename_i q p hq hp
  refine wp_bind.mpr (wp_modify.mpr ?_)
  have hbegun := h.orderly.ops (a.sys.fs.ops + 1)
  refine wp_bind.mpr ((hbegun.created hpos hN hroom p (by decide) 0 0).mono fun r u hu => ?_)
  rcases r with - | ip
  · exact wp_bind.mpr (wp_modify.mpr (wp_pure.mpr ⟨T, .inl ⟨rfl, rfl⟩, hu.ops _⟩))
  obtain ⟨T₁, hu, ⟨hfile, -⟩ | ⟨n, hnew⟩⟩ := hu
  · exact absurd hfile (by decide)
  obtain ⟨d, name, nd, nd', hw, hmade, htype⟩ := id hnew
  have hdir : n.type ≠ T_DIR := by
    rw [htype]
    decide
  have hnil : n.data = [] := by
    have hdata := hmade.data
    rwa [if_neg hdir] at hdata
  have hlen : (Bytes.str q Param.MAXPATH).length < 2 ^ 31 := by
    have hle := Bytes.str_length_le q Param.MAXPATH
    simp only [BSIZE] at hmax
    omega
  refine wp_bind.mpr ((hu.writei hmade.self hdir hnil q hlen).mono fun r v hv => ?_)
  obtain ⟨data, hdata, hv⟩ := hv
  have hback : ∀ x : ℤ, x = 0 ∨ x = -1 → (x = 0 → data = Bytes.str q Param.MAXPATH) → Wp E (do
      iunlockput ip
      endOp
      return x) (fun r t => ∃ T', T.Symlinked (a.sys.fs.inodes a.proc.cwd).inum target path r T' ∧
        Orderly base T' (H + fileHolds a.sys.ftable) t) v := fun x hx hd =>
    wp_bind.mpr (hv.giveBack.mono fun _ w hw => wp_bind.mpr (wp_modify.mpr (wp_pure.mpr ⟨_,
      .inr ⟨hx, q, p, _, n, T₁, data, hq, hp, hnew, rfl, hd⟩, hw.ops _⟩)))
  split
  · exact hback (-1) (.inr rfl) (by simp)
  · rename_i hwhole
    refine hback 0 (.inl rfl) fun _ => ?_
    rw [hdata (not_not.mp hwhole), Bytes.toList_str]

/-- The reference to the old directory is dropped for the one to the new directory. -/
theorem sysChdir (path : StrArg) : Wp E (sysChdir path)
    (fun _ b => ∃ T' K, T.Released T' ∧ Tended base T' K b ∧
    K + Pi.single a.proc.cwd 1 = H + Pi.single b.proc.cwd 1) a := by
  have hpos := cwd_pos (a := a) hcwd
  refine wp_bind.mpr (wp_get.mpr (wp_bind.mpr (wp_onFs.mpr (wp_modify.mpr ?_))))
  have hstay : ∀ (r : ℤ) (b : Task FilePtr (Sys χ)),
    Stays base H a.proc.cwd (fun _ => T.Released) r b →
      ∃ T' K, T.Released T' ∧ Tended base T' K b ∧
        K + Pi.single a.proc.cwd 1 = H + Pi.single b.proc.cwd 1 := by
    rintro r b ⟨hc, T', hreleased, hb⟩
    exact ⟨T', H, hreleased, hb, by rw [hc]⟩
  have hbegun := h.orderly.ops (a.sys.fs.ops + 1)
  split
  · exact (stays_fail h.closed (.inl rfl) hbegun).mono hstay
  refine wp_bind.mpr (wp_onFs.mpr ((hbegun.namei hpos).mono fun r u hu => ?_))
  rcases r with - | ip
  · exact (stays_fail h.closed (.inl rfl) hu).mono hstay
  refine wp_bind.mpr (wp_onFs.mpr ((hbegun.locked hu.1 hu.2.1 hu.2.2).mono fun _ v hv => ?_))
  refine wp_bind.mpr (wp_onFs.mpr (wp_inode.mpr ?_))
  split
  · exact (OnHand.giveUp (a := ⟨a.proc, { a.sys with fs := v }⟩) hv h.closed (.inl rfl)).mono hstay
  refine wp_bind.mpr (wp_onFs.mpr (hv.keep.mono fun _ w hw => ?_))
  have hpos' := lt_of_lt_of_le hpos (le_add_single _ ip a.proc.cwd)
  refine wp_bind.mpr (wp_onFs.mpr ((hw.iput _ hpos').mono fun _ x hx => ?_))
  obtain ⟨T', hreleased, hx⟩ := hx
  refine wp_bind.mpr (wp_onFs.mpr (wp_modify.mpr
    (wp_bind.mpr (wp_modifyProc.mpr (wp_pure.mpr ?_)))))
  refine ⟨T', H + Pi.single ip 1 - Pi.single a.proc.cwd 1, hreleased, ⟨?_, h.closed⟩,
    sub_add_cancel ..⟩
  refine Eq.mp (congrArg (fun R => Orderly base T' R _) ?_) (hx.ops _)
  abel

end Tended

end Xv6Sheet.Kernel
