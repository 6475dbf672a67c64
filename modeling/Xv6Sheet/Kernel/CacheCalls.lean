import Xv6Sheet.Kernel.Cache
import Xv6Sheet.Kernel.Sysfile

/-! # The calls keep the cache

The programs on directories and paths and the calls made of them keep the cache of inodes, and
the inodes that are in hand stay valid.
-/

namespace Xv6Sheet.Kernel

open Exec

def inHand : Option ℕ → ℕ → ℕ
  | none => 0
  | some ip => Pi.single ip 1

@[simp] theorem inHand_none : inHand none = 0 := rfl

@[simp] theorem inHand_some (ip : ℕ) : inHand (some ip) = Pi.single ip 1 := rfl

variable [sb : Superblock]

/-- A complete `readi`: the inode is locked around it, and `ok` tells whether the copies to the
user succeed. -/
def readLocked (ip : ℕ) (ok : ℕ → Bool) (dst : Bytes) (off n : ℕ) : FsM ℤ := do
  ilock ip
  let (r, _) ← onInode ip fun i => do
    let (r, out, i) ← Fs.readi i ok dst off n
    return ((r, out), i)
  iunlock ip
  return r

/-- A complete `writei`. -/
def writeLocked (ip : ℕ) (ok : ℕ → Bool) (src : Bytes) (off n : ℕ) : FsM ℤ := do
  beginOp
  ilock ip
  let r ← onInode ip fun i => Fs.writei i ok src off n
  iunlock ip
  endOp
  return r

variable [pm : Param] {H : ℕ → ℕ} {s t : FsState} {ip dp cwd : ℕ}

namespace Cached

section Directory

variable {msg : String} {name : Bytes} {k : ℕ}

theorem entry_lt (h : Cached H s) (hdp : 0 < H dp) (hv : (s.inodes dp).valid = true)
    (hk : k < numEntries (s.inodes dp).size) : direntSize * k < 2 ^ 32 := by
  have hroot := h.rooted_inode (h.ref_pos hdp) hv
  have hmax := Fs.maxfile_lt
  have hlast : (s.inodes dp).size ≤ Fs.MAXFILE * BSIZE := by
    by_contra hlt
    have hdiv := (hroot (Fs.MAXFILE * BSIZE) (by omega)).1
    rw [Nat.mul_div_cancel _ (by decide)] at hdiv
    omega
  simp only [numEntries, direntSize] at *
  omega

theorem readDirent (h : Cached H s) (hdp : 0 < H dp) (hv : (s.inodes dp).valid = true)
    (hk : direntSize * k < 2 ^ 32) :
    Wp (fun _ => True) (readDirent msg dp (direntSize * k))
      (fun _ t => Cached H t ∧ t.inodes = s.inodes) s := by
  refine wp_bind.mpr ((h.readInode (h.ref_pos hdp) hv hk (by decide)).mono fun r t ht => ?_)
  dsimp only
  split
  · exact wp_panicAt.mpr trivial
  · exact wp_pure.mpr ht

theorem dirlookup (h : Cached H s) (hdp : 0 < H dp) (hv : (s.inodes dp).valid = true)
    (name : Bytes) : Wp (fun _ => True) (dirlookup dp name)
      (fun r t => Cached (H + inHand (r.map Prod.fst)) t ∧ Holds H s t) s := by
  refine wp_bind.mpr (wp_inode.mpr ?_)
  split
  · exact wp_panicAt.mpr trivial
  rw [h.dev dp (h.ref_pos hdp)]
  refine Wp.search (I := fun _ t => Cached H t ∧ t.inodes = s.inodes) ⟨h, rfl⟩
    (fun k t _ hk ht => ?_) fun t ht => ?_
  · obtain ⟨ht, hi⟩ := ht
    rw [Nat.zero_add] at hk
    refine wp_bind.mpr ((ht.readDirent hdp (hi ▸ hv) (h.entry_lt hdp hv hk)).mono
      fun de u hu => ?_)
    obtain ⟨hu, hi'⟩ := hu
    rw [hi] at hi'
    split
    · exact wp_pure.mpr ⟨hu, hi'⟩
    split
    · refine wp_bind.mpr ((hu.iget _).mono fun next v hv' => wp_pure.mpr ⟨hv'.1, fun k hk => ?_⟩)
      rw [← hi']
      exact hv'.2.1 k hk
    · exact wp_pure.mpr ⟨hu, hi'⟩
  · refine ⟨ht.1, fun k _ => ?_⟩
    rw [ht.2]
    exact ⟨rfl, id⟩

theorem dirlink (h : Cached H s) (hdp : 0 < H dp) (hv : (s.inodes dp).valid = true)
    (name : Bytes) (inum : ℕ) : Wp (fun _ => True) (dirlink dp name inum)
      (fun _ t => Cached H t ∧ Holds H s t) s := by
  refine wp_bind.mpr ((h.dirlookup hdp hv name).mono fun r t ht => ?_)
  obtain ⟨ht, hk⟩ := ht
  rcases r with - | ⟨next, off⟩
  · have hvt := (hk dp hdp).2 hv
    refine wp_bind.mpr (wp_inode.mpr (wp_bind.mpr ?_))
    have hsearch : Wp (fun _ => True) (search (fun k => do
        let de ← Kernel.readDirent "dirlink read" dp (direntSize * k)
        if Dirent.inum de = 0 then return some (direntSize * k)
        else return none) 0 (numEntries (t.inodes dp).size))
        (fun _ u => Cached H u ∧ u.inodes = t.inodes) t := by
      refine Wp.search (I := fun _ u => Cached H u ∧ u.inodes = t.inodes) ⟨ht, rfl⟩
        (fun k u _ hk' hu => ?_) fun u hu => hu
      obtain ⟨hu, hi⟩ := hu
      rw [Nat.zero_add] at hk'
      refine wp_bind.mpr ((hu.readDirent hdp (hi ▸ hvt) (ht.entry_lt hdp hvt hk')).mono
        fun de v hv' => ?_)
      rw [hi] at hv'
      split
      · exact wp_pure.mpr hv'
      · exact wp_pure.mpr hv'
    refine hsearch.mono fun off u hu => ?_
    obtain ⟨hu, hi⟩ := hu
    refine wp_bind.mpr ((hu.writeInode (hu.ref_pos hdp) (hi ▸ hvt)).mono fun r v hv' => ?_)
    have hall : Cached H v ∧ Holds H s v := ⟨hv'.1, hk.trans (by
      rw [Holds, ← hi]
      exact hv'.2 H)⟩
    split
    · exact wp_pure.mpr hall
    · exact wp_pure.mpr hall
  · exact wp_bind.mpr (ht.iput.mono fun _ u hu => wp_pure.mpr ⟨hu.1, hk.trans hu.2⟩)

theorem isdirempty (h : Cached H s) (hdp : 0 < H dp) (hv : (s.inodes dp).valid = true) :
    Wp (fun _ => True) (isdirempty dp) (fun _ t => Cached H t ∧ t.inodes = s.inodes) s := by
  refine wp_bind.mpr (wp_inode.mpr (wp_bind.mpr ?_))
  refine Wp.search (I := fun _ t => Cached H t ∧ t.inodes = s.inodes) ⟨h, rfl⟩
    (fun k t _ hk ht => ?_) fun t ht => wp_pure.mpr ht
  obtain ⟨ht, hi⟩ := ht
  refine wp_bind.mpr ((ht.readDirent hdp (hi ▸ hv) (h.entry_lt hdp hv (by omega))).mono
    fun de u hu => ?_)
  rw [hi] at hu
  split
  · exact wp_pure.mpr (wp_pure.mpr hu)
  · exact wp_pure.mpr hu

end Directory

section Path

variable {path name : Bytes} {parent : Bool}

theorem namexLoop (fuel p : ℕ) (h : Cached (H + Pi.single ip 1) s) :
    Wp (fun _ => True) (namexLoop path parent fuel ip p name)
      (fun r t => Cached (H + inHand (r.map Prod.fst)) t ∧ Holds H s t) s := by
  induction fuel generalizing ip p name s with
  | zero => exact wp_throw.mpr trivial
  | succ fuel ih =>
    unfold Kernel.namexLoop
    split
    · exact wp_throw.mpr trivial
    · split
      · exact wp_bind.mpr (h.iput.mono fun _ t ht => wp_pure.mpr ht)
      · exact wp_pure.mpr ⟨h, .refl H s⟩
    rename_i p name _
    have hip : ∀ {K : ℕ → ℕ}, 0 < (K + Pi.single ip 1 : ℕ → ℕ) ip := by simp
    have hle : H ≤ H + Pi.single ip 1 := fun _ => Nat.le_add_right _ _
    refine wp_bind.mpr ((h.ilock ip).mono fun _ t ht => ?_)
    obtain ⟨ht, hk, -, hv⟩ := ht
    have hk := hk.mono hle
    refine wp_bind.mpr (wp_inode.mpr ?_)
    split
    · exact wp_bind.mpr (ht.iunlockput.mono fun _ u hu => wp_pure.mpr ⟨hu.1, hk.trans hu.2⟩)
    split
    · exact wp_bind.mpr ((ht.iunlock ip).mono fun _ u hu =>
        wp_pure.mpr ⟨hu.1, hk.trans (hu.2.mono hle)⟩)
    refine wp_bind.mpr ((ht.dirlookup hip hv name).mono fun r u hu => ?_)
    obtain ⟨hu, hk'⟩ := hu
    have hk' := hk.trans (hk'.mono hle)
    rcases r with - | ⟨next, off⟩
    · exact wp_bind.mpr (hu.iunlockput.mono fun _ v hv' => wp_pure.mpr ⟨hv'.1, hk'.trans hv'.2⟩)
    · rw [Option.map_some, inHand_some, add_right_comm] at hu
      refine wp_bind.mpr (hu.iunlockput.mono fun _ v hv' => ?_)
      obtain ⟨hv', hk''⟩ := hv'
      refine (ih p hv').mono fun r w hw => ⟨hw.1, ?_⟩
      exact (hk'.trans (hk''.mono fun _ => Nat.le_add_right _ _)).trans hw.2

theorem namex (h : Cached H s) (hcwd : 0 < H cwd) : Wp (fun _ => True) (namex cwd path parent)
    (fun r t => Cached (H + inHand (r.map Prod.fst)) t ∧ Holds H s t) s := by
  unfold Kernel.namex
  split
  · refine wp_bind.mpr ((h.iget ROOTINO).mono fun ip t ht => ?_)
    exact (ht.1.namexLoop _ 0).mono fun r u hu => ⟨hu.1, ht.2.1.trans hu.2⟩
  · refine wp_bind.mpr ((h.idup (h.ref_pos hcwd)).mono fun ip t ht => ?_)
    obtain ⟨rfl, ht, hk⟩ := ht
    exact (ht.namexLoop _ 0).mono fun r u hu => ⟨hu.1, (hk H).trans hu.2⟩

theorem namei (h : Cached H s) (hcwd : 0 < H cwd) : Wp (fun _ => True) (namei cwd path)
    (fun r t => Cached (H + inHand r) t ∧ Holds H s t) s :=
  wp_bind.mpr ((h.namex hcwd).mono fun _ _ ht => wp_pure.mpr ht)

theorem createLinks (h : Cached H s) (hip : 0 < H ip) (hv : (s.inodes ip).valid = true)
    (hdp : 0 < H dp) (hv' : (s.inodes dp).valid = true) (type : ℤ) :
    Wp (fun _ => True) (createLinks ip dp name type)
      (fun _ t => Cached H t ∧ Holds H s t) s := by
  have hname : ∀ {t : FsState} {inum : ℕ}, Cached H t → Holds H s t → Wp (fun _ => True)
      (do if (← Kernel.dirlink dp name inum) < 0 then return false else return true)
      (fun _ u => Cached H u ∧ Holds H s u) t := by
    intro t inum ht hk
    refine wp_bind.mpr ((ht.dirlink hdp ((hk dp hdp).2 hv') name inum).mono fun r u hu => ?_)
    split
    · exact wp_pure.mpr ⟨hu.1, hk.trans hu.2⟩
    · exact wp_pure.mpr ⟨hu.1, hk.trans hu.2⟩
  refine wp_bind.mpr (wp_inode.mpr ?_)
  split
  swap
  · exact hname h (.refl H s)
  refine wp_bind.mpr ((h.dirlink hip hv dot _).mono fun r t ht => ?_)
  split
  · exact wp_pure.mpr ht
  obtain ⟨ht, hk⟩ := ht
  refine wp_bind.mpr (wp_inode.mpr (wp_bind.mpr ?_))
  refine (ht.dirlink hip ((hk ip hip).2 hv) dotdot _).mono fun r u hu => ?_
  have hk' := hk.trans hu.2
  split
  · exact wp_pure.mpr ⟨hu.1, hk'⟩
  · exact hname hu.1 hk'

theorem create (h : Cached H s) (hcwd : 0 < H cwd) (type major minor : ℤ) :
    Wp (fun _ => True) (create cwd path type major minor) (fun r t => Cached (H + inHand r) t ∧
      Holds H s t ∧ ∀ ip, r = some ip → (t.inodes ip).valid = true) s := by
  have hle : ∀ ip, H ≤ H + Pi.single ip 1 := fun _ _ => Nat.le_add_right _ _
  have hself : ∀ (K : ℕ → ℕ) ip, 0 < (K + Pi.single ip 1 : ℕ → ℕ) ip := by simp
  have hnone : ∀ {t : FsState}, Cached H t → Holds H s t → Wp (fun _ => True)
      (return none : FsM (Option ℕ)) (fun r t => Cached (H + inHand r) t ∧ Holds H s t ∧
        ∀ ip, r = some ip → (t.inodes ip).valid = true) t :=
    fun ht hk => wp_pure.mpr ⟨ht, hk, by simp⟩
  refine wp_bind.mpr ((h.namex hcwd).mono fun r t ht => ?_)
  obtain ⟨ht, hk⟩ := ht
  rcases r with - | ⟨dp, name⟩
  · exact hnone ht hk
  refine wp_bind.mpr ((ht.ilock dp).mono fun _ u hu => ?_)
  obtain ⟨hu, hku, -, hv⟩ := hu
  have hk := hk.trans (hku.mono (hle dp))
  refine wp_bind.mpr ((hu.dirlookup (hself H dp) hv name).mono fun r w hw => ?_)
  obtain ⟨hw, hkw⟩ := hw
  have hvw := (hkw dp (hself H dp)).2 hv
  have hk := hk.trans (hkw.mono (hle dp))
  rcases r with - | ⟨ip, off⟩
  swap
  -- the name is there
  · rw [Option.map_some, inHand_some, Option.map_some, inHand_some, add_right_comm] at hw
    refine wp_bind.mpr (hw.iunlockput.mono fun _ x hx => ?_)
    have hk := hk.trans (hx.2.mono (hle ip))
    refine wp_bind.mpr ((hx.1.ilock ip).mono fun _ y hy => ?_)
    obtain ⟨hy, hky, -, hvy⟩ := hy
    have hk := hk.trans (hky.mono (hle ip))
    refine wp_bind.mpr (wp_inode.mpr ?_)
    dsimp only
    split
    · refine wp_pure.mpr ⟨hy, hk, fun k he => ?_⟩
      obtain rfl := Option.some.inj he
      exact hvy
    · exact wp_bind.mpr (hy.iunlockput.mono fun _ z hz => hnone hz.1 (hk.trans hz.2))
  refine wp_bind.mpr (wp_inode.mpr (wp_bind.mpr ?_))
  rw [hw.dev dp (hw.ref_pos (hself H dp))]
  refine (hw.ialloc type).mono fun r x hx => ?_
  rcases r with - | ip
  · obtain ⟨hx, hkx⟩ := hx
    have hk := hk.trans (hkx.mono (hle dp))
    exact wp_bind.mpr (hx.iunlockput.mono fun _ y hy => hnone hy.1 (hk.trans hy.2))
  -- a new inode, in hand beside its directory
  obtain ⟨hx, hkx, -⟩ := hx
  have hle' : H ≤ H + Pi.single dp 1 + Pi.single ip 1 :=
    le_trans (hle dp) fun _ => Nat.le_add_right _ _
  have hdp : 0 < (H + Pi.single dp 1 + Pi.single ip 1 : ℕ → ℕ) dp := by
    simp only [Pi.add_apply, Pi.single_eq_same]
    omega
  have hip := hself (H + Pi.single dp 1) ip
  have hk := hk.trans (hkx.mono (hle dp))
  have hvx := (hkx dp (hself H dp)).2 hvw
  refine wp_bind.mpr ((hx.ilock ip).mono fun _ y hy => ?_)
  obtain ⟨hy, hky, hpos, hvy⟩ := hy
  have hk := hk.trans (hky.mono hle')
  have hvdp := (hky dp hdp).2 hvx
  refine .seq (hy.setFields hpos hvy ⟨major, minor, 1, rfl⟩) fun _ z hz => ?_
  obtain ⟨hz, hkz⟩ := hz
  have hk := hk.trans (hkz H)
  have hvdp := (hkz _ dp hdp).2 hvdp
  have hvip := (hkz _ ip hip).2 hvy
  refine wp_bind.mpr ((hz.createLinks hip hvip hdp hvdp type).mono fun r a ha => ?_)
  obtain ⟨ha, hka⟩ := ha
  have hk := hk.trans (hka.mono hle')
  have hvdp := (hka dp hdp).2 hvdp
  have hvip := (hka ip hip).2 hvip
  -- the directory is given back and the inode answered
  have hdone : ∀ {b : FsState}, Cached (H + Pi.single dp 1 + Pi.single ip 1) b →
      (∀ K, Holds K a b) → Wp (fun _ => True) (do
        Kernel.iunlockput dp
        return some ip) (fun r t => Cached (H + inHand r) t ∧ Holds H s t ∧
          ∀ ip, r = some ip → (t.inodes ip).valid = true) b := by
    intro b hb hkb
    rw [add_right_comm] at hb
    refine wp_bind.mpr (hb.iunlockput.mono fun _ c hc => wp_pure.mpr ⟨hc.1, ?_, fun k he => ?_⟩)
    · exact (hk.trans (hkb H)).trans (hc.2.mono (hle ip))
    · obtain rfl := Option.some.inj he
      exact (hc.2 ip (hself H ip)).2 ((hkb _ ip hip).2 hvip)
  cases r with
  | true =>
    simp only [if_true]
    split
    · exact .seq (ha.setFields (ha.ref_pos hdp) hvdp ⟨_, _, _, rfl⟩) fun _ b hb => hdone hb.1 hb.2
    · exact hdone ha fun K => .refl K a
  | false =>
    refine .seq (ha.setFields (ha.ref_pos hip) hvip ⟨_, _, 0, rfl⟩) fun _ b hb => ?_
    refine wp_bind.mpr (hb.1.iunlockput.mono fun _ c hc => ?_)
    refine wp_bind.mpr (hc.1.iunlockput.mono fun _ e he => hnone he.1 ?_)
    exact ((hk.trans (hb.2 H)).trans (hc.2.mono (hle dp))).trans he.2

end Path

section Calls

theorem made (h : Cached H s) (hcwd : 0 < H cwd) {path : Bytes} {type major minor : ℤ} :
    Wp (fun _ => True) (do
      match ← Kernel.create cwd path type major minor with
      | none => do
        endOp
        return -1
      | some ip => do
        Kernel.iunlockput ip
        endOp
        return (0 : ℤ)) (fun _ t => Cached H t) s := by
  refine wp_bind.mpr ((h.create hcwd type major minor).mono fun r t ht => ?_)
  rcases r with - | ip
  · exact wp_bind.mpr (wp_modify.mpr (wp_pure.mpr (ht.1.ops _)))
  · refine wp_bind.mpr (ht.1.iunlockput.mono fun _ u hu => ?_)
    exact wp_bind.mpr (wp_modify.mpr (wp_pure.mpr (hu.1.ops _)))

theorem sysMkdir (h : Cached H s) (hcwd : 0 < H cwd) (path : StrArg) :
    Wp (fun _ => True) (sysMkdir cwd path) (fun _ t => Cached H t) s := by
  refine wp_bind.mpr (wp_modify.mpr ?_)
  split
  · exact wp_bind.mpr (wp_modify.mpr (wp_pure.mpr ((h.ops _).ops _)))
  · exact (h.ops _).made hcwd

theorem sysMknod (h : Cached H s) (hcwd : 0 < H cwd) (path : StrArg) (major minor : ℤ) :
    Wp (fun _ => True) (sysMknod cwd path major minor) (fun _ t => Cached H t) s := by
  refine wp_bind.mpr (wp_modify.mpr ?_)
  split
  · exact wp_bind.mpr (wp_modify.mpr (wp_pure.mpr ((h.ops _).ops _)))
  · exact (h.ops _).made hcwd

theorem linkBad (h : Cached (H + Pi.single ip 1) s) :
    Wp (fun _ => True) (linkBad ip) (fun _ t => Cached H t) s := by
  refine wp_bind.mpr ((h.ilock ip).mono fun _ t ht => ?_)
  obtain ⟨ht, -, hpos, hv⟩ := ht
  refine .seq (ht.setFields hpos hv ⟨_, _, _, rfl⟩) fun _ u hu => ?_
  refine wp_bind.mpr (hu.1.iunlockput.mono fun _ v hv => ?_)
  exact wp_bind.mpr (wp_modify.mpr (wp_pure.mpr (hv.1.ops _)))

theorem sysLink (h : Cached H s) (hcwd : 0 < H cwd) (old new : StrArg) :
    Wp (fun _ => True) (sysLink cwd old new) (fun _ t => Cached H t) s := by
  unfold Kernel.sysLink
  split
  swap
  · exact wp_pure.mpr h
  refine wp_bind.mpr (wp_modify.mpr ?_)
  refine wp_bind.mpr (((h.ops _).namei hcwd).mono fun r t ht => ?_)
  obtain ⟨ht, -⟩ := ht
  rcases r with - | ip
  · exact wp_bind.mpr (wp_modify.mpr (wp_pure.mpr (ht.ops _)))
  refine wp_bind.mpr ((ht.ilock ip).mono fun _ u hu => ?_)
  obtain ⟨hu, -, hpos, hv⟩ := hu
  refine wp_bind.mpr (wp_inode.mpr ?_)
  split
  · refine wp_bind.mpr (hu.iunlockput.mono fun _ v hv => ?_)
    exact wp_bind.mpr (wp_modify.mpr (wp_pure.mpr (hv.1.ops _)))
  refine .seq (hu.setFields hpos hv ⟨_, _, _, rfl⟩) fun _ v hv => ?_
  refine wp_bind.mpr ((hv.1.iunlock ip).mono fun _ w hw => ?_)
  have hcwd' : 0 < (H + inHand (some ip) : ℕ → ℕ) cwd := Nat.add_pos_left hcwd _
  refine wp_bind.mpr ((hw.1.namex hcwd').mono fun r x hx => ?_)
  obtain ⟨hx, -⟩ := hx
  rcases r with - | ⟨dp, name⟩
  · exact hx.linkBad
  refine wp_bind.mpr ((hx.ilock dp).mono fun _ y hy => ?_)
  obtain ⟨hy, -, -, hv⟩ := hy
  have hdp : 0 < (H + inHand (some ip) + inHand (some dp) : ℕ → ℕ) dp := by simp
  refine wp_bind.mpr (wp_inode.mpr (wp_bind.mpr (wp_inode.mpr ?_)))
  split
  · exact wp_bind.mpr (hy.iunlockput.mono fun _ z hz => hz.1.linkBad)
  refine wp_bind.mpr ((hy.dirlink hdp hv name _).mono fun r z hz => ?_)
  split
  · exact wp_bind.mpr (hz.1.iunlockput.mono fun _ a ha => ha.1.linkBad)
  refine wp_bind.mpr (hz.1.iunlockput.mono fun _ a ha => ?_)
  refine wp_bind.mpr (ha.1.iput.mono fun _ b hb => ?_)
  exact wp_bind.mpr (wp_modify.mpr (wp_pure.mpr (hb.1.ops _)))

theorem unlinkBad (h : Cached (H + Pi.single dp 1) s) :
    Wp (fun _ => True) (unlinkBad dp) (fun _ t => Cached H t) s := by
  refine wp_bind.mpr (h.iunlockput.mono fun _ t ht => ?_)
  exact wp_bind.mpr (wp_modify.mpr (wp_pure.mpr (ht.1.ops _)))

theorem sysUnlink (h : Cached H s) (hcwd : 0 < H cwd) (path : StrArg) :
    Wp (fun _ => True) (sysUnlink cwd path) (fun _ t => Cached H t) s := by
  unfold Kernel.sysUnlink
  split
  · exact wp_pure.mpr h
  refine wp_bind.mpr (wp_modify.mpr ?_)
  refine wp_bind.mpr (((h.ops _).namex hcwd).mono fun r t ht => ?_)
  obtain ⟨ht, -⟩ := ht
  rcases r with - | ⟨dp, name⟩
  · exact wp_bind.mpr (wp_modify.mpr (wp_pure.mpr (ht.ops _)))
  refine wp_bind.mpr ((ht.ilock dp).mono fun _ u hu => ?_)
  obtain ⟨hu, -, -, hv⟩ := hu
  split
  · exact hu.unlinkBad
  have hdp : 0 < (H + Pi.single dp 1 : ℕ → ℕ) dp := by simp
  refine wp_bind.mpr ((hu.dirlookup hdp hv name).mono fun r w hw => ?_)
  obtain ⟨hw, hk⟩ := hw
  have hv := (hk dp hdp).2 hv
  rcases r with - | ⟨ip, off⟩
  · exact hw.unlinkBad
  refine wp_bind.mpr ((hw.ilock ip).mono fun _ x hx => ?_)
  obtain ⟨hx, hk, -, hvip⟩ := hx
  have hdp : 0 < (H + Pi.single dp 1 + Pi.single ip 1 : ℕ → ℕ) dp := by
    simp only [Pi.add_apply, Pi.single_eq_same]
    omega
  have hip : 0 < (H + Pi.single dp 1 + Pi.single ip 1 : ℕ → ℕ) ip := by simp
  have hv := (hk dp hdp).2 hv
  refine wp_bind.mpr (wp_inode.mpr ?_)
  split
  · exact wp_panicAt.mpr trivial
  have hempty : Wp (fun _ => True)
      (if (x.inodes ip).type = T_DIR then Kernel.isdirempty ip else return true)
      (fun _ y => Cached (H + Pi.single dp 1 + Pi.single ip 1) y ∧ y.inodes = x.inodes) x := by
    split
    · exact hx.isdirempty hip hvip
    · exact wp_pure.mpr ⟨hx, rfl⟩
  refine wp_bind.mpr (hempty.mono fun b y hy => ?_)
  obtain ⟨hy, hi⟩ := hy
  rw [← hi] at hv hvip
  split
  swap
  · exact wp_bind.mpr (hy.iunlockput.mono fun _ z hz => hz.1.unlinkBad)
  refine wp_bind.mpr ((hy.writeInode (hy.ref_pos hdp) hv).mono fun r z hz => ?_)
  obtain ⟨hz, hk⟩ := hz
  split
  · exact wp_panicAt.mpr trivial
  have hparent : Wp (fun _ => True) (if (x.inodes ip).type = T_DIR then do
        modifyInode dp fun d => { d with nlink := toShort (d.nlink - 1) }
        iupdate dp
      else return ()) (fun _ a => Cached (H + Pi.single dp 1 + Pi.single ip 1) a ∧
        ∀ K, Holds K z a) z := by
    split
    · exact hz.setFields (hz.ref_pos hdp) ((hk _ dp hdp).2 hv) ⟨_, _, _, rfl⟩
    · exact wp_pure.mpr ⟨hz, fun K => .refl K z⟩
  refine wp_bind.mpr (hparent.mono fun _ a ha => ?_)
  obtain ⟨ha, hka⟩ := ha
  rw [add_right_comm] at ha hip
  refine wp_bind.mpr (ha.iunlockput.mono fun _ b hb => ?_)
  obtain ⟨hb, hkb⟩ := hb
  have hip : 0 < (H + Pi.single ip 1 : ℕ → ℕ) ip := by simp
  have hvip := (hkb ip hip).2 ((hka _ ip hip).2 ((hk _ ip hip).2 hvip))
  refine .seq (hb.setFields (hb.ref_pos hip) hvip ⟨_, _, _, rfl⟩) fun _ c hc => ?_
  refine wp_bind.mpr (hc.1.iunlockput.mono fun _ e he => ?_)
  exact wp_bind.mpr (wp_modify.mpr (wp_pure.mpr (he.1.ops _)))

theorem readLocked (h : Cached H s) (ip : ℕ) (ok : ℕ → Bool) (dst : Bytes) (off n : UInt32) :
    Wp (fun _ => True) (readLocked ip ok dst off.toNat n.toNat) (fun _ t => Cached H t) s := by
  refine wp_bind.mpr ((h.ilock ip).mono fun _ t ht => ?_)
  obtain ⟨ht, -, hpos, hv⟩ := ht
  refine wp_bind.mpr ((ht.readInode hpos hv off.toNat_lt n.toNat_lt).mono fun r u hu => ?_)
  exact wp_bind.mpr ((hu.1.iunlock ip).mono fun _ v hv => wp_pure.mpr hv.1)

theorem writeLocked (h : Cached H s) (ip : ℕ) (ok : ℕ → Bool) (src : Bytes) (off n : UInt32) :
    Wp (fun _ => True) (writeLocked ip ok src off.toNat n.toNat) (fun _ t => Cached H t) s := by
  refine wp_bind.mpr (wp_modify.mpr (wp_bind.mpr (((h.ops _).ilock ip).mono fun _ t ht => ?_)))
  obtain ⟨ht, -, hpos, hv⟩ := ht
  refine wp_bind.mpr ((ht.writeInode hpos hv).mono fun r u hu => ?_)
  refine wp_bind.mpr ((hu.1.iunlock ip).mono fun _ v hv => ?_)
  exact wp_bind.mpr (wp_modify.mpr (wp_pure.mpr (hv.1.ops _)))

end Calls

end Cached

end Xv6Sheet.Kernel
