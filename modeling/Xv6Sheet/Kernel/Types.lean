import Xv6Sheet.Kernel.CacheCalls

/-! # The types of inodes

No program on the inode table but `ialloc` gives an inode a type, and so a walk along a path
meets only inodes of types that were there before.
-/

namespace Xv6Sheet.Kernel

open Exec

variable [sb : Superblock]

def Retypes (s t : FsState) : Prop :=
  ∀ i, (t.disk.dinode i).type ≠ 0 → (t.disk.dinode i).type = (s.disk.dinode i).type

namespace Retypes

variable {s t u : FsState}

theorem refl (s : FsState) : Retypes s s := fun _ _ => rfl

theorem trans (h : Retypes s t) (h' : Retypes t u) : Retypes s u := fun i hi => by
  have he := h' i hi
  rw [he] at hi ⊢
  exact h i hi

theorem of_dinodes (h : t.disk.dinodes = s.disk.dinodes) : Retypes s t := fun i _ => by
  rw [Disk.dinode, Disk.dinode, h]

theorem of_disk (h : t.disk = s.disk) : Retypes s t := .of_dinodes (by rw [h])

end Retypes

variable [pm : Param] {H : ℕ → ℕ} {s t : FsState} {ip dp cwd : ℕ}

omit pm in
theorem wp_ilock_disk (ip : ℕ) : Wp (fun _ => True) (ilock ip) (fun _ t => t.disk = s.disk) s := by
  refine wp_bind.mpr (wp_inode.mpr ?_)
  split
  · exact wp_panicAt.mpr trivial
  split
  · exact wp_throw.mpr trivial
  split
  · exact wp_modifyInode.mpr rfl
  · refine wp_bind.mpr (wp_get.mpr (wp_bind.mpr (wp_modifyInode.mpr ?_)))
    split
    · exact wp_panicAt.mpr trivial
    · exact wp_pure.mpr rfl

omit sb pm in
theorem wp_iunlock_disk (ip : ℕ) :
    Wp (fun _ => True) (iunlock ip) (fun _ t => t.disk = s.disk) s := by
  refine wp_bind.mpr (wp_inode.mpr ?_)
  split
  · exact wp_panicAt.mpr trivial
  · exact wp_modifyInode.mpr rfl

namespace Cached

theorem stored_types (h : Cached H s) (hpos : 0 < (s.inodes ip).ref)
    (hv : (s.inodes ip).valid = true) {x : Dinode}
    (hx : x.type ≠ 0 → x.type = (s.inodes ip).type)
    (hd : t.disk.dinodes = (s.disk.setDinode (s.inodes ip).inum x).dinodes) : Retypes s t := by
  intro j hj
  have hdin : t.disk.dinode j =
      if j = (s.inodes ip).inum then x else s.disk.dinode j := by
    rw [← Disk.dinode_setDinode, Disk.dinode, Disk.dinode, hd]
  rw [hdin] at hj ⊢
  split at hj
  · rename_i hji
    rw [if_pos hji, hji, hx hj, (h.sync ip hpos hv).1]
  · rw [if_neg ‹_›]

theorem readInode_types (h : Cached H s) (hpos : 0 < (s.inodes ip).ref)
    (hv : (s.inodes ip).valid = true) {ok : ℕ → Bool} {dst : Bytes} {off n : ℕ}
    (hoff : off < 2 ^ 32) (hn : n < 2 ^ 32) : Wp (fun _ => True) (onInode ip fun i => do
      let (r, out, i) ← Fs.readi i ok dst off n
      return ((r, out), i)) (fun _ t => Retypes s t) s := by
  refine wp_onInode.mpr (wp_bind.mpr ⟨fun a d he => wp_pure.mpr ?_, fun _ _ => trivial⟩)
  exact .of_dinodes (Fs.readi_same (h.rooted_inode hpos hv) hoff hn he).2

theorem readDirent_types (h : Cached H s) (hdp : 0 < H dp) (hv : (s.inodes dp).valid = true)
    {msg : String} {k : ℕ} (hk : direntSize * k < 2 ^ 32) :
    Wp (fun _ => True) (Kernel.readDirent msg dp (direntSize * k)) (fun _ t => Retypes s t) s := by
  refine wp_bind.mpr ((h.readInode_types (h.ref_pos hdp) hv hk (by decide)).mono fun r t ht => ?_)
  dsimp only
  split
  · exact wp_panicAt.mpr trivial
  · exact wp_pure.mpr ht

theorem writeInode_types (h : Cached H s) (hpos : 0 < (s.inodes ip).ref)
    (hv : (s.inodes ip).valid = true) {ok : ℕ → Bool} {src : Bytes} {off n : ℕ} :
    Wp (fun _ => True) (onInode ip fun i => Fs.writei i ok src off n)
      (fun _ t => Retypes s t) s := by
  refine wp_onInode.mpr ⟨fun a d he => ?_, fun _ _ => trivial⟩
  obtain ⟨-, hd⟩ | ⟨⟨a, k, hi⟩, -, hd⟩ := Fs.writei_record he
  · exact .of_dinodes hd
  · exact h.stored_types hpos hv (fun _ => by rw [hi]) hd

theorem setFields_types (h : Cached H s) (hpos : 0 < (s.inodes ip).ref)
    (hv : (s.inodes ip).valid = true) {g : Inode → Inode}
    (hg : ∃ major minor nlink, g (s.inodes ip) =
      { s.inodes ip with major := major, minor := minor, nlink := nlink }) :
    Wp (fun _ => True) (do
      modifyInode ip g
      iupdate ip) (fun _ t => Retypes s t) s := by
  obtain ⟨major, minor, nlink, hg⟩ := hg
  refine wp_bind.mpr (wp_modifyInode.mpr (wp_onInode.mpr (wp_bind.mpr (wp_modify.mpr
    (wp_pure.mpr ?_)))))
  simp only [Function.update_self, hg]
  exact h.stored_types hpos hv (x := { (s.inodes ip).toDinode with
    major := major, minor := minor, nlink := nlink }) (fun _ => rfl) rfl

theorem ifree_types (h : Cached H s) (hpos : 0 < (s.inodes ip).ref)
    (hv : (s.inodes ip).valid = true) :
    Wp (fun _ => True) (Kernel.ifree ip) (fun _ t => Retypes s t) s := by
  refine wp_bind.mpr (wp_onInode.mpr (wp_bind.mpr ⟨fun i d he => wp_pure.mpr ?_,
    fun _ _ => trivial⟩))
  obtain ⟨⟨a, rfl⟩, hd⟩ := Fs.itrunc_record he
  refine wp_bind.mpr (wp_modifyInode.mpr (wp_bind.mpr (wp_onInode.mpr (wp_bind.mpr
    (wp_modify.mpr (wp_pure.mpr (wp_modifyInode.mpr ?_)))))))
  simp only [Function.update_self]
  refine h.stored_types hpos hv
    (x := { (s.inodes ip).toDinode with addrs := a, size := 0, type := 0 })
    (fun h0 => absurd rfl h0) ?_
  simp only [Disk.setDinode, hd, Function.update_self, Function.update_idem]

theorem iput_types (h : Cached (H + Pi.single ip 1) s) :
    Wp (fun _ => True) (Kernel.iput ip) (fun _ t => Retypes s t) s := by
  have hpos : 0 < (s.inodes ip).ref := h.ref_pos (by simp)
  refine wp_bind.mpr (wp_inode.mpr ?_)
  split
  · rename_i hfree
    split
    · exact wp_throw.mpr trivial
    · exact wp_bind.mpr ((h.ifree_types hpos hfree.2.1).mono fun _ t ht => wp_modifyInode.mpr ht)
  · exact wp_modifyInode.mpr (.refl s)

theorem iunlockput_types (h : Cached (H + Pi.single ip 1) s) :
    Wp (fun _ => True) (Kernel.iunlockput ip) (fun _ t => Retypes s t) s := by
  refine wp_bind.mpr (((h.iunlock ip).and (wp_iunlock_disk ip)).mono fun _ t ht => ?_)
  obtain ⟨⟨ht, -⟩, hd⟩ := ht
  exact ht.iput_types.mono fun _ u hu => (Retypes.of_disk hd).trans hu

theorem dirlookup_types (h : Cached H s) (hdp : 0 < H dp) (hv : (s.inodes dp).valid = true)
    (name : Bytes) :
    Wp (fun _ => True) (Kernel.dirlookup dp name) (fun _ t => Retypes s t) s := by
  refine wp_bind.mpr (wp_inode.mpr ?_)
  split
  · exact wp_panicAt.mpr trivial
  refine Wp.search (I := fun _ t => (Cached H t ∧ t.inodes = s.inodes) ∧ Retypes s t)
    ⟨⟨h, rfl⟩, .refl s⟩ (fun k t _ hk ht => ?_) fun t ht => ht.2
  obtain ⟨⟨ht, hi⟩, hty⟩ := ht
  rw [Nat.zero_add] at hk
  have hlt := h.entry_lt hdp hv hk
  refine wp_bind.mpr (((ht.readDirent hdp (hi ▸ hv) hlt).and
    (ht.readDirent_types hdp (hi ▸ hv) hlt)).mono fun de u hu => ?_)
  obtain ⟨⟨hu, hi'⟩, hty'⟩ := hu
  have hnext := hty.trans hty'
  split
  · exact wp_pure.mpr ⟨⟨hu, hi'.trans hi⟩, hnext⟩
  split
  · exact wp_bind.mpr ((wp_iget_disk _ _).mono
      fun _ v hd => wp_pure.mpr (hnext.trans (.of_disk hd.1)))
  · exact wp_pure.mpr ⟨⟨hu, hi'.trans hi⟩, hnext⟩

theorem dirlink_types (h : Cached H s) (hdp : 0 < H dp) (hv : (s.inodes dp).valid = true)
    (name : Bytes) (inum : ℕ) :
    Wp (fun _ => True) (Kernel.dirlink dp name inum) (fun _ t => Retypes s t) s := by
  refine wp_bind.mpr (((h.dirlookup hdp hv name).and (h.dirlookup_types hdp hv name)).mono
    fun r t ht => ?_)
  obtain ⟨⟨ht, hk⟩, hty⟩ := ht
  rcases r with - | ⟨next, off⟩
  swap
  · exact wp_bind.mpr (ht.iput_types.mono fun _ u hu => wp_pure.mpr (hty.trans hu))
  have hvt := (hk dp hdp).2 hv
  refine wp_bind.mpr (wp_inode.mpr (wp_bind.mpr ?_))
  have hsearch : Wp (fun _ => True) (search (fun k => do
      let de ← Kernel.readDirent "dirlink read" dp (direntSize * k)
      if Dirent.inum de = 0 then return some (direntSize * k)
      else return none) 0 (numEntries (t.inodes dp).size))
      (fun _ u => (Cached H u ∧ u.inodes = t.inodes) ∧ Retypes t u) t := by
    refine Wp.search (I := fun _ u => (Cached H u ∧ u.inodes = t.inodes) ∧ Retypes t u)
      ⟨⟨ht, rfl⟩, .refl t⟩ (fun k u _ hk' hu => ?_) fun u hu => hu
    obtain ⟨⟨hu, hi⟩, hty'⟩ := hu
    rw [Nat.zero_add] at hk'
    have hlt := ht.entry_lt hdp hvt hk'
    refine wp_bind.mpr (((hu.readDirent hdp (hi ▸ hvt) hlt).and
      (hu.readDirent_types hdp (hi ▸ hvt) hlt)).mono fun de v hv' => ?_)
    obtain ⟨⟨hv', hi'⟩, hty''⟩ := hv'
    split
    · exact wp_pure.mpr ⟨⟨hv', hi'.trans hi⟩, hty'.trans hty''⟩
    · exact wp_pure.mpr ⟨⟨hv', hi'.trans hi⟩, hty'.trans hty''⟩
  refine hsearch.mono fun off u hu => ?_
  obtain ⟨⟨hu, hi⟩, hty'⟩ := hu
  refine wp_bind.mpr ((hu.writeInode_types (hu.ref_pos hdp) (hi ▸ hvt)).mono fun r v hv' => ?_)
  have hall := (hty.trans hty').trans hv'
  split
  · exact wp_pure.mpr hall
  · exact wp_pure.mpr hall

theorem namexLoop_types {path name : Bytes} {parent : Bool} (fuel p : ℕ)
    (h : Cached (H + Pi.single ip 1) s) :
    Wp (fun _ => True) (Kernel.namexLoop path parent fuel ip p name)
      (fun _ t => Retypes s t) s := by
  induction fuel generalizing ip p name s with
  | zero => exact wp_throw.mpr trivial
  | succ fuel ih =>
    unfold Kernel.namexLoop
    split
    · exact wp_throw.mpr trivial
    · split
      · exact wp_bind.mpr (h.iput_types.mono fun _ t ht => wp_pure.mpr ht)
      · exact wp_pure.mpr (.refl s)
    rename_i p name _
    have hip : 0 < (H + Pi.single ip 1 : ℕ → ℕ) ip := by simp
    refine wp_bind.mpr (((h.ilock ip).and (wp_ilock_disk ip)).mono fun _ t ht => ?_)
    obtain ⟨⟨ht, hk, -, hv⟩, hd⟩ := ht
    have hty := Retypes.of_disk hd
    refine wp_bind.mpr (wp_inode.mpr ?_)
    split
    · exact wp_bind.mpr (ht.iunlockput_types.mono fun _ u hu => wp_pure.mpr (hty.trans hu))
    split
    · exact wp_bind.mpr ((wp_iunlock_disk ip).mono fun _ u hu =>
        wp_pure.mpr (hty.trans (.of_disk hu)))
    refine wp_bind.mpr (((ht.dirlookup hip hv name).and (ht.dirlookup_types hip hv name)).mono
      fun r u hu => ?_)
    obtain ⟨⟨hu, hk'⟩, hty'⟩ := hu
    have hty := hty.trans hty'
    rcases r with - | ⟨next, off⟩
    · exact wp_bind.mpr (hu.iunlockput_types.mono fun _ v hv' => wp_pure.mpr (hty.trans hv'))
    · rw [Option.map_some, inHand_some, add_right_comm] at hu
      refine wp_bind.mpr ((hu.iunlockput.and hu.iunlockput_types).mono fun _ v hv' => ?_)
      exact (ih p hv'.1.1).mono fun r w hw => (hty.trans hv'.2).trans hw

theorem namex_types (h : Cached H s) (hcwd : 0 < H cwd) {path : Bytes} {parent : Bool} :
    Wp (fun _ => True) (Kernel.namex cwd path parent) (fun _ t => Retypes s t) s := by
  unfold Kernel.namex
  split
  · refine wp_bind.mpr (((h.iget ROOTINO).and (wp_iget_disk _ _)).mono fun ip t ht => ?_)
    exact (ht.1.1.namexLoop_types _ 0).mono fun r u hu => (Retypes.of_disk ht.2.1).trans hu
  · refine wp_bind.mpr (((h.idup (h.ref_pos hcwd)).and (P := fun _ t => _)
      (Q := fun _ t => t.disk = s.disk) ?_).mono fun ip t ht => ?_)
    · exact wp_bind.mpr (wp_modifyInode.mpr (wp_pure.mpr rfl))
    obtain ⟨⟨rfl, ht, -⟩, hd⟩ := ht
    exact (ht.namexLoop_types _ 0).mono fun r u hu => (Retypes.of_disk hd).trans hu

theorem namei_types (h : Cached H s) (hcwd : 0 < H cwd) {path : Bytes} :
    Wp (fun _ => True) (Kernel.namei cwd path) (fun _ t => Retypes s t) s :=
  wp_bind.mpr ((h.namex_types hcwd).mono fun _ _ ht => wp_pure.mpr ht)

theorem createLinks_types (h : Cached H s) (hdp : 0 < H dp) (hv : (s.inodes dp).valid = true)
    {name : Bytes} : Wp (fun _ => True) (Kernel.createLinks ip dp name T_FILE)
      (fun _ t => Retypes s t) s := by
  refine wp_bind.mpr (wp_inode.mpr ?_)
  rw [if_neg (by decide)]
  refine wp_bind.mpr ((h.dirlink_types hdp hv name _).mono fun r t ht => ?_)
  split
  · exact wp_pure.mpr ht
  · exact wp_pure.mpr ht

omit sb in
theorem wp_ialloc_type [Superblock] (dev : ℕ) (type : ℤ) :
    Wp (fun _ => True) (Kernel.ialloc dev type)
    (fun r t => ∀ ip, r = some ip → (t.disk.dinode (t.inodes ip).inum).type = type) s := by
  refine Wp.search (I := fun _ _ => True) trivial
    (fun i t _ _ _ => ?_) fun t _ ip hip => by cases hip
  refine wp_bind.mpr (wp_get.mpr ?_)
  split
  · refine wp_bind.mpr (wp_set.mpr (wp_bind.mpr ((wp_iget_disk dev i).mono
      fun ip u hip => wp_pure.mpr fun k hk => ?_)))
    obtain rfl := Option.some.inj hk
    rw [hip.2, hip.1, Disk.dinode_setDinode, if_pos rfl]
  · exact wp_pure.mpr trivial

theorem create_types (h : Cached H s) (hcwd : 0 < H cwd) {path : Bytes} :
    Wp (fun _ => True) (Kernel.create cwd path T_FILE 0 0) (fun r t => ∀ ip, r = some ip →
      (t.inodes ip).type = T_FILE ∨ (t.inodes ip).type = T_DEVICE) s := by
  have hle : ∀ ip, H ≤ H + Pi.single ip 1 := fun _ _ => Nat.le_add_right _ _
  have hself : ∀ (K : ℕ → ℕ) ip, 0 < (K + Pi.single ip 1 : ℕ → ℕ) ip := by simp
  have hnone : ∀ {t : FsState}, Wp (fun _ => True) (return none : FsM (Option ℕ))
      (fun r t => ∀ ip, r = some ip →
        (t.inodes ip).type = T_FILE ∨ (t.inodes ip).type = T_DEVICE) t :=
    wp_pure.mpr fun _ hip => by cases hip
  refine wp_bind.mpr ((h.namex hcwd).mono fun r t ht => ?_)
  obtain ⟨ht, -⟩ := ht
  rcases r with - | ⟨dp, name⟩
  · exact hnone
  refine wp_bind.mpr ((ht.ilock dp).mono fun _ u hu => ?_)
  obtain ⟨hu, -, -, hv⟩ := hu
  refine wp_bind.mpr ((hu.dirlookup (hself H dp) hv name).mono fun r w hw => ?_)
  obtain ⟨hw, hkw⟩ := hw
  have hvw := (hkw dp (hself H dp)).2 hv
  rcases r with - | ⟨ip, off⟩
  swap
  -- the name is there
  · rw [Option.map_some, inHand_some, Option.map_some, inHand_some, add_right_comm] at hw
    refine wp_bind.mpr (hw.iunlockput.mono fun _ x hx => ?_)
    refine wp_bind.mpr ((hx.1.ilock ip).mono fun _ y hy => wp_bind.mpr (wp_inode.mpr ?_))
    dsimp only
    split
    · rename_i htype
      refine wp_pure.mpr fun k he => ?_
      obtain rfl := Option.some.inj he
      exact htype.2
    · exact wp_bind.mpr (hy.1.iunlockput.mono fun _ z _ => hnone)
  refine wp_bind.mpr (wp_inode.mpr (wp_bind.mpr ?_))
  rw [hw.dev dp (hw.ref_pos (hself H dp))]
  refine ((hw.ialloc T_FILE).and (wp_ialloc_type _ _)).mono fun r x hx => ?_
  obtain ⟨hx, htype⟩ := hx
  rcases r with - | ip
  · exact wp_bind.mpr (hx.1.iunlockput.mono fun _ y _ => hnone)
  -- a new inode, in hand beside its directory
  obtain ⟨hx, hkx, -⟩ := hx
  have htype := htype ip rfl
  have hdp : 0 < (H + Pi.single dp 1 + Pi.single ip 1 : ℕ → ℕ) dp := by
    simp only [Pi.add_apply, Pi.single_eq_same]
    omega
  have hip := hself (H + Pi.single dp 1) ip
  have hvx := (hkx dp (hself H dp)).2 hvw
  refine wp_bind.mpr (((hx.ilock ip).and (wp_ilock_disk ip)).mono fun _ y hy => ?_)
  obtain ⟨⟨hy, hky, hpos, hvy⟩, hdy⟩ := hy
  have hvdp := (hky dp hdp).2 hvx
  have hty := Retypes.of_disk hdy
  have hset : ∃ major minor nlink,
      ({ y.inodes ip with major := 0, minor := 0, nlink := 1 } : Inode) =
      { y.inodes ip with major := major, minor := minor, nlink := nlink } := ⟨0, 0, 1, rfl⟩
  refine .seq ((hy.setFields hpos hvy hset).and (hy.setFields_types hpos hvy hset)) fun _ z hz => ?_
  obtain ⟨⟨hz, hkz⟩, htz⟩ := hz
  have hty := hty.trans htz
  have hvdp := (hkz _ dp hdp).2 hvdp
  have hvip := (hkz _ ip hip).2 hvy
  refine wp_bind.mpr (((hz.createLinks hip hvip hdp hvdp T_FILE).and
    (hz.createLinks_types hdp hvdp)).mono fun r a ha => ?_)
  obtain ⟨⟨ha, hka⟩, hta⟩ := ha
  have hty := hty.trans hta
  cases r with
  | true =>
    simp only [if_true]
    rw [if_neg (by decide)]
    have ha : Cached (H + Pi.single ip 1 + Pi.single dp 1) a := by
      rw [add_right_comm]
      exact ha
    refine wp_bind.mpr ((Wp.and ha.iunlockput ha.iunlockput_types).mono fun _ c hc => ?_)
    obtain ⟨⟨hc, hkc⟩, htc⟩ := hc
    refine wp_pure.mpr fun k he => Or.inl ?_
    obtain rfl := Option.some.inj he
    -- the inode is valid, so that it has the type that `ialloc` stored
    have hvc := (hkc ip (hself H ip)).2 ((hka ip hip).2 hvip)
    obtain ⟨hsync, h0⟩ := hc.sync ip (hc.ref_pos (hself H ip)) hvc
    have hinum : (c.inodes ip).inum = (x.inodes ip).inum :=
      ((hkc ip (hself H ip)).1.trans (hka ip hip).1).trans
        ((hkz _ ip hip).1.trans (hky ip hip).1)
    rw [hsync] at h0 ⊢
    rw [(hty.trans htc) _ h0, hinum]
    exact htype
  | false =>
    refine .seq wp_trivial fun _ b _ => ?_
    exact wp_bind.mpr (wp_trivial.mono fun _ c _ => wp_bind.mpr
      (wp_trivial.mono fun _ e _ => hnone))

end Cached

end Xv6Sheet.Kernel
