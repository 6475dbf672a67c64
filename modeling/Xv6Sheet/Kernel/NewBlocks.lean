import Xv6Sheet.Kernel.Reclaim
import Xv6Sheet.Kernel.Room

/-! # Which inodes gain blocks

A write gives blocks to the inode it is for and to no other one. The operations on a directory give
blocks to the directory, and dropping a reference to none.
-/

namespace Xv6Sheet.Kernel

open Exec

variable [sb : Superblock]

/-- Only the inodes of `S` have blocks on the second disk where they had none on the first. -/
def Gains (S : Set ℕ) (d d' : Disk) : Prop :=
  ∀ x, Fs.shape.Valid x → x.1 ∉ S → ptrAt (live d') d' x ≠ 0 →
    ptrAt (live d') d' x = ptrAt (live d) d x

namespace Gains

variable {S S' : Set ℕ} {d d' d'' : Disk}

theorem refl (S : Set ℕ) (d : Disk) : Gains S d d := fun _ _ _ _ => rfl

theorem of_eq (h : d' = d) : Gains S d d' := h ▸ refl S d

theorem trans (h : Gains S d d') (h' : Gains S d' d'') : Gains S d d'' := fun x hx hS h0 => by
  have he := h' x hx hS h0
  exact he.trans (h x hx hS (he ▸ h0))

theorem mono (h : Gains S d d') (hS : S ⊆ S') : Gains S' d d' := fun x hx hx' =>
  h x hx fun hin => hx' (hS hin)

theorem of_addrs (hb : d'.block = d.block) (ha : ∀ j, (live d' j).addrs = (live d j).addrs) :
    Gains S d d' := fun x _ _ _ => congrFun (Forest.ptrAt_congr ha hb) x

theorem new_block {base : Set ℕ} (h : Gains S d d') (hs : Fs.Sound base (live d) d)
    (hs' : Fs.Sound base (live d') d') {b : ℕ} (hb : b ∈ d'.used) (hnew : b ∉ d.used) :
    ∃ i ∈ S, (d'.dinode i).type ≠ 0 ∧ b ∈ blocksOf d' i := by
  obtain hbase | ⟨⟨i, r, p⟩, hx, rfl, h0⟩ := (hs'.forest.owned.used_iff b).mp hb
  · exact absurd (hs.forest.owned.base_subset hbase) hnew
  have hin : i ∈ S := by
    by_contra hin
    have he : ptrAt (live d') d' (i, r, p) = ptrAt (live d) d (i, r, p) := h _ hx hin h0
    have hold : ptrAt (live d) d (i, r, p) ∈ d.used :=
      hs.forest.mem_used hx fun hz => h0 (he.trans hz)
    rw [← he] at hold
    exact hnew hold
  have htype : (d'.dinode i).type ≠ 0 := fun htype => by
    refine h0 ?_
    show walk d'.entry ((live d' i).addrs r) p = 0
    rw [live, if_pos htype]
    exact walk_zero p
  refine ⟨i, hin, htype, Shape.mem_blocks.mpr ⟨h0, r, p, hx, ?_⟩⟩
  rw [← live_of_type rfl htype]
  rfl

end Gains

variable [pm : Param] {base : Set ℕ} {S : Set ℕ} {T : Tree} {R : ℕ → ℤ} {L : ℕ → Bool} {s : FsState}
  {ip dp i d : ℕ} {n nd : Node} {name : Bytes}

namespace View

theorem writeiGains (h : View base T R L s) (hl : L ip = true) (hn : T (s.inodes ip).inum = some n)
    (src : Bytes) {off cnt : ℕ} (hoff : off ≤ n.data.length) (hcnt : 0 < cnt)
    (hblock : off % BSIZE + cnt ≤ BSIZE) :
    Wp (fun _ => True) (Kernel.writei ip src off cnt)
      (fun _ t => Gains {(s.inodes ip).inum} s.disk t.disk) s := by
  obtain ⟨hr, hv⟩ := h.held ip hl
  obtain ⟨hs, -⟩ := h.inodesWith_sound hr hv
  have hlt : off + cnt < 2 ^ 32 := by
    have hmax := Fs.maxfile_lt
    have hle := h.data_length_le hn
    simp only [BSIZE] at hblock
    omega
  have hothers : Wp (fun _ => True) (Kernel.writei ip src off cnt)
    (fun _ t => ∀ x, Fs.shape.Valid x →
      x.1 ≠ (s.inodes ip).inum → ptrAt (live s.disk) t.disk x = ptrAt
      (live s.disk) s.disk x) s := by
    refine wp_onInode.mpr ⟨fun r d he x hx hi => ?_, fun _ _ => trivial⟩
    rw [← inodesWith_self s ip] at he
    have hptr := Fs.writei_others hs.forest hlt he hx hi
    simp only [ptrAt, Shape.ptr, addrsOf, inodesWith, Function.update_of_ne hi] at hptr ⊢
    exact hptr
  refine ((h.writeiTakes hl hn src hoff hcnt hblock).and hothers).mono fun r t ht x hx hi _ => ?_
  obtain ⟨⟨hdin, -⟩, hptr⟩ := ht
  rw [← hptr x hx hi]
  simp only [ptrAt, Shape.ptr, addrsOf, live, hdin x.1 hi]

theorem setFieldsGains (h : View base T R L s) (hl : L ip = true) (g : Inode → Inode)
    (hg : ∀ x, (g x).inum = x.inum ∧ (g x).type = x.type ∧ (g x).addrs = x.addrs) :
    Wp (fun _ => True) (do
      modifyInode ip g
      iupdate ip) (fun _ t => Gains S s.disk t.disk) s := by
  obtain ⟨hr, hv⟩ := h.held ip hl
  obtain ⟨hcached, h0⟩ := h.cached ip hr hv
  refine wp_bind.mpr (wp_modifyInode.mpr (wp_onInode.mpr (wp_bind.mpr (wp_modify.mpr
    (wp_pure.mpr ?_)))))
  obtain ⟨hi, htype, ha⟩ := hg (s.inodes ip)
  simp only [Function.update_self, hi]
  refine .of_addrs rfl fun j => ?_
  by_cases hj : j = (s.inodes ip).inum
  · subst hj
    rw [live_of_type (by rw [Disk.dinode_setDinode, if_pos rfl]) (htype ▸ h0),
      live_of_type hcached.symm h0, ha]
  · rw [live, live, Disk.dinode_setDinode, if_neg hj]

theorem ifreeGains (h : View base T R L s) (hr : 0 < R ip) (hv : (s.inodes ip).valid = true) :
    Wp (fun _ => True) (Kernel.ifree ip) (fun _ t => Gains S s.disk t.disk) s := by
  obtain ⟨hs, -⟩ := h.inodesWith_sound hr hv
  obtain ⟨x, d₁, he, ht⟩ := Fs.itrunc_ends hs.forest (s.inodes ip).inum
  obtain ⟨a, hx⟩ := ht.inode
  have hdin₁ := ht.dinodes
  rw [inodesWith_self] at he hx
  have hinum : x.inum = (s.inodes ip).inum := by rw [hx]
  refine wp_bind.mpr (wp_onInode.mpr (.of_ends (he.bind (ends_pure.mpr ⟨rfl, rfl⟩)) ?_))
  refine wp_bind.mpr (wp_modifyInode.mpr (wp_bind.mpr (wp_onInode.mpr (wp_bind.mpr
    (wp_modify.mpr (wp_pure.mpr (wp_modifyInode.mpr ?_)))))))
  simp only [Function.update_self]
  rw [hinum]
  intro y hy _ h0
  by_cases hi : y.1 = (s.inodes ip).inum
  · refine absurd ?_ h0
    simp only [ptrAt, Shape.ptr, addrsOf, live, Disk.dinode_setDinode, if_pos hi]
    exact walk_zero _
  · have hptr := ht.ptr_eq hs.forest hy hi
    have hrec : d₁.dinode y.1 = s.disk.dinode y.1 := by
      have he₁ : d₁.dinode y.1 = (s.disk.setDinode x.inum x.toDinode).dinode y.1 := by
        simp only [Disk.dinode, hdin₁]
      rw [he₁, Disk.dinode_setDinode, hinum, if_neg hi]
    simp only [ptrAt, Shape.ptr, addrsOf, inodesWith, Function.update_of_ne hi] at hptr
    simp only [ptrAt, Shape.ptr, addrsOf, live, Disk.dinode_setDinode, if_neg hi, hrec] at hptr ⊢
    exact hptr

theorem iputGains (h : View base T R L s) (hr : 0 < R ip) :
    Wp (fun _ => True) (Kernel.iput ip) (fun _ t => Gains S s.disk t.disk) s := by
  refine wp_bind.mpr (wp_inode.mpr ?_)
  split
  · rename_i hfree
    split
    · exact wp_throw.mpr trivial
    exact wp_bind.mpr ((h.ifreeGains hr hfree.2.1).mono fun _ t ht => wp_modifyInode.mpr ht)
  · exact wp_modifyInode.mpr (.refl S s.disk)

theorem iunlockputGains (h : View base T R L s) (hl : L ip = true) :
    Wp (fun _ => True) (Kernel.iunlockput ip) (fun _ t => Gains S s.disk t.disk) s := by
  have hr := (h.held ip hl).1
  refine wp_bind.mpr (((h.iunlock hl).leaves (f := fun s => s.disk) (Leaves.iunlock ip)).mono
    fun _ t ht => ?_)
  obtain ⟨⟨ht, -⟩, hdisk⟩ := ht
  rw [← hdisk]
  exact ht.iputGains hr

theorem dirlinkGains (h : View base T R L s) (hl : L ip = true) (hn : T (s.inodes ip).inum = some n)
    (name : Bytes) (inum : ℕ) :
    Wp (fun _ => True) (Kernel.dirlink ip name inum)
      (fun _ t => Gains {(s.inodes ip).inum} s.disk t.disk) s := by
  refine wp_bind.mpr (((h.dirlookup hl hn name).and (h.dirlookupStill hl hn name)).mono
    fun r t hr => ?_)
  obtain ⟨⟨-, ht⟩, hdisk⟩ := hr
  rcases r with - | ⟨next, off⟩
  · obtain ⟨rfl, -, hmod⟩ := ht
    refine wp_bind.mpr (wp_inode.mpr (wp_bind.mpr ?_))
    rw [(h.size_eq hl hn).2.1]
    refine (h.findSlot hl hn hmod).mono fun r u hu => ?_
    obtain ⟨rfl, hoff⟩ := hu
    rw [hoff, wp_bind]
    have hle : direntSize * n.slot ≤ n.data.length := by
      have hslot := n.slot_le
      rw [Node.length_entries] at hslot
      simp only [direntSize] at *
      omega
    have hblock : direntSize * n.slot % BSIZE + direntSize ≤ BSIZE := by
      simp only [direntSize, BSIZE]
      omega
    refine (h.writeiGains hl hn _ hle (by decide) hblock).mono fun r v hv => ?_
    split <;> exact wp_pure.mpr hv
  · obtain ⟨k, j, -, -, ht, -⟩ := ht
    rw [← hdisk]
    exact wp_bind.mpr ((ht.iputGains (h.single_pos next)).mono fun _ u hu => wp_pure.mpr hu)

theorem createLinksGains (h : View base T R L s) (hip : L ip = true) (hdp : L dp = true)
    (hi : (s.inodes ip).inum = i) (hd : (s.inodes dp).inum = d) (hn : T i = some n)
    (hnd : T d = some nd) (hne : i ≠ d) (name : Bytes) (type : ℤ) :
    Wp (fun _ => True) (Kernel.createLinks ip dp name type)
      (fun _ t => Gains {d, i} s.disk t.disk) s := by
  have hrip := (h.held ip hip).1
  have hrdp := (h.held dp hdp).1
  -- an entry in the parent, after entries in the new inode
  have hname : ∀ {T' : Tree} {t : FsState} (k : ℕ), View base T' R L t → Pins R s t →
    T' d = some nd →
      Gains {d, i} s.disk t.disk → Wp (fun _ => True) (do
        if (← Kernel.dirlink dp name k) < 0 then return false else return true)
        (fun _ t => Gains {d, i} s.disk t.disk) t := by
    intro T' t k ht hpin hnd' hgains
    have hdt := (hpin dp hrdp).1.trans hd
    rw [← hdt] at hnd'
    refine wp_bind.mpr ((ht.dirlinkGains hdp hnd' name k).mono fun r u hu => ?_)
    rw [hdt] at hu
    have hall := hgains.trans (hu.mono (by simp : ({d} : Set ℕ) ⊆ {d, i}))
    split <;> exact wp_pure.mpr hall
  -- an entry in the new inode
  have hown : ∀ {T' : Tree} {t : FsState} {m : Node} (name : Bytes) (k : ℕ), View base T' R L t →
      Pins R s t → T' i = some m → T' d = some nd → Gains {d, i} s.disk t.disk →
      Wp (fun _ => True) (Kernel.dirlink ip name k)
      (fun _ u => Gains {d, i} s.disk u.disk ∧ Pins R s u ∧
        ∃ T'', View base T'' R L u ∧ T'' d = some nd ∧ ∃ m, T'' i = some m) t := by
    intro T' t m name k ht hpin hm hnd' hgains
    have hit := (hpin ip hrip).1.trans hi
    have hm' : T' (t.inodes ip).inum = some m := by rw [hit, hm]
    refine ((ht.dirlink hip hm' name k).and (ht.dirlinkGains hip hm' name k)).mono fun r u hr => ?_
    obtain ⟨⟨-, hk, hu⟩, hgains'⟩ := hr
    rw [hit] at hgains' hu
    have hall := hgains.trans (hgains'.mono (by simp : ({i} : Set ℕ) ⊆ {d, i}))
    obtain ⟨-, hu⟩ | ⟨-, -, m', -, hu⟩ := hu
    · exact ⟨hall, hpin.trans (ht.pins hu hk le_rfl le_rfl), T', hu, hnd', m, hm⟩
    · refine ⟨hall, hpin.trans (ht.pins hu hk le_rfl le_rfl), _, hu, ?_, m',
        Function.update_self ..⟩
      rw [Function.update_of_ne (Ne.symm hne), hnd']
  refine wp_bind.mpr (wp_inode.mpr ?_)
  split
  swap
  · exact hname _ h (.refl R s) hnd (.refl _ _)
  refine wp_bind.mpr ((hown dot _ h (.refl R s) hn hnd (.refl _ _)).mono fun r t ht => ?_)
  obtain ⟨hgains, hpin, T₁, ht, hnd₁, m₁, hm₁⟩ := ht
  split
  · exact wp_pure.mpr hgains
  refine wp_bind.mpr (wp_inode.mpr (wp_bind.mpr ?_))
  refine (hown dotdot _ ht hpin hm₁ hnd₁ hgains).mono fun r u hu => ?_
  obtain ⟨hgains', hpin', T₂, hu, hnd₂, -⟩ := hu
  split
  · exact wp_pure.mpr hgains'
  · exact hname _ hu hpin' hnd₂ hgains'

end View

end Xv6Sheet.Kernel
