import Xv6Sheet.Kernel.Itable

/-! # Inodes that a crash left behind

An inode in use without links has lost its last name and was not freed before the machine stopped.
When the system starts, `ireclaim` takes and drops a reference to each of them, and the drop frees
it.
-/

namespace Xv6Sheet.Kernel

open Exec

variable [sb : Superblock]

def ireclaim [Param] (dev : ℕ) : FsM Unit :=
  each (fun inum => do
    let dip := (← get).disk.dinode inum
    if dip.type ≠ 0 ∧ dip.nlink = 0 then do
      let ip ← iget dev inum
      beginOp
      ilock ip
      iunlock ip
      iput ip
      endOp
    else return ()) 1 (sb.ninodes - 1)

/-- The blocks of an inode of the disk: data blocks and its index block. -/
def blocksOf (d : Disk) (i : ℕ) : List ℕ := Fs.shape.blocks d.entry (d.dinode i).addrs

def Allocated (d : Disk) (i : ℕ) : Prop := 0 < i ∧ i < sb.ninodes ∧ (d.dinode i).type ≠ 0

def Orphan (d : Disk) (i : ℕ) : Prop := Allocated d i ∧ (d.dinode i).nlink = 0

/-- A disk whose inodes share no blocks. The blocks of each are different ones in the data area, and
marked in the bitmap. -/
structure Image (d : Disk) : Prop where
  nodup : ∀ i, Allocated d i → (blocksOf d i).Nodup
  marked : ∀ i, Allocated d i → ∀ b ∈ blocksOf d i, ¬ IsMeta b ∧ b ∈ d.used
  disjoint : ∀ i j, Allocated d i → Allocated d j → i ≠ j → (blocksOf d i).Disjoint (blocksOf d j)

variable [pm : Param] {s t u : FsState} {i k dev : ℕ} {E : Fault → Prop}

def Idle (s : FsState) : Prop :=
  ∀ ip < Param.NINODE, (s.inodes ip).ref = 0 ∧ (s.inodes ip).locked = false

omit sb in
theorem wp_iget_idle (h : Idle s) (hpos : 0 < Param.NINODE) :
    Wp E (iget dev i) (fun ip t => ip < Param.NINODE ∧ t = { s with
      inodes := Function.update s.inodes ip
        { s.inodes ip with dev := dev, inum := i, ref := 1, valid := false } }) s := by
  refine wp_bind.mpr (wp_get.mpr ?_)
  split
  · rename_i ip hip
    have hlt := List.mem_range.mp (List.mem_of_find?_eq_some hip)
    have hfound := List.find?_some hip
    simp [(h ip hlt).1] at hfound
  split
  · rename_i ip hip
    have hlt := List.mem_range.mp (List.mem_of_find?_eq_some hip)
    exact wp_bind.mpr (wp_modifyInode.mpr (wp_pure.mpr ⟨hlt, rfl⟩))
  · rename_i hnone
    have h0 := List.find?_eq_none.mp hnone 0 (List.mem_range.mpr hpos)
    simp [(h 0 hpos).1] at h0

omit pm in
/-- An inode with the blocks `bs` is freed on the disk, and nothing else changes. -/
structure Freed (i : ℕ) (bs : List ℕ) (d d' : Disk) : Prop where
  type : (d'.dinode i).type = 0
  size : (d'.dinode i).size = 0
  addrs : ∀ r ∈ Fs.shape.roots, (d'.dinode i).addrs r = 0
  dinodes : ∀ j, j ≠ i → d'.dinode j = d.dinode j
  used : d'.used = {b ∈ d.used | b ∉ bs}
  block : ∀ c, ¬ IsMeta c → d'.block c = d.block c

omit pm in
theorem itrunc_frees {d t : Disk} {ip : Inode}
    (hroot : ip.addrs Fs.NDIRECT ≠ 0 → ¬ IsMeta (ip.addrs Fs.NDIRECT))
    (hblock : ∀ c, ¬ IsMeta c → t.block c = d.block c)
    (hnodup : (Fs.shape.blocks d.entry ip.addrs).Nodup)
    (hused : ∀ b ∈ Fs.shape.blocks d.entry ip.addrs, b ∈ t.used) :
    ∃ (a : ℕ → ℕ) (u : Disk), Ends (Fs.itrunc ip) t { ip with size := 0, addrs := a }
        (u.setDinode ip.inum { ip.toDinode with size := 0, addrs := a }) ∧
      (∀ r ∈ Fs.shape.roots, a r = 0) ∧ u.dinodes = t.dinodes ∧
      u.used = {b ∈ t.used | b ∉ Fs.shape.blocks d.entry ip.addrs} ∧
      ∀ c, ¬ IsMeta c → u.block c = t.block c := by
  obtain ⟨a, ha, hroots⟩ := Fs.clear_addrs ip
  obtain ⟨u, hends, hu, hdin, hb⟩ := Fs.frees_itrunc hroot t hblock hnodup hused
  rw [ha] at hends
  exact ⟨a, u, hends.bind (by simp), hroots, hdin, hu, hb⟩

omit pm in
theorem wp_read_record {ip : ℕ} (href : (s.inodes ip).ref = 1)
    (hlock : (s.inodes ip).locked = false)
    (hvalid : (s.inodes ip).valid = false) (htype : (s.disk.dinode (s.inodes ip).inum).type ≠ 0) :
    Wp E (do
      ilock ip
      iunlock ip) (fun _ t => t = { s with inodes := Function.update s.inodes ip { s.inodes ip with
        toDinode := s.disk.dinode (s.inodes ip).inum, valid := true } }) s := by
  refine wp_bind.mpr (wp_bind.mpr (wp_inode.mpr ?_))
  rw [href, hlock, hvalid, if_neg (by decide), if_neg (by simp), if_neg (by simp)]
  refine wp_bind.mpr (wp_get.mpr (wp_bind.mpr (wp_modifyInode.mpr ?_)))
  rw [if_neg htype]
  refine wp_pure.mpr (wp_bind.mpr (wp_inode.mpr ?_))
  simp only [Function.update_self, href]
  rw [if_neg (by simp)]
  refine wp_modifyInode.mpr ?_
  simp only [Function.update_self, Function.update_idem]
  rw [← hlock]

omit pm in
theorem wp_iput_last {ip : ℕ} {d : Disk} {bs : List ℕ} (href : (s.inodes ip).ref = 1)
    (hlock : (s.inodes ip).locked = false) (hvalid : (s.inodes ip).valid = true)
    (hnlink : (s.inodes ip).nlink = 0) (hbs : bs = Fs.shape.blocks d.entry (s.inodes ip).addrs)
    (hblock : ∀ c, ¬ IsMeta c → s.disk.block c = d.block c) (hnodup : bs.Nodup)
    (hused : ∀ b ∈ bs, ¬ IsMeta b ∧ b ∈ s.disk.used) :
    Wp E (iput ip) (fun _ t => ∃ x, t.inodes = Function.update s.inodes ip x ∧ x.ref = 0 ∧
      x.locked = false ∧ t.ops = s.ops ∧ Freed (s.inodes ip).inum bs s.disk t.disk) s := by
  subst hbs
  have hroot : (s.inodes ip).addrs Fs.NDIRECT ≠ 0 → ¬ IsMeta ((s.inodes ip).addrs Fs.NDIRECT) :=
    fun h0 => (hused _ (Shape.mem_blocks.mpr ⟨h0, Fs.NDIRECT, [], Fs.ok_root le_rfl, rfl⟩)).1
  obtain ⟨a, u, hends, ha, hdin, hu, hb⟩ :=
    itrunc_frees hroot hblock hnodup fun b hb => (hused b hb).2
  refine wp_bind.mpr (wp_inode.mpr ?_)
  rw [if_pos ⟨href, hvalid, hnlink⟩, hlock, if_neg (by simp)]
  refine wp_bind.mpr (wp_bind.mpr (wp_onInode.mpr
    (.of_ends (hends.bind (ends_pure.mpr ⟨rfl, rfl⟩)) ?_)))
  refine wp_bind.mpr (wp_modifyInode.mpr (wp_bind.mpr (wp_onInode.mpr (wp_bind.mpr (wp_modify.mpr
    (wp_pure.mpr (wp_modifyInode.mpr (wp_modifyInode.mpr ?_))))))))
  simp only [Function.update_self, Function.update_idem]
  refine ⟨_, rfl, ?_, hlock, trivial, ?_⟩
  · dsimp only
    rw [href]
    rfl
  obtain ⟨i, hi⟩ : ∃ i, i = (s.inodes ip).inum := ⟨_, rfl⟩
  rw [← hi]
  refine ⟨?_, ?_, fun r hr => ?_, fun j hj => ?_, hu, hb⟩
  · rw [Disk.dinode_setDinode, if_pos rfl]
  · rw [Disk.dinode_setDinode, if_pos rfl]
  · rw [Disk.dinode_setDinode, if_pos rfl]
    exact ha r hr
  · rw [Disk.dinode_setDinode, if_neg hj, Disk.dinode_setDinode, if_neg hj, Disk.dinode, hdin]
    rfl

theorem ireclaim_turn {d : Disk} {bs : List ℕ} (hidle : Idle s) (hpos : 0 < Param.NINODE)
    (hbs : bs = Fs.shape.blocks d.entry (s.disk.dinode i).addrs)
    (htype : (s.disk.dinode i).type ≠ 0) (hnlink : (s.disk.dinode i).nlink = 0)
    (hblock : ∀ c, ¬ IsMeta c → s.disk.block c = d.block c) (hnodup : bs.Nodup)
    (hused : ∀ b ∈ bs, ¬ IsMeta b ∧ b ∈ s.disk.used) :
    Wp E (do
      let ip ← iget dev i
      beginOp
      ilock ip
      iunlock ip
      iput ip
      endOp) (fun _ t => Idle t ∧ t.ops = s.ops ∧ Freed i bs s.disk t.disk) s := by
  refine wp_bind.mpr ((wp_iget_idle hidle hpos).mono fun ip t ht => ?_)
  obtain ⟨hlt, rfl⟩ := ht
  obtain ⟨href, hlock⟩ := hidle ip hlt
  refine wp_bind.mpr (wp_modify.mpr (Wp.seq (wp_read_record ?_ ?_ ?_ ?_) fun _ t ht => ?_))
  · simp
  · simpa using hlock
  · simp
  · simpa using htype
  have hentry : t.inodes ip = { s.inodes ip with
      toDinode := s.disk.dinode i, dev := dev, inum := i, ref := 1, valid := true } := by
    rw [ht]
    simp
  have hdisk : t.disk = s.disk := by rw [ht]
  have hother : ∀ k, k ≠ ip → t.inodes k = s.inodes k := fun k hk => by
    rw [ht]
    simp [hk]
  have hops : t.ops = s.ops + 1 := by rw [ht]
  rw [← hdisk] at hblock hused
  have hput : Wp E (iput ip) _ t := wp_iput_last (by rw [hentry]) (by rw [hentry]; exact hlock)
    (by rw [hentry]) (by rw [hentry]; exact hnlink) (by rw [hentry]; exact hbs) hblock hnodup hused
  refine wp_bind.mpr (hput.mono fun _ u hu => wp_modify.mpr ?_)
  obtain ⟨x, hx, hx0, hxl, hopsu, hfreed⟩ := hu
  rw [hentry, hdisk] at hfreed
  refine ⟨fun k hk => ?_, ?_, hfreed⟩
  · dsimp only
    rw [hx]
    by_cases hkip : k = ip
    · rw [hkip, Function.update_self]
      exact ⟨hx0, hxl⟩
    · rw [Function.update_of_ne hkip, hother k hkip]
      exact hidle k hk
  · dsimp only
    rw [hopsu, hops]
    omega

/-- The state `t` after the turns of `ireclaim` below `k`. -/
structure Reclaimed (s : FsState) (k : ℕ) (t : FsState) : Prop where
  idle : Idle t
  ops : t.ops = s.ops
  freed : ∀ i < k, Orphan s.disk i → (t.disk.dinode i).type = 0 ∧ (t.disk.dinode i).size = 0 ∧
    ∀ r ∈ Fs.shape.roots, (t.disk.dinode i).addrs r = 0
  dinodes : ∀ i, ¬ (i < k ∧ Orphan s.disk i) → t.disk.dinode i = s.disk.dinode i
  used : t.disk.used = {b ∈ s.disk.used | ∀ i < k, Orphan s.disk i → b ∉ blocksOf s.disk i}
  block : ∀ c, ¬ IsMeta c → t.disk.block c = s.disk.block c

theorem Reclaimed.refl (h : Idle s) : Reclaimed s 1 s where
  idle := h
  ops := rfl
  freed i hi ho := by
    have := ho.1.1
    omega
  dinodes _ _ := rfl
  used := by
    ext b
    refine ⟨fun hb => ⟨hb, fun i hi ho => ?_⟩, fun hb => hb.1⟩
    have := ho.1.1
    omega
  block _ _ := rfl

theorem Reclaimed.skip (h : Reclaimed s k t) (hk : ¬ Orphan s.disk k) : Reclaimed s (k + 1) t := by
  have hlt : ∀ {i}, i < k + 1 → Orphan s.disk i → i < k := fun hi ho => by
    refine Nat.lt_of_le_of_ne (Nat.le_of_lt_succ hi) ?_
    rintro rfl
    exact hk ho
  refine ⟨h.idle, h.ops, fun i hi ho => h.freed i (hlt hi ho) ho,
    fun i hi => h.dinodes i ?_, ?_, h.block⟩
  · rintro ⟨hik, ho⟩
    exact hi ⟨by omega, ho⟩
  · rw [h.used]
    ext b
    exact and_congr_right fun _ => ⟨fun hb i hi ho => hb i (hlt hi ho) ho,
      fun hb i hi ho => hb i (by omega) ho⟩

theorem Reclaimed.free (h : Reclaimed s k t) (hk : Orphan s.disk k) (hidle : Idle u)
    (hops : u.ops = t.ops)
    (hfreed : Freed k (blocksOf s.disk k) t.disk u.disk) : Reclaimed s (k + 1) u := by
  refine ⟨hidle, hops.trans h.ops, fun i hi ho => ?_, fun i hi => ?_, ?_,
    fun c hc => (hfreed.block c hc).trans (h.block c hc)⟩
  · rcases Nat.lt_succ_iff_lt_or_eq.mp hi with hlt | rfl
    · rw [hfreed.dinodes i (by omega)]
      exact h.freed i hlt ho
    · exact ⟨hfreed.type, hfreed.size, hfreed.addrs⟩
  · have hik : i ≠ k := by
      rintro rfl
      exact hi ⟨Nat.lt_succ_self i, hk⟩
    rw [hfreed.dinodes i hik]
    refine h.dinodes i fun hlt => hi ⟨by omega, hlt.2⟩
  · rw [hfreed.used, h.used]
    ext b
    simp only [Set.mem_ofPred_eq]
    constructor
    · rintro ⟨⟨hb, hall⟩, hnot⟩
      refine ⟨hb, fun i hi ho => ?_⟩
      rcases Nat.lt_succ_iff_lt_or_eq.mp hi with hlt | rfl
      · exact hall i hlt ho
      · exact hnot
    · rintro ⟨hb, hall⟩
      exact ⟨⟨hb, fun i hi ho => hall i (by omega) ho⟩, hall k (by omega) hk⟩

/-- `ireclaim` frees exactly the inodes without links, however many there are. -/
theorem ireclaim_exact (h : Image s.disk) (hidle : Idle s) (hpos : 0 < Param.NINODE) (dev : ℕ) :
    ∃ t, Ends (ireclaim dev) s () t ∧ Idle t ∧ t.ops = s.ops ∧
      (∀ i, Orphan s.disk i → (t.disk.dinode i).type = 0 ∧ (t.disk.dinode i).size = 0 ∧
        ∀ r ∈ Fs.shape.roots, (t.disk.dinode i).addrs r = 0) ∧
      t.disk.used = {b ∈ s.disk.used | ∀ i, Orphan s.disk i → b ∉ blocksOf s.disk i} ∧
      (∀ i, ¬ Orphan s.disk i → t.disk.dinode i = s.disk.dinode i) ∧
      ∀ c, ¬ IsMeta c → t.disk.block c = s.disk.block c := by
  have hturn : ∀ k t, 1 ≤ k → k < 1 + (sb.ninodes - 1) → Reclaimed s k t →
      Wp (fun _ => False) (do
        let dip := (← get).disk.dinode k
        if dip.type ≠ 0 ∧ dip.nlink = 0 then do
          let ip ← iget dev k
          beginOp
          ilock ip
          iunlock ip
          iput ip
          endOp
        else return ()) (fun _ u => Reclaimed s (k + 1) u) t := by
    intro k t hk hlt ht
    have hdin := ht.dinodes k fun hlt => lt_irrefl k hlt.1
    refine wp_bind.mpr (wp_get.mpr ?_)
    dsimp only
    rw [hdin]
    split
    · rename_i horphan
      have hk : Orphan s.disk k := ⟨⟨by omega, by omega, horphan.1⟩, horphan.2⟩
      refine (ireclaim_turn ht.idle hpos (by rw [hdin]; rfl) (by rw [hdin]; exact horphan.1)
        (by rw [hdin]; exact horphan.2) ht.block (h.nodup k hk.1) fun b hb => ?_).mono
        fun _ u hu => ht.free hk hu.1 hu.2.1 hu.2.2
      obtain ⟨hmeta, hused⟩ := h.marked k hk.1 b hb
      refine ⟨hmeta, ?_⟩
      rw [ht.used]
      refine ⟨hused, fun i hi ho hbi => ?_⟩
      exact h.disjoint i k ho.1 hk.1 (by omega) hbi hb
    · rename_i horphan
      exact wp_pure.mpr (ht.skip fun ho => horphan ⟨ho.1.2.2, ho.2⟩)
  obtain ⟨t, ht, hr⟩ := each_ends (Reclaimed.refl hidle) fun k t hk hlt ht => by
    obtain ⟨⟨⟩, u, hends, hu⟩ := (hturn k t hk hlt ht).ends
    exact ⟨u, hends, hu⟩
  have hall : ∀ {i}, Orphan s.disk i → i < 1 + (sb.ninodes - 1) := fun ho => by
    have := ho.1.2.1
    omega
  refine ⟨t, ht, hr.idle, hr.ops, fun i ho => hr.freed i (hall ho) ho, ?_,
    fun i hi => hr.dinodes i fun ho => hi ho.2, hr.block⟩
  rw [hr.used]
  ext b
  exact and_congr_right fun _ => ⟨fun hb i ho => hb i (hall ho) ho, fun hb i _ ho => hb i ho⟩

section Small

omit pm sb

@[reducible] def oneInode : Param := ⟨16, 1, 10, 128, 16, 100, 64⟩

/-- A root directory, and two files without links: one with a block, one with an index block. -/
def orphanDisk : Disk where
  block b :=
    if b = 3 then Bytes.ofList [0x7f] else if b = 5 then Bytes.ofList [6] else Bytes.ofList []
  dinodes b k :=
    if b ≠ 2 then .zero
    else if k = 1 then { Dinode.zero with type := 1, nlink := 1 }
    else if k = 2 then
      { Dinode.zero with type := 2, size := 5, addrs := fun j => if j = 0 then 4 else 0 }
    else if k = 3 then
      { Dinode.zero with type := 2, size := 5, addrs := fun j => if j = 12 then 5 else 0 }
    else .zero

def orphanFs : FsState where
  inodes _ := ⟨Dinode.zero, 0, 0, 0, false, false⟩
  disk := orphanDisk
  ops := 0

theorem blocksOf_orphanDisk : ∀ i < 8, @blocksOf smallDisk orphanDisk i =
    if i = 2 then [4] else if i = 3 then [6, 5] else [] := by decide +kernel

theorem image_orphanDisk : @Image smallDisk orphanDisk := by
  let _ := smallDisk
  have hmarked : ∀ b, 3 < b → b < 7 → ¬ IsMeta b ∧ b ∈ orphanDisk.used := by
    intro b hb hlt
    refine ⟨?_, (by omega : b < 16), ?_⟩
    · rintro (rfl | ⟨c, hc, rfl⟩)
      · exact absurd hb (by decide)
      · have hc : c < 16 := hc
        have h3 : 3 < c / 8192 + 3 := hb
        omega
    · rcases (by omega : b = 4 ∨ b = 5 ∨ b = 6) with rfl | rfl | rfl
      all_goals decide
  constructor
  · intro i hi
    rw [blocksOf_orphanDisk i hi.2.1]
    split_ifs <;> decide
  · intro i hi b hb
    rw [blocksOf_orphanDisk i hi.2.1] at hb
    refine hmarked b ?_ ?_ <;> split_ifs at hb <;> simp at hb <;> omega
  · intro i j hi hj hij b hb hb'
    rw [blocksOf_orphanDisk i hi.2.1] at hb
    rw [blocksOf_orphanDisk j hj.2.1] at hb'
    split_ifs at hb hb' <;> simp at hb hb' <;> omega

/-- Two files are freed with one entry of the table, and the root directory stays. -/
theorem ireclaim_exact_small :
    letI := smallDisk
    letI := oneInode
    ∃ t, Ends (ireclaim 1) orphanFs () t ∧ (t.disk.dinode 2).type = 0 ∧ (t.disk.dinode 3).type = 0 ∧
      t.disk.dinode 1 = orphanDisk.dinode 1 ∧ 6 ∉ t.disk.used := by
  let _ := smallDisk
  let _ := oneInode
  obtain ⟨t, ht, -, -, hfreed, hused, hkept, -⟩ := ireclaim_exact (s := orphanFs) image_orphanDisk
    (fun _ _ => ⟨rfl, rfl⟩) (by decide) 1
  have horphan : ∀ i, i = 2 ∨ i = 3 → Orphan orphanDisk i := by
    rintro i (rfl | rfl)
    all_goals exact ⟨by unfold Allocated; decide, by decide⟩
  refine ⟨t, ht, (hfreed 2 (horphan 2 (.inl rfl))).1, (hfreed 3 (horphan 3 (.inr rfl))).1,
    hkept 1 fun h => absurd h.2 (by decide), ?_⟩
  rw [hused]
  rintro ⟨-, hnot⟩
  exact hnot 3 (horphan 3 (.inr rfl)) (by decide +kernel)

end Small

end Xv6Sheet.Kernel
