import Xv6Sheet.BigFile.Ownership
import Xv6Sheet.Disk.Buffer

/-! # Sparse files

`bmap` with a flag that tells whether a missing block is allocated. It is written over the
buffers of the blocks, so that every way out shows what it releases. Without the flag it looks a
pointer up, with the flag it follows the template.
-/

namespace Xv6Sheet.BigFile

open Exec Store

namespace Sparse

variable [sb : Superblock]

/-- The block that `ip->addrs[k]` names. A missing one is 0 for a lookup and is allocated
otherwise. -/
def addrsBlock (ip : Inode) (k : ℕ) (alloc : ℤ) : BufM (ℕ × Inode) :=
  if ip.addrs k = 0 then
    if alloc = 0 then return (0, ip)
    else do
      let addr ← Buffered.balloc
      if addr = 0 then return (0, ip)
      else return (addr, ip.setAddr k addr)
  else return (ip.addrs k, ip)

/-- The secondary map at the entry `k` of the master map `b`. -/
def mapBlock (b k : ℕ) (alloc : ℤ) : BufM ℕ := do
  let bp ← Buffered.bread b
  if bp.le (4 * k) 4 = 0 then
    if alloc = 0 then do
      Buffered.brelse b
      return 0
    else do
      let addr ← Buffered.balloc
      if addr = 0 then do
        Buffered.brelse b
        return 0
      else do
        Buffered.logWrite b (bp.putLe (4 * k) 4 addr)
        Buffered.brelse b
        return addr
  else do
    Buffered.brelse b
    return bp.le (4 * k) 4

/-- The data block at the entry `k` of the index block `b`. -/
def dataBlock (b k : ℕ) (alloc : ℤ) : BufM ℕ := do
  let bp ← Buffered.bread b
  if bp.le (4 * k) 4 = 0 then
    if alloc = 0 then do
      Buffered.brelse b
      return 0
    else do
      let addr ← Buffered.balloc
      if addr ≠ 0 then Buffered.logWrite b (bp.putLe (4 * k) 4 addr)
      Buffered.brelse b
      return addr
  else do
    Buffered.brelse b
    return bp.le (4 * k) 4

/-- The two ways to get the block at an entry differ in how they are written only. -/
theorem dataBlock_eq_mapBlock (b k : ℕ) (alloc : ℤ) : dataBlock b k alloc = mapBlock b k alloc := by
  unfold dataBlock mapBlock
  refine bind_congr fun bp => ?_
  split
  · refine if_congr Iff.rfl rfl (bind_congr fun addr => ?_)
    by_cases h0 : addr = 0
    · simp [h0]
    · simp [h0]
  · rfl

/-- Return the disk block address of the `bn`th block of the inode. If there is none,
allocate it unless `alloc` is 0. 0 if there is no such block. -/
def bmap (ip : Inode) (bn : ℕ) (alloc : ℤ) : BufM (ℕ × Inode) :=
  if bn < NDIRECT then addrsBlock ip bn alloc
  else
    let bn := bn - NDIRECT
    if bn < NINDIRECT then do
      let (addr, ip) ← addrsBlock ip NDIRECT alloc
      if addr = 0 then return (0, ip)
      else do
        let addr ← dataBlock addr bn alloc
        return (addr, ip)
    else
      let bn := bn - NINDIRECT
      if bn < NINDIRECT * NINDIRECT then do
        let (addr, ip) ← addrsBlock ip (NDIRECT + 1) alloc
        if addr = 0 then return (0, ip)
        else do
          let index1 := bn / NINDIRECT
          let index2 := bn % NINDIRECT
          let addr ← mapBlock addr index1 alloc
          if addr = 0 then return (0, ip)
          else do
            let addr ← dataBlock addr index2 alloc
            return (addr, ip)
      else panicAt "bmap: out of range"

def uncapped (ip : Inode) (bn : ℕ) : DiskM (ℕ × Inode) :=
  if bn < NDIRECT then Xv6Sheet.addrsBlock ip bn
  else
    let bn := bn - NDIRECT
    if bn < NINDIRECT then do
      let (addr, ip) ← Xv6Sheet.addrsBlock ip NDIRECT
      if addr = 0 then return (0, ip)
      else do
        let addr ← entryBlock addr bn
        return (addr, ip)
    else
      let bn := bn - NINDIRECT
      if bn < NINDIRECT * NINDIRECT then do
        let (addr, ip) ← Xv6Sheet.addrsBlock ip (NDIRECT + 1)
        if addr = 0 then return (0, ip)
        else do
          let index1 := bn / NINDIRECT
          let index2 := bn % NINDIRECT
          let addr ← entryBlock addr index1
          if addr = 0 then return (0, ip)
          else do
            let addr ← entryBlock addr index2
            return (addr, ip)
      else panicAt "bmap: out of range"

theorem bmap_eq_uncapped (ip : Inode) {bn : ℕ} (h : bn < cap) :
    BigFile.bmap ip bn = uncapped ip bn := by
  unfold BigFile.bmap uncapped
  exact if_neg (Nat.not_le.mpr h)

def MAXFILE : ℕ := NDIRECT + NINDIRECT + NINDIRECT * NINDIRECT

omit sb in
theorem double_lt {k : ℕ} (h : k < NINDIRECT * NINDIRECT) :
    k / NINDIRECT < NINDIRECT ∧ k % NINDIRECT < NINDIRECT := by
  simp only [NINDIRECT, BSIZE] at *
  omega

section Lookup

variable {d : Disk} {held : Finset ℕ} {ip : Inode} {b k bn : ℕ}

theorem addrsBlock_lookup : Ends (addrsBlock ip k 0) ⟨d, held⟩ (ip.addrs k, ip) ⟨d, held⟩ := by
  unfold addrsBlock
  split
  · rename_i h0
    rw [if_pos rfl, h0]
    exact ends_pure.mpr ⟨rfl, rfl⟩
  · exact ends_pure.mpr ⟨rfl, rfl⟩

theorem mapBlock_lookup (h : b ∉ held) :
    Ends (mapBlock b k 0) ⟨d, held⟩ (d.entry b k) ⟨d, held⟩ := by
  refine (Buffered.bread_ends h).bind ?_
  split
  · rename_i h0
    rw [if_pos rfl]
    exact (Buffered.brelse_ends h).bind (ends_pure.mpr ⟨h0, rfl⟩)
  · exact (Buffered.brelse_ends h).bind (ends_pure.mpr ⟨rfl, rfl⟩)

theorem dataBlock_lookup (h : b ∉ held) :
    Ends (dataBlock b k 0) ⟨d, held⟩ (d.entry b k) ⟨d, held⟩ := by
  rw [dataBlock_eq_mapBlock]
  exact mapBlock_lookup h

theorem bmap_lookup (hbn : bn < MAXFILE) : Ends (bmap ip bn 0) ⟨d, ∅⟩
    (walk d.entry (ip.addrs (position bn).1) (position bn).2, ip) ⟨d, ∅⟩ := by
  have hnone : ∀ b, b ∉ (∅ : Finset ℕ) := Finset.notMem_empty
  unfold bmap
  rcases ranges bn with hd | ⟨k, hk, rfl⟩ | ⟨k, rfl⟩
  · rw [if_pos hd, position_direct hd]
    exact addrsBlock_lookup
  · rw [if_neg (by omega), position_indirect hk]
    simp only [Nat.add_sub_cancel_left, if_pos hk]
    refine addrsBlock_lookup.bind ?_
    by_cases h0 : ip.addrs NDIRECT = 0
    · simp [h0]
    · simp only [if_neg h0, walk_cons h0, walk_nil]
      exact (dataBlock_lookup (hnone _)).bind (by simp)
  · have hk : k < NINDIRECT * NINDIRECT := by
      unfold MAXFILE at hbn
      omega
    rw [if_neg (by omega), position_double]
    simp only [Nat.add_assoc, Nat.add_sub_cancel_left, if_pos hk]
    rw [if_neg (by omega)]
    refine addrsBlock_lookup.bind ?_
    by_cases h0 : ip.addrs (NDIRECT + 1) = 0
    · simp [h0]
    · simp only [if_neg h0, walk_cons h0]
      refine (mapBlock_lookup (hnone _)).bind ?_
      by_cases h1 : d.entry (ip.addrs (NDIRECT + 1)) (k / NINDIRECT) = 0
      · simp [h1]
      · simp only [if_neg h1, walk_cons h1, walk_nil]
        exact (dataBlock_lookup (hnone _)).bind (by simp)

end Lookup

section Allocation

variable {ι : Type} {base : Set ℕ} {F : ι → Inode} {d t : Disk} {b k bn : ℕ} {alloc : ℤ}

omit sb in
theorem settled_empty [Superblock] (d : Disk) : Buffered.Settled d ∅ :=
  fun b hb => absurd hb (Finset.notMem_empty b)

theorem addrsBlock_follows (h : alloc ≠ 0) (ip : Inode) (k : ℕ) (d : Disk) :
    Buffered.Follows ∅ (addrsBlock ip k alloc) (Xv6Sheet.addrsBlock ip k) d := by
  refine .ite (fun _ => ?_) fun _ => .pure _
  rw [if_neg h]
  exact .bind (Buffered.balloc_follows (settled_empty d)) fun addr t _ =>
    .ite (fun _ => .pure _) fun _ => .pure _

theorem balloc_beside (hb : d.Marked b ∧ ¬ IsMeta b) :
    Buffered.Follows {b} Buffered.balloc balloc d :=
  Buffered.balloc_follows fun _ hc => Finset.mem_singleton.mp hc ▸ hb

theorem mapBlock_follows (h : alloc ≠ 0) (hb : d.Marked b ∧ ¬ IsMeta b) (k : ℕ) :
    Buffered.Follows ∅ (mapBlock b k alloc) (entryBlock b k) d := by
  have hnone : b ∉ (∅ : Finset ℕ) := Finset.notMem_empty b
  intro v t he
  obtain ⟨_, _, hread, hrest⟩ := ends_bind.mp he
  obtain ⟨rfl, rfl⟩ := ends_bread.mp hread
  refine (Buffered.bread_ends hnone).bind ?_
  split at hrest
  · rename_i h0
    rw [if_pos h0, if_neg h]
    obtain ⟨addr, u, halloc, hrest⟩ := ends_bind.mp hrest
    refine (balloc_beside hb addr u halloc).bind ?_
    split at hrest
    · rename_i ha
      obtain ⟨rfl, rfl⟩ := ends_pure.mp hrest
      rw [if_pos ha]
      exact (Buffered.brelse_ends hnone).bind (ends_pure.mpr ⟨rfl, rfl⟩)
    · rename_i ha
      obtain ⟨_, _, hlog, hret⟩ := ends_bind.mp hrest
      obtain rfl := ends_logWrite.mp hlog
      obtain ⟨rfl, rfl⟩ := ends_pure.mp hret
      rw [if_neg ha]
      exact (Buffered.logWrite_ends _).bind
        ((Buffered.brelse_ends hnone).bind (ends_pure.mpr ⟨rfl, rfl⟩))
  · rename_i h0
    obtain ⟨rfl, rfl⟩ := ends_pure.mp hrest
    rw [if_neg h0]
    exact (Buffered.brelse_ends hnone).bind (ends_pure.mpr ⟨rfl, rfl⟩)

theorem dataBlock_follows (h : alloc ≠ 0) (hb : d.Marked b ∧ ¬ IsMeta b) (k : ℕ) :
    Buffered.Follows ∅ (dataBlock b k alloc) (entryBlock b k) d := by
  rw [dataBlock_eq_mapBlock]
  exact mapBlock_follows h hb k

theorem Ensures.settled {F' : ι → Inode} {d' : Disk} {x : ι × ℕ × List ℕ} {r : ℕ}
    (h : Ensures shape base x F F' d d' r) (hx : shape.Valid x) (hr : r ≠ 0) :
    d'.Marked r ∧ ¬ IsMeta r := by
  have h0 : ptrAt F' d' x ≠ 0 := h.ptr_eq.trans_ne hr
  have hm := (h.forest.mem_used hx h0).2
  have hn := h.forest.not_isMeta hx h0
  rw [h.ptr_eq] at hm hn
  exact ⟨hm, hn⟩

variable [DecidableEq ι]

theorem bmap_follows (hf : Forest shape base F d) (i : ι) (hbn : bn < MAXFILE) (h : alloc ≠ 0) :
    Buffered.Follows ∅ (bmap (F i) bn alloc) (uncapped (F i) bn) d := by
  refine .ite (fun _ => addrsBlock_follows h (F i) bn d) fun hd => .ite (fun hk => ?_) fun hk =>
    .ite (fun hlt => ?_) fun hge => ?_
  · refine .bind (addrsBlock_follows h (F i) NDIRECT d) ?_
    rintro ⟨addr, ip⟩ t he
    have hok : shape.Ok NDIRECT [] := ok_root (by omega)
    obtain ⟨r, ip', t', he', hens⟩ := addrsBlock_ends hf i hok.1
    obtain ⟨hr, rfl⟩ := he.unique he'
    obtain ⟨rfl, rfl⟩ := Prod.mk.inj hr
    refine .ite (fun _ => .pure _) fun h0 => ?_
    exact .bind (dataBlock_follows h (Ensures.settled hens hok h0) _) fun v u _ => .pure _
  · obtain ⟨hj, hl⟩ := double_lt hlt
    refine .bind (addrsBlock_follows h (F i) (NDIRECT + 1) d) ?_
    rintro ⟨addr, ip⟩ t he
    have hok : shape.Ok (NDIRECT + 1) [] := ok_root (by omega)
    have hok₁ : shape.Ok (NDIRECT + 1) ([] ++ [(bn - NDIRECT - NINDIRECT) / NINDIRECT]) :=
      Shape.Ok.of_snoc (p := [(bn - NDIRECT - NINDIRECT) / NINDIRECT]) (ok_double hj hl)
    obtain ⟨r, ip', t', he', hens⟩ := addrsBlock_ends hf i hok.1
    obtain ⟨hr, rfl⟩ := he.unique he'
    obtain ⟨rfl, rfl⟩ := Prod.mk.inj hr
    refine .ite (fun _ => .pure _) fun h0 => ?_
    refine .bind (mapBlock_follows h (Ensures.settled hens hok h0) _) fun v u he₁ => ?_
    obtain ⟨w, u', he₁', hens₁⟩ := entryBlock_ends hens.forest hok₁ (hens.ptr_eq.trans_ne h0)
    rw [hens.ptr_eq] at he₁'
    obtain ⟨rfl, rfl⟩ := he₁.unique he₁'
    refine .ite (fun _ => .pure _) fun h1 => ?_
    exact .bind (dataBlock_follows h (Ensures.settled hens₁ hok₁ h1) _) fun v u _ => .pure _
  · unfold MAXFILE at hbn
    omega

/-- The template without the cap finds or makes the block of `bn`, or the disk is full. -/
theorem uncapped_ends (hf : Forest shape base F d) (i : ι) (hbn : bn < MAXFILE) :
    ∃ r ip d', Ends (uncapped (F i) bn) d (r, ip) d' := by
  unfold uncapped
  rcases ranges bn with hd | ⟨k, hk, rfl⟩ | ⟨k, rfl⟩
  · rw [if_pos hd]
    obtain ⟨r, ip, d', he, -⟩ := addrsBlock_ends hf i (ok_root (Nat.lt_add_right 2 hd)).1
    exact ⟨r, ip, d', he⟩
  · rw [if_neg (by omega)]
    simp only [Nat.add_sub_cancel_left, if_pos hk]
    obtain ⟨r, ip, d', he, -⟩ := indirect_ends hf i (ok_indirect hk)
    exact ⟨r, ip, d', he⟩
  · have hk : k < NINDIRECT * NINDIRECT := by
      unfold MAXFILE at hbn
      omega
    rw [if_neg (by omega)]
    simp only [Nat.add_assoc, Nat.add_sub_cancel_left, if_pos hk]
    rw [if_neg (by omega)]
    obtain ⟨hj, hl⟩ := double_lt hk
    obtain ⟨r, ip, d', he, -⟩ := double_ends hf i (ok_double hj hl)
    exact ⟨r, ip, d', he⟩

end Allocation

/-- A lookup changes nothing and answers the pointer of the block number, which is 0 exactly
when a pointer on the way is 0; an allocation does what the template does below its cap. Both
end with every buffer released. -/
theorem sparse_refines {ι : Type} [DecidableEq ι] {base : Set ℕ} {F : ι → Inode} {d : Disk}
    (h : Forest shape base F d) (i : ι) {bn : ℕ} (hbn : bn < MAXFILE) :
    Ends (bmap (F i) bn 0) ⟨d, ∅⟩ (ptrAt F d (i, position bn), F i) ⟨d, ∅⟩ ∧
    (ptrAt F d (i, position bn) = 0 ↔
      ∃ p, p <+: (position bn).2 ∧ ptrAt F d (i, (position bn).1, p) = 0) ∧
    ∃ r ip d', Ends (bmap (F i) bn 1) ⟨d, ∅⟩ (r, ip) ⟨d', ∅⟩ ∧
      (bn < 10000 → Ends (BigFile.bmap (F i) bn) d (r, ip) d') := by
  refine ⟨bmap_lookup hbn, ⟨fun h0 => ⟨_, List.prefix_refl _, h0⟩, ?_⟩, ?_⟩
  · rintro ⟨p, ⟨q, hq⟩, h0⟩
    have hp : walk d.entry (addrsOf F i (position bn).1) p = 0 := h0
    show walk d.entry (addrsOf F i (position bn).1) (position bn).2 = 0
    rw [← hq, walk_append, hp, walk_zero]
  · obtain ⟨r, ip, d', he⟩ := uncapped_ends h i hbn
    refine ⟨r, ip, d', bmap_follows h i hbn Int.one_ne_zero _ _ he, fun hlt => ?_⟩
    rwa [bmap_eq_uncapped _ hlt]

omit sb in
/-- Block 300 of an empty file on the small disk: a lookup finds nothing, an allocation makes
the block. -/
theorem sparse_refines_small :
    letI := smallDisk
    let s := Store.small (ι := Unit) fun _ => 1
    Ends (bmap (s.inodes ()) 300 0) ⟨s.disk, ∅⟩ (0, s.inodes ()) ⟨s.disk, ∅⟩ ∧
      ∃ r ip d', Ends (bmap (s.inodes ()) 300 1) ⟨s.disk, ∅⟩ (r, ip) ⟨d', ∅⟩ ∧
        Ends (BigFile.bmap (s.inodes ()) 300) s.disk (r, ip) d' := by
  let _ := smallDisk
  intro s
  obtain ⟨hlook, -, r, ip, d', he, he'⟩ := sparse_refines
    (Store.empty_small (fun _ : Unit => 1) shape).forest () (show 300 < MAXFILE by decide)
  exact ⟨hlook, r, ip, d', he, he' (by decide)⟩

end Sparse

end Xv6Sheet.BigFile
