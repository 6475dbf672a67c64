import Mathlib.Data.Finset.Card
import Mathlib.Data.Finset.Range
import Xv6Sheet.Disk.Bitmap
import Xv6Sheet.Lib.BlockTree

/-! # Inodes and their blocks

The in-memory inode and the two steps from which every version of `bmap` is made: the
block a root address names and the block an entry of an index block names, each
allocated when it is missing. Over a set of inodes sharing the disk, both keep every
block of the disk reserved or owned by one position of one inode.
-/

namespace Xv6Sheet

open Exec

/-- `struct inode`: an entry of the inode table with its copy of the on-disk inode. -/
structure Inode extends Dinode where
  dev : ℕ
  inum : ℕ
  ref : ℤ
  valid : Bool
  locked : Bool

def Inode.setAddr (ip : Inode) (k b : ℕ) : Inode :=
  { ip with addrs := Function.update ip.addrs k b }

namespace Disk

variable {d d' : Disk}

theorem entry_congr {b : ℕ} (h : d'.block b = d.block b) (k : ℕ) :
    d'.entry b k = d.entry b k := by rw [entry, entry, h]

theorem entry_write_self {b k v : ℕ} (hv : v < 2 ^ 32) :
    (d.write b ((d.block b).putLe (4 * k) 4 v)).entry b k = v := by
  rw [entry, write_block_self]
  exact Bytes.le_putLe hv

theorem entry_write_of_ne {b k c j v : ℕ} (h : (c, j) ≠ (b, k)) :
    (d.write b ((d.block b).putLe (4 * k) 4 v)).entry c j = d.entry c j := by
  by_cases hc : c = b
  · subst hc
    have hj : j ≠ k := fun hj => h (hj ▸ rfl)
    rw [entry, write_block_self, entry, Bytes.le_putLe_of_disjoint (by omega)]
  · exact entry_congr (write_block_of_ne hc) j

theorem entry_of_zero {b : ℕ} (h : d.block b = fun _ => 0) (k : ℕ) : d.entry b k = 0 := by
  rw [entry, h, Bytes.le_zero]

end Disk

section Extends

variable {ι : Type} {S : Shape ℕ ℕ} {F F' F'' : ι → Inode} {d d' d'' : Disk} {i : ι}

abbrev addrsOf (F : ι → Inode) (i : ι) : ℕ → ℕ := (F i).addrs

abbrev ptrAt (F : ι → Inode) (d : Disk) (x : ι × ℕ × List ℕ) : ℕ :=
  Shape.ptr d.entry (addrsOf F) x

/-- A position at which the tree of its root ends: the blocks there hold data. -/
def IsLeaf (S : Shape ℕ ℕ) (x : ι × ℕ × List ℕ) : Prop :=
  S.Valid x ∧ x.2.2.length = S.depth x.2.1

/-- The blocks of inode `i` may have grown: no pointer that was there changed, no data
block changed, and a data block that is new is zero. -/
structure Extends (S : Shape ℕ ℕ) (i : ι) (F F' : ι → Inode) (d d' : Disk) : Prop where
  ptr_eq : ∀ x, S.Valid x → ptrAt F d x ≠ 0 → ptrAt F' d' x = ptrAt F d x
  data_eq : ∀ x, IsLeaf S x → ptrAt F d x ≠ 0 →
    d'.block (ptrAt F d x) = d.block (ptrAt F d x)
  fresh : ∀ x, IsLeaf S x → ptrAt F d x = 0 → ptrAt F' d' x ≠ 0 →
    d'.block (ptrAt F' d' x) = fun _ => 0
  others : ∀ x, S.Valid x → x.1 ≠ i → ptrAt F' d' x = ptrAt F d x
  inode : ∃ a, F' i = { F i with addrs := a }
  inodes : ∀ j, j ≠ i → F' j = F j
  dinodes : d'.dinodes = d.dinodes

theorem Extends.refl : Extends S i F F d d where
  ptr_eq _ _ _ := rfl
  data_eq _ _ _ := rfl
  fresh _ _ h h' := absurd h h'
  others _ _ _ := rfl
  inode := ⟨(F i).addrs, rfl⟩
  inodes _ _ := rfl
  dinodes := rfl

theorem Extends.trans (h : Extends S i F F' d d')
    (h' : Extends S i F' F'' d' d'') : Extends S i F F'' d d'' where
  ptr_eq x hx h0 := by
    rw [h'.ptr_eq x hx (h.ptr_eq x hx h0 ▸ h0), h.ptr_eq x hx h0]
  data_eq x hx h0 := by
    have he := h.ptr_eq x hx.1 h0
    rw [← h.data_eq x hx h0, ← he]
    exact h'.data_eq x hx (he ▸ h0)
  fresh x hx h0 h1 := by
    by_cases hm : ptrAt F' d' x = 0
    · exact h'.fresh x hx hm h1
    · rw [h'.ptr_eq x hx.1 hm, h'.data_eq x hx hm, h.fresh x hx h0 hm]
  others x hx hi := by rw [h'.others x hx hi, h.others x hx hi]
  inode := by
    obtain ⟨a, ha⟩ := h.inode
    obtain ⟨b, hb⟩ := h'.inode
    exact ⟨b, by rw [hb, ha]⟩
  inodes j hj := by rw [h'.inodes j hj, h.inodes j hj]
  dinodes := h'.dinodes.trans h.dinodes

end Extends

variable [sb : Superblock]

def iupdateDisk (ip : Inode) : DiskM Unit := modify fun d => d.setDinode ip.inum ip.toDinode

@[simp] theorem ends_iupdateDisk {ip : Inode} {d d' : Disk} {u : Unit} :
    Ends (iupdateDisk ip) d u d' ↔ d' = d.setDinode ip.inum ip.toDinode := by
  simp [iupdateDisk]

@[simp] theorem faults_iupdateDisk {ip : Inode} {d : Disk} {e : Fault} :
    ¬ Faults (iupdateDisk ip) d e := by
  simp [iupdateDisk]

/-- The block that `ip->addrs[k]` names, allocated if it is missing. -/
def addrsBlock (ip : Inode) (k : ℕ) : DiskM (ℕ × Inode) :=
  if ip.addrs k = 0 then do
    let addr ← balloc
    if addr = 0 then return (0, ip)
    else return (addr, ip.setAddr k addr)
  else return (ip.addrs k, ip)

/-- The block that the entry `a[k]` of the index block `b` names, allocated if it is
missing. -/
def entryBlock (b k : ℕ) : DiskM ℕ := do
  let bp ← bread b
  if bp.le (4 * k) 4 = 0 then do
    let addr ← balloc
    if addr = 0 then return 0
    else do
      logWrite b (bp.putLe (4 * k) 4 addr)
      return addr
  else return bp.le (4 * k) 4

theorem addrsBlock_found {ip : Inode} {k : ℕ} {d : Disk} (h : ip.addrs k ≠ 0) :
    Ends (addrsBlock ip k) d (ip.addrs k, ip) d := by
  unfold addrsBlock
  rw [if_neg h]
  simp

theorem entryBlock_found {b k : ℕ} {d : Disk} (h : d.entry b k ≠ 0) :
    Ends (entryBlock b k) d (d.entry b k) d := by
  unfold entryBlock
  have hle : ¬ (d.block b).le (4 * k) 4 = 0 := h
  refine (ends_bread.mpr ⟨rfl, rfl⟩).bind ?_
  rw [if_neg hle]
  simp [Disk.entry]

namespace Disk

def free (d : Disk) : Finset ℕ := {b ∈ Finset.range sb.size | ¬ d.Marked b}

theorem mem_free {d : Disk} {b : ℕ} : b ∈ d.free ↔ b < sb.size ∧ b ∉ d.used := by
  simp only [free, used, Finset.mem_filter, Finset.mem_range, Set.mem_ofPred_eq, not_and]
  exact and_congr_right fun hb => ⟨fun h _ => h, fun h => h hb⟩

theorem card_free_of_insert {d d' : Disk} {b : ℕ} (hb : b < sb.size) (hu : b ∉ d.used)
    (h : d'.used = insert b d.used) : d'.free.card + 1 = d.free.card := by
  have he : d'.free = d.free.erase b := by
    ext c
    simp only [mem_free, h, Set.mem_insert_iff, Finset.mem_erase]
    tauto
  rw [he]
  exact Finset.card_erase_add_one (mem_free.mpr ⟨hb, hu⟩)

end Disk

section Forest

variable {ι : Type} {S : Shape ℕ ℕ} {base : Set ℕ} {F F' : ι → Inode} {d d' : Disk}

/-- A set of inodes on a disk: the metadata blocks are reserved, and every other block in
use stands at exactly one position of one inode. -/
structure Forest (S : Shape ℕ ℕ) (base : Set ℕ) (F : ι → Inode) (d : Disk) : Prop where
  meta_base : ∀ b < sb.size, IsMeta b → b ∈ base
  owned : S.Owned base d.used d.entry (addrsOf F)

namespace Forest

theorem formatted (h : Forest S base F d) : d.Formatted :=
  Disk.formatted_iff.mpr fun b hb hm => h.owned.base_subset (h.meta_base b hb hm)

theorem mem_used (h : Forest S base F d) {x : ι × ℕ × List ℕ} (hx : S.Valid x)
    (h0 : ptrAt F d x ≠ 0) : ptrAt F d x ∈ d.used := h.owned.mem_used hx h0

theorem lt_size (h : Forest S base F d) {x : ι × ℕ × List ℕ} (hx : S.Valid x)
    (h0 : ptrAt F d x ≠ 0) : ptrAt F d x < sb.size := (h.mem_used hx h0).1

theorem not_isMeta (h : Forest S base F d) {x : ι × ℕ × List ℕ} (hx : S.Valid x)
    (h0 : ptrAt F d x ≠ 0) : ¬ IsMeta (ptrAt F d x) :=
  fun hm => h.owned.not_base x hx h0 (h.meta_base _ (h.lt_size hx h0) hm)

omit sb in
theorem ptrAt_congr (hF : ∀ j, (F' j).addrs = (F j).addrs) (hd : d'.block = d.block) :
    ptrAt F' d' = ptrAt F d := by
  have ha : addrsOf F' = addrsOf F := funext hF
  have he : d'.entry = d.entry := by funext b k; rw [Disk.entry, hd, Disk.entry]
  funext x
  rw [ptrAt, ptrAt, ha, he]

/-- The forest depends on the addresses of the inodes and the blocks of the disk only. -/
theorem congr_addrs (h : Forest S base F d) (hF : ∀ j, (F' j).addrs = (F j).addrs)
    (hd : d'.block = d.block) : Forest S base F' d' := by
  have hu : d'.used = d.used := by
    ext b
    simp only [Disk.used, Disk.Marked, hd]
  exact ⟨h.meta_base, hu ▸ h.owned.congr fun x _ => congrFun (ptrAt_congr hF hd) x⟩

theorem zero_not_free (h : Forest S base F d) {b : ℕ} (hb : b < sb.size)
    (hm : ¬ d.Marked b) : b ≠ 0 := by
  rintro rfl
  exact hm (h.formatted 0 hb (Or.inl rfl))

theorem ptr_ne (h : Forest S base F d) {x y : ι × ℕ × List ℕ} (hx : S.Valid x)
    (hy : S.Valid y) (hne : x ≠ y) (h0 : ptrAt F d x ≠ 0) : ptrAt F d x ≠ ptrAt F d y :=
  fun he => hne (h.owned.inj x y hx hy h0 he)

theorem write_leaf (h : Forest S base F d) {x : ι × ℕ × List ℕ} (hx : IsLeaf S x)
    (h0 : ptrAt F d x ≠ 0) (data : Bytes) :
    Forest S base F (d.write (ptrAt F d x) data) ∧
      ∀ y, S.Valid y → ptrAt F (d.write (ptrAt F d x) data) y = ptrAt F d y := by
  have hptr : ∀ y, S.Valid y → ptrAt F (d.write (ptrAt F d x) data) y = ptrAt F d y := by
    refine fun y hy => Shape.ptr_congr (fun j s q k hq hq0 => ?_) hy
    have hne : (j, s, q) ≠ x := by
      rintro rfl
      have hlen := hq.2.1
      have hleaf := hx.2
      simp only [List.length_append, List.length_singleton] at hlen hleaf
      omega
    exact Disk.entry_congr (Disk.write_block_of_ne
      (h.ptr_ne (x := (j, s, q)) hq.of_snoc hx.1 hne hq0)) k
  refine ⟨⟨h.meta_base, ?_⟩, hptr⟩
  rw [Disk.used_write (h.not_isMeta hx.1 h0)]
  exact h.owned.congr hptr

theorem congr_owned (h : Forest S base F d)
    (ho : S.Owned base d'.used d'.entry (addrsOf F')) : Forest S base F' d' :=
  ⟨h.meta_base, ho⟩

end Forest

/-- What one allocating step of `bmap` at the position `x` does: it finds or makes the
block there, or the disk is full and nothing changes. -/
structure Ensures (S : Shape ℕ ℕ) (base : Set ℕ) (x : ι × ℕ × List ℕ) (F F' : ι → Inode)
    (d d' : Disk) (r : ℕ) : Prop where
  forest : Forest S base F' d'
  extends' : Extends S x.1 F F' d d'
  ptr_eq : ptrAt F' d' x = r
  only : ∀ y, S.Valid y → y ≠ x → ptrAt F' d' y = ptrAt F d y
  full : r = 0 → F' = F ∧ d' = d ∧ d.free = ∅
  card : r ≠ 0 → d'.free.card + (if ptrAt F d x = 0 then 1 else 0) = d.free.card

theorem Disk.free_eq_empty {d : Disk} (h : ∀ b < sb.size, d.Marked b) : d.free = ∅ := by
  ext b
  simp only [mem_free, Finset.notMem_empty, iff_false, not_and, not_not]
  exact fun hb => ⟨hb, h b hb⟩

theorem Ensures.of_found (h : Forest S base F d) {x : ι × ℕ × List ℕ}
    (h0 : ptrAt F d x ≠ 0) : Ensures S base x F F d d (ptrAt F d x) where
  forest := h
  extends' := .refl
  ptr_eq := rfl
  only _ _ _ := rfl
  full := fun hr => absurd hr h0
  card := fun _ => by rw [if_neg h0, Nat.add_zero]

theorem Ensures.of_full (h : Forest S base F d) {x : ι × ℕ × List ℕ}
    (h0 : ptrAt F d x = 0) (hf : d.free = ∅) : Ensures S base x F F d d 0 where
  forest := h
  extends' := .refl
  ptr_eq := h0
  only _ _ _ := rfl
  full := fun _ => ⟨rfl, rfl, hf⟩
  card := fun hr => absurd rfl hr

/-- Filling an empty position with the fresh block `b`, when no data block of the old
forest is written. -/
theorem Ensures.of_fresh (h : Forest S base F d) {x : ι × ℕ × List ℕ} {b : ℕ}
    (hx : S.Valid x) (h0 : ptrAt F d x = 0) (hb0 : b ≠ 0) (hb : b < sb.size)
    (hm : ¬ d.Marked b) (hused : d'.used = insert b d.used)
    (hown : S.Owned base (insert b d.used) d'.entry (addrsOf F'))
    (hptr : ptrAt F' d' x = b)
    (honly : ∀ y, S.Valid y → y ≠ x → ptrAt F' d' y = ptrAt F d y)
    (hzero : d'.block b = fun _ => 0)
    (hdata : ∀ y, IsLeaf S y → ptrAt F d y ≠ 0 →
      d'.block (ptrAt F d y) = d.block (ptrAt F d y))
    (hi : ∃ a, F' x.1 = { F x.1 with addrs := a }) (hj : ∀ j, j ≠ x.1 → F' j = F j)
    (hdi : d'.dinodes = d.dinodes) : Ensures S base x F F' d d' b where
  forest := h.congr_owned (hused ▸ hown)
  extends' :=
    { ptr_eq := fun y hy hy0 => honly y hy fun he => hy0 (he ▸ h0)
      data_eq := hdata
      fresh := fun y hy hy0 hy1 => by
        by_cases he : y = x
        · subst he; rw [hptr]; exact hzero
        · exact absurd (honly y hy.1 he ▸ hy0) hy1
      others := fun y hy hyi => honly y hy fun he => hyi (he ▸ rfl)
      inode := hi
      inodes := hj
      dinodes := hdi }
  ptr_eq := hptr
  only := honly
  full := fun hr => absurd hr hb0
  card := fun _ => by
    rw [if_pos h0]
    exact Disk.card_free_of_insert hb (fun hu => hm hu.2) hused

theorem take_entry_self (d : Disk) (b k : ℕ) : (d.take b).entry b k = 0 :=
  Disk.entry_of_zero Disk.take_block_self k

def missing (F : ι → Inode) (d : Disk) (i : ι) (r : ℕ) (p : List ℕ) : ℕ :=
  p.inits.countP fun q => ptrAt F d (i, r, q) = 0

omit sb in
theorem missing_nil (F : ι → Inode) (d : Disk) (i : ι) (r : ℕ) :
    missing F d i r [] = if ptrAt F d (i, r, []) = 0 then 1 else 0 := by
  simp only [missing, List.inits, List.countP_singleton, decide_eq_true_eq]

omit sb in
theorem missing_snoc (F : ι → Inode) (d : Disk) (i : ι) (r : ℕ) (p : List ℕ) (k : ℕ) :
    missing F d i r (p ++ [k]) =
      missing F d i r p + if ptrAt F d (i, r, p ++ [k]) = 0 then 1 else 0 := by
  have hin : (p ++ [k]).inits = p.inits ++ [p ++ [k]] := by simp [List.inits_append]
  rw [missing, missing, hin, List.countP_append, List.countP_singleton]
  simp

/-- What a run of `bmap` does on the way to the position `(i, r, p)`: it finds or makes the
block there, or the disk is full. -/
structure Finds (S : Shape ℕ ℕ) (base : Set ℕ) (i : ι) (r : ℕ) (p : List ℕ)
    (F F' : ι → Inode) (d d' : Disk) (v : ℕ) : Prop where
  forest : Forest S base F' d'
  extends' : Extends S i F F' d d'
  ptr_eq : ptrAt F' d' (i, r, p) = v
  only : ∀ y, S.Valid y → (y.1 = i → y.2.1 = r → ¬ y.2.2 <+: p) →
    ptrAt F' d' y = ptrAt F d y
  full : v = 0 → d'.free = ∅ ∧ d.free.card < missing F d i r p
  card : v ≠ 0 → d'.free.card + missing F d i r p = d.free.card

theorem Ensures.finds {i : ι} {r : ℕ} {v : ℕ}
    (h : Ensures S base (i, r, []) F F' d d' v) : Finds S base i r [] F F' d d' v where
  forest := h.forest
  extends' := h.extends'
  ptr_eq := h.ptr_eq
  only y hy hne := h.only y hy fun he => by subst he; simp at hne
  full hv := by
    obtain ⟨hF, hd, hfree⟩ := h.full hv
    subst hF hd
    have h0 : ptrAt F' d' (i, r, []) = 0 := h.ptr_eq.trans hv
    rw [missing_nil, if_pos h0, hfree]
    simp
  card hv := by rw [missing_nil]; exact h.card hv

theorem Finds.step {F'' : ι → Inode} {d'' : Disk} {i : ι} {r : ℕ} {p : List ℕ} {k v v' : ℕ}
    (h : Finds S base i r p F F' d d' v) (hv : v ≠ 0) (hok : S.Ok r (p ++ [k]))
    (h' : Ensures S base (i, r, p ++ [k]) F' F'' d' d'' v') :
    Finds S base i r (p ++ [k]) F F'' d d'' v' := by
  have hx : ptrAt F' d' (i, r, p ++ [k]) = ptrAt F d (i, r, p ++ [k]) :=
    h.only _ hok fun _ _ hpre => by
      have := hpre.length_le
      simp at this
  refine ⟨h'.forest, h.extends'.trans h'.extends', h'.ptr_eq, fun y hy hne => ?_, fun h0 => ?_,
    fun h0 => ?_⟩
  · have hyx : y ≠ (i, r, p ++ [k]) := by
      rintro rfl
      exact hne rfl rfl (List.prefix_refl _)
    rw [h'.only y hy hyx, h.only y hy fun hi hr hpre =>
      hne hi hr (hpre.trans (List.prefix_append p [k]))]
  · obtain ⟨hF, hd, hfree⟩ := h'.full h0
    subst hF hd
    have hcard := h.card hv
    have hx0 : ptrAt F d (i, r, p ++ [k]) = 0 := by rw [← hx, h'.ptr_eq, h0]
    rw [missing_snoc, if_pos hx0]
    rw [hfree, Finset.card_empty] at hcard
    exact ⟨hfree, by omega⟩
  · have hcard := h.card hv
    have hcard' := h'.card h0
    rw [hx] at hcard'
    rw [missing_snoc]
    omega

theorem Finds.stop {i : ι} {r : ℕ} {p : List ℕ} {k : ℕ} (h : Finds S base i r p F F' d d' 0)
    (hok : S.Ok r (p ++ [k])) : Finds S base i r (p ++ [k]) F F' d d' 0 := by
  have hx' : ptrAt F' d' (i, r, p ++ [k]) = 0 := by
    have hp := h.ptr_eq
    rw [ptrAt] at hp ⊢
    rw [Shape.ptr_snoc, if_pos hp]
  have hx : ptrAt F d (i, r, p ++ [k]) = 0 := by
    by_contra h0
    exact h0 ((h.extends'.ptr_eq (i, r, p ++ [k]) hok h0).symm.trans hx')
  refine ⟨h.forest, h.extends', hx', fun y hy hne => h.only y hy fun hi hr hpre =>
    hne hi hr (hpre.trans (List.prefix_append p [k])), fun _ => ?_, fun h0 => absurd rfl h0⟩
  obtain ⟨hfree, hcard⟩ := h.full rfl
  rw [missing_snoc, if_pos hx]
  exact ⟨hfree, by omega⟩

theorem Finds.of_full {i : ι} {r : ℕ} {p : List ℕ} {v : ℕ} (h : Forest S base F d)
    (hf : Finds S base i r p F F' d d' v) (hfree : d.free = ∅) :
    d'.free = ∅ ∧ ∀ x, S.Valid x → ptrAt F d x = 0 → ptrAt F' d' x = 0 := by
  have hfree' : d'.free = ∅ := by
    rcases eq_or_ne v 0 with rfl | hv
    · exact (hf.full rfl).1
    · have hcard := hf.card hv
      rw [hfree, Finset.card_empty] at hcard
      exact Finset.card_eq_zero.mp (by omega)
  refine ⟨hfree', fun x hx h0 => ?_⟩
  by_contra h1
  -- the block would be in use before, so at another position
  have hused : ptrAt F' d' x ∈ d.used := by
    by_contra hu
    have hmem := Disk.mem_free.mpr ⟨hf.forest.lt_size hx h1, hu⟩
    rw [hfree] at hmem
    exact absurd hmem (Finset.notMem_empty _)
  rcases (h.owned.used_iff _).mp hused with hb | ⟨y, hy, hyx, -⟩
  · exact hf.forest.owned.not_base x hx h1 hb
  · have hy0 : ptrAt F d y ≠ 0 := hyx.trans_ne h1
    have hyp := hf.extends'.ptr_eq y hy hy0
    obtain rfl := hf.forest.owned.inj y x hy hx (hyp.trans_ne hy0) (hyp.trans hyx)
    exact hy0 h0

variable [DecidableEq ι]

theorem addrsBlock_ends (h : Forest S base F d) (i : ι) {k : ℕ} (hk : k ∈ S.roots) :
    ∃ r ip d', Ends (addrsBlock (F i) k) d (r, ip) d' ∧
      Ensures S base (i, k, []) F (Function.update F i ip) d d' r := by
  by_cases h0 : (F i).addrs k = 0
  · unfold addrsBlock
    rw [if_pos h0]
    obtain ⟨r, t, ht, ⟨rfl, rfl, hfull⟩ | ⟨hr, hm, rfl, -⟩⟩ := balloc_ends d
    · refine ⟨0, F i, t, ht.bind (by simp), ?_⟩
      rw [Function.update_eq_self]
      exact .of_full h h0 (Disk.free_eq_empty hfull)
    · have hr0 := h.zero_not_free hr hm
      have hmeta := h.formatted.not_isMeta hr hm
      refine ⟨r, (F i).setAddr k r, d.take r,
        ht.bind (by simp [hr0]), ?_⟩
      have hblock : ∀ y, S.Valid y → ptrAt F d y ≠ 0 →
          (d.take r).block (ptrAt F d y) = d.block (ptrAt F d y) := fun y hy hy0 =>
        Disk.take_block (h.not_isMeta hy hy0) hr fun he => hm (he ▸ (h.mem_used hy hy0).2)
      obtain ⟨F', hF⟩ : ∃ F', F' = Function.update F i ((F i).setAddr k r) := ⟨_, rfl⟩
      have hFi : F' i = (F i).setAddr k r := by rw [hF, Function.update_self]
      have hFj : ∀ j, j ≠ i → F' j = F j := fun j hj => by rw [hF, Function.update_of_ne hj]
      have hroot : addrsOf F' i k = r := by
        show (F' i).addrs k = r
        rw [hFi]
        exact Function.update_self ..
      have hroots : ∀ j s, (j, s) ≠ (i, k) → addrsOf F' j s = addrsOf F j s := by
        intro j s hne
        by_cases hji : j = i
        · subst hji
          show (F' j).addrs s = (F j).addrs s
          rw [hFi]
          exact Function.update_of_ne (fun hs => hne (congrArg (Prod.mk j) hs)) ..
        · show (F' j).addrs s = (F j).addrs s
          rw [hFj j hji]
      obtain ⟨hown, honly⟩ := h.owned.grow_root hk h0 hr0 (fun hu => hm hu.2)
        (take_entry_self d r) (fun y hy hy0 => Disk.entry_congr (hblock y hy hy0)) hroot hroots
      rw [← hF]
      exact .of_fresh h (x := (i, k, [])) ⟨hk, by simp, by simp⟩ h0 hr0 hr hm
        (Disk.used_take hmeta hr) hown hroot honly Disk.take_block_self
        (fun y hy hy0 => hblock y hy.1 hy0) ⟨_, hFi⟩ hFj rfl
  · refine ⟨(F i).addrs k, F i, d, addrsBlock_found h0, ?_⟩
    rw [Function.update_eq_self]
    exact .of_found h h0

omit [DecidableEq ι] in
theorem entryBlock_ends (h : Forest S base F d) {i : ι} {r : ℕ} {p : List ℕ} {k : ℕ}
    (hok : S.Ok r (p ++ [k])) (hp : ptrAt F d (i, r, p) ≠ 0) :
    ∃ v d', Ends (entryBlock (ptrAt F d (i, r, p)) k) d v d' ∧
      Ensures S base (i, r, p ++ [k]) F F d d' v := by
  have hx : ptrAt F d (i, r, p ++ [k]) = d.entry (ptrAt F d (i, r, p)) k := by
    rw [ptrAt, Shape.ptr_snoc, if_neg hp]
  have hpv : S.Valid (i, r, p) := hok.of_snoc
  by_cases h0 : d.entry (ptrAt F d (i, r, p)) k = 0
  · unfold entryBlock
    have hle : (d.block (ptrAt F d (i, r, p))).le (4 * k) 4 = 0 := h0
    obtain ⟨v, t, ht, ⟨rfl, rfl, hfull⟩ | ⟨hv, hm, rfl, -⟩⟩ := balloc_ends d
    · refine ⟨0, t, (ends_bread.mpr ⟨rfl, rfl⟩).bind ?_,
        .of_full h (hx.trans h0) (Disk.free_eq_empty hfull)⟩
      rw [if_pos hle]
      exact ht.bind (by simp)
    · have hv0 := h.zero_not_free hv hm
      have hmeta := h.formatted.not_isMeta hv hm
      have hne : ∀ y, S.Valid y → ptrAt F d y ≠ 0 → ptrAt F d y ≠ v :=
        fun y hy hy0 he => hm (he ▸ (h.mem_used hy hy0).2)
      have htake : ∀ y, S.Valid y → ptrAt F d y ≠ 0 →
          (d.take v).block (ptrAt F d y) = d.block (ptrAt F d y) := fun y hy hy0 =>
        Disk.take_block (h.not_isMeta hy hy0) hv (hne y hy hy0)
      obtain ⟨d', hd'⟩ : ∃ d', d' = (d.take v).write (ptrAt F d (i, r, p))
        ((d.block (ptrAt F d (i, r, p))).putLe (4 * k) 4 v) := ⟨_, rfl⟩
      refine ⟨v, d', (ends_bread.mpr ⟨rfl, rfl⟩).bind ?_, ?_⟩
      · rw [if_pos hle]
        exact ht.bind (by simp [hv0, hd'])
      rw [← htake _ hpv hp] at hd'
      have hzero : d'.block v = fun _ => 0 := by
        rw [hd', Disk.write_block_of_ne (hne _ hpv hp).symm, Disk.take_block_self]
      have hk : d'.entry (ptrAt F d (i, r, p)) k = v := by
        rw [hd']
        exact Disk.entry_write_self (by have := sb.size_lt; omega)
      have hothers : ∀ y, S.Valid y → ptrAt F d y ≠ 0 → ∀ j,
          (ptrAt F d y, j) ≠ (ptrAt F d (i, r, p), k) →
          d'.entry (ptrAt F d y) j = d.entry (ptrAt F d y) j := by
        intro y hy hy0 j hyj
        rw [hd', Disk.entry_write_of_ne hyj, Disk.entry_congr (htake y hy hy0)]
      obtain ⟨hown, honly⟩ := h.owned.grow_entry hok hp h0 hv0 (fun hu => hm hu.2)
        (Disk.entry_of_zero hzero) hk hothers
      have hused : d'.used = insert v d.used := by
        rw [hd', Disk.used_write (h.not_isMeta hpv hp), Disk.used_take hmeta hv]
      have hptr : ptrAt F d' (i, r, p ++ [k]) = v := by
        have hpn : (i, r, p) ≠ (i, r, p ++ [k]) := by simp
        have hpp : ptrAt F d' (i, r, p) = ptrAt F d (i, r, p) := honly _ hpv hpn
        rw [ptrAt, Shape.ptr_snoc]
        rw [ptrAt] at hpp
        rw [hpp, if_neg hp, hk]
      refine .of_fresh h hok (hx.trans h0) hv0 hv hm hused hown hptr honly hzero ?_
        ⟨_, rfl⟩ (fun _ _ => rfl) (by rw [hd']; rfl)
      -- a data block is not the index block: its position ends its tree
      intro y hy hy0
      have hyp : y ≠ (i, r, p) := by
        rintro rfl
        have hlen := hok.2.1
        have hleaf := hy.2
        simp only [List.length_append, List.length_singleton] at hlen hleaf
        omega
      rw [hd', Disk.write_block_of_ne (h.ptr_ne hy.1 hpv hyp hy0), htake y hy.1 hy0]
  · exact ⟨_, d, entryBlock_found h0,
      hx ▸ Ensures.of_found h (x := (i, r, p ++ [k])) (hx ▸ h0)⟩

theorem indirect_ends (h : Forest S base F d) (i : ι) {r k : ℕ} (hok : S.Ok r [k]) :
    ∃ v ip d', Ends (do
        let (addr, ip) ← addrsBlock (F i) r
        if addr = 0 then return (0, ip)
        else do
          let addr ← entryBlock addr k
          return (addr, ip)) d (v, ip) d' ∧
      Finds S base i r [k] F (Function.update F i ip) d d' v := by
  have hok' : S.Ok r ([] ++ [k]) := hok
  obtain ⟨b, ip, d', he, hens⟩ := addrsBlock_ends h i hok.1
  by_cases hb : b = 0
  · subst hb
    exact ⟨0, ip, d', he.bind (by simp), hens.finds.stop hok'⟩
  · obtain ⟨v, d'', he', hens'⟩ := entryBlock_ends hens.forest hok' (hens.ptr_eq.trans_ne hb)
    rw [hens.ptr_eq] at he'
    refine ⟨v, ip, d'', he.bind ?_, hens.finds.step hb hok' hens'⟩
    simp only [if_neg hb]
    exact he'.bind (by simp)

theorem double_ends (h : Forest S base F d) (i : ι) {r j k : ℕ} (hok : S.Ok r [j, k]) :
    ∃ v ip d', Ends (do
        let (addr, ip) ← addrsBlock (F i) r
        if addr = 0 then return (0, ip)
        else do
          let addr ← entryBlock addr j
          if addr = 0 then return (0, ip)
          else do
            let addr ← entryBlock addr k
            return (addr, ip)) d (v, ip) d' ∧
      Finds S base i r [j, k] F (Function.update F i ip) d d' v := by
  have hok₂ : S.Ok r ([j] ++ [k]) := hok
  have hok₁ : S.Ok r ([] ++ [j]) := hok₂.of_snoc
  obtain ⟨b, ip, d', he, hens⟩ := addrsBlock_ends h i hok.1
  by_cases hb : b = 0
  · subst hb
    exact ⟨0, ip, d', he.bind (by simp), (hens.finds.stop hok₁).stop hok₂⟩
  · obtain ⟨c, d₁, he₁, hens₁⟩ := entryBlock_ends hens.forest hok₁ (hens.ptr_eq.trans_ne hb)
    rw [hens.ptr_eq] at he₁
    have hfinds := hens.finds.step hb hok₁ hens₁
    by_cases hc : c = 0
    · subst hc
      refine ⟨0, ip, d₁, he.bind ?_, hfinds.stop hok₂⟩
      simp only [if_neg hb]
      exact he₁.bind (by simp)
    · obtain ⟨v, d₂, he₂, hens₂⟩ := entryBlock_ends hens₁.forest hok₂ (hens₁.ptr_eq.trans_ne hc)
      have hp₁ := hens₁.ptr_eq
      rw [List.nil_append] at hp₁
      rw [hp₁] at he₂
      refine ⟨v, ip, d₂, he.bind ?_, hfinds.step hc hok₂ hens₂⟩
      simp only [if_neg hb]
      refine he₁.bind ?_
      simp only [if_neg hc]
      exact he₂.bind (by simp)

end Forest

end Xv6Sheet
