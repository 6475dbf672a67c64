import Mathlib.Data.Set.Insert
import Xv6Sheet.Disk.Layout

/-! # The block allocator

`balloc` and `bfree` over the bitmap. On a disk whose bitmap blocks are marked in use,
they take a block out of the set of free blocks and put it back.
-/

namespace Xv6Sheet

open Exec

variable [sb : Superblock]

def bzero (bno : ℕ) : DiskM Unit := logWrite bno fun _ => 0

/-- Look at the bits of the bitmap block that holds the bit of block `b`, and take the
first free one. -/
def ballocFrom (b : ℕ) : DiskM (Option ℕ) := do
  let bp ← bread (bblock b)
  search (fun bi =>
    if bp.testBit bi then return none
    else do
      logWrite (bblock b) (bp.setBit bi)
      bzero (b + bi)
      return some (b + bi)) 0 (min BPB (sb.size - b))

def balloc : DiskM ℕ := do
  let found ← search (fun j => ballocFrom (j * BPB)) 0 ((sb.size + BPB - 1) / BPB)
  return found.getD 0

def bfree (b : ℕ) : DiskM Unit := do
  let bp ← bread (bblock b)
  let bi := b % BPB
  if bp.testBit bi then logWrite (bblock b) (bp.clearBit bi)
  else panicAt "freeing free block"

namespace Disk

/-- The bit of block `b` is set in the bitmap. -/
def Marked (d : Disk) (b : ℕ) : Prop := (d.block (bblock b)).testBit (b % BPB)

instance (d : Disk) (b : ℕ) : Decidable (d.Marked b) :=
  inferInstanceAs (Decidable (Bytes.testBit _ _))

/-- The disk after `balloc` took block `b`. -/
def take (d : Disk) (b : ℕ) : Disk :=
  (d.write (bblock b) ((d.block (bblock b)).setBit (b % BPB))).write b fun _ => 0

/-- The disk after `bfree` gave block `b` back. -/
def give (d : Disk) (b : ℕ) : Disk :=
  d.write (bblock b) ((d.block (bblock b)).clearBit (b % BPB))

def used (d : Disk) : Set ℕ := {b | b < sb.size ∧ d.Marked b}

end Disk

def IsMeta (b : ℕ) : Prop := b = 0 ∨ ∃ c < sb.size, bblock c = b

def Disk.Formatted (d : Disk) : Prop := ∀ b < sb.size, IsMeta b → d.Marked b

theorem bblock_mul_add {j bi : ℕ} (h : bi < BPB) : bblock (j * BPB + bi) = bblock (j * BPB) := by
  simp only [bblock, BPB, BSIZE] at *
  omega

omit sb in
theorem mul_add_mod_BPB {j bi : ℕ} (h : bi < BPB) : (j * BPB + bi) % BPB = bi := by
  simp only [BPB, BSIZE] at *
  omega

theorem ballocFrom_ends (d : Disk) (j : ℕ) :
    ∃ r t, Ends (ballocFrom (j * BPB)) d r t ∧
      ((r = none ∧ t = d ∧ ∀ b, j * BPB ≤ b → b < min (j * BPB + BPB) sb.size → d.Marked b) ∨
        ∃ b, r = some b ∧ b < sb.size ∧ ¬ d.Marked b ∧ t = d.take b ∧
          ∀ c, j * BPB ≤ c → c < b → d.Marked c) := by
  obtain ⟨r, t, ht, hres⟩ := search_ends
    (f := fun bi => if (d.block (bblock (j * BPB))).testBit bi then return none
      else do
        logWrite (bblock (j * BPB)) ((d.block (bblock (j * BPB))).setBit bi)
        bzero (j * BPB + bi)
        return some (j * BPB + bi))
    (I := fun bi s => s = d ∧ ∀ b, j * BPB ≤ b → b < j * BPB + bi → d.Marked b)
    (Q := fun b t => b < sb.size ∧ ¬ d.Marked b ∧ t = d.take b ∧
      ∀ c, j * BPB ≤ c → c < b → d.Marked c)
    (k := 0) (n := min BPB (sb.size - j * BPB)) (s := d)
    ⟨rfl, fun b hb hb' => absurd hb' (by omega)⟩
    (by
      rintro bi s - hbi ⟨rfl, hpre⟩
      have hlt : bi < BPB := by omega
      have hm : s.Marked (j * BPB + bi) ↔ (s.block (bblock (j * BPB))).testBit bi := by
        rw [Disk.Marked, bblock_mul_add hlt, mul_add_mod_BPB hlt]
      by_cases hb : (s.block (bblock (j * BPB))).testBit bi
      · refine ⟨none, s, by simp [hb], Or.inl ⟨rfl, rfl, fun b hb' hlt' => ?_⟩⟩
        rcases Nat.lt_or_ge b (j * BPB + bi) with h | h
        · exact hpre b hb' h
        · obtain rfl : b = j * BPB + bi := by omega
          exact hm.mpr hb
      · refine ⟨some (j * BPB + bi), s.take (j * BPB + bi), ?_, Or.inr ⟨_, rfl, by omega,
          fun h => hb (hm.mp h), rfl, hpre⟩⟩
        simp [hb, bzero, Disk.take, bblock_mul_add hlt, mul_add_mod_BPB hlt])
  refine ⟨r, t, ?_, ?_⟩
  · unfold ballocFrom
    exact (ends_bread.mpr ⟨rfl, rfl⟩).bind ht
  · rcases hres with ⟨rfl, rfl, h⟩ | ⟨b, rfl, h⟩
    · exact Or.inl ⟨rfl, rfl, fun b hb hb' => h b hb (by omega)⟩
    · exact Or.inr ⟨b, rfl, h⟩

/-- `balloc` takes the lowest free block, or answers 0 and changes nothing when every
block is in use. -/
theorem balloc_ends (d : Disk) :
    ∃ r t, Ends balloc d r t ∧
      ((r = 0 ∧ t = d ∧ ∀ b < sb.size, d.Marked b) ∨
        (r < sb.size ∧ ¬ d.Marked r ∧ t = d.take r ∧ ∀ c < r, d.Marked c)) := by
  obtain ⟨r, t, ht, hres⟩ := search_ends
    (f := fun j => ballocFrom (j * BPB))
    (I := fun j s => s = d ∧ ∀ b, b < min (j * BPB) sb.size → d.Marked b)
    (Q := fun b t => b < sb.size ∧ ¬ d.Marked b ∧ t = d.take b ∧ ∀ c < b, d.Marked c)
    (k := 0) (n := (sb.size + BPB - 1) / BPB) (s := d)
    ⟨rfl, fun b hb => by simp at hb⟩
    (by
      rintro j s - - ⟨rfl, hpre⟩
      obtain ⟨r, t, ht, ⟨rfl, rfl, h⟩ | ⟨b, rfl, hb, hm, rfl, h⟩⟩ := ballocFrom_ends s j
      · refine ⟨none, t, ht, Or.inl ⟨rfl, rfl, fun b hb => ?_⟩⟩
        rcases Nat.lt_or_ge b (j * BPB) with hlt | hge
        · exact hpre b (by omega)
        · exact h b hge (by rw [Nat.succ_mul] at hb; omega)
      · refine ⟨some b, _, ht, Or.inr ⟨b, rfl, hb, hm, rfl, fun c hc => ?_⟩⟩
        rcases Nat.lt_or_ge c (j * BPB) with hlt | hge
        · exact hpre c (by omega)
        · exact h c hge hc)
  refine ⟨r.getD 0, t, ht.bind (by simp), ?_⟩
  rcases hres with ⟨rfl, rfl, h⟩ | ⟨b, rfl, h⟩
  · refine Or.inl ⟨rfl, rfl, fun b hb => h b ?_⟩
    simp only [BPB, BSIZE]
    omega
  · exact Or.inr h

theorem bfree_ends {d : Disk} {b : ℕ} (h : d.Marked b) : Ends (bfree b) d () (d.give b) := by
  unfold bfree
  refine (ends_bread.mpr ⟨rfl, rfl⟩).bind ?_
  have hb : (d.block (bblock b)).testBit (b % BPB) := h
  simp [hb, Disk.give]

namespace Disk

variable {d : Disk} {b c : ℕ}

theorem eq_of_bblock {b c : ℕ} (h : bblock b = bblock c) (h' : b % BPB = c % BPB) : b = c := by
  simp only [bblock, BPB, BSIZE] at *
  omega

theorem marked_congr {d' : Disk} (h : d'.block (bblock b) = d.block (bblock b)) :
    d'.Marked b ↔ d.Marked b := by
  rw [Marked, Marked, h]

theorem marked_write {data : Bytes} (hb : ¬ IsMeta b) (hc : c < sb.size) :
    (d.write b data).Marked c ↔ d.Marked c :=
  marked_congr (write_block_of_ne fun h => hb (Or.inr ⟨c, hc, h⟩))

theorem marked_give : (d.give b).Marked c ↔ c ≠ b ∧ d.Marked c := by
  unfold Marked give
  by_cases h : bblock c = bblock b
  · rw [h, write_block_self, Bytes.testBit_clearBit]
    refine and_congr_left fun _ => not_congr ⟨eq_of_bblock h, fun h => h ▸ rfl⟩
  · rw [write_block_of_ne h]
    exact ⟨fun hm => ⟨fun hc => h (hc ▸ rfl), hm⟩, fun hm => hm.2⟩

theorem give_block (h : ¬ IsMeta c) (hb : b < sb.size) : (d.give b).block c = d.block c :=
  write_block_of_ne fun he => h (Or.inr ⟨b, hb, he.symm⟩)

@[simp] theorem give_dinodes : (d.give b).dinodes = d.dinodes := rfl
@[simp] theorem take_dinodes : (d.take b).dinodes = d.dinodes := rfl

theorem Formatted.not_isMeta (h : d.Formatted) (hb : b < sb.size) (hm : ¬ d.Marked b) :
    ¬ IsMeta b := fun h' => hm (h b hb h')

theorem marked_take (hb : ¬ IsMeta b) (hc : c < sb.size) :
    (d.take b).Marked c ↔ c = b ∨ d.Marked c := by
  unfold take
  rw [marked_write hb hc]
  unfold Marked
  by_cases h : bblock c = bblock b
  · rw [h, write_block_self, Bytes.testBit_setBit]
    exact or_congr_left ⟨eq_of_bblock h, fun h => h ▸ rfl⟩
  · rw [write_block_of_ne h]
    exact ⟨Or.inr, fun hm => hm.resolve_left fun hc => h (hc ▸ rfl)⟩

theorem take_block_self : (d.take b).block b = fun _ => 0 := write_block_self _ _ _

theorem take_block (hc : ¬ IsMeta c) (hb : b < sb.size) (hne : c ≠ b) :
    (d.take b).block c = d.block c := by
  unfold take
  rw [write_block_of_ne hne, write_block_of_ne fun he => hc (Or.inr ⟨b, hb, he.symm⟩)]

theorem used_take (hm : ¬ IsMeta b) (hb : b < sb.size) : (d.take b).used = insert b d.used := by
  ext c
  simp only [used, Set.mem_ofPred_eq, Set.mem_insert_iff]
  constructor
  · rintro ⟨hc, h⟩
    exact ((marked_take hm hc).mp h).imp_right fun h => ⟨hc, h⟩
  · rintro (rfl | ⟨hc, h⟩)
    · exact ⟨hb, (marked_take hm hb).mpr (Or.inl rfl)⟩
    · exact ⟨hc, (marked_take hm hc).mpr (Or.inr h)⟩

theorem used_give : (d.give b).used = d.used \ {b} := by
  ext c
  simp only [used, Set.mem_ofPred_eq, Set.mem_sdiff, Set.mem_singleton_iff, marked_give]
  tauto

theorem used_write {data : Bytes} (hb : ¬ IsMeta b) : (d.write b data).used = d.used := by
  ext c
  exact and_congr_right fun hc => marked_write hb hc

@[simp] theorem used_setDinode (d : Disk) (i : ℕ) (dip : Dinode) :
    (d.setDinode i dip).used = d.used := rfl

theorem formatted_iff : d.Formatted ↔ ∀ b < sb.size, IsMeta b → b ∈ d.used :=
  forall_congr' fun _ => forall_congr' fun hb => forall_congr' fun _ =>
    ⟨fun h => ⟨hb, h⟩, fun h => h.2⟩

end Disk

end Xv6Sheet
