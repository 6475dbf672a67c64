import Mathlib.Order.Bounds.Basic
import Xv6Sheet.Disk.Store

/-! # The set of free blocks

`balloc` and `bfree` take the least element out of the set of free blocks and put a block back
into it. Both find the bit of a block in the same place.
-/

namespace Xv6Sheet

open Exec

theorem Bytes.clearBit_setBit {b : Bytes} {i : ℕ} (h : ¬ b.testBit i) :
    (b.setBit i).clearBit i = b := by
  have hbit : (b (i / 8)).toBitVec.getLsbD (i % 8) = false := by
    unfold Bytes.testBit at h
    rwa [Bytes.and_mask_ne_zero_iff, Bool.not_eq_true] at h
  unfold Bytes.clearBit Bytes.setBit
  rw [Function.update_self, Function.update_idem]
  refine Function.update_eq_self_iff.mpr
    (UInt8.toBitVec_inj.mp (BitVec.eq_of_getLsbD_eq fun j hj => ?_))
  rw [UInt8.toBitVec_and, UInt8.toBitVec_or, UInt8.toBitVec_not, BitVec.getLsbD_and,
    BitVec.getLsbD_or, BitVec.getLsbD_not, Bytes.mask_getLsbD]
  by_cases hji : j = i % 8
  · rw [hji, hbit]
    simp
  · simp [hji, hj]

variable [sb : Superblock]

/-- The bit belongs to a bitmap block of the disk. It may stand for no block. -/
def IsBit (c : ℕ) : Prop := ∃ b < sb.size, bblock b = bblock c

namespace Disk

variable {d d' t : Disk} {b c r : ℕ}

theorem mem_free_iff : b ∈ d.free ↔ b < sb.size ∧ ¬ d.Marked b := by
  rw [mem_free, used, Set.mem_ofPred_eq, not_and]
  exact and_congr_right fun hb => ⟨fun h => h hb, fun h _ => h⟩

/-- The bit of one block has changed in the bitmap, and no other bit of it. All blocks but this one
and the one that holds its bit are as they were, block 0 as well. -/
structure OneBit (d : Disk) (b : ℕ) (d' : Disk) : Prop where
  self : d'.Marked b ↔ ¬ d.Marked b
  other : ∀ c, c ≠ b → IsBit c → (d'.Marked c ↔ d.Marked c)
  block : ∀ c, c ≠ b → c ≠ bblock b → d'.block c = d.block c
  dinodes : d'.dinodes = d.dinodes

theorem not_isMeta_of_mem_free (h : d.Formatted) (hb : b ∈ d.free) : ¬ IsMeta b :=
  h.not_isMeta (mem_free_iff.mp hb).1 (mem_free_iff.mp hb).2

theorem oneBit_take (h : d.Formatted) (hb : b ∈ d.free) : d.OneBit b (d.take b) := by
  have hmeta := not_isMeta_of_mem_free h hb
  obtain ⟨hlt, hclear⟩ := mem_free_iff.mp hb
  have hmarked : ∀ c, IsBit c → ((d.take b).Marked c ↔ c = b ∨ d.Marked c) := by
    rintro c ⟨e, he, hec⟩
    unfold take Marked
    rw [write_block_of_ne fun hcb => hmeta (.inr ⟨e, he, hec.trans hcb⟩)]
    by_cases hc : bblock c = bblock b
    · rw [hc, write_block_self, Bytes.testBit_setBit]
      exact or_congr_left ⟨eq_of_bblock hc, fun h => h ▸ rfl⟩
    · rw [write_block_of_ne hc]
      exact ⟨.inr, fun hm => hm.resolve_left fun hcb => hc (hcb ▸ rfl)⟩
  refine ⟨?_, fun c hc hbit => ?_, fun c hc hbit => ?_, rfl⟩
  · rw [hmarked b ⟨b, hlt, rfl⟩]
    exact iff_of_true (.inl rfl) hclear
  · rw [hmarked c hbit]
    exact or_iff_right hc
  · unfold take
    rw [write_block_of_ne hc, write_block_of_ne hbit]

theorem oneBit_give (hb : b < sb.size) (hm : d.Marked b) : d.OneBit b (d.give b) where
  self := by
    rw [marked_give]
    exact iff_of_false (fun h => h.1 rfl) (not_not_intro hm)
  other c hc _ := by
    rw [marked_give]
    exact and_iff_right hc
  block c _ hbit := write_block_of_ne hbit
  dinodes := rfl

/-- Allocation from a set of free blocks: the least one is taken, and none when it is empty. -/
theorem wp_balloc (h : d.Formatted) : ∃ r t, Ends balloc d r t ∧ (d.free = ∅ → r = 0 ∧ t = d) ∧
    (d.free.Nonempty → r ≠ 0 ∧ IsLeast ↑d.free r ∧ t = d.take r) := by
  obtain ⟨r, t, ht, ⟨rfl, rfl, hall⟩ | ⟨hr, hclear, rfl, hleast⟩⟩ := balloc_ends d
  · refine ⟨0, t, ht, fun _ => ⟨rfl, rfl⟩, ?_⟩
    rintro ⟨b, hb⟩
    obtain ⟨hlt, hclear⟩ := mem_free_iff.mp hb
    exact absurd (hall b hlt) hclear
  · have hmem : r ∈ d.free := mem_free_iff.mpr ⟨hr, hclear⟩
    refine ⟨r, _, ht, fun hempty => ?_, fun _ => ⟨?_, ⟨hmem, fun c hc => ?_⟩, rfl⟩⟩
    · rw [hempty] at hmem
      exact absurd hmem (Finset.notMem_empty r)
    · rintro rfl
      exact not_isMeta_of_mem_free h hmem (.inl rfl)
    · exact Nat.le_of_not_lt fun hlt => (mem_free_iff.mp hc).2 (hleast c hlt)

theorem give_take (h : d.Formatted) (hb : b ∈ d.free) (hc : IsBit c) :
    ((d.take b).give b).block (bblock c) = d.block (bblock c) := by
  have hmeta := not_isMeta_of_mem_free h hb
  obtain ⟨hlt, hclear⟩ := mem_free_iff.mp hb
  obtain ⟨e, he, hec⟩ := hc
  have hne : ∀ {e : ℕ}, e < sb.size → bblock e ≠ b := fun he heb => hmeta (.inr ⟨_, he, heb⟩)
  rw [← hec]
  unfold give take
  by_cases heb : bblock e = bblock b
  · rw [heb, write_block_self, write_block_of_ne (hne hlt), write_block_self]
    exact Bytes.clearBit_setBit hclear
  · rw [write_block_of_ne heb, write_block_of_ne (hne he), write_block_of_ne heb]

end Disk

open Disk

variable {d : Disk}

/-- `balloc` and `bfree` are the operations of a set of free blocks. -/
theorem free_blocks_exact (h : d.Formatted) :
    (∃ r t, Ends balloc d r t ∧ (d.free = ∅ → r = 0 ∧ t = d) ∧
      (d.free.Nonempty → r ≠ 0 ∧ IsLeast ↑d.free r ∧ d.OneBit r t ∧ t.block r = fun _ => 0)) ∧
    (∀ d' r t r' t', (∀ b < sb.size, d'.Marked b ↔ d.Marked b) → Ends balloc d r t →
      Ends balloc d' r' t' → r' = r) ∧
    (∀ b < sb.size, (d.Marked b → ∃ t, Ends (bfree b) d () t ∧ d.OneBit b t ∧
      (¬ IsMeta b → t.block b = d.block b)) ∧
      ∀ e, Faults (bfree b) d e ↔ e = .panic "freeing free block" ∧ ¬ d.Marked b) ∧
    ∀ r t, Ends balloc d r t → r ≠ 0 → ∃ u, Ends (bfree r) t () u ∧
      ∀ c, IsBit c → u.block (bblock c) = d.block (bblock c) := by
  obtain ⟨r, t, ht, hfull, hfree⟩ := wp_balloc h
  refine ⟨⟨r, t, ht, hfull, fun hne => ?_⟩,
    fun d' r₁ t₁ r₂ t₂ hsame h₁ h₂ => ?_, fun b hb => ⟨fun hm => ?_,
    fun e => ?_⟩, fun r₁ t₁ h₁ h0 => ?_⟩
  · obtain ⟨h0, hleast, rfl⟩ := hfree hne
    exact ⟨h0, hleast, oneBit_take h hleast.1, take_block_self⟩
  · have hset : d'.free = d.free := Finset.ext fun b => by
      rw [mem_free_iff, mem_free_iff]
      exact and_congr_right fun hb => not_congr (hsame b hb)
    have hformat : d'.Formatted := fun b hb hm => (hsame b hb).mpr (h b hb hm)
    obtain ⟨rfl, -⟩ := ht.unique h₁
    obtain ⟨r', t', ht', hfull', hfree'⟩ := wp_balloc hformat
    obtain ⟨rfl, -⟩ := ht'.unique h₂
    rw [hset] at hfull' hfree'
    rcases Finset.eq_empty_or_nonempty d.free with hempty | hne
    · rw [(hfull hempty).1, (hfull' hempty).1]
    · exact (hfree' hne).2.1.unique (hfree hne).2.1
  · exact ⟨_, bfree_ends hm, oneBit_give hb hm, fun hmeta => give_block hmeta hb⟩
  · unfold bfree
    by_cases hm : d.Marked b
    · have hbit : (d.block (bblock b)).testBit (b % BPB) := hm
      simp [hbit, hm]
    · have hbit : ¬ (d.block (bblock b)).testBit (b % BPB) := hm
      simp [hbit, hm]
  · obtain ⟨rfl, rfl⟩ := ht.unique h₁
    have hne : d.free.Nonempty := Finset.nonempty_iff_ne_empty.mpr fun hempty => h0 (hfull hempty).1
    obtain ⟨-, hleast, rfl⟩ := hfree hne
    have hmarked : (d.take r).Marked r :=
      (marked_take (not_isMeta_of_mem_free h hleast.1) (mem_free_iff.mp hleast.1).1).mpr (.inl rfl)
    exact ⟨_, bfree_ends hmarked, fun c hc => give_take h hleast.1 hc⟩

omit sb in
/-- The first block after the metadata is taken. -/
theorem free_blocks_small :
    letI := smallDisk
    ∃ r t, Ends balloc freshDisk r t ∧ r ≠ 0 ∧ IsLeast ↑freshDisk.free r := by
  let _ := smallDisk
  obtain ⟨⟨r, t, ht, -, hfree⟩, -⟩ := free_blocks_exact formatted_freshDisk
  have hmem : 4 ∈ freshDisk.free := mem_free_iff.mpr (by decide)
  obtain ⟨h0, hleast, -⟩ := hfree ⟨4, hmem⟩
  exact ⟨r, t, ht, h0, hleast⟩

end Xv6Sheet
