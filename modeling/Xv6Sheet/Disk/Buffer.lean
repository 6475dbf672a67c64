import Mathlib.Data.Finset.Basic
import Xv6Sheet.Disk.Bitmap

/-! # Buffers held and released

The buffer cache below the programs on the disk: `bread` locks the buffer of its block until
`brelse` releases it. A buffered program follows a program on the disk when it does the same
and leaves the buffers it found locked, and no others.
-/

namespace Xv6Sheet

open Exec

/-- The disk and the blocks whose buffers the caller holds. -/
structure Buffers where
  disk : Disk
  held : Finset ℕ

abbrev BufM (α : Type) := Exec Buffers Fault α

namespace Buffered

/-- Return a locked buffer with the contents of the block. Who holds it already waits forever. -/
def bread (b : ℕ) : BufM Bytes := do
  let s ← get
  if b ∈ s.held then throw .deadlock
  else do
    set { s with held := insert b s.held }
    return s.disk.block b

def brelse (b : ℕ) : BufM Unit := do
  let s ← get
  if b ∈ s.held then set { s with held := s.held.erase b }
  else panicAt "brelse"

def logWrite (b : ℕ) (data : Bytes) : BufM Unit :=
  modify fun s => { s with disk := s.disk.write b data }

variable {α β : Type} {d t : Disk} {held : Finset ℕ} {b : ℕ}

theorem bread_ends (h : b ∉ held) :
    Ends (bread b) ⟨d, held⟩ (d.block b) ⟨d, insert b held⟩ := by
  refine ends_get_bind.mpr ?_
  rw [if_neg h]
  simp

theorem brelse_ends (h : b ∉ held) : Ends (brelse b) ⟨d, insert b held⟩ () ⟨d, held⟩ := by
  refine ends_get_bind.mpr ?_
  rw [if_pos (Finset.mem_insert_self b held), ends_set, Finset.erase_insert h]

theorem logWrite_ends (data : Bytes) :
    Ends (logWrite b data) ⟨d, held⟩ () ⟨d.write b data, held⟩ := ends_modify.mpr rfl

/-- From the disk `d`, the buffered program does what the program on the disk does, and the
buffers held are the same in the end. -/
def Follows (held : Finset ℕ) (m' : BufM α) (m : DiskM α) (d : Disk) : Prop :=
  ∀ a t, Ends m d a t → Ends m' ⟨d, held⟩ a ⟨t, held⟩

namespace Follows

theorem pure (a : α) : Follows held (Pure.pure a) (Pure.pure a) d := by
  rintro b t h
  obtain ⟨rfl, rfl⟩ := ends_pure.mp h
  exact ends_pure.mpr ⟨rfl, rfl⟩

theorem bind {m' : BufM α} {m : DiskM α} {f' : α → BufM β} {f : α → DiskM β}
    (h : Follows held m' m d) (hf : ∀ a t, Ends m d a t → Follows held (f' a) (f a) t) :
    Follows held (m' >>= f') (m >>= f) d := by
  intro b u he
  obtain ⟨a, t, hm, hu⟩ := ends_bind.mp he
  exact (h a t hm).bind (hf a t hm b u hu)

theorem ite {p : Prop} [Decidable p] {m' n' : BufM α} {m n : DiskM α}
    (hm : p → Follows held m' m d) (hn : ¬ p → Follows held n' n d) :
    Follows held (if p then m' else n') (if p then m else n) d := by
  split
  · exact hm ‹_›
  · exact hn ‹_›

end Follows

variable [sb : Superblock]

def bzero (bno : ℕ) : BufM Unit := do
  let _ ← bread bno
  logWrite bno fun _ => 0
  brelse bno

/-- Look at the bits of the bitmap block that holds the bit of block `b`, and take the
first free one. -/
def ballocFrom (b : ℕ) : BufM (Option ℕ) := do
  let bp ← bread (bblock b)
  let found ← search (fun bi =>
    if bp.testBit bi then return none
    else do
      logWrite (bblock b) (bp.setBit bi)
      brelse (bblock b)
      bzero (b + bi)
      return some (b + bi)) 0 (min BPB (sb.size - b))
  if found.isNone then brelse (bblock b)
  return found

def balloc : BufM ℕ := do
  let found ← search (fun j => ballocFrom (j * BPB)) 0 ((sb.size + BPB - 1) / BPB)
  return found.getD 0

omit sb in
theorem bzero_ends (h : b ∉ held) :
    Ends (bzero b) ⟨d, held⟩ () ⟨d.write b fun _ => 0, held⟩ :=
  (bread_ends h).bind ((logWrite_ends _).bind (brelse_ends h))

def Settled (d : Disk) (held : Finset ℕ) : Prop := ∀ b ∈ held, d.Marked b ∧ ¬ IsMeta b

/-- The loop over the bits of the bitmap block `j`, which is released as soon as a bit is
found. -/
theorem bits_ends (h : Settled d held) {j k n : ℕ} (hn : j * BPB + (k + n) ≤ sb.size)
    (hk : k + n ≤ BPB) {o : Option ℕ}
    (he : Ends (search (fun bi =>
      if (d.block (bblock (j * BPB))).testBit bi then return none
      else do
        Xv6Sheet.logWrite (bblock (j * BPB)) ((d.block (bblock (j * BPB))).setBit bi)
        Xv6Sheet.bzero (j * BPB + bi)
        return some (j * BPB + bi)) k n) d o t) :
    Ends (search (fun bi =>
      if (d.block (bblock (j * BPB))).testBit bi then return none
      else do
        logWrite (bblock (j * BPB)) ((d.block (bblock (j * BPB))).setBit bi)
        brelse (bblock (j * BPB))
        bzero (j * BPB + bi)
        return some (j * BPB + bi)) k n) ⟨d, insert (bblock (j * BPB)) held⟩ o
      ⟨t, if o.isNone then insert (bblock (j * BPB)) held else held⟩ := by
  induction n generalizing k with
  | zero =>
    obtain ⟨rfl, rfl⟩ := ends_pure.mp he
    exact ends_pure.mpr ⟨rfl, rfl⟩
  | succ n ih =>
    rw [search_succ] at he ⊢
    obtain ⟨r, u, hr, hrest⟩ := ends_bind.mp he
    by_cases hbit : (d.block (bblock (j * BPB))).testBit k
    · rw [if_pos hbit] at hr
      obtain ⟨rfl, rfl⟩ := ends_pure.mp hr
      have hnone : Ends (return none : BufM (Option ℕ)) ⟨u, insert (bblock (j * BPB)) held⟩ none
          ⟨u, insert (bblock (j * BPB)) held⟩ := ends_pure.mpr ⟨rfl, rfl⟩
      rw [if_pos hbit]
      exact hnone.bind (ih (by omega) (by omega) hrest)
    · rw [if_neg hbit] at hr ⊢
      have hlt : j * BPB + k < sb.size := by omega
      have hbb : bblock (j * BPB + k) = bblock (j * BPB) := bblock_mul_add (by omega)
      have hmap : bblock (j * BPB) ∉ held := fun hb => (h _ hb).2 (Or.inr ⟨_, hlt, hbb⟩)
      have hfree : j * BPB + k ∉ held := fun hb => by
        have hm := (h _ hb).1
        rw [Disk.Marked, hbb, mul_add_mod_BPB (by omega)] at hm
        exact hbit hm
      obtain ⟨rfl, rfl⟩ : u = (d.write (bblock (j * BPB))
            ((d.block (bblock (j * BPB))).setBit k)).write (j * BPB + k) (fun _ => 0) ∧
          r = some (j * BPB + k) := by
        simpa [Xv6Sheet.bzero] using hr
      obtain ⟨rfl, rfl⟩ := ends_pure.mp hrest
      have htake : Ends (do
          logWrite (bblock (j * BPB)) ((d.block (bblock (j * BPB))).setBit k)
          brelse (bblock (j * BPB))
          bzero (j * BPB + k)
          return some (j * BPB + k) : BufM (Option ℕ)) ⟨d, insert (bblock (j * BPB)) held⟩
          (some (j * BPB + k)) ⟨_, held⟩ :=
        (logWrite_ends _).bind ((brelse_ends hmap).bind ((bzero_ends hfree).bind
          (ends_pure.mpr ⟨rfl, rfl⟩)))
      exact htake.bind (ends_pure.mpr ⟨rfl, rfl⟩)

theorem ballocFrom_follows (h : Settled d held) {j : ℕ} (hj : j * BPB < sb.size) :
    Follows held (ballocFrom (j * BPB)) (Xv6Sheet.ballocFrom (j * BPB)) d := by
  intro o t he
  have hmap : bblock (j * BPB) ∉ held := fun hb => (h _ hb).2 (Or.inr ⟨_, hj, rfl⟩)
  obtain ⟨_, _, hread, hloop⟩ := ends_bind.mp he
  obtain ⟨rfl, rfl⟩ := ends_bread.mp hread
  refine (bread_ends hmap).bind ((bits_ends h (by omega) (by omega) hloop).bind ?_)
  cases o with
  | none => exact (brelse_ends hmap).bind (ends_pure.mpr ⟨rfl, rfl⟩)
  | some b => simp

theorem balloc_follows (h : Settled d held) : Follows held balloc Xv6Sheet.balloc d := by
  refine .bind ?_ fun found t _ => .pure _
  -- the blocks before `k` have no free bit, so the disk is still `d`
  have hloop : ∀ n k, k + n ≤ (sb.size + BPB - 1) / BPB →
      Follows held (search (fun j => ballocFrom (j * BPB)) k n)
        (search (fun j => Xv6Sheet.ballocFrom (j * BPB)) k n) d := by
    intro n
    induction n with
    | zero => exact fun k _ => .pure none
    | succ n ih =>
      intro k hk
      have hlt : k * BPB < sb.size := by
        simp only [BPB, BSIZE] at *
        omega
      rw [search_succ, search_succ]
      refine .bind (ballocFrom_follows h hlt) fun o t he => ?_
      cases o with
      | some b => exact .pure (some b)
      | none =>
        obtain ⟨r, t', he', ⟨-, rfl, -⟩ | ⟨b, rfl, -⟩⟩ := ballocFrom_ends d k
        · obtain ⟨-, rfl⟩ := he.unique he'
          exact ih (k + 1) (by omega)
        · cases (he.unique he').1
  exact hloop _ 0 (by omega)

end Buffered

end Xv6Sheet
