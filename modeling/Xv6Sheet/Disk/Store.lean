import Xv6Sheet.Disk.Free
import Xv6Sheet.Lib.Run

/-! # Inodes sharing a disk

The in-memory inodes together with the disk. A program that works on one inode runs on
the store by changing that inode and the disk.
-/

namespace Xv6Sheet

open Exec

/-- Inodes indexed by `ι` and the disk they share. -/
structure Store (ι : Type) where
  inodes : ι → Inode
  disk : Disk

namespace Store

variable {ι α : Type} [DecidableEq ι] {s t : Store ι}

def onDisk (m : DiskM α) : Exec (Store ι) Fault α :=
  zoom disk (fun d s => { s with disk := d }) m

/-- Run a program on the inode `i`. -/
def onInode (i : ι) (m : Inode → DiskM (α × Inode)) : Exec (Store ι) Fault α := do
  let (a, ip) ← onDisk (m ((← get).inodes i))
  modify fun s => { s with inodes := Function.update s.inodes i ip }
  return a

theorem ends_onInode {i : ι} {m : Inode → DiskM (α × Inode)} {a : α} :
    Ends (onInode i m) s a t ↔ ∃ ip d, Ends (m (s.inodes i)) s.disk (a, ip) d ∧
      t = ⟨Function.update s.inodes i ip, d⟩ := by
  simp only [onInode, onDisk, ends_bind, ends_get, ends_zoom, ends_modify, ends_pure]
  constructor
  · rintro ⟨_, _, ⟨rfl, rfl⟩, ⟨b, ip⟩, _, ⟨d, h, rfl⟩, _, _, rfl, rfl, rfl⟩
    exact ⟨ip, d, h, rfl⟩
  · rintro ⟨ip, d, h, rfl⟩
    exact ⟨_, _, ⟨rfl, rfl⟩, (a, ip), _, ⟨d, h, rfl⟩, ⟨⟩, _, rfl, rfl, rfl⟩

theorem faults_onInode {i : ι} {m : Inode → DiskM (α × Inode)} {e : Fault} :
    Faults (onInode i m) s e ↔ Faults (m (s.inodes i)) s.disk e := by
  simp [onInode, onDisk]

variable [sb : Superblock]

/-- Where every run starts: the inodes are empty and the metadata blocks are in use. -/
structure Empty (S : Shape ℕ ℕ) (s : Store ι) : Prop where
  roots : ∀ i, ∀ r ∈ S.roots, (s.inodes i).addrs r = 0
  formatted : s.disk.Formatted

abbrev ptr (s : Store ι) (x : ι × ℕ × List ℕ) : ℕ := ptrAt s.inodes s.disk x

/-- The blocks that inodes of the store reference: data blocks and index blocks. -/
def referenced (S : Shape ℕ ℕ) (s : Store ι) : Set ℕ :=
  {b | b ≠ 0 ∧ ∃ x, S.Valid x ∧ s.ptr x = b}

omit [DecidableEq ι] in
theorem Empty.forest {S : Shape ℕ ℕ} (h : s.Empty S) :
    Forest S s.disk.used s.inodes s.disk where
  meta_base := Disk.formatted_iff.mp h.formatted
  owned := .of_empty fun x hx => by
    show walk s.disk.entry ((s.inodes x.1).addrs x.2.1) x.2.2 = 0
    rw [h.roots x.1 x.2.1 hx.1, walk_zero]

omit [DecidableEq ι] in
theorem used_eq {S : Shape ℕ ℕ} {base : Set ℕ} (h : Forest S base s.inodes s.disk) :
    s.disk.used = base ∪ s.referenced S := by
  ext b
  rw [h.owned.used_iff]
  refine or_congr_right ⟨?_, ?_⟩
  · rintro ⟨x, hx, rfl, h0⟩; exact ⟨h0, x, hx, rfl⟩
  · rintro ⟨h0, x, hx, rfl⟩; exact ⟨x, hx, rfl, h0⟩

end Store

@[reducible] def smallDisk : Superblock where
  size := 16
  ninodes := 8
  inodestart := 2
  bmapstart := 3
  size_lt := by decide
  ninodes_lt := by decide

def freshDisk : Disk where
  block b := if b = 3 then Bytes.ofList [0x0f] else Bytes.ofList []
  dinodes _ _ := Dinode.zero

theorem formatted_small {d : Disk} (h0 : @Disk.Marked smallDisk d 0)
    (h3 : @Disk.Marked smallDisk d 3) :
    @Disk.Formatted smallDisk d := by
  rintro b - (rfl | ⟨c, hc, rfl⟩)
  · exact h0
  · have hlt : c < 16 := hc
    have hblock : @bblock smallDisk c = 3 := by
      show c / 8192 + 3 = 3
      omega
    rw [hblock]
    exact h3

theorem formatted_freshDisk : @Disk.Formatted smallDisk freshDisk :=
  formatted_small (by decide) (by decide)

def Store.small {ι : Type} (inum : ι → ℕ) : Store ι where
  inodes i :=
    { Dinode.zero with
      type := 2, nlink := 1, dev := 1, inum := inum i, ref := 1, valid := true, locked := true }
  disk := freshDisk

theorem Store.empty_small {ι : Type} (inum : ι → ℕ) (S : Shape ℕ ℕ) :
    @Store.Empty ι smallDisk S (Store.small inum) :=
  let _ := smallDisk
  ⟨fun _ _ _ => rfl, formatted_freshDisk⟩

end Xv6Sheet
