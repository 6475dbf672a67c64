import Xv6Sheet.Lib.Bits
import Xv6Sheet.Lib.Exec

/-! # Disk layout

The blocks of the disk and the on-disk inodes of `fs.h`, with the buffer layer as
reads and writes of whole blocks. The inode blocks hold `struct dinode` records and
are kept apart from the blocks of the bitmap and of file data.
-/

namespace Xv6Sheet

def BSIZE : ℕ := 1024

def BPB : ℕ := BSIZE * 8

/-- Size of `struct dinode`: four shorts, the size and thirteen addresses. -/
def dinodeSize : ℕ := 64

def IPB : ℕ := BSIZE / dinodeSize

def NINDIRECT : ℕ := BSIZE / 4

/-- The superblock `sb` of the one disk. Block and inode numbers fit the `int` counters
of the loops that run over them. -/
class Superblock where
  size : ℕ
  ninodes : ℕ
  inodestart : ℕ
  bmapstart : ℕ
  size_lt : size < 2 ^ 31
  ninodes_lt : ninodes < 2 ^ 31

/-- `struct dinode`. The entries of `addrs` past its last index are never used. -/
structure Dinode where
  type : ℤ
  major : ℤ
  minor : ℤ
  nlink : ℤ
  size : ℕ
  addrs : ℕ → ℕ

def Dinode.zero : Dinode := ⟨0, 0, 0, 0, 0, fun _ => 0⟩

/-- The disk: data and bitmap blocks, and the inode blocks by slot. The two are apart, so a write to
a block of a file never reaches an inode: the blocks of files lie outside the inode area. -/
structure Disk where
  block : ℕ → Bytes
  dinodes : ℕ → ℕ → Dinode

/-- What stops the kernel: a panic, a wait that never ends, or a read past a buffer. -/
inductive Fault
  | panic (msg : String)
  | deadlock
  | overread
  deriving DecidableEq, Repr

abbrev DiskM (α : Type) := Exec Disk Fault α

def panicAt {σ α : Type} (msg : String) : Exec σ Fault α := throw (.panic msg)

@[simp] theorem ends_panicAt {σ α : Type} {msg : String} {s t : σ} {a : α} :
    ¬ Exec.Ends (panicAt msg : Exec σ Fault α) s a t := Exec.ends_throw

@[simp] theorem faults_panicAt {σ α : Type} {msg : String} {s : σ} {e : Fault} :
    Exec.Faults (panicAt msg : Exec σ Fault α) s e ↔ e = .panic msg := Exec.faults_throw

namespace Disk

def write (d : Disk) (b : ℕ) (data : Bytes) : Disk :=
  { d with block := Function.update d.block b data }

/-- The entry `k` of the block `b`, read as an array of `uint`. -/
def entry (d : Disk) (b k : ℕ) : ℕ := (d.block b).le (4 * k) 4

@[simp] theorem write_block_self (d : Disk) (b : ℕ) (data : Bytes) :
    (d.write b data).block b = data := by simp [write]

theorem write_block_of_ne {d : Disk} {b c : ℕ} {data : Bytes} (h : c ≠ b) :
    (d.write b data).block c = d.block c := by simp [write, h]

@[simp] theorem write_dinodes (d : Disk) (b : ℕ) (data : Bytes) :
    (d.write b data).dinodes = d.dinodes := rfl

end Disk

def bread (b : ℕ) : DiskM Bytes := do return (← get).block b

def logWrite (b : ℕ) (data : Bytes) : DiskM Unit := modify fun d => d.write b data

@[simp] theorem ends_bread {b : ℕ} {d d' : Disk} {bp : Bytes} :
    Exec.Ends (bread b) d bp d' ↔ bp = d.block b ∧ d' = d := by
  simp [bread, and_comm]

@[simp] theorem faults_bread {b : ℕ} {d : Disk} {e : Fault} :
    ¬ Exec.Faults (bread b) d e := by
  simp [bread]

@[simp] theorem ends_logWrite {b : ℕ} {data : Bytes} {d d' : Disk} {u : Unit} :
    Exec.Ends (logWrite b data) d u d' ↔ d' = d.write b data := by
  simp [logWrite]

@[simp] theorem faults_logWrite {b : ℕ} {data : Bytes} {d : Disk} {e : Fault} :
    ¬ Exec.Faults (logWrite b data) d e := by
  simp [logWrite]

variable [sb : Superblock]

def iblock (i : ℕ) : ℕ := i / IPB + sb.inodestart

/-- Block of the free map containing the bit for block `b`. -/
def bblock (b : ℕ) : ℕ := b / BPB + sb.bmapstart

namespace Disk

/-- The on-disk inode with number `i`. -/
def dinode (d : Disk) (i : ℕ) : Dinode := d.dinodes (iblock i) (i % IPB)

/-- Store the on-disk inode with number `i`. -/
def setDinode (d : Disk) (i : ℕ) (dip : Dinode) : Disk :=
  { d with
    dinodes := Function.update d.dinodes (iblock i)
      (Function.update (d.dinodes (iblock i)) (i % IPB) dip) }

@[simp] theorem write_dinode (d : Disk) (b i : ℕ) (data : Bytes) :
    (d.write b data).dinode i = d.dinode i := rfl

@[simp] theorem setDinode_block (d : Disk) (i : ℕ) (dip : Dinode) :
    (d.setDinode i dip).block = d.block := rfl

theorem dinode_setDinode (d : Disk) (i j : ℕ) (dip : Dinode) :
    (d.setDinode i dip).dinode j = if j = i then dip else d.dinode j := by
  unfold dinode setDinode
  by_cases hb : iblock j = iblock i
  · by_cases hs : j % IPB = i % IPB
    · have hji : j = i := by simp only [iblock, IPB, BSIZE, dinodeSize] at hb hs; omega
      subst hji; simp
    · have hji : j ≠ i := fun h => hs (h ▸ rfl)
      simp [hb, hs, hji]
  · have hji : j ≠ i := fun h => hb (h ▸ rfl)
    simp [hb, hji]

end Disk

end Xv6Sheet
