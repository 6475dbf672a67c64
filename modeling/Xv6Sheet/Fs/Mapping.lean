import Xv6Sheet.Disk.Store
import Xv6Sheet.Fs.Content
import Xv6Sheet.Lib.Overwrite

/-! # Ways to map a file

`readi` and `writei` reach the blocks of a file through `bmap`, whatever the layout of the inode is.
A mapping has a `bmap`, an `itrunc` and a largest file; its laws say where the block of a number is
found. Through them an inode is a partial array of bytes.
-/

namespace Xv6Sheet.Fs

open Exec

/-- The calls on the inodes, with the outcome of every copy between memory and buffers. -/
inductive Call (ι : Type)
  | readi (i : ι) (ok : ℕ → Bool) (dst : Bytes) (off n : UInt32)
  | writei (i : ι) (ok : ℕ → Bool) (src : Bytes) (off n : UInt32)
  | itrunc (i : ι)

/-- What a call answers: the number of bytes, and the destination of a read. -/
abbrev Answer := ℤ × Option Bytes

variable [sb : Superblock]

/-- A layout of inodes with the functions that depend on it. -/
structure Mapping [Superblock] where
  shape : Shape ℕ ℕ
  /-- the position of a block number in the forest of an inode -/
  position : ℕ → ℕ × List ℕ
  MAXFILE : ℕ
  bmap : Inode → ℕ → DiskM (ℕ × Inode)
  itrunc : Inode → DiskM Inode

namespace Mapping

variable (M : Mapping)

/-- The loop of `readi` from `tot` on: `ok tot` tells whether the copy made there succeeds. -/
def readLoop (ok : ℕ → Bool) (off n : ℕ) : ℕ → ℕ → Bytes → Inode → DiskM (ℤ × Bytes × Inode)
  | 0, tot, dst, ip => return (toInt tot, dst, ip)
  | fuel + 1, tot, dst, ip =>
    if tot < n then do
      let (addr, ip) ← M.bmap ip ((off + tot) / BSIZE)
      if addr = 0 then return (toInt tot, dst, ip)
      else do
        let bp ← bread addr
        let m := min (n - tot) (BSIZE - (off + tot) % BSIZE)
        if ok tot then
          readLoop ok off n fuel (tot + m) (dst.copy tot bp ((off + tot) % BSIZE) m) ip
        else return (-1, dst, ip)
    else return (toInt tot, dst, ip)

def readi (ip : Inode) (ok : ℕ → Bool) (dst : Bytes) (off n : ℕ) : DiskM (ℤ × Bytes × Inode) :=
  if off > ip.size ∨ (off + n) % 2 ^ 32 < off then return (0, dst, ip)
  else
    let n := if (off + n) % 2 ^ 32 > ip.size then ip.size - off else n
    M.readLoop ok off n (n / BSIZE + 2) 0 dst ip

/-- The loop of `writei` from `tot` on, with the number of bytes written. -/
def writeLoop (ok : ℕ → Bool) (src : Bytes) (off n : ℕ) : ℕ → ℕ → Inode → DiskM (ℕ × Inode)
  | 0, tot, ip => return (tot, ip)
  | fuel + 1, tot, ip =>
    if tot < n then do
      let (addr, ip) ← M.bmap ip ((off + tot) / BSIZE)
      if addr = 0 then return (tot, ip)
      else do
        let bp ← bread addr
        let m := min (n - tot) (BSIZE - (off + tot) % BSIZE)
        if ok tot then do
          logWrite addr (bp.copy ((off + tot) % BSIZE) src tot m)
          writeLoop ok src off n fuel (tot + m) ip
        else return (tot, ip)
    else return (tot, ip)

def writei (ip : Inode) (ok : ℕ → Bool) (src : Bytes) (off n : ℕ) : DiskM (ℤ × Inode) :=
  if off > ip.size ∨ (off + n) % 2 ^ 32 < off then return (-1, ip)
  else if (off + n) % 2 ^ 32 > M.MAXFILE * BSIZE then return (-1, ip)
  else do
    let (tot, ip) ← M.writeLoop ok src off n (n / BSIZE + 2) 0 ip
    let off := off + tot
    let ip := if off > ip.size then { ip with size := off } else ip
    iupdateDisk ip
    return (toInt tot, ip)

/-- What the layout promises: block numbers have positions of data blocks of their own, where `bmap`
finds or makes the block, and `itrunc` gives back all of them. -/
structure Lawful : Prop where
  small : M.MAXFILE * BSIZE < 2 ^ 31
  leaf : ∀ {ι : Type} (i : ι) {bn : ℕ}, bn < M.MAXFILE → IsLeaf M.shape (i, M.position bn)
  injective : Function.Injective M.position
  found : ∀ {ι : Type} {F : ι → Inode} {d : Disk} {i : ι} {bn : ℕ}, bn < M.MAXFILE →
    ptrAt F d (i, M.position bn) ≠ 0 →
    Ends (M.bmap (F i) bn) d (ptrAt F d (i, M.position bn), F i) d
  finds : ∀ {ι : Type} [DecidableEq ι] {base : Set ℕ} {F : ι → Inode} {d : Disk},
    Forest M.shape base F d → ∀ (i : ι) {bn : ℕ}, bn < M.MAXFILE →
    ∃ r ip d', Ends (M.bmap (F i) bn) d (r, ip) d' ∧ Finds M.shape base i (M.position bn).1
      (M.position bn).2 F (Function.update F i ip) d d' r
  trunc : ∀ {ι : Type} [DecidableEq ι] {base : Set ℕ} {F : ι → Inode} {d : Disk},
    Forest M.shape base F d → ∀ i : ι,
    ∃ ip d', Ends (M.itrunc (F i)) d ip d' ∧ Truncates M.shape base i F d ip d'

end Mapping

/-- The layout of `fs.c`. -/
def mapping : Mapping where
  shape := shape
  position := position
  MAXFILE := MAXFILE
  bmap := bmap
  itrunc := itrunc

theorem mapping_readLoop (ok : ℕ → Bool) (off n fuel : ℕ) :
    mapping.readLoop ok off n fuel = readLoop ok off n fuel := by
  induction fuel with
  | zero => rfl
  | succ fuel ih =>
    ext tot dst ip
    unfold Mapping.readLoop readLoop
    rw [ih]
    rfl

theorem mapping_writeLoop (ok : ℕ → Bool) (src : Bytes) (off n fuel : ℕ) :
    mapping.writeLoop ok src off n fuel = writeLoop ok src off n fuel := by
  induction fuel with
  | zero => rfl
  | succ fuel ih =>
    ext tot ip
    unfold Mapping.writeLoop writeLoop
    rw [ih]
    rfl

theorem mapping_readi : mapping.readi = readi := by
  ext ip ok dst off n
  unfold Mapping.readi readi
  simp only [mapping_readLoop]

theorem mapping_writei : mapping.writei = writei := by
  ext ip ok src off n
  unfold Mapping.writei writei
  simp only [mapping_writeLoop]
  rfl

theorem mapping_lawful : mapping.Lawful where
  small := maxfile_lt
  leaf := position_leaf
  injective := position_injective
  found := bmap_found
  finds := bmap_ends
  trunc := itrunc_ends

end Xv6Sheet.Fs
