import Xv6Sheet.Fs.Bmap

/-! # Inode content

`readi` and `writei` copy between memory and the blocks of an inode, one block at a time.
The content of an inode is an array of bytes without holes: reading copies a stretch of it
and never allocates, writing overlays the bytes copied before the disk ran full.
-/

namespace Xv6Sheet.Fs

open Exec

/-- The `int` a `uint` is returned as. -/
def toInt (x : ℕ) : ℤ := Int.bmod x (2 ^ 32)

theorem toInt_of_lt {x : ℕ} (h : x < 2 ^ 31) : toInt x = x := by
  unfold toInt
  rw [Int.bmod_eq_of_le (by omega) (by omega)]

variable [sb : Superblock]

/-- The loop of `readi` from `tot` on: `ok tot` tells whether the copy made there succeeds. -/
def readLoop (ok : ℕ → Bool) (off n : ℕ) : ℕ → ℕ → Bytes → Inode → DiskM (ℤ × Bytes × Inode)
  | 0, tot, dst, ip => return (toInt tot, dst, ip)
  | fuel + 1, tot, dst, ip =>
    if tot < n then do
      let (addr, ip) ← bmap ip ((off + tot) / BSIZE)
      if addr = 0 then return (toInt tot, dst, ip)
      else do
        let bp ← bread addr
        let m := min (n - tot) (BSIZE - (off + tot) % BSIZE)
        if ok tot then
          readLoop ok off n fuel (tot + m) (dst.copy tot bp ((off + tot) % BSIZE) m) ip
        else return (-1, dst, ip)
    else return (toInt tot, dst, ip)

/-- Read data from inode. The offset and the count are `uint`s; a stretch of `n` bytes lies
in at most `n / BSIZE + 2` blocks. -/
def readi (ip : Inode) (ok : ℕ → Bool) (dst : Bytes) (off n : ℕ) : DiskM (ℤ × Bytes × Inode) :=
  if off > ip.size ∨ (off + n) % 2 ^ 32 < off then return (0, dst, ip)
  else
    let n := if (off + n) % 2 ^ 32 > ip.size then ip.size - off else n
    readLoop ok off n (n / BSIZE + 2) 0 dst ip

/-- The loop of `writei` from `tot` on, with the number of bytes written. -/
def writeLoop (ok : ℕ → Bool) (src : Bytes) (off n : ℕ) : ℕ → ℕ → Inode → DiskM (ℕ × Inode)
  | 0, tot, ip => return (tot, ip)
  | fuel + 1, tot, ip =>
    if tot < n then do
      let (addr, ip) ← bmap ip ((off + tot) / BSIZE)
      if addr = 0 then return (tot, ip)
      else do
        let bp ← bread addr
        let m := min (n - tot) (BSIZE - (off + tot) % BSIZE)
        if ok tot then do
          logWrite addr (bp.copy ((off + tot) % BSIZE) src tot m)
          writeLoop ok src off n fuel (tot + m) ip
        else return (tot, ip)
    else return (tot, ip)

def writei (ip : Inode) (ok : ℕ → Bool) (src : Bytes) (off n : ℕ) : DiskM (ℤ × Inode) :=
  if off > ip.size ∨ (off + n) % 2 ^ 32 < off then return (-1, ip)
  else if (off + n) % 2 ^ 32 > MAXFILE * BSIZE then return (-1, ip)
  else do
    let (tot, ip) ← writeLoop ok src off n (n / BSIZE + 2) 0 ip
    let off := off + tot
    let ip := if off > ip.size then { ip with size := off } else ip
    -- write the i-node back to disk even if the size didn't change
    iupdateDisk ip
    return (toInt tot, ip)

section Content

variable {ι : Type} {F F' F'' : ι → Inode} {d d' d'' : Disk} {i : ι}

def byteAt (F : ι → Inode) (d : Disk) (i : ι) (k : ℕ) : UInt8 :=
  d.block (ptrAt F d (i, position (k / BSIZE))) (k % BSIZE)

def Mapped (F : ι → Inode) (d : Disk) (i : ι) (k : ℕ) : Prop :=
  ptrAt F d (i, position (k / BSIZE)) ≠ 0

def content (F : ι → Inode) (d : Disk) (i : ι) : List UInt8 :=
  (List.range (F i).size).map (byteAt F d i)

structure Solid (F : ι → Inode) (d : Disk) (i : ι) : Prop where
  size_le : (F i).size ≤ MAXFILE * BSIZE
  mapped : ∀ k < (F i).size, Mapped F d i k

omit sb in
theorem div_lt_maxfile {k : ℕ} (h : k < MAXFILE * BSIZE) : k / BSIZE < MAXFILE :=
  Nat.div_lt_of_lt_mul (by rwa [Nat.mul_comm])

/-- How many bytes a read from `off` on finds. -/
def readable (size off n : ℕ) : ℕ :=
  if size < off ∨ 2 ^ 32 ≤ off + n then 0 else min n (size - off)

omit sb in
/-- The bytes of one block copied by a step of a loop: they end the stretch, or the next
step starts at a block boundary. -/
theorem block_step {off n tot fuel : ℕ} (ht : tot < n)
    (hf : tot < n → (off + tot) % BSIZE + (n - tot) ≤ BSIZE * (fuel + 1)) :
    let m := min (n - tot) (BSIZE - (off + tot) % BSIZE)
    0 < m ∧ tot + m ≤ n ∧ (off + tot) % BSIZE + m ≤ BSIZE ∧
      (tot + m < n → (off + (tot + m)) % BSIZE + (n - (tot + m)) ≤ BSIZE * fuel) := by
  have hf := hf ht
  simp only [BSIZE] at *
  omega

omit sb in
theorem maxfile_lt : MAXFILE * BSIZE < 2 ^ 31 := by decide

theorem writei_whole {ip ip' : Inode} {src : Bytes} {off n : ℕ} {r : ℤ}
    (hblock : off % BSIZE + n ≤ BSIZE)
    (h : Ends (writei ip (fun _ => true) src off n) d (r, ip') d') : r = -1 ∨ r = 0 ∨ r = n := by
  have hn : n < 2 ^ 31 := by simp only [BSIZE] at hblock; omega
  unfold writei at h
  split at h
  · exact Or.inl (Prod.mk.inj (ends_pure.mp h).1).1
  split at h
  · exact Or.inl (Prod.mk.inj (ends_pure.mp h).1).1
  obtain ⟨⟨tot, ip₁⟩, d₁, hloop, h⟩ := ends_bind.mp h
  obtain ⟨_, _, -, h⟩ := ends_bind.mp h
  have hr : r = toInt tot := (Prod.mk.inj (ends_pure.mp h).1).1
  suffices htot : tot = 0 ∨ tot = n by
    rcases htot with rfl | rfl
    · exact Or.inr (Or.inl hr)
    · exact Or.inr (Or.inr (hr.trans (toInt_of_lt hn)))
  unfold writeLoop at hloop
  split at hloop
  swap
  · exact Or.inl (Prod.mk.inj (ends_pure.mp hloop).1).1
  rename_i h0
  obtain ⟨⟨addr, ip₂⟩, d₂, -, hloop⟩ := ends_bind.mp hloop
  simp only at hloop
  split at hloop
  · exact Or.inl (Prod.mk.inj (ends_pure.mp hloop).1).1
  have hm : min (n - 0) (BSIZE - (off + 0) % BSIZE) = n := by
    rw [Nat.add_zero]
    omega
  simp only [hm, if_true] at hloop
  obtain ⟨bp, d₃, -, hloop⟩ := ends_bind.mp hloop
  obtain ⟨_, d₄, -, hloop⟩ := ends_bind.mp hloop
  -- the next turn is the last
  unfold writeLoop at hloop
  rw [Nat.zero_add, if_neg (Nat.lt_irrefl n)] at hloop
  exact Or.inr (Prod.mk.inj (ends_pure.mp hloop).1).1

end Content

end Xv6Sheet.Fs
