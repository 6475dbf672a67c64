import Xv6Sheet.BigFile.Ownership
import Xv6Sheet.Fs.Arrays

/-! # Big files

`readi` and `writei` with the big-file `bmap` and its header. A file is an array of bytes of up to
ten thousand blocks, whatever the order in which files that share a disk are read, written and
truncated.
-/

namespace Xv6Sheet.BigFile

open Exec Store
open Fs (Mapping)

variable [sb : Superblock] {ι : Type} {F : ι → Inode} {d : Disk} {i : ι} {r j k bn : ℕ}

section Found

theorem indirect_found (h0 : ptrAt F d (i, r, [k]) ≠ 0) :
    Ends (do
      let (addr, ip) ← addrsBlock (F i) r
      if addr = 0 then return (0, ip)
      else do
        let addr ← entryBlock addr k
        return (addr, ip)) d (ptrAt F d (i, r, [k]), F i) d := by
  have hroot : (F i).addrs r ≠ 0 := fun hz => h0 (by rw [ptrAt, Shape.ptr, addrsOf, hz, walk_zero])
  have hptr : ptrAt F d (i, r, [k]) = d.entry ((F i).addrs r) k := by
    rw [ptrAt, Shape.ptr, walk_cons hroot, walk_nil]
  rw [hptr] at h0 ⊢
  refine (addrsBlock_found hroot).bind ?_
  simp only [if_neg hroot]
  exact (entryBlock_found h0).bind (by simp)

theorem double_found (h0 : ptrAt F d (i, r, [j, k]) ≠ 0) :
    Ends (do
      let (addr, ip) ← addrsBlock (F i) r
      if addr = 0 then return (0, ip)
      else do
        let addr ← entryBlock addr j
        if addr = 0 then return (0, ip)
        else do
          let addr ← entryBlock addr k
          return (addr, ip)) d (ptrAt F d (i, r, [j, k]), F i) d := by
  have hroot : (F i).addrs r ≠ 0 := fun hz => h0 (by rw [ptrAt, Shape.ptr, addrsOf, hz, walk_zero])
  have hwalk : ptrAt F d (i, r, [j, k]) = walk d.entry (d.entry ((F i).addrs r) j) [k] := by
    rw [ptrAt, Shape.ptr, walk_cons hroot]
  have hmid : d.entry ((F i).addrs r) j ≠ 0 := fun hz => h0 (by rw [hwalk, hz, walk_zero])
  rw [walk_cons hmid, walk_nil] at hwalk
  rw [hwalk] at h0 ⊢
  refine (addrsBlock_found hroot).bind ?_
  simp only [if_neg hroot]
  refine (entryBlock_found hmid).bind ?_
  simp only [if_neg hmid]
  exact (entryBlock_found h0).bind (by simp)

theorem bmap_found (hbn : bn < cap) (h0 : ptrAt F d (i, position bn) ≠ 0) :
    Ends (bmap (F i) bn) d (ptrAt F d (i, position bn), F i) d := by
  rcases ranges bn with hd | ⟨k, hk, rfl⟩ | ⟨k, rfl⟩
  · rw [position_direct hd] at h0 ⊢
    rw [bmap_direct _ hd]
    exact addrsBlock_found h0
  · rw [position_indirect hk] at h0 ⊢
    rw [bmap_indirect _ hk]
    exact indirect_found h0
  · rw [position_double] at h0 ⊢
    rw [bmap_double _ hbn]
    exact double_found h0

end Found

omit sb in
theorem position_leaf (i : ι) (hbn : bn < cap) : IsLeaf shape (i, position bn) := by
  refine ⟨position_ok hbn, ?_⟩
  rcases ranges bn with hd | ⟨k, hk, rfl⟩ | ⟨k, rfl⟩
  · rw [position_direct hd]
    exact (if_pos hd).symm
  · rw [position_indirect hk]
    simp [shape]
  · rw [position_double]
    simp [shape]

/-- The big-file layout. `MAXFILE` of its header is the hard cap. -/
def mapping : Mapping where
  shape := shape
  position := position
  MAXFILE := cap
  bmap := bmap
  itrunc := itrunc

theorem mapping_lawful : mapping.Lawful where
  small := by show cap * BSIZE < 2 ^ 31; decide
  leaf := fun i _ hbn => position_leaf i hbn
  injective := position_injective
  found := bmap_found
  finds := bmap_ends
  trunc := itrunc_ends

variable [DecidableEq ι] {s s₀ : Store ι}

/-- Over any run of `readi`, `writei` and `itrunc` calls on empty big files that share a disk, each
file is an array of at most 10000 blocks of bytes. The next call ends without a panic and does what
it does on arrays: a read copies a stretch, a write lays bytes over the array and stops short only
at a copy that fails or on a full disk, and a stretch that ends beyond the largest file is refused.
A read and a call that answers -1 leave the disk and every inode as they were. -/
theorem big_files_refine (h₀ : s₀.Empty shape) (hs : ∀ i, (s₀.inodes i).size = 0)
    {cs : List (Fs.Call ι)} (h : Runs mapping.call s₀ cs s) :
    (∀ i, mapping.contents s₀ i = []) ∧
      (∀ i, (mapping.contents s i).length ≤ 10000 * BSIZE) ∧
      ∀ c, ∃ a t, Ends (mapping.call c) s a t ∧
        Mapping.Serves (10000 * BSIZE) (t.disk.free = ∅) c (mapping.contents s) a
          (mapping.contents t) ∧
        (∀ i ok dst off n, c = .readi i ok dst off n → t = s) ∧ (a.1 = -1 → t = s) := by
  have hmax : mapping.MAXFILE = 10000 := rfl
  rw [← hmax]
  exact Mapping.files_refine mapping_lawful h₀ hs h

omit sb [DecidableEq ι] in
/-- A file of the small disk that is written and read. -/
theorem big_files_refine_small :
    letI := smallDisk
    ∃ s t : Store Bool, ∃ a,
      Runs mapping.call (.small fun i => if i then 1 else 2)
        [.writei true (fun _ => true) (fun k => .ofNat k) 0 1500, .itrunc false] s ∧
      Ends (mapping.call (.readi true (fun _ => true) (fun _ => 0) 700 5)) s a t ∧ t = s := by
  let _ := smallDisk
  have h₀ := Store.empty_small (fun i : Bool => if i then 1 else 2) shape
  have hholds := Mapping.holds_empty (M := mapping) h₀ fun _ => rfl
  obtain ⟨s, hs, -⟩ := Runs.exists_run (κ := Fs.Call Bool)
    (I := fun s : Store Bool => ∃ f, mapping.Holds _ s.inodes s.disk f)
    (fun s c ⟨f, h⟩ => by
      obtain ⟨a, t, f', he, ht, -⟩ := h.call_ends mapping_lawful c
      exact ⟨a, t, he, f', ht⟩) ⟨_, hholds⟩
    [.writei true (fun _ => true) (fun k => .ofNat k) 0 1500, .itrunc false]
  obtain ⟨a, t, he, -, hread⟩ := (big_files_refine h₀ (fun _ => rfl) hs).2.2
    (.readi true (fun _ => true) (fun _ => 0) 700 5)
  exact ⟨s, t, a, hs, he, hread.1 _ _ _ _ _ rfl⟩

end Xv6Sheet.BigFile
