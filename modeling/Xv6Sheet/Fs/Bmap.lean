import Xv6Sheet.Disk.Free

/-! # The block map of an inode

`bmap` and `itrunc` with twelve direct blocks and a singly-indirect block. Reading a
block that is there changes nothing.
-/

namespace Xv6Sheet.Fs

open Exec

def NDIRECT : ℕ := 12

def MAXFILE : ℕ := NDIRECT + NINDIRECT

/-- The forest of an inode: direct blocks at the roots below `NDIRECT`, the indirect block
at `NDIRECT`. -/
def shape : Shape ℕ ℕ where
  roots := List.range (NDIRECT + 1)
  entries := List.range NINDIRECT
  depth r := if r < NDIRECT then 0 else 1
  roots_nodup := List.nodup_range
  entries_nodup := List.nodup_range

/-- The position of the block number `bn`. -/
def position (bn : ℕ) : ℕ × List ℕ :=
  if bn < NDIRECT then (bn, []) else (NDIRECT, [bn - NDIRECT])

theorem position_direct {bn : ℕ} (h : bn < NDIRECT) : position bn = (bn, []) := if_pos h

theorem position_indirect (bn : ℕ) : position (NDIRECT + bn) = (NDIRECT, [bn]) := by
  unfold position
  rw [if_neg (by omega), Nat.add_sub_cancel_left]

theorem ranges (bn : ℕ) : bn < NDIRECT ∨ ∃ k, bn = NDIRECT + k := by
  rcases Nat.lt_or_ge bn NDIRECT with h | h
  · exact Or.inl h
  · exact Or.inr ⟨bn - NDIRECT, by omega⟩

theorem ok_root {r : ℕ} (h : r ≤ NDIRECT) : shape.Ok r [] :=
  ⟨List.mem_range.mpr (by omega), by simp, by simp⟩

theorem ok_indirect {k : ℕ} (h : k < NINDIRECT) : shape.Ok NDIRECT [k] :=
  ⟨List.mem_range.mpr (by omega), by simp [shape], by simpa [shape] using h⟩

theorem position_ok {bn : ℕ} (h : bn < MAXFILE) : shape.Ok (position bn).1 (position bn).2 := by
  rcases ranges bn with hbn | ⟨k, rfl⟩
  · rw [position_direct hbn]; exact ok_root (by omega)
  · rw [position_indirect]; exact ok_indirect (by simp only [MAXFILE] at h; omega)

theorem position_valid {ι : Type} (i : ι) {bn : ℕ} (h : bn < MAXFILE) :
    shape.Valid (i, position bn) := position_ok h

theorem position_leaf {ι : Type} (i : ι) {bn : ℕ} (h : bn < MAXFILE) :
    IsLeaf shape (i, position bn) := by
  refine ⟨position_ok h, ?_⟩
  rcases ranges bn with hbn | ⟨k, rfl⟩
  · rw [position_direct hbn]; exact (if_pos hbn).symm
  · rw [position_indirect]; simp [shape]

theorem position_injective : Function.Injective position := by
  intro a b h
  rcases ranges a with ha | ⟨j, rfl⟩ <;> rcases ranges b with hb | ⟨k, rfl⟩ <;>
    simp only [position_direct, position_indirect, *, Prod.mk.injEq, List.cons.injEq, and_true,
      reduceCtorEq, and_false] at h
  · exact h
  · omega

variable [sb : Superblock]

/-- Return the disk block address of the `bn`th block of the inode, allocating it if there
is none. 0 if out of disk space. -/
def bmap (ip : Inode) (bn : ℕ) : DiskM (ℕ × Inode) :=
  if bn < NDIRECT then addrsBlock ip bn
  else
    let bn := bn - NDIRECT
    if bn < NINDIRECT then do
      let (addr, ip) ← addrsBlock ip NDIRECT
      if addr = 0 then return (0, ip)
      else do
        let addr ← entryBlock addr bn
        return (addr, ip)
    else panicAt "bmap: out of range"

def itrunc (ip : Inode) : DiskM Inode := do
  let ip ← (do
    let ip ← clearDirect 0 NDIRECT ip
    clearAddr freeIndirect ip NDIRECT)
  let ip := { ip with size := 0 }
  iupdateDisk ip
  return ip

theorem bmap_direct (ip : Inode) {bn : ℕ} (h : bn < NDIRECT) :
    bmap ip bn = addrsBlock ip bn := if_pos h

theorem bmap_indirect (ip : Inode) {bn : ℕ} (h : bn < NINDIRECT) :
    bmap ip (NDIRECT + bn) = (do
      let (addr, ip) ← addrsBlock ip NDIRECT
      if addr = 0 then return (0, ip)
      else do
        let addr ← entryBlock addr bn
        return (addr, ip)) := by
  unfold bmap
  rw [if_neg (by omega)]
  simp only [Nat.add_sub_cancel_left, if_pos h]

section Forest

variable {ι : Type} {base : Set ℕ} {F : ι → Inode} {d : Disk}

theorem bmap_found {i : ι} {bn : ℕ} (hbn : bn < MAXFILE)
    (h0 : ptrAt F d (i, position bn) ≠ 0) :
    Ends (bmap (F i) bn) d (ptrAt F d (i, position bn), F i) d := by
  rcases ranges bn with hd | ⟨k, rfl⟩
  · rw [position_direct hd] at h0 ⊢
    rw [bmap_direct _ hd]
    exact addrsBlock_found h0
  · have hk : k < NINDIRECT := by simp only [MAXFILE] at hbn; omega
    rw [position_indirect] at h0 ⊢
    have hroot : (F i).addrs NDIRECT ≠ 0 := fun hz => h0 (by
      rw [ptrAt, Shape.ptr, addrsOf, hz, walk_zero])
    have hptr : ptrAt F d (i, NDIRECT, [k]) = d.entry ((F i).addrs NDIRECT) k := by
      rw [ptrAt, Shape.ptr, walk_cons hroot, walk_nil]
    rw [hptr] at h0 ⊢
    rw [bmap_indirect _ hk]
    refine (addrsBlock_found hroot).bind ?_
    simp only [if_neg hroot]
    exact (entryBlock_found h0).bind (by simp)

variable [DecidableEq ι]

theorem bmap_ends (h : Forest shape base F d) (i : ι) {bn : ℕ} (hbn : bn < MAXFILE) :
    ∃ r ip d', Ends (bmap (F i) bn) d (r, ip) d' ∧
      Finds shape base i (position bn).1 (position bn).2 F (Function.update F i ip) d d' r := by
  rcases ranges bn with hd | ⟨k, rfl⟩
  · rw [bmap_direct _ hd, position_direct hd]
    obtain ⟨r, ip, d', he, hens⟩ := addrsBlock_ends h i (ok_root (Nat.le_of_lt hd)).1
    exact ⟨r, ip, d', he, hens.finds⟩
  · have hk : k < NINDIRECT := by simp only [MAXFILE] at hbn; omega
    rw [bmap_indirect _ hk, position_indirect]
    exact indirect_ends h i (ok_indirect hk)

omit sb [DecidableEq ι] in
theorem blocks_eq (d : Disk) (a : ℕ → ℕ) : shape.blocks d.entry a =
    ((List.range' 0 NDIRECT).flatMap fun r => subtree d.entry (List.range NINDIRECT) 0 (a r)) ++
      subtree d.entry (List.range NINDIRECT) 1 (a NDIRECT) := by
  have hroots : shape.roots = List.range' 0 NDIRECT ++ [NDIRECT] := by decide
  have hentries : shape.entries = List.range NINDIRECT := by simp only [shape]
  have hsingle : shape.depth NDIRECT = 1 := rfl
  rw [Shape.blocks, hroots, List.flatMap_append, List.flatMap_singleton, hentries, hsingle]
  refine congrArg (· ++ _) (List.flatMap_congr fun r hr => ?_)
  have hlt : r < NDIRECT := by simpa using hr
  have hdepth : shape.depth r = 0 := if_pos hlt
  rw [hdepth]

omit [DecidableEq ι] in
theorem frees_itrunc {ip : Inode} (h : ip.addrs NDIRECT ≠ 0 → ¬ IsMeta (ip.addrs NDIRECT)) :
    Frees d (do
      let ip ← clearDirect 0 NDIRECT ip
      clearAddr freeIndirect ip NDIRECT) ((ip.clear 0 NDIRECT).setAddr NDIRECT 0)
      (shape.blocks d.entry ip.addrs) := by
  have hind : (ip.clear 0 NDIRECT).addrs NDIRECT = ip.addrs NDIRECT := by
    rw [Inode.clear_eq]
    simp
  rw [blocks_eq, ← hind]
  refine .bind (.clearDirect ip 0 NDIRECT) (.clearAddr fun h0 => ?_)
  rw [hind] at h0 ⊢
  exact .freeIndirect h0 (h h0)

omit sb [DecidableEq ι] in
theorem clear_addrs (ip : Inode) :
    ∃ a, (ip.clear 0 NDIRECT).setAddr NDIRECT 0 = { ip with addrs := a } ∧
      ∀ r ∈ shape.roots, a r = 0 := by
  refine ⟨_, by rw [Inode.clear_eq]; rfl, fun r hr => ?_⟩
  have hr' : r < NDIRECT + 1 := List.mem_range.mp hr
  by_cases hrn : r = NDIRECT
  · simp [hrn]
  · rw [Function.update_of_ne hrn]
    exact if_pos (by omega)

theorem itrunc_ends (h : Forest shape base F d) (i : ι) :
    ∃ ip d', Ends (itrunc (F i)) d ip d' ∧ Truncates shape base i F d ip d' := by
  obtain ⟨a, ha, hroots⟩ := clear_addrs (F i)
  refine Frees.truncates h i (((F i).clear 0 NDIRECT).setAddr NDIRECT 0) ?_ ⟨a, ha⟩
    fun r hr => by rw [ha]; exact hroots r hr
  exact frees_itrunc fun h0 => h.not_isMeta (x := (i, NDIRECT, [])) (ok_root (Nat.le_refl _)) h0

end Forest

end Xv6Sheet.Fs
