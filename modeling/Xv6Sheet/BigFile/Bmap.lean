import Xv6Sheet.Disk.Free

/-! # The big-file layout

`bmap` and `itrunc` with eleven direct blocks, a singly- and a doubly-indirect block and
a hard cap on the block number. The position of a block number in the forest of its
inode tells which block `bmap` looks for.
-/

namespace Xv6Sheet.BigFile

open Exec

def NDIRECT : ℕ := 11

def cap : ℕ := 10000

/-- The forest of an inode: direct blocks at the roots below `NDIRECT`, the
singly-indirect block at `NDIRECT` and the doubly-indirect one after it. -/
def shape : Shape ℕ ℕ where
  roots := List.range (NDIRECT + 2)
  entries := List.range NINDIRECT
  depth r := if r < NDIRECT then 0 else if r = NDIRECT then 1 else 2
  roots_nodup := List.nodup_range
  entries_nodup := List.nodup_range

/-- The position of the block number `bn`. -/
def position (bn : ℕ) : ℕ × List ℕ :=
  if bn < NDIRECT then (bn, [])
  else if bn - NDIRECT < NINDIRECT then (NDIRECT, [bn - NDIRECT])
  else (NDIRECT + 1, [(bn - NDIRECT - NINDIRECT) / NINDIRECT,
    (bn - NDIRECT - NINDIRECT) % NINDIRECT])

theorem position_direct {bn : ℕ} (h : bn < NDIRECT) : position bn = (bn, []) := if_pos h

theorem position_indirect {bn : ℕ} (h : bn < NINDIRECT) :
    position (NDIRECT + bn) = (NDIRECT, [bn]) := by
  unfold position
  rw [if_neg (by omega), Nat.add_sub_cancel_left, if_pos h]

theorem position_double (bn : ℕ) :
    position (NDIRECT + NINDIRECT + bn) =
      (NDIRECT + 1, [bn / NINDIRECT, bn % NINDIRECT]) := by
  unfold position
  rw [if_neg (by omega), if_neg (by omega), Nat.add_assoc, Nat.add_sub_cancel_left,
    Nat.add_sub_cancel_left]

/-- A block number is a direct one, or its offset into one of the indirect ranges. -/
theorem ranges (bn : ℕ) : bn < NDIRECT ∨ (∃ k < NINDIRECT, bn = NDIRECT + k) ∨
    ∃ k, bn = NDIRECT + NINDIRECT + k := by
  rcases Nat.lt_or_ge bn NDIRECT with h | h
  · exact Or.inl h
  · rcases Nat.lt_or_ge (bn - NDIRECT) NINDIRECT with h' | h'
    · exact Or.inr (Or.inl ⟨_, h', by omega⟩)
    · exact Or.inr (Or.inr ⟨bn - NDIRECT - NINDIRECT, by omega⟩)

theorem ok_root {r : ℕ} (h : r < NDIRECT + 2) : shape.Ok r [] :=
  ⟨List.mem_range.mpr h, by simp, by simp⟩

theorem ok_indirect {k : ℕ} (h : k < NINDIRECT) : shape.Ok NDIRECT [k] :=
  ⟨List.mem_range.mpr (by omega), by simp [shape], by simpa [shape] using h⟩

theorem ok_double {j k : ℕ} (hj : j < NINDIRECT) (hk : k < NINDIRECT) :
    shape.Ok (NDIRECT + 1) [j, k] :=
  ⟨List.mem_range.mpr (by omega), by simp [shape], by simpa [shape] using ⟨hj, hk⟩⟩

theorem double_lt {bn : ℕ} (h : NDIRECT + NINDIRECT + bn < cap) :
    bn / NINDIRECT < NINDIRECT ∧ bn % NINDIRECT < NINDIRECT := by
  simp only [cap, NDIRECT, NINDIRECT, BSIZE] at *
  omega

theorem position_ok {bn : ℕ} (h : bn < cap) : shape.Ok (position bn).1 (position bn).2 := by
  rcases ranges bn with hbn | ⟨k, hk, rfl⟩ | ⟨k, rfl⟩
  · rw [position_direct hbn]; exact ok_root (by omega)
  · rw [position_indirect hk]; exact ok_indirect hk
  · rw [position_double]; exact ok_double (double_lt h).1 (double_lt h).2

theorem position_injective : Function.Injective position := by
  intro a b h
  rcases ranges a with ha | ⟨j, hj, rfl⟩ | ⟨j, rfl⟩ <;>
    rcases ranges b with hb | ⟨k, hk, rfl⟩ | ⟨k, rfl⟩ <;>
    simp only [position_direct, position_indirect, position_double, *, Prod.mk.injEq,
      List.cons.injEq, and_true, reduceCtorEq, and_false] at h
  · exact h
  · omega
  · have := Nat.div_add_mod j NINDIRECT
    have := Nat.div_add_mod k NINDIRECT
    rw [← h.2.1, ← h.2.2] at this
    omega

variable [sb : Superblock]

/-- Return the disk block address of the `bn`th block of the inode, allocating it if
there is none. 0 if out of disk space or beyond the cap. -/
def bmap (ip : Inode) (bn : ℕ) : DiskM (ℕ × Inode) :=
  if bn ≥ cap then return (0, ip)
  else if bn < NDIRECT then addrsBlock ip bn
  else
    let bn := bn - NDIRECT
    if bn < NINDIRECT then do
      let (addr, ip) ← addrsBlock ip NDIRECT
      if addr = 0 then return (0, ip)
      else do
        let addr ← entryBlock addr bn
        return (addr, ip)
    else
      let bn := bn - NINDIRECT
      if bn < NINDIRECT * NINDIRECT then do
        let (addr, ip) ← addrsBlock ip (NDIRECT + 1)
        if addr = 0 then return (0, ip)
        else do
          let index1 := bn / NINDIRECT
          let index2 := bn % NINDIRECT
          let addr ← entryBlock addr index1
          if addr = 0 then return (0, ip)
          else do
            let addr ← entryBlock addr index2
            return (addr, ip)
      else panicAt "bmap: out of range"

def itrunc (ip : Inode) : DiskM Inode := do
  let ip ← (do
    let ip ← clearDirect 0 NDIRECT ip
    let ip ← clearAddr freeIndirect ip NDIRECT
    clearAddr freeDouble ip (NDIRECT + 1))
  let ip := { ip with size := 0 }
  iupdateDisk ip
  return ip

theorem bmap_direct (ip : Inode) {bn : ℕ} (h : bn < NDIRECT) :
    bmap ip bn = addrsBlock ip bn := by
  unfold bmap
  rw [if_neg (by simp only [cap, NDIRECT] at *; omega), if_pos h]

theorem bmap_indirect (ip : Inode) {bn : ℕ} (h : bn < NINDIRECT) :
    bmap ip (NDIRECT + bn) = (do
      let (addr, ip) ← addrsBlock ip NDIRECT
      if addr = 0 then return (0, ip)
      else do
        let addr ← entryBlock addr bn
        return (addr, ip)) := by
  unfold bmap
  rw [if_neg (by simp only [cap, NDIRECT, NINDIRECT, BSIZE] at *; omega), if_neg (by omega)]
  simp only [Nat.add_sub_cancel_left, if_pos h]

theorem bmap_double (ip : Inode) {bn : ℕ} (h : NDIRECT + NINDIRECT + bn < cap) :
    bmap ip (NDIRECT + NINDIRECT + bn) = (do
      let (addr, ip) ← addrsBlock ip (NDIRECT + 1)
      if addr = 0 then return (0, ip)
      else do
        let addr ← entryBlock addr (bn / NINDIRECT)
        if addr = 0 then return (0, ip)
        else do
          let addr ← entryBlock addr (bn % NINDIRECT)
          return (addr, ip)) := by
  have hbn : bn < NINDIRECT * NINDIRECT := by
    simp only [cap, NDIRECT, NINDIRECT, BSIZE] at *
    omega
  unfold bmap
  rw [if_neg (by omega), if_neg (by omega)]
  simp only [Nat.add_assoc, Nat.add_sub_cancel_left, if_pos hbn]
  rw [if_neg (by omega)]

variable {ι : Type} [DecidableEq ι] {base : Set ℕ} {F : ι → Inode} {d : Disk}

theorem bmap_ends (h : Forest shape base F d) (i : ι) {bn : ℕ} (hbn : bn < cap) :
    ∃ r ip d', Ends (bmap (F i) bn) d (r, ip) d' ∧
      Finds shape base i (position bn).1 (position bn).2 F (Function.update F i ip) d d' r := by
  rcases ranges bn with hd | ⟨k, hk, rfl⟩ | ⟨k, rfl⟩
  · rw [bmap_direct _ hd, position_direct hd]
    obtain ⟨r, ip, d', he, hens⟩ := addrsBlock_ends h i (List.mem_range.mpr (Nat.lt_add_right 2 hd))
    exact ⟨r, ip, d', he, hens.finds⟩
  · rw [bmap_indirect _ hk, position_indirect hk]
    exact indirect_ends h i (ok_indirect hk)
  · rw [bmap_double _ hbn, position_double]
    exact double_ends h i (ok_double (double_lt hbn).1 (double_lt hbn).2)

theorem bmap_ends_cap (ip : Inode) {bn : ℕ} (hbn : cap ≤ bn) (d : Disk) :
    Ends (bmap ip bn) d (0, ip) d := by
  unfold bmap
  rw [if_pos hbn]
  simp

omit sb in
theorem blocks_eq (d : Disk) (a : ℕ → ℕ) : shape.blocks d.entry a =
    ((List.range' 0 NDIRECT).flatMap fun r => subtree d.entry (List.range NINDIRECT) 0 (a r)) ++
      (subtree d.entry (List.range NINDIRECT) 1 (a NDIRECT) ++
        subtree d.entry (List.range NINDIRECT) 2 (a (NDIRECT + 1))) := by
  have hroots : shape.roots = List.range' 0 NDIRECT ++ [NDIRECT, NDIRECT + 1] := by decide
  have hentries : shape.entries = List.range NINDIRECT := by simp only [shape]
  have hsingle : shape.depth NDIRECT = 1 := rfl
  have hdouble : shape.depth (NDIRECT + 1) = 2 := rfl
  rw [Shape.blocks, hroots, List.flatMap_append, List.flatMap_cons, List.flatMap_singleton,
    hentries, hsingle, hdouble]
  refine congrArg (· ++ _) (List.flatMap_congr fun r hr => ?_)
  have hlt : r < NDIRECT := by simpa using hr
  have hdepth : shape.depth r = 0 := if_pos hlt
  rw [hdepth]

theorem itrunc_ends (h : Forest shape base F d) (i : ι) :
    ∃ ip d', Ends (itrunc (F i)) d ip d' ∧ Truncates shape base i F d ip d' := by
  have hmeta : ∀ r p, shape.Ok r p → walk d.entry ((F i).addrs r) p ≠ 0 →
      ¬ IsMeta (walk d.entry ((F i).addrs r) p) := fun r p hok h0 =>
    h.not_isMeta (x := (i, r, p)) hok h0
  have hclear : ∀ r, r < NDIRECT + 2 → (((F i).clear 0 NDIRECT).setAddr NDIRECT 0).addrs r =
      if r ≤ NDIRECT then 0 else (F i).addrs r := by
    intro r hr
    rw [Inode.clear_eq]
    by_cases hrn : r = NDIRECT
    · simp [Inode.setAddr, hrn]
    · simp only [Inode.setAddr, Function.update_of_ne hrn]
      congr 1
      simp only [eq_iff_iff]
      omega
  have hind : ((F i).clear 0 NDIRECT).addrs NDIRECT = (F i).addrs NDIRECT := by
    rw [Inode.clear_eq]
    simp
  have hdbl := hclear (NDIRECT + 1) (by omega)
  rw [if_neg (by omega)] at hdbl
  refine Frees.truncates h i ((((F i).clear 0 NDIRECT).setAddr NDIRECT 0).setAddr
    (NDIRECT + 1) 0) ?_ ?_ ?_
  · rw [blocks_eq, ← hind, ← hdbl]
    refine .bind (.clearDirect (F i) 0 NDIRECT) (.bind (.clearAddr fun h0 => ?_)
      (.clearAddr fun h0 => ?_))
    · rw [hind] at h0 ⊢
      exact .freeIndirect h0 (hmeta NDIRECT [] (ok_root (by omega)) h0)
    · rw [hdbl] at h0 ⊢
      refine .freeDouble h0 (hmeta (NDIRECT + 1) [] (ok_root (by omega)) h0) fun j hj hj0 => ?_
      have hw := hmeta (NDIRECT + 1) [j]
        (Shape.Ok.of_snoc (p := [j]) (k := 0) (ok_double hj (by decide)))
      rw [walk_cons h0, walk_nil] at hw
      exact hw hj0
  · exact ⟨_, by rw [Inode.clear_eq]; rfl⟩
  · intro r hr
    have hr' : r < NDIRECT + 2 := List.mem_range.mp hr
    by_cases hrn : r = NDIRECT + 1
    · simp [Inode.setAddr, hrn]
    · have := hclear r hr'
      rw [if_pos (by omega)] at this
      simpa [Inode.setAddr, Function.update_of_ne hrn] using this

end Xv6Sheet.BigFile
