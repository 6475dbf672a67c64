import Xv6Sheet.BigFile.Bmap
import Xv6Sheet.Disk.Store

/-! # The big file without a singly-indirect block

`bmap` with the master map at `addrs[NDIRECT]`, used together with the `itrunc` of the
template layout, which takes that block for a singly-indirect one. Truncation then frees the
index blocks as if they were data and leaves the data blocks below them in use.
-/

namespace Xv6Sheet.BigFile

open Exec Store

namespace NoSingle

/-- The forest of an inode: direct blocks at the roots below `NDIRECT`, the master map at
`NDIRECT`. The last address is not used. -/
def shape : Shape ℕ ℕ where
  roots := List.range (NDIRECT + 2)
  entries := List.range NINDIRECT
  depth r := if r = NDIRECT then 2 else 0
  roots_nodup := BigFile.shape.roots_nodup
  entries_nodup := List.nodup_range

def MAXFILE : ℕ := NDIRECT + NINDIRECT * NINDIRECT

/-- The position of the block number `bn`. -/
def position (bn : ℕ) : ℕ × List ℕ :=
  if bn < NDIRECT then (bn, [])
  else (NDIRECT, [(bn - NDIRECT) / NINDIRECT, (bn - NDIRECT) % NINDIRECT])

theorem ok_root {r : ℕ} (h : r < NDIRECT + 2) : shape.Ok r [] :=
  ⟨List.mem_range.mpr h, by simp, by simp⟩

theorem ok_double {j k : ℕ} (hj : j < NINDIRECT) (hk : k < NINDIRECT) :
    shape.Ok NDIRECT [j, k] :=
  ⟨List.mem_range.mpr (by omega), by simp [shape], by simpa [shape] using ⟨hj, hk⟩⟩

theorem double_lt {bn : ℕ} (h : NDIRECT + bn < MAXFILE) :
    bn / NINDIRECT < NINDIRECT ∧ bn % NINDIRECT < NINDIRECT := by
  simp only [MAXFILE, NINDIRECT, BSIZE] at *
  omega

variable [sb : Superblock]

/-- Return the disk block address of the `bn`th block of the inode, allocating it if there
is none. 0 if out of disk space. -/
def bmap (ip : Inode) (bn : ℕ) : DiskM (ℕ × Inode) :=
  if bn < NDIRECT then addrsBlock ip bn
  else
    let bn := bn - NDIRECT
    if bn < NINDIRECT * NINDIRECT then do
      let (addr, ip) ← addrsBlock ip NDIRECT
      if addr = 0 then return (0, ip)
      else do
        let index1 := bn / NINDIRECT
        let index2 := bn % NINDIRECT
        let addr ← entryBlock addr index1
        if addr = 0 then return (0, ip)
        else do
          let addr ← entryBlock addr index2
          return (addr, ip)
    else panicAt "bmap: out of range"

def request (bn : ℕ) : Exec (Store Unit) Fault ℕ := onInode () fun ip => bmap ip bn

variable {base : Set ℕ} {s s₀ t : Store Unit} {bn r : ℕ}

theorem bmap_ends {ι : Type} [DecidableEq ι] {F : ι → Inode} {d : Disk}
    (h : Forest shape base F d) (i : ι) (hbn : bn < MAXFILE) :
    ∃ r ip d', Ends (bmap (F i) bn) d (r, ip) d' ∧
      Finds shape base i (position bn).1 (position bn).2 F (Function.update F i ip) d d' r := by
  unfold bmap position
  by_cases hd : bn < NDIRECT
  · rw [if_pos hd, if_pos hd]
    obtain ⟨r, ip, d', he, hens⟩ := addrsBlock_ends h i (ok_root (Nat.lt_add_right 2 hd)).1
    exact ⟨r, ip, d', he, hens.finds⟩
  · obtain ⟨k, rfl⟩ : ∃ k, bn = NDIRECT + k := ⟨bn - NDIRECT, by omega⟩
    have hk : k < NINDIRECT * NINDIRECT := by
      unfold MAXFILE at hbn
      omega
    rw [if_neg hd, if_neg hd]
    simp only [Nat.add_sub_cancel_left, if_pos hk]
    obtain ⟨hj, hl⟩ := double_lt hbn
    exact double_ends h i (ok_double hj hl)

theorem request_finds (h : Forest shape base s.inodes s.disk) (hbn : bn < MAXFILE)
    (he : Ends (request bn) s r t) :
    Finds shape base () (position bn).1 (position bn).2 s.inodes t.inodes s.disk t.disk r := by
  obtain ⟨ip, d, hm, rfl⟩ := ends_onInode.mp he
  obtain ⟨r', ip', d', hm', hf⟩ := bmap_ends h () hbn
  obtain ⟨hr, rfl⟩ := hm.unique hm'
  obtain ⟨rfl, rfl⟩ := Prod.mk.inj hr
  exact hf

def held (s : Store Unit) : Finset ℕ := {r ∈ Finset.range NDIRECT | (s.inodes ()).addrs r ≠ 0}

omit sb in
theorem mem_held : r ∈ held s ↔ r < NDIRECT ∧ s.ptr ((), r, []) ≠ 0 := by
  simp [held]

def HasData (s : Store Unit) : Prop :=
  ∃ j < NINDIRECT, ∃ k < NINDIRECT, s.ptr ((), NDIRECT, [j, k]) ≠ 0

/-- What holds after requests for the direct blocks `bns`, with `n` blocks free before the
first one. -/
structure Direct (base : Set ℕ) (n : ℕ) (bns : Finset ℕ) (s : Store Unit) : Prop where
  forest : Forest shape base s.inodes s.disk
  master : s.ptr ((), NDIRECT, []) = 0
  unused : s.ptr ((), NDIRECT + 1, []) = 0
  card : s.disk.free.card + (held s).card = n
  held_subset : held s ⊆ bns
  all : s.disk.free = ∅ ∨ bns ⊆ held s

variable {n : ℕ} {bns : Finset ℕ} {cs : List ℕ}

omit sb in
theorem ptr_master_zero (h : s.ptr ((), NDIRECT, []) = 0) (p : List ℕ) :
    s.ptr ((), NDIRECT, p) = 0 := by
  have h0 : addrsOf s.inodes () NDIRECT = 0 := h
  rw [ptr, ptrAt, Shape.ptr, h0, walk_zero]

theorem Direct.not_hasData (h : Direct base n bns s) : ¬ HasData s := by
  rintro ⟨j, -, k, -, h0⟩
  exact h0 (ptr_master_zero h.master [j, k])

/-- The blocks in use are those of the first requests, so few blocks are left exactly when
there were few more than the direct blocks asked for. -/
theorem Direct.free_lt (h : Direct base n bns s) (m : ℕ) :
    s.disk.free.card < m + 1 ↔ n < bns.card + (m + 1) := by
  have hle := Finset.card_le_card h.held_subset
  have hcard := h.card
  rcases h.all with hfree | hall
  · have := Finset.card_eq_zero.mpr hfree
    omega
  · have := Finset.card_le_card hall
    omega

theorem Direct.request (h : Direct base n bns s) (hbn : bn < NDIRECT)
    (he : Ends (request bn) s r t) : Direct base n (insert bn bns) t := by
  have hlt : bn < MAXFILE := by
    unfold MAXFILE
    omega
  have hf := request_finds h.forest hlt he
  have hpos : position bn = (bn, []) := if_pos hbn
  rw [hpos] at hf
  have hother : ∀ k < NDIRECT + 2, k ≠ bn → t.ptr ((), k, []) = s.ptr ((), k, []) :=
    fun k hk hne => hf.only ((), k, []) (ok_root hk) fun _ hkb => absurd hkb hne
  have hmaster := (hother NDIRECT (by omega) (by omega)).trans h.master
  have hunused := (hother (NDIRECT + 1) (by omega) (by omega)).trans h.unused
  have hself : t.ptr ((), bn, []) = r := hf.ptr_eq
  have hmissing := missing_nil s.inodes s.disk () bn
  rcases eq_or_ne r 0 with rfl | hr
  · -- the disk is full, and the block is still missing
    obtain ⟨hfree, hcard⟩ := hf.full rfl
    have hheld : held t = held s := by
      ext k
      rw [mem_held, mem_held]
      refine and_congr_right fun hk => ?_
      rcases eq_or_ne k bn with rfl | hne
      · have h0 : ptrAt s.inodes s.disk ((), k, []) = 0 := by
          by_contra h0
          rw [hmissing, if_neg h0] at hcard
          omega
        rw [hself, ptr, h0]
      · rw [hother k (by omega) hne]
    have hs := h.card
    refine ⟨hf.forest, hmaster, hunused, ?_, ?_, Or.inl hfree⟩
    · rw [hfree, hheld, Finset.card_empty]
      rw [hmissing] at hcard
      split at hcard <;> omega
    · rw [hheld]
      exact h.held_subset.trans (Finset.subset_insert bn bns)
  · have hcard := hf.card hr
    have hheld : held t = insert bn (held s) := by
      ext k
      rw [Finset.mem_insert, mem_held, mem_held]
      rcases eq_or_ne k bn with rfl | hne
      · simp [hself, hr, hbn]
      · simp only [hne, false_or]
        refine and_congr_right fun hk => ?_
        rw [hother k (by omega) hne]
    have hin : bn ∈ held s ↔ ¬ ptrAt s.inodes s.disk ((), bn, []) = 0 :=
      mem_held.trans (and_iff_right hbn)
    have hs := h.card
    refine ⟨hf.forest, hmaster, hunused, ?_, ?_, ?_⟩
    · rw [hheld, Finset.card_insert_eq_ite]
      rw [hmissing] at hcard
      simp only [hin]
      split at hcard <;> simp only [*, not_true_eq_false, not_false_eq_true, if_true, if_false] <;>
        omega
    · rw [hheld]
      exact Finset.insert_subset_insert bn h.held_subset
    · rw [hheld]
      rcases h.all with hfree | hall
      · rw [hfree, Finset.card_empty] at hcard
        exact Or.inl (Finset.card_eq_zero.mp (by omega))
      · exact Or.inr (Finset.insert_subset_insert bn hall)

theorem request_unused (h : Forest shape base s.inodes s.disk) (hbn : bn < MAXFILE)
    (he : Ends (request bn) s r t) : t.ptr ((), NDIRECT + 1, []) = s.ptr ((), NDIRECT + 1, []) := by
  refine (request_finds h hbn he).only _ (ok_root (Nat.lt_succ_self _)) fun _ hr => ?_
  have hne : (position bn).1 ≠ NDIRECT + 1 := by
    unfold position
    split <;> dsimp only <;> omega
  exact absurd hr.symm hne

theorem request_hasData (h : Forest shape base s.inodes s.disk) (hbn : bn < MAXFILE)
    (he : Ends (request bn) s r t) (hs : HasData s) : HasData t := by
  obtain ⟨j, hj, k, hk, h0⟩ := hs
  have hptr := (request_finds h hbn he).extends'.ptr_eq ((), NDIRECT, [j, k]) (ok_double hj hk) h0
  exact ⟨j, hj, k, hk, hptr.trans_ne h0⟩

theorem request_full (h : Forest shape base s.inodes s.disk) (hbn : bn < MAXFILE)
    (he : Ends (request bn) s r t) (hfree : s.disk.free = ∅) (hs : ¬ HasData s) :
    t.disk.free = ∅ ∧ ¬ HasData t := by
  obtain ⟨hfree', hzero⟩ := (request_finds h hbn he).of_full h hfree
  refine ⟨hfree', ?_⟩
  rintro ⟨j, hj, k, hk, h0⟩
  refine hs ⟨j, hj, k, hk, fun h1 => h0 ?_⟩
  exact hzero ((), NDIRECT, [j, k]) (ok_double hj hk) h1

/-- The first request beyond the direct blocks takes three blocks, or fills the disk without
reaching a data block. -/
theorem Direct.request_double (h : Direct base n bns s) (hge : NDIRECT ≤ bn) (hbn : bn < MAXFILE)
    (he : Ends (NoSingle.request bn) s r t) :
    (3 ≤ s.disk.free.card ∧ HasData t) ∨
      (s.disk.free.card < 3 ∧ t.disk.free = ∅ ∧ ¬ HasData t) := by
  have hf := request_finds h.forest hbn he
  obtain ⟨c, rfl⟩ : ∃ c, bn = NDIRECT + c := ⟨bn - NDIRECT, by omega⟩
  obtain ⟨hj, hk⟩ := double_lt hbn
  have hpos : position (NDIRECT + c) = (NDIRECT, [c / NINDIRECT, c % NINDIRECT]) := by
    unfold position
    rw [if_neg (by omega), Nat.add_sub_cancel_left]
  rw [hpos] at hf
  dsimp only at hf
  generalize c / NINDIRECT = j at *
  generalize c % NINDIRECT = k at *
  have hmissing : missing s.inodes s.disk () NDIRECT [j, k] = 3 := by
    have hzero := ptr_master_zero h.master
    have h₂ := missing_snoc s.inodes s.disk () NDIRECT [j] k
    have h₁ := missing_snoc s.inodes s.disk () NDIRECT [] j
    rw [missing_nil, if_pos (hzero []), if_pos (hzero _)] at h₁
    rw [if_pos (hzero _)] at h₂
    simp only [List.nil_append, List.cons_append] at h₁ h₂
    omega
  rcases eq_or_ne r 0 with rfl | hr
  · obtain ⟨hfree, hcard⟩ := hf.full rfl
    refine Or.inr ⟨hmissing ▸ hcard, hfree, ?_⟩
    rintro ⟨j', hj', k', hk', h0⟩
    by_cases hjk : [j', k'] <+: [j, k]
    · obtain ⟨rfl, rfl⟩ : j' = j ∧ k' = k := by simpa using hjk.eq_of_length rfl
      exact h0 hf.ptr_eq
    · have hptr := hf.only ((), NDIRECT, [j', k']) (ok_double hj' hk') fun _ _ => hjk
      exact h0 (hptr.trans (ptr_master_zero h.master _))
  · have hcard := hf.card hr
    have hptr : t.ptr ((), NDIRECT, [j, k]) = r := hf.ptr_eq
    refine Or.inl ⟨by omega, j, hj, k, hk, hptr.trans_ne hr⟩

def directs (cs : List ℕ) : List ℕ := cs.takeWhile (· < NDIRECT)

def Kept (base : Set ℕ) (s : Store Unit) : Prop :=
  Forest shape base s.inodes s.disk ∧ s.ptr ((), NDIRECT + 1, []) = 0

theorem Kept.request (h : Kept base s) (hbn : bn < MAXFILE)
    (he : Ends (NoSingle.request bn) s r t) : Kept base t :=
  ⟨(request_finds h.1 hbn he).forest, (request_unused h.1 hbn he).trans h.2⟩

theorem runs_hasData (h : Runs NoSingle.request s cs t) (hcs : ∀ bn ∈ cs, bn < MAXFILE)
    (hs : Kept base s ∧ HasData s) : Kept base t ∧ HasData t :=
  h.invariant (I := fun s => Kept base s ∧ HasData s) (P := fun bn => bn < MAXFILE)
    (fun _ _ _ _ hs hbn he => ⟨hs.1.request hbn he, request_hasData hs.1.1 hbn he hs.2⟩) hcs hs

theorem runs_full (h : Runs NoSingle.request s cs t) (hcs : ∀ bn ∈ cs, bn < MAXFILE)
    (hs : Kept base s ∧ s.disk.free = ∅ ∧ ¬ HasData s) :
    Kept base t ∧ t.disk.free = ∅ ∧ ¬ HasData t :=
  h.invariant (I := fun s => Kept base s ∧ s.disk.free = ∅ ∧ ¬ HasData s)
    (P := fun bn => bn < MAXFILE)
    (fun _ _ _ _ hs hbn he => ⟨hs.1.request hbn he, request_full hs.1.1 hbn he hs.2.1 hs.2.2⟩)
    hcs hs

theorem Direct.runs (h : Direct base n bns s) (hr : Runs NoSingle.request s cs t)
    (hcs : ∀ bn ∈ cs, bn < MAXFILE) : Kept base t ∧
      (¬ HasData t ↔ directs cs = cs ∨ n < (bns ∪ (directs cs).toFinset).card + 3) := by
  induction hr generalizing bns with
  | nil s => exact ⟨⟨h.forest, h.unused⟩, iff_of_true h.not_hasData (Or.inl rfl)⟩
  | @cons s u t bn r cs he hr ih =>
    have hbn := hcs bn List.mem_cons_self
    have hcs' : ∀ bn ∈ cs, bn < MAXFILE := fun b hb => hcs b (List.mem_cons_of_mem _ hb)
    rcases Nat.lt_or_ge bn NDIRECT with hd | hd
    · have hdirects : directs (bn :: cs) = bn :: directs cs :=
        List.takeWhile_cons_of_pos (by simpa using hd)
      obtain ⟨hkept, hiff⟩ := ih (h.request hd he) hcs'
      refine ⟨hkept, hiff.trans ?_⟩
      rw [hdirects, List.toFinset_cons, Finset.union_insert, Finset.insert_union,
        List.cons_eq_cons, and_iff_right rfl]
    · have hdirects : directs (bn :: cs) = [] :=
        List.takeWhile_cons_of_neg (by simpa using hd)
      have hkept := Kept.request ⟨h.forest, h.unused⟩ hbn he
      rw [hdirects, List.toFinset_nil, Finset.union_empty, ← h.free_lt 2]
      rcases h.request_double hd hbn he with ⟨hfree, hdata⟩ | ⟨hfree, hfull, hnone⟩
      · obtain ⟨hkept', hdata'⟩ := runs_hasData hr hcs' ⟨hkept, hdata⟩
        refine ⟨hkept', iff_of_false (not_not_intro hdata') ?_⟩
        rintro (hnil | hlt)
        · cases hnil
        · omega
      · obtain ⟨hkept', -, hnone'⟩ := runs_full hr hcs' ⟨hkept, hfull, hnone⟩
        exact ⟨hkept', iff_of_true hnone' (Or.inr hfree)⟩

/-- Truncation with the template layout ends, and leaves exactly the data blocks below the
master map in use. -/
theorem itrunc_used (h : Kept base s) :
    ∃ ip d, Ends (itrunc (s.inodes ())) s.disk ip d ∧ (d.used = base ↔ ¬ HasData s) := by
  obtain ⟨hf, hunused⟩ := h
  have hcut : ∀ x : Unit × ℕ × List ℕ, BigFile.shape.Valid x → ptrAt s.inodes s.disk x ≠ 0 →
      shape.Valid x := by
    rintro ⟨⟨⟩, r, p⟩ ⟨hr, hp, hk⟩ h0
    refine ⟨hr, ?_, hk⟩
    simp only [BigFile.shape, shape] at hr hp ⊢
    have hr' := List.mem_range.mp hr
    rcases Nat.lt_trichotomy r NDIRECT with hlt | rfl | hgt
    · rw [if_pos hlt] at hp
      omega
    · simp at hp ⊢
      omega
    · obtain rfl : r = NDIRECT + 1 := by omega
      have hz : addrsOf s.inodes () (NDIRECT + 1) = 0 := hunused
      rw [ptrAt, Shape.ptr, hz, walk_zero] at h0
      exact absurd rfl h0
  have hown := hf.owned.recut hcut
  have hforest : Forest BigFile.shape _ s.inodes s.disk :=
    ⟨fun b hb hm => Or.inl (hf.meta_base b hb hm), hown⟩
  obtain ⟨ip, d, he, ht⟩ := BigFile.itrunc_ends hforest ()
  have hused : ∀ b, b ∈ d.used ↔ b ∈ base ∨ ∃ x : Unit × ℕ × List ℕ, shape.Valid x ∧
      ¬ BigFile.shape.Valid x ∧ s.ptr x = b ∧ b ≠ 0 := by
    intro b
    rw [ht.forest.owned.used_iff]
    refine or_iff_left ?_
    rintro ⟨x, hx, rfl, h0⟩
    exact h0 (ht.ptr_zero hx)
  refine ⟨ip, d, he, fun heq => ?_, fun hnone => ?_⟩
  · rintro ⟨j, hj, k, hk, h0⟩
    have hv : shape.Valid ((), NDIRECT, [j, k]) := ok_double hj hk
    have hv' : ¬ BigFile.shape.Valid ((), NDIRECT, [j, k]) := fun hv' => by
      have hlen := hv'.2.1
      simp [BigFile.shape] at hlen
    have hmem := (hused _).mpr (Or.inr ⟨_, hv, hv', rfl, h0⟩)
    rw [heq] at hmem
    exact hf.owned.not_base _ hv h0 hmem
  · ext b
    rw [hused]
    refine or_iff_left ?_
    rintro ⟨⟨⟨⟩, r, p⟩, ⟨hr, hp, hk⟩, hv', rfl, h0⟩
    -- only the paths of length two from the master map are cut off
    have hdeep : ¬ p.length ≤ BigFile.shape.depth r := fun hp' => hv' ⟨hr, hp', hk⟩
    simp only [shape, BigFile.shape] at hp hdeep
    by_cases hrn : r = NDIRECT
    · subst hrn
      rw [if_pos rfl] at hp
      rcases Nat.lt_or_ge p.length 2 with hlt | hge
      · rw [if_neg (Nat.lt_irrefl _), if_pos rfl] at hdeep
        omega
      · obtain ⟨j, k, rfl⟩ := List.length_eq_two.mp (Nat.le_antisymm hp hge)
        have hlt : j < NINDIRECT ∧ k < NINDIRECT := by simpa [shape] using hk
        exact hnone ⟨j, hlt.1, k, hlt.2, h0⟩
    · rw [if_neg hrn] at hp
      omega

/-- From an empty inode: `itrunc` ends, and gives back exactly what the requests took when only
direct blocks were asked for or there were too few free blocks for a data block below the
master map at the first other request. -/
theorem itrunc_restores_iff (h₀ : s₀.Empty shape) (hcs : ∀ bn ∈ cs, bn < MAXFILE)
    (h : Runs request s₀ cs s) :
    ∃ ip d, Ends (itrunc (s.inodes ())) s.disk ip d ∧ (d.used = s₀.disk.used ↔
      directs cs = cs ∨ s₀.disk.free.card < (directs cs).toFinset.card + 3) := by
  have hroot : ∀ r < NDIRECT + 2, s₀.ptr ((), r, []) = 0 := fun r hr =>
    h₀.roots () r (List.mem_range.mpr hr)
  have hheld : held s₀ = ∅ := by
    ext r
    rw [mem_held]
    simp only [Finset.notMem_empty, iff_false, not_and, not_not]
    exact fun hr => hroot r (by omega)
  have hdirect : Direct s₀.disk.used s₀.disk.free.card ∅ s₀ :=
    { forest := h₀.forest
      master := hroot NDIRECT (by omega)
      unused := hroot (NDIRECT + 1) (by omega)
      card := by rw [hheld, Finset.card_empty, Nat.add_zero]
      held_subset := by rw [hheld]
      all := Or.inr (Finset.empty_subset _) }
  obtain ⟨hkept, hiff⟩ := hdirect.runs h hcs
  obtain ⟨ip, d, he, hused⟩ := itrunc_used hkept
  rw [Finset.empty_union] at hiff
  exact ⟨ip, d, he, hused.trans hiff⟩

omit sb in
/-- Two direct blocks of a file on the small disk. -/
theorem itrunc_restores_small :
    letI := smallDisk
    ∃ s, Runs request (.small fun _ => 1) [0, 5] s ∧
    ∃ ip d, Ends (itrunc (s.inodes ())) s.disk ip d ∧
      d.used = (Store.small (ι := Unit) fun _ => 1).disk.used := by
  let _ := smallDisk
  have h₀ := Store.empty_small (ι := Unit) (fun _ => 1) shape
  have hr : Runs request (.small fun _ => 1) [0, 5] _ := .of_allEnd (by decide +kernel)
  obtain ⟨ip, d, he, hiff⟩ := itrunc_restores_iff h₀ (by decide) hr
  exact ⟨_, hr, ip, d, he, hiff.mpr (Or.inl (by decide))⟩

omit sb in
/-- Asking for one block below the master map takes three blocks, of which truncation gives two
back: block 6 stays marked. -/
theorem itrunc_leaks :
    letI := smallDisk
    ∃ s, Runs request (.small fun _ => 1) [11] s ∧ ¬ ∃ ip d,
      Ends (itrunc (s.inodes ())) s.disk ip d ∧
        d.used = (Store.small (ι := Unit) fun _ => 1).disk.used := by
  let _ := smallDisk
  have hr : Runs request (.small fun _ => 1) [11] _ := .of_allEnd (by decide +kernel)
  have hok : ((itrunc ((afterAll request [11] (.small fun _ => 1)).inodes ())).run
      (afterAll request [11] (.small fun _ => 1)).disk).isOk = true := by decide +kernel
  obtain ⟨ip, he⟩ := ends_after hok
  have hmarked : (after (itrunc ((afterAll request [11] (.small fun _ => 1)).inodes ()))
      (afterAll request [11] (.small fun _ => 1)).disk).Marked 6 := by decide +kernel
  have hfree : ¬ (Store.small (ι := Unit) fun _ => 1).disk.Marked 6 := by decide +kernel
  refine ⟨_, hr, ?_⟩
  rintro ⟨ip', d, he', hused⟩
  obtain ⟨rfl, rfl⟩ := he'.unique he
  have hin : 6 ∈ (Store.small (ι := Unit) fun _ => 1).disk.used := hused ▸ ⟨by decide, hmarked⟩
  exact hfree hin.2

end NoSingle

end Xv6Sheet.BigFile
