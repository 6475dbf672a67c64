import Xv6Sheet.Fs.Content

/-! # The blocks that a write takes

A stretch within one block is written when the blocks missing on the way to it are free. The write
takes these blocks and no others, and for no other inode.
-/

namespace Xv6Sheet.Fs

open Exec

variable [sb : Superblock] {ι : Type} {base : Set ℕ} {F F' : ι → Inode} {d d' : Disk} {i : ι}
  {off n : ℕ}

def lacking (F : ι → Inode) (d : Disk) (i : ι) (off : ℕ) : ℕ :=
  missing F d i (position (off / BSIZE)).1 (position (off / BSIZE)).2

omit sb in
theorem lacking_congr (hF : (F' i).addrs = (F i).addrs) (hd : d'.block = d.block) (off : ℕ) :
    lacking F' d' i off = lacking F d i off := by
  have he : d'.entry = d.entry := by funext b k; rw [Disk.entry, hd, Disk.entry]
  have hptr : ∀ r q, ptrAt F' d' (i, r, q) = ptrAt F d (i, r, q) := fun r q => by
    simp only [ptrAt, Shape.ptr, addrsOf, hF, he]
  unfold lacking missing
  simp only [hptr]

omit sb in
theorem lacking_zero (hF : (F i).addrs 0 = 0) : lacking F d i 0 = 1 := by
  have hptr : ptrAt F d (i, 0, []) = 0 := hF
  have hpos : position (0 / BSIZE) = (0, []) := rfl
  rw [lacking, hpos, missing_nil, if_pos hptr]

theorem writei_takes [DecidableEq ι] (h : Forest shape base F d) {src : Bytes}
    (hoff : off ≤ (F i).size)
    (hfit : off + n ≤ MAXFILE * BSIZE) (hn : 0 < n) (hblock : off % BSIZE + n ≤ BSIZE) {r : ℤ}
    {ip : Inode}
    (hrun : Ends (writei (F i) (fun _ => true) src off n) d (r, ip) d') :
    (r = n ∧ d'.free.card + lacking F d i off = d.free.card) ∨
      (r = 0 ∧ d.free.card < lacking F d i off) := by
  have hmax := maxfile_lt
  unfold writei at hrun
  rw [if_neg (by omega), if_neg (by omega)] at hrun
  obtain ⟨⟨tot, ip₁⟩, d₁, hloop, hrun⟩ := ends_bind.mp hrun
  obtain ⟨_, d₂, hstore, hrun⟩ := ends_bind.mp hrun
  have hr : r = toInt tot := (Prod.mk.inj (ends_pure.mp hrun).1).1
  obtain rfl := (ends_pure.mp hrun).2
  have hfree : d'.free = d₁.free := by
    rw [ends_iupdateDisk.mp hstore]
    rfl
  rw [hfree]
  obtain ⟨v, ip₂, d₃, hbmap, hfinds⟩ := bmap_ends h i (div_lt_maxfile (k := off) (by omega))
  -- the one turn of the loop
  unfold writeLoop at hloop
  rw [if_pos hn, Nat.add_zero] at hloop
  obtain ⟨⟨v', ip₃⟩, d₄, hbmap', hloop⟩ := ends_bind.mp hloop
  obtain ⟨hv, rfl⟩ := hbmap'.unique hbmap
  obtain ⟨rfl, rfl⟩ := Prod.mk.inj hv
  dsimp only at hloop
  split at hloop
  · rename_i h0
    obtain ⟨htot, -⟩ := ends_pure.mp hloop
    obtain ⟨rfl, -⟩ := Prod.mk.inj htot
    exact .inr ⟨hr, (hfinds.full h0).2⟩
  rename_i h0
  have hm : min (n - 0) (BSIZE - off % BSIZE) = n := by omega
  simp only [hm, if_true] at hloop
  obtain ⟨bp, d₅, hread, hcopy⟩ := ends_bind.mp hloop
  obtain ⟨-, rfl⟩ := ends_bread.mp hread
  obtain ⟨_, d₆, hwrite, hrest⟩ := ends_bind.mp hcopy
  have hd₆ := ends_logWrite.mp hwrite
  unfold writeLoop at hrest
  rw [Nat.zero_add, if_neg (Nat.lt_irrefl n)] at hrest
  obtain ⟨htot, rfl⟩ := ends_pure.mp hrest
  obtain ⟨rfl, -⟩ := Prod.mk.inj htot
  refine .inl ⟨hr.trans (toInt_of_lt (by omega)), ?_⟩
  have hused : d₁.used = d₅.used := by
    rw [hd₆]
    refine Disk.used_write ?_
    rw [← hfinds.ptr_eq]
    refine hfinds.forest.not_isMeta (position_valid i (div_lt_maxfile (by omega))) ?_
    rw [hfinds.ptr_eq]
    exact h0
  have hsame : d₁.free = d₅.free := by
    ext b
    rw [Disk.mem_free, Disk.mem_free, hused]
  rw [hsame]
  exact hfinds.card h0

theorem writeLoop_others [DecidableEq ι] {ok : ℕ → Bool} {src : Bytes} {fuel tot r : ℕ} {ip : Inode}
    (h : Forest shape base F d) (hfit : off + n ≤ MAXFILE * BSIZE)
    (hrun : Ends (writeLoop ok src off n fuel tot (F i)) d (r, ip) d') {x : ι × ℕ × List ℕ}
    (hx : shape.Valid x) (hi : x.1 ≠ i) : ptrAt (Function.update F i ip) d' x = ptrAt F d x := by
  have hstop : ∀ {F₁ : ι → Inode} {d₁ : Disk} {tot : ℕ},
      Ends (pure (tot, F₁ i) : DiskM (ℕ × Inode)) d₁ (r, ip) d' →
      Function.update F₁ i ip = F₁ ∧ d' = d₁ := fun hends => by
    obtain ⟨hpair, hd⟩ := ends_pure.mp hends
    rw [(Prod.mk.inj hpair).2, Function.update_eq_self]
    exact ⟨rfl, hd⟩
  induction fuel generalizing tot F d with
  | zero =>
    obtain ⟨hF, rfl⟩ := hstop hrun
    rw [hF]
  | succ fuel ih =>
    unfold writeLoop at hrun
    split at hrun
    swap
    · obtain ⟨hF, rfl⟩ := hstop hrun
      rw [hF]
    rename_i ht
    have hbn : (off + tot) / BSIZE < MAXFILE := div_lt_maxfile (by omega)
    obtain ⟨v, ip₁, d₁, hbmap, hfinds⟩ := bmap_ends h i hbn
    obtain ⟨F₁, hF₁⟩ : ∃ F₁, F₁ = Function.update F i ip₁ := ⟨_, rfl⟩
    have hip : F₁ i = ip₁ := by rw [hF₁, Function.update_self]
    have hFF : ∀ ip₂, Function.update F₁ i ip₂ = Function.update F i ip₂ := fun ip₂ => by
      rw [hF₁, Function.update_idem]
    rw [← hF₁] at hfinds
    rw [← hfinds.extends'.others x hx hi, ← hFF]
    obtain ⟨⟨v', ip'⟩, d₂, hbmap', hrun⟩ := ends_bind.mp hrun
    obtain ⟨hv, rfl⟩ := hbmap'.unique hbmap
    obtain ⟨rfl, rfl⟩ := Prod.mk.inj hv
    dsimp only at hrun
    rw [← hip] at hrun
    split at hrun
    · obtain ⟨hF, rfl⟩ := hstop hrun
      rw [hF]
    rename_i h0
    obtain ⟨bp, d₃, hread, hcopy⟩ := ends_bind.mp hrun
    obtain ⟨-, rfl⟩ := ends_bread.mp hread
    split at hcopy
    · -- the block of data is written
      obtain ⟨_, d₄, hwrite, hrest⟩ := ends_bind.mp hcopy
      obtain rfl := ends_logWrite.mp hwrite
      rw [← hfinds.ptr_eq] at h0 hrest
      obtain ⟨hforest, hptr⟩ := hfinds.forest.write_leaf (position_leaf i hbn) h0
        (bp.copy ((off + tot) % BSIZE) src tot (min (n - tot) (BSIZE - (off + tot) % BSIZE)))
      rw [← hptr x hx]
      exact ih hforest hrest
    · obtain ⟨hF, rfl⟩ := hstop hcopy
      rw [hF]

theorem writei_others [DecidableEq ι] {ok : ℕ → Bool} {src : Bytes} {r : ℤ} {ip : Inode}
    (h : Forest shape base F d) (hn : off + n < 2 ^ 32)
    (hrun : Ends (writei (F i) ok src off n) d (r, ip) d') {x : ι × ℕ × List ℕ}
    (hx : shape.Valid x) (hi : x.1 ≠ i) : ptrAt (Function.update F i ip) d' x = ptrAt F d x := by
  unfold writei at hrun
  rw [Nat.mod_eq_of_lt hn] at hrun
  split at hrun
  · obtain ⟨hpair, rfl⟩ := ends_pure.mp hrun
    rw [(Prod.mk.inj hpair).2, Function.update_eq_self]
  split at hrun
  · obtain ⟨hpair, rfl⟩ := ends_pure.mp hrun
    rw [(Prod.mk.inj hpair).2, Function.update_eq_self]
  rename_i hfit
  obtain ⟨⟨tot, ip₁⟩, d₁, hloop, hrun⟩ := ends_bind.mp hrun
  obtain ⟨_, d₂, hstore, hrun⟩ := ends_bind.mp hrun
  obtain ⟨hpair, rfl⟩ := ends_pure.mp hrun
  obtain rfl := ends_iupdateDisk.mp hstore
  have haddrs : ∀ j, (Function.update F i ip j).addrs = (Function.update F i ip₁ j).addrs := by
    intro j
    rw [(Prod.mk.inj hpair).2]
    by_cases hj : j = i
    · subst hj
      rw [Function.update_self, Function.update_self]
      split <;> rfl
    · rw [Function.update_of_ne hj, Function.update_of_ne hj]
  rw [← writeLoop_others h (by omega) hloop hx hi]
  exact congrFun (Forest.ptrAt_congr haddrs rfl) x

end Xv6Sheet.Fs
