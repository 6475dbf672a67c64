import Xv6Sheet.Fs.Content

/-! # The record of an inode

What the programs of `fs.c` do to the record of the inode they work on and to the inode
blocks, whatever the other blocks hold. Where the addresses for all bytes below the size are
set, reading leaves the record as it is; writing and truncating store it.
-/

namespace Xv6Sheet.Fs

open Exec

def RootAt (dip : Dinode) (k : ℕ) : Prop :=
  k / BSIZE < MAXFILE ∧ dip.addrs (position (k / BSIZE)).1 ≠ 0

def BlockAt (d : Disk) (dip : Dinode) (k : ℕ) : Prop :=
  k / BSIZE < MAXFILE ∧ walk d.entry (dip.addrs (position (k / BSIZE)).1)
  (position (k / BSIZE)).2 ≠ 0

theorem BlockAt.rootAt {d : Disk} {dip : Dinode} {k : ℕ} (h : BlockAt d dip k) : RootAt dip k :=
  ⟨h.1, fun h0 => h.2 (by rw [h0, walk_zero])⟩

def Rooted (dip : Dinode) : Prop := ∀ k < dip.size, RootAt dip k

/-- Addresses may have been set where there were none. -/
structure Grows (ip ip' : Inode) : Prop where
  inode : ∃ a, ip' = { ip with addrs := a }
  kept : ∀ k, ip.addrs k ≠ 0 → ip'.addrs k = ip.addrs k

variable {α β : Type} {ip ip' ip'' : Inode}

theorem Grows.refl (ip : Inode) : Grows ip ip := ⟨⟨ip.addrs, rfl⟩, fun _ _ => rfl⟩

theorem Grows.trans (h : Grows ip ip') (h' : Grows ip' ip'') : Grows ip ip'' := by
  obtain ⟨a, ha⟩ := h.inode
  obtain ⟨b, hb⟩ := h'.inode
  refine ⟨⟨b, by rw [hb, ha]⟩, fun k hk => ?_⟩
  rw [h'.kept k (h.kept k hk ▸ hk), h.kept k hk]

theorem Grows.rootAt (h : Grows ip ip') {k : ℕ} (hk : RootAt ip.toDinode k) :
    RootAt ip'.toDinode k :=
  ⟨hk.1, by rw [h.kept _ hk.2]; exact hk.2⟩

def Steady (m : DiskM α) : Prop := ∀ d a t, Ends m d a t → t.dinodes = d.dinodes

namespace Steady

theorem pure (a : α) : Steady (Pure.pure a) := by
  intro d b t h
  rw [(ends_pure.mp h).2]

theorem bind {m : DiskM α} {f : α → DiskM β} (hm : Steady m) (hf : ∀ a, Steady (f a)) :
    Steady (m >>= f) := by
  intro d b t h
  obtain ⟨a, u, hu, ht⟩ := ends_bind.mp h
  rw [hf a u b t ht, hm d a u hu]

theorem each {f : ℕ → DiskM Unit} (hf : ∀ j, Steady (f j)) (k n : ℕ) :
    Steady (Exec.each f k n) := by
  induction n generalizing k with
  | zero => exact .pure ()
  | succ n ih => exact (hf k).bind fun _ => ih (k + 1)

theorem bread (b : ℕ) : Steady (bread b) := by
  intro d a t h
  rw [(ends_bread.mp h).2]

theorem logWrite (b : ℕ) (data : Bytes) : Steady (logWrite b data) := by
  intro d a t h
  rw [ends_logWrite.mp h, Disk.write_dinodes]

variable [sb : Superblock]

theorem balloc : Steady balloc := by
  intro d r t h
  obtain ⟨r', t', h', hres⟩ := balloc_ends d
  obtain ⟨-, rfl⟩ := h.unique h'
  rcases hres with ⟨-, rfl, -⟩ | ⟨-, -, rfl, -⟩
  · rfl
  · rfl

theorem bfree (b : ℕ) : Steady (bfree b) := by
  refine (bread _).bind fun bp => ?_
  dsimp only
  split
  · exact logWrite _ _
  · intro d a t h
    simp at h

theorem freeIndirect (b : ℕ) : Steady (freeIndirect b) := by
  refine (bread b).bind fun bp => (each (fun j => ?_) _ _).bind fun _ => bfree b
  split
  · exact .pure ()
  · exact bfree _

theorem entryBlock (b k : ℕ) : Steady (entryBlock b k) := by
  refine (bread b).bind fun bp => ?_
  split
  · refine balloc.bind fun addr => ?_
    split
    · exact .pure 0
    · exact (logWrite _ _).bind fun _ => .pure addr
  · exact .pure _

end Steady

variable [sb : Superblock] {d d' : Disk} {k bn addr : ℕ}

theorem addrsBlock_grows (h : Ends (addrsBlock ip k) d (addr, ip') d') :
    Grows ip ip' ∧ d'.dinodes = d.dinodes ∧ (addr ≠ 0 → ip'.addrs k ≠ 0) ∧
      (ip.addrs k ≠ 0 → ip' = ip) := by
  unfold addrsBlock at h
  split at h
  · rename_i h0
    obtain ⟨b, t, hb, h⟩ := ends_bind.mp h
    have hd := Steady.balloc d b t hb
    split at h
    · obtain ⟨he, rfl⟩ := ends_pure.mp h
      obtain ⟨rfl, rfl⟩ := Prod.mk.inj he
      exact ⟨.refl _, hd, by simp, fun _ => rfl⟩
    · rename_i hb0
      obtain ⟨he, rfl⟩ := ends_pure.mp h
      obtain ⟨rfl, rfl⟩ := Prod.mk.inj he
      refine ⟨⟨⟨_, rfl⟩, fun j hj => ?_⟩, hd, fun _ => ?_, fun h => absurd h0 h⟩
      · have hjk : j ≠ k := fun he => hj (he ▸ h0)
        exact Function.update_of_ne hjk ..
      · simpa [Inode.setAddr] using hb0
  · rename_i h0
    obtain ⟨he, rfl⟩ := ends_pure.mp h
    obtain ⟨rfl, rfl⟩ := Prod.mk.inj he
    exact ⟨.refl _, rfl, fun _ => h0, fun _ => rfl⟩

theorem bmap_grows (h : Ends (bmap ip bn) d (addr, ip') d') :
    Grows ip ip' ∧ d'.dinodes = d.dinodes ∧ bn < MAXFILE ∧
      (addr ≠ 0 → ip'.addrs (position bn).1 ≠ 0) ∧
      (ip.addrs (position bn).1 ≠ 0 → ip' = ip) := by
  rcases ranges bn with hbn | ⟨k, rfl⟩
  · rw [bmap_direct _ hbn] at h
    rw [position_direct hbn]
    obtain ⟨hg, hd, h0, hsame⟩ := addrsBlock_grows h
    exact ⟨hg, hd, by simp only [MAXFILE]; omega, h0, hsame⟩
  · by_cases hk : k < NINDIRECT
    swap
    · unfold bmap at h
      rw [if_neg (by omega)] at h
      simp [hk] at h
    rw [bmap_indirect _ hk] at h
    rw [position_indirect]
    obtain ⟨⟨b, ip₁⟩, t, hb, h⟩ := ends_bind.mp h
    obtain ⟨hg, hd, h0, hsame⟩ := addrsBlock_grows hb
    dsimp only at h
    split at h
    · obtain ⟨he, rfl⟩ := ends_pure.mp h
      obtain ⟨rfl, rfl⟩ := Prod.mk.inj he
      exact ⟨hg, hd, by simp only [MAXFILE]; omega, by simp, hsame⟩
    · rename_i hb0
      obtain ⟨c, u, hc, h⟩ := ends_bind.mp h
      obtain ⟨he, rfl⟩ := ends_pure.mp h
      obtain ⟨rfl, rfl⟩ := Prod.mk.inj he
      refine ⟨hg, ?_, by simp only [MAXFILE]; omega, fun _ => h0 hb0, hsame⟩
      rw [Steady.entryBlock _ _ _ _ _ hc, hd]

section Loops

variable {ok : ℕ → Bool} {dst out src : Bytes} {off n fuel tot tot' : ℕ} {r : ℤ}

theorem readLoop_same (hroot : ∀ k, off + tot ≤ k → k < off + n → RootAt ip.toDinode k)
    (h : Ends (readLoop ok off n fuel tot dst ip) d (r, out, ip') d') :
    ip' = ip ∧ d'.dinodes = d.dinodes := by
  have hend : ∀ {x dst t}, Ends (pure (x, dst, ip) : DiskM (ℤ × Bytes × Inode)) t (r, out, ip') d' →
      ip' = ip ∧ d'.dinodes = t.dinodes := by
    intro x dst t h
    obtain ⟨he, rfl⟩ := ends_pure.mp h
    exact ⟨(Prod.mk.inj (Prod.mk.inj he).2).2, rfl⟩
  induction fuel generalizing tot dst d with
  | zero => exact hend h
  | succ fuel ih =>
    unfold readLoop at h
    by_cases ht : tot < n
    · rw [if_pos ht] at h
      obtain ⟨⟨addr, ip₁⟩, t, hb, hrest⟩ := ends_bind.mp h
      obtain ⟨-, hd, -, -, hsame⟩ := bmap_grows hb
      obtain rfl := hsame (hroot (off + tot) (Nat.le_refl _) (by omega)).2
      dsimp only at hrest
      by_cases h0 : addr = 0
      · rw [if_pos h0] at hrest
        exact hd ▸ hend hrest
      · rw [if_neg h0] at hrest
        obtain ⟨bp, u, hbp, hcopy⟩ := ends_bind.mp hrest
        obtain ⟨-, rfl⟩ := ends_bread.mp hbp
        by_cases hok : ok tot
        · rw [if_pos hok] at hcopy
          exact hd ▸ ih (fun k hk hk' => hroot k (by omega) hk') hcopy
        · rw [if_neg hok] at hcopy
          exact hd ▸ hend hcopy
    · rw [if_neg ht] at h
      exact hend h

theorem readi_same (hroot : Rooted ip.toDinode) (hoff : off < 2 ^ 32) (hn : n < 2 ^ 32)
    (h : Ends (readi ip ok dst off n) d (r, out, ip') d') :
    ip' = ip ∧ d'.dinodes = d.dinodes := by
  unfold readi at h
  split at h
  · obtain ⟨he, rfl⟩ := ends_pure.mp h
    exact ⟨(Prod.mk.inj (Prod.mk.inj he).2).2, rfl⟩
  · rename_i hin
    refine readLoop_same (fun k _ hk => hroot k ?_) h
    split at hk
    · omega
    · omega

theorem writeLoop_grows (h : Ends (writeLoop ok src off n fuel tot ip) d (tot', ip') d') :
    Grows ip ip' ∧ d'.dinodes = d.dinodes ∧
      ∀ k, off + tot ≤ k → k < off + tot' → RootAt ip'.toDinode k := by
  induction fuel generalizing tot ip d with
  | zero =>
    obtain ⟨he, rfl⟩ := ends_pure.mp h
    obtain ⟨rfl, rfl⟩ := Prod.mk.inj he
    exact ⟨.refl _, rfl, fun k hk hk' => absurd hk' (by omega)⟩
  | succ fuel ih =>
    have hend : ∀ {ip₁ t}, Grows ip ip₁ → t.dinodes = d.dinodes →
        Ends (pure (tot, ip₁) : DiskM (ℕ × Inode)) t (tot', ip') d' →
        Grows ip ip' ∧ d'.dinodes = d.dinodes ∧
          ∀ k, off + tot ≤ k → k < off + tot' → RootAt ip'.toDinode k := by
      intro ip₁ t hg hd h
      obtain ⟨he, rfl⟩ := ends_pure.mp h
      obtain ⟨rfl, rfl⟩ := Prod.mk.inj he
      exact ⟨hg, hd, fun k hk hk' => absurd hk' (by omega)⟩
    unfold writeLoop at h
    by_cases ht : tot < n
    · rw [if_pos ht] at h
      obtain ⟨⟨addr, ip₁⟩, t, hb, hrest⟩ := ends_bind.mp h
      obtain ⟨hg, hd, hbn, hroot, -⟩ := bmap_grows hb
      dsimp only at hrest
      by_cases h0 : addr = 0
      · rw [if_pos h0] at hrest
        exact hend hg hd hrest
      · rw [if_neg h0] at hrest
        obtain ⟨bp, u, hbp, hcopy⟩ := ends_bind.mp hrest
        obtain ⟨-, rfl⟩ := ends_bread.mp hbp
        by_cases hok : ok tot
        · rw [if_pos hok] at hcopy
          obtain ⟨_, v, hv, hloop⟩ := ends_bind.mp hcopy
          obtain rfl := ends_logWrite.mp hv
          obtain ⟨hg', hd', hroots⟩ := ih hloop
          refine ⟨hg.trans hg', hd'.trans hd, fun k hk hk' => ?_⟩
          rcases Nat.lt_or_ge k (off + (tot + min (n - tot) (BSIZE - (off + tot) % BSIZE)))
            with hlt | hge
          -- the byte lies in the block of this turn
          · have hdiv : k / BSIZE = (off + tot) / BSIZE := by
              simp only [BSIZE] at *
              omega
            exact hg'.rootAt ⟨hdiv ▸ hbn, by rw [hdiv]; exact hroot h0⟩
          · exact hroots k hge hk'
        · rw [if_neg hok] at hcopy
          exact hend hg hd hcopy
    · rw [if_neg ht] at h
      exact hend (.refl ip) rfl h

theorem writei_record (h : Ends (writei ip ok src off n) d (r, ip') d') :
    (ip' = ip ∧ d'.dinodes = d.dinodes) ∨
      (∃ a k, ip' = { ip with addrs := a, size := k }) ∧
        (Rooted ip.toDinode → Rooted ip'.toDinode) ∧
        d'.dinodes = (d.setDinode ip.inum ip'.toDinode).dinodes := by
  have hsame : Ends (pure (-1, ip) : DiskM (ℤ × Inode)) d (r, ip') d' →
      ip' = ip ∧ d'.dinodes = d.dinodes := by
    intro h
    obtain ⟨he, rfl⟩ := ends_pure.mp h
    exact ⟨(Prod.mk.inj he).2, rfl⟩
  unfold writei at h
  split at h
  · exact Or.inl (hsame h)
  rename_i hin
  split at h
  · exact Or.inl (hsame h)
  refine Or.inr ?_
  obtain ⟨⟨tot, ip₁⟩, t, hw, hrest⟩ := ends_bind.mp h
  obtain ⟨hg, hd, hroots⟩ := writeLoop_grows hw
  obtain ⟨_, u, hu, hpure⟩ := ends_bind.mp hrest
  obtain rfl := ends_iupdateDisk.mp hu
  obtain ⟨he, rfl⟩ := ends_pure.mp hpure
  obtain ⟨-, rfl⟩ := Prod.mk.inj he
  obtain ⟨a, rfl⟩ := hg.inode
  have hold : Rooted ip.toDinode → ∀ k < ip.size, RootAt { ip.toDinode with addrs := a } k :=
    fun hroot k hk => hg.rootAt (hroot k hk)
  dsimp only
  split
  · refine ⟨⟨a, off + tot, rfl⟩, fun hroot k hk => ?_, by simp [Disk.setDinode, hd]⟩
    rcases Nat.lt_or_ge k ip.size with hlt | hge
    · exact hold hroot k hlt
    · exact hroots k (by omega) hk
  · exact ⟨⟨a, ip.size, rfl⟩, hold, by simp [Disk.setDinode, hd]⟩

omit sb in
theorem clearAddr_record {f : ℕ → DiskM Unit} (hf : ∀ b, Steady (f b))
    (h : Ends (clearAddr f ip k) d ip' d') :
    (∃ a, ip' = { ip with addrs := a }) ∧ d'.dinodes = d.dinodes := by
  unfold clearAddr at h
  split at h
  · obtain ⟨rfl, rfl⟩ := ends_pure.mp h
    exact ⟨⟨_, rfl⟩, rfl⟩
  · obtain ⟨_, t, ht, hpure⟩ := ends_bind.mp h
    obtain ⟨rfl, rfl⟩ := ends_pure.mp hpure
    exact ⟨⟨_, rfl⟩, hf _ _ _ _ ht⟩

theorem clearDirect_record (h : Ends (clearDirect k n ip) d ip' d') :
    (∃ a, ip' = { ip with addrs := a }) ∧ d'.dinodes = d.dinodes := by
  induction n generalizing k ip d with
  | zero =>
    obtain ⟨rfl, rfl⟩ := ends_pure.mp h
    exact ⟨⟨_, rfl⟩, rfl⟩
  | succ n ih =>
    obtain ⟨ip₁, t, ht, hrest⟩ := ends_bind.mp h
    obtain ⟨⟨a, rfl⟩, hd⟩ := clearAddr_record Steady.bfree ht
    obtain ⟨⟨b, rfl⟩, hd'⟩ := ih hrest
    exact ⟨⟨b, rfl⟩, hd'.trans hd⟩

theorem itrunc_record (h : Ends (itrunc ip) d ip' d') :
    (∃ a, ip' = { ip with addrs := a, size := 0 }) ∧
      d'.dinodes = (d.setDinode ip.inum ip'.toDinode).dinodes := by
  obtain ⟨ip₁, t, ht, hrest⟩ := ends_bind.mp h
  obtain ⟨ip₂, u, hu, hclear⟩ := ends_bind.mp ht
  obtain ⟨⟨a, rfl⟩, hd⟩ := clearDirect_record hu
  obtain ⟨⟨b, rfl⟩, hd'⟩ := clearAddr_record Steady.freeIndirect hclear
  obtain ⟨_, v, hv, hpure⟩ := ends_bind.mp hrest
  obtain rfl := ends_iupdateDisk.mp hv
  obtain ⟨rfl, rfl⟩ := ends_pure.mp hpure
  exact ⟨⟨b, rfl⟩, by simp [Disk.setDinode, hd', hd]⟩

end Loops

end Xv6Sheet.Fs
