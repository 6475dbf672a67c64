import Mathlib.Algebra.Group.Pi.Basic
import Xv6Sheet.Fs.Record
import Xv6Sheet.Kernel.Dir

/-! # The cache of inodes

What the operations on the inode table keep: an inode in use is in the table once, and a valid
one is the inode on the disk. References in hand keep an entry from being recycled.
-/

namespace Xv6Sheet.Kernel

open Exec

variable [sb : Superblock] [pm : Param]

/-- A table whose valid inodes are those on the disk, with at least `H` references to the
entries of the table. -/
structure Cached (H : ℕ → ℕ) (s : FsState) : Prop where
  ref_le : ∀ ip, (H ip : ℤ) ≤ (s.inodes ip).ref
  inTable : ∀ ip, 0 < (s.inodes ip).ref → ip < Param.NINODE
  dev : ∀ ip, 0 < (s.inodes ip).ref → (s.inodes ip).dev = ROOTDEV
  unique : ∀ ip ip', 0 < (s.inodes ip).ref → 0 < (s.inodes ip').ref →
    (s.inodes ip).inum = (s.inodes ip').inum → ip = ip'
  sync : ∀ ip, 0 < (s.inodes ip).ref → (s.inodes ip).valid = true →
    (s.inodes ip).toDinode = s.disk.dinode (s.inodes ip).inum ∧ (s.inodes ip).type ≠ 0
  rooted : ∀ i, (s.disk.dinode i).type ≠ 0 → Fs.Rooted (s.disk.dinode i)

def Holds (H : ℕ → ℕ) (s t : FsState) : Prop :=
  ∀ ip, 0 < H ip → (t.inodes ip).inum = (s.inodes ip).inum ∧
    ((s.inodes ip).valid = true → (t.inodes ip).valid = true)

variable {H H' : ℕ → ℕ} {s t u : FsState} {ip : ℕ}

omit sb pm in
theorem Holds.refl (H : ℕ → ℕ) (s : FsState) : Holds H s s := fun _ _ => ⟨rfl, id⟩

omit sb pm in
theorem Holds.trans (h : Holds H s t) (h' : Holds H t u) : Holds H s u := fun ip hip =>
  ⟨(h' ip hip).1.trans (h ip hip).1, fun hv => (h' ip hip).2 ((h ip hip).2 hv)⟩

omit sb pm in
theorem Holds.mono (h : Holds H' s t) (hle : H ≤ H') : Holds H s t :=
  fun ip hip => h ip (lt_of_lt_of_le hip (hle ip))

omit sb in
theorem wp_iget_disk (dev i : ℕ) :
    Wp (fun _ => True) (iget dev i) (fun r t => t.disk = s.disk ∧ (t.inodes r).inum = i) s := by
  refine wp_bind.mpr (wp_get.mpr ?_)
  split
  · rename_i r hr
    have hfound := List.find?_some hr
    simp only [decide_eq_true_eq] at hfound
    exact wp_bind.mpr (wp_modifyInode.mpr (wp_pure.mpr ⟨rfl, by simpa using hfound.2.2⟩))
  · split
    · exact wp_bind.mpr (wp_modifyInode.mpr (wp_pure.mpr ⟨rfl, by simp⟩))
    · exact wp_panicAt.mpr trivial

/-- `ialloc` writes the record of the inode that it answers, and fails when none is free. -/
theorem wp_ialloc_disk (dev : ℕ) (type : ℤ) : Wp (fun _ => True) (ialloc dev type) (fun r t =>
    match r with
    | none => t = s ∧ ∀ i, 0 < i → i < sb.ninodes → (s.disk.dinode i).type ≠ 0
    | some ip => t.disk = s.disk.setDinode (t.inodes ip).inum { Dinode.zero with type := type })
    s := by
  refine Wp.search (I := fun k t => t = s ∧ ∀ i, 0 < i → i < k → (s.disk.dinode i).type ≠ 0)
    ⟨rfl, by omega⟩ (fun k t _ _ ht => ?_) fun t ht => ⟨ht.1, fun i hi hlt => ht.2 i hi (by omega)⟩
  obtain ⟨rfl, hall⟩ := ht
  refine wp_bind.mpr (wp_get.mpr ?_)
  split
  · refine wp_bind.mpr (wp_set.mpr (wp_bind.mpr ((wp_iget_disk dev k).mono fun ip u hu => ?_)))
    obtain ⟨hdisk, hi⟩ := hu
    refine wp_pure.mpr ?_
    dsimp only
    rw [hi]
    exact hdisk
  · rename_i h0
    refine wp_pure.mpr ⟨rfl, fun i hi hlt => ?_⟩
    rcases Nat.lt_succ_iff_lt_or_eq.mp hlt with hlt | rfl
    · exact hall i hi hlt
    · exact h0

namespace Cached

theorem mono (h : Cached H' s) (hle : H ≤ H') : Cached H s where
  ref_le ip := le_trans (by exact_mod_cast hle ip) (h.ref_le ip)
  inTable := h.inTable
  dev := h.dev
  unique := h.unique
  sync := h.sync
  rooted := h.rooted

theorem ref_pos (h : Cached H s) (hip : 0 < H ip) : 0 < (s.inodes ip).ref := by
  have hle := h.ref_le ip
  omega

theorem ops (h : Cached H s) (k : ℤ) : Cached H { s with ops := k } :=
  ⟨h.ref_le, h.inTable, h.dev, h.unique, h.sync, h.rooted⟩

theorem entry (h : Cached H s) (ip : ℕ) (hne : ∀ k, k ≠ ip → t.inodes k = s.inodes k)
    (hd : ∀ j, j ≠ (t.inodes ip).inum → t.disk.dinode j = s.disk.dinode j)
    (hH : ∀ k, k ≠ ip → H' k ≤ H k) (href : (H' ip : ℤ) ≤ (t.inodes ip).ref)
    (huse : 0 < (t.inodes ip).ref → ip < Param.NINODE ∧ (t.inodes ip).dev = ROOTDEV ∧
      ((t.inodes ip).valid = true →
        (t.inodes ip).toDinode = t.disk.dinode (t.inodes ip).inum ∧ (t.inodes ip).type ≠ 0))
    (hother : (0 < (t.inodes ip).ref ∨ t.disk.dinode (t.inodes ip).inum ≠
        s.disk.dinode (t.inodes ip).inum) →
      ∀ k, k ≠ ip → 0 < (s.inodes k).ref → (s.inodes k).inum ≠ (t.inodes ip).inum)
    (hroot : (t.disk.dinode (t.inodes ip).inum).type ≠ 0 →
      Fs.Rooted (t.disk.dinode (t.inodes ip).inum)) : Cached H' t := by
  refine ⟨fun k => ?_, fun k hk => ?_, fun k hk => ?_, fun k k' hk hk' he => ?_, fun k hk hv => ?_,
    fun j hj => ?_⟩
  · by_cases hip : k = ip
    · rwa [hip]
    · have hle := h.ref_le k
      have hHk := hH k hip
      rw [hne k hip]
      omega
  · by_cases hip : k = ip
    · rw [hip] at hk ⊢
      exact (huse hk).1
    · rw [hne k hip] at hk
      exact h.inTable k hk
  · by_cases hip : k = ip
    · rw [hip] at hk ⊢
      exact (huse hk).2.1
    · rw [hne k hip] at hk ⊢
      exact h.dev k hk
  · by_cases hip : k = ip
    · by_cases hip' : k' = ip
      · rw [hip, hip']
      · rw [hip] at hk he
        rw [hne k' hip'] at hk' he
        exact absurd he.symm (hother (Or.inl hk) k' hip' hk')
    · rw [hne k hip] at hk he
      by_cases hip' : k' = ip
      · rw [hip'] at hk' he
        exact absurd he (hother (Or.inl hk') k hip hk)
      · rw [hne k' hip'] at hk' he
        exact h.unique k k' hk hk' he
  · by_cases hip : k = ip
    · rw [hip] at hk hv ⊢
      exact (huse hk).2.2 hv
    · rw [hne k hip] at hk hv ⊢
      obtain ⟨hs, h0⟩ := h.sync k hk hv
      refine ⟨hs.trans ?_, h0⟩
      by_cases hi : (s.inodes k).inum = (t.inodes ip).inum
      · by_contra hc
        rw [hi] at hc
        exact hother (Or.inr (Ne.symm hc)) k hip hk hi
      · exact (hd _ hi).symm
  · by_cases hji : j = (t.inodes ip).inum
    · subst hji
      exact hroot hj
    · rw [hd j hji] at hj ⊢
      exact h.rooted j hj

theorem congr (h : Cached H s) (hi : t.inodes = s.inodes) (hd : t.disk.dinodes = s.disk.dinodes) :
    Cached H t := by
  have hdin : t.disk.dinode = s.disk.dinode := by
    funext j
    rw [Disk.dinode, Disk.dinode, hd]
  exact ⟨by rw [hi]; exact h.ref_le, by rw [hi]; exact h.inTable, by rw [hi]; exact h.dev,
    by rw [hi]; exact h.unique, by rw [hi, hdin]; exact h.sync, by rw [hdin]; exact h.rooted⟩

theorem modify (h : Cached H s) {ip : ℕ} {g : Inode → Inode} (hpos : 0 < (s.inodes ip).ref)
    (hg : (g (s.inodes ip)).inum = (s.inodes ip).inum ∧ (g (s.inodes ip)).dev = (s.inodes ip).dev ∧
      ((s.inodes ip).valid = true → (g (s.inodes ip)).valid = true))
    (hH : ∀ k, k ≠ ip → H' k ≤ H k) (href : (H' ip : ℤ) ≤ (g (s.inodes ip)).ref)
    (hv : (g (s.inodes ip)).valid = true →
      (g (s.inodes ip)).toDinode = s.disk.dinode (s.inodes ip).inum ∧ (g (s.inodes ip)).type ≠ 0) :
    Wp (fun _ => True) (modifyInode ip g) (fun _ t => Cached H' t ∧ (∀ K, Holds K s t) ∧
      t.inodes ip = g (s.inodes ip)) s := by
  refine wp_modify.mpr ⟨h.entry ip (fun k hk => Function.update_of_ne hk ..) (fun _ _ => rfl) hH
    ?_ ?_ ?_ ?_, fun K k _ => ?_, Function.update_self ..⟩
  all_goals simp only [Function.update_self]
  · exact href
  · exact fun _ => ⟨h.inTable ip hpos, hg.2.1.trans (h.dev ip hpos), fun hvalid => by
      rw [hg.1]; exact hv hvalid⟩
  · exact fun _ k hk hk0 he => hk (h.unique k ip hk0 hpos (he.trans hg.1))
  · exact h.rooted _
  · by_cases hk : k = ip
    · subst hk
      rw [Function.update_self]
      exact ⟨hg.1, hg.2.2⟩
    · rw [Function.update_of_ne hk]
      exact ⟨rfl, id⟩

theorem idup (h : Cached H s) (hpos : 0 < (s.inodes ip).ref) :
    Wp (fun _ => True) (idup ip) (fun r t => r = ip ∧ Cached (H + Pi.single ip 1) t ∧
      ∀ K, Holds K s t) s := by
  refine wp_bind.mpr ((h.modify hpos ⟨rfl, rfl, id⟩ (fun k hk => by simp [hk]) ?_
    fun hv => h.sync ip hpos hv).mono fun _ t ht => wp_pure.mpr ⟨rfl, ht.1, ht.2.1⟩)
  have hle := h.ref_le ip
  simp only [Pi.add_apply, Pi.single_eq_same]
  omega

theorem iget (h : Cached H s) (i : ℕ) :
    Wp (fun _ => True) (iget ROOTDEV i) (fun r t => Cached (H + Pi.single r 1) t ∧
      Holds H s t ∧ (t.inodes r).inum = i) s := by
  refine wp_bind.mpr (wp_get.mpr ?_)
  split
  · rename_i r hr
    have hfound := List.find?_some hr
    simp only [decide_eq_true_eq] at hfound
    obtain ⟨hpos, -, hi⟩ := hfound
    refine (h.idup hpos).mono fun r' t ht => ?_
    obtain ⟨rfl, ht, hk⟩ := ht
    exact ⟨ht, hk H, (hk (fun _ => 1) r' Nat.one_pos).1.trans hi⟩
  · rename_i hnone
    have hfree : ∀ k, 0 < (s.inodes k).ref → (s.inodes k).inum ≠ i := by
      intro k hk hi
      have hmem := List.find?_eq_none.mp hnone k (List.mem_range.mpr (h.inTable k hk))
      simp only [decide_eq_true_eq, not_and] at hmem
      exact hmem hk (h.dev k hk) hi
    split
    · rename_i r hr
      have hr0 : (s.inodes r).ref = 0 := by simpa using List.find?_some hr
      have hlt : r < Param.NINODE := List.mem_range.mp (List.mem_of_find?_eq_some hr)
      have hH : H r = 0 := by
        have hle := h.ref_le r
        omega
      refine wp_bind.mpr (wp_modify.mpr (wp_pure.mpr ⟨h.entry r
        (fun k hk => Function.update_of_ne hk ..) (fun _ _ => rfl) (fun k hk => by simp [hk])
        ?_ ?_ ?_ ?_, fun k hk => ?_, by simp⟩))
      · simp [hH]
      · simp [hlt]
      · simpa using fun k _ hk0 => hfree k hk0
      · simpa using h.rooted i
      · have hkr : k ≠ r := by
          rintro rfl
          omega
        simp [hkr]
    · exact wp_panicAt.mpr trivial

theorem ilock (h : Cached H s) (ip : ℕ) :
    Wp (fun _ => True) (ilock ip) (fun _ t => Cached H t ∧ Holds H s t ∧
      0 < (t.inodes ip).ref ∧ (t.inodes ip).valid = true) s := by
  refine wp_bind.mpr (wp_inode.mpr ?_)
  split
  · exact wp_panicAt.mpr trivial
  rename_i href
  have hpos : 0 < (s.inodes ip).ref := by omega
  split
  · exact wp_throw.mpr trivial
  split
  · rename_i hv
    refine (h.modify hpos ⟨rfl, rfl, id⟩ (fun _ _ => le_rfl) (h.ref_le ip)
      fun hv => h.sync ip hpos hv).mono fun _ t ht => ?_
    obtain ⟨ht, hk, he⟩ := ht
    exact ⟨ht, hk H, by rw [he]; exact hpos, by rw [he]; exact hv⟩
  · refine wp_bind.mpr (wp_get.mpr ?_)
    dsimp only
    by_cases h0 : (s.disk.dinode (s.inodes ip).inum).type = 0
    · simp only [if_pos h0]
      exact wp_bind.mpr (wp_modify.mpr (wp_panicAt.mpr trivial))
    · simp only [if_neg h0]
      refine wp_bind.mpr ((h.modify hpos ⟨rfl, rfl, fun _ => rfl⟩ (fun _ _ => le_rfl)
        (h.ref_le ip) fun _ => ⟨rfl, h0⟩).mono fun _ t ht => wp_pure.mpr ?_)
      obtain ⟨ht, hk, he⟩ := ht
      exact ⟨ht, hk H, by rw [he]; exact hpos, by rw [he]⟩

theorem iunlock (h : Cached H s) (ip : ℕ) :
    Wp (fun _ => True) (iunlock ip) (fun _ t => Cached H t ∧ Holds H s t) s := by
  refine wp_bind.mpr (wp_inode.mpr ?_)
  split
  · exact wp_panicAt.mpr trivial
  rename_i hheld
  have hpos : 0 < (s.inodes ip).ref := by omega
  exact (h.modify hpos ⟨rfl, rfl, id⟩ (fun _ _ => le_rfl) (h.ref_le ip)
    fun hv => h.sync ip hpos hv).mono fun _ t ht => ⟨ht.1, ht.2.1 H⟩

theorem stored (h : Cached H s) (hpos : 0 < (s.inodes ip).ref) {x : Inode}
    (hi : t.inodes = Function.update s.inodes ip x)
    (hd : t.disk.dinodes = (s.disk.setDinode (s.inodes ip).inum x.toDinode).dinodes)
    (hx : x = { s.inodes ip with toDinode := x.toDinode }) (h0 : x.type ≠ 0)
    (hroot : Fs.Rooted x.toDinode) : Cached H t ∧ ∀ K, Holds K s t := by
  have hself : t.inodes ip = x := by rw [hi, Function.update_self]
  have hne : ∀ k, k ≠ ip → t.inodes k = s.inodes k := fun k hk => by
    rw [hi, Function.update_of_ne hk]
  have hdin : ∀ j, t.disk.dinode j =
      if j = (s.inodes ip).inum then x.toDinode else s.disk.dinode j := fun j => by
    rw [← Disk.dinode_setDinode, Disk.dinode, Disk.dinode, hd]
  have hinum : x.inum = (s.inodes ip).inum := by rw [hx]
  have href : x.ref = (s.inodes ip).ref := by rw [hx]
  have hdev : x.dev = (s.inodes ip).dev := by rw [hx]
  have hvalid : x.valid = (s.inodes ip).valid := by rw [hx]
  refine ⟨h.entry ip hne ?_ (fun _ _ => le_rfl) ?_ ?_ ?_ ?_, fun K k _ => ?_⟩
  all_goals try rw [hself]
  · exact fun j hj => by rw [hdin, if_neg (hinum ▸ hj)]
  · rw [href]
    exact h.ref_le ip
  · rw [hdev]
    exact fun _ => ⟨h.inTable ip hpos, h.dev ip hpos, fun _ => ⟨by rw [hdin, if_pos hinum], h0⟩⟩
  · exact fun _ k hk hk0 he => hk (h.unique k ip hk0 hpos (he.trans hinum))
  · rw [hdin, if_pos hinum]
    exact fun _ => hroot
  · by_cases hk : k = ip
    · subst hk
      rw [hself, hinum, hvalid]
      exact ⟨rfl, id⟩
    · rw [hne k hk]
      exact ⟨rfl, id⟩

theorem rooted_inode (h : Cached H s) (hpos : 0 < (s.inodes ip).ref)
    (hv : (s.inodes ip).valid = true) : Fs.Rooted (s.inodes ip).toDinode := by
  obtain ⟨hs, h0⟩ := h.sync ip hpos hv
  rw [hs] at h0 ⊢
  exact h.rooted _ h0

section Content

variable {ok : ℕ → Bool} {dst src : Bytes} {off n : ℕ}

theorem readInode (h : Cached H s) (hpos : 0 < (s.inodes ip).ref)
    (hv : (s.inodes ip).valid = true) (hoff : off < 2 ^ 32) (hn : n < 2 ^ 32) :
    Wp (fun _ => True) (onInode ip fun i => do
      let (r, out, i) ← Fs.readi i ok dst off n
      return ((r, out), i)) (fun _ t => Cached H t ∧ t.inodes = s.inodes) s := by
  refine wp_onInode.mpr (wp_bind.mpr ⟨fun a d he => wp_pure.mpr ?_, fun _ _ => trivial⟩)
  obtain ⟨hi, hd⟩ := Fs.readi_same (h.rooted_inode hpos hv) hoff hn he
  rw [hi, Function.update_eq_self]
  exact ⟨h.congr rfl hd, rfl⟩

theorem writeInode (h : Cached H s) (hpos : 0 < (s.inodes ip).ref)
    (hv : (s.inodes ip).valid = true) :
    Wp (fun _ => True) (onInode ip fun i => Fs.writei i ok src off n)
      (fun _ t => Cached H t ∧ ∀ K, Holds K s t) s := by
  refine wp_onInode.mpr ⟨fun a d he => ?_, fun _ _ => trivial⟩
  obtain ⟨hi, hd⟩ | ⟨⟨a, k, hi⟩, hroot, hd⟩ :=
    Fs.writei_record he
  · rw [hi, Function.update_eq_self]
    exact ⟨h.congr rfl hd, fun K => .refl K s⟩
  · have hroot := hroot (h.rooted_inode hpos hv)
    rw [hi] at hroot hd ⊢
    exact h.stored hpos rfl hd rfl (h.sync ip hpos hv).2 hroot

theorem itrunc (h : Cached H s) (hpos : 0 < (s.inodes ip).ref)
    (hv : (s.inodes ip).valid = true) :
    Wp (fun _ => True) (itrunc ip) (fun _ t => Cached H t ∧ (∀ K, Holds K s t) ∧
      (t.inodes ip).ref = (s.inodes ip).ref) s := by
  refine wp_onInode.mpr (wp_bind.mpr ⟨fun a d he => wp_pure.mpr ?_, fun _ _ => trivial⟩)
  obtain ⟨⟨a, rfl⟩, hd⟩ := Fs.itrunc_record he
  have hroot : Fs.Rooted { (s.inodes ip).toDinode with addrs := a, size := 0 } :=
    fun k hk => absurd hk (Nat.not_lt_zero k)
  obtain ⟨ht, hk⟩ := h.stored (t := ⟨⟨Function.update s.inodes ip _, d⟩, s.ops⟩) hpos rfl hd rfl
    (h.sync ip hpos hv).2 hroot
  exact ⟨ht, hk, by simp⟩

end Content

theorem setFields (h : Cached H s) (hpos : 0 < (s.inodes ip).ref)
    (hv : (s.inodes ip).valid = true) {g : Inode → Inode}
    (hg : ∃ major minor nlink, g (s.inodes ip) =
      { s.inodes ip with major := major, minor := minor, nlink := nlink }) :
    Wp (fun _ => True) (do
      modifyInode ip g
      iupdate ip) (fun _ t => Cached H t ∧ ∀ K, Holds K s t) s := by
  obtain ⟨major, minor, nlink, hg⟩ := hg
  refine wp_bind.mpr (wp_modifyInode.mpr (wp_onInode.mpr (wp_bind.mpr (wp_modify.mpr
    (wp_pure.mpr ?_)))))
  simp only [Function.update_self, Function.update_idem]
  rw [hg]
  exact h.stored hpos rfl rfl rfl (h.sync ip hpos hv).2 (h.rooted_inode hpos hv)

theorem ifree (h : Cached H s) (hpos : 0 < (s.inodes ip).ref)
    (hv : (s.inodes ip).valid = true) :
    Wp (fun _ => True) (ifree ip) (fun _ t => Cached H t ∧ (∀ K : ℕ → ℕ, K ip = 0 → Holds K s t) ∧
      (t.inodes ip).ref = (s.inodes ip).ref) s := by
  refine wp_bind.mpr ((h.itrunc hpos hv).mono fun _ t ht => ?_)
  obtain ⟨ht, hk, href⟩ := ht
  refine wp_bind.mpr (wp_modifyInode.mpr (wp_bind.mpr (wp_onInode.mpr (wp_bind.mpr
    (wp_modify.mpr (wp_pure.mpr (wp_modifyInode.mpr ?_)))))))
  simp only [Function.update_self, Function.update_idem]
  have hpos' : 0 < (t.inodes ip).ref := by rw [href]; exact hpos
  refine ⟨ht.entry ip (fun k hk => Function.update_of_ne hk ..) ?_ (fun _ _ => le_rfl) ?_ ?_ ?_ ?_,
    fun K hK => (hk K).trans fun k hk0 => ?_, href⟩
  all_goals try simp only [Function.update_self, Disk.dinode_setDinode, if_true]
  · exact fun j hj => if_neg hj
  · exact ht.ref_le ip
  · exact fun _ => ⟨ht.inTable ip hpos', ht.dev ip hpos', fun hc => by simp at hc⟩
  · exact fun _ k hk hk0 he => hk (ht.unique k ip hk0 hpos' he)
  · exact fun hc => absurd rfl hc
  · have hkip : k ≠ ip := by
      rintro rfl
      omega
    simp [hkip]

theorem iput (h : Cached (H + Pi.single ip 1) s) :
    Wp (fun _ => True) (iput ip) (fun _ t => Cached H t ∧ Holds H s t) s := by
  have hle := h.ref_le ip
  simp only [Pi.add_apply, Pi.single_eq_same] at hle
  have hpos : 0 < (s.inodes ip).ref := by omega
  have hdrop : ∀ {t : FsState}, Cached (H + Pi.single ip 1) t → Holds H s t →
      (t.inodes ip).ref = (s.inodes ip).ref →
      Wp (fun _ => True) (modifyInode ip fun i => { i with ref := i.ref - 1 })
        (fun _ u => Cached H u ∧ Holds H s u) t := by
    intro t ht hk href
    have hpos' : 0 < (t.inodes ip).ref := by rw [href]; exact hpos
    refine (ht.modify hpos' ⟨rfl, rfl, id⟩ (fun k hk => by simp [hk]) ?_
      fun hv => ht.sync ip hpos' hv).mono fun _ u hu => ⟨hu.1, hk.trans (hu.2.1 H)⟩
    dsimp only
    omega
  refine wp_bind.mpr (wp_inode.mpr ?_)
  split
  · rename_i hfree
    split
    · exact wp_throw.mpr trivial
    refine wp_bind.mpr ((h.ifree hpos hfree.2.1).mono fun _ t ht => ?_)
    obtain ⟨ht, hk, href⟩ := ht
    exact hdrop ht (hk H (by omega)) href
  · exact hdrop h (.refl H s) rfl

theorem iunlockput (h : Cached (H + Pi.single ip 1) s) :
    Wp (fun _ => True) (iunlockput ip) (fun _ t => Cached H t ∧ Holds H s t) s := by
  refine wp_bind.mpr ((h.iunlock ip).mono fun _ t ht => ht.1.iput.mono fun _ u hu => ?_)
  exact ⟨hu.1, (ht.2.mono fun _ => Nat.le_add_right _ _).trans hu.2⟩

theorem ialloc (h : Cached H s) (type : ℤ) :
    Wp (fun _ => True) (ialloc ROOTDEV type) (fun r t => match r with
      | none => Cached H t ∧ Holds H s t
      | some ip => Cached (H + Pi.single ip 1) t ∧ Holds H s t ∧
        ∀ k, 0 < (s.inodes k).ref → (s.inodes k).valid = true →
          (s.inodes k).inum ≠ (t.inodes ip).inum) s := by
  refine Wp.search (I := fun _ t => t = s) rfl (fun i t _ _ ht => ?_) fun t ht => ?_
  swap
  · subst ht
    exact ⟨h, .refl H t⟩
  subst ht
  refine wp_bind.mpr (wp_get.mpr ?_)
  split
  swap
  · exact wp_pure.mpr rfl
  rename_i h0
  have hnone : ∀ k, 0 < (t.inodes k).ref → (t.inodes k).valid = true → (t.inodes k).inum ≠ i := by
    rintro k hk hv rfl
    obtain ⟨hs, h0'⟩ := h.sync k hk hv
    exact h0' (hs ▸ h0)
  have hu : Cached H { t with disk := t.disk.setDinode i { Dinode.zero with type := type } } := by
    refine ⟨h.ref_le, h.inTable, h.dev, h.unique, fun k hk hv => ?_, fun j hj => ?_⟩
    · rw [Disk.dinode_setDinode, if_neg (hnone k hk hv)]
      exact h.sync k hk hv
    · rw [Disk.dinode_setDinode] at hj ⊢
      split at hj
      · rw [if_pos ‹_›]
        exact fun k hk => absurd hk (Nat.not_lt_zero k)
      · rw [if_neg ‹_›]
        exact h.rooted j hj
  refine wp_bind.mpr (wp_set.mpr (wp_bind.mpr ((hu.iget i).mono fun ip u hip => wp_pure.mpr ?_)))
  obtain ⟨hc, hk, hinum⟩ := hip
  exact ⟨hc, hk, by rw [hinum]; exact hnone⟩

end Cached

end Xv6Sheet.Kernel
