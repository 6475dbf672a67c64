import Xv6Sheet.Kernel.LinkOpen
import Xv6Sheet.Kernel.Settled

/-! # Dangling links

The loop that frees a link whose target is not found holds the link locked while it walks to the
target. It deadlocks on a link that lies on the way to its own target, and it frees the link at
which the lookup of its path buffer fails.
-/

namespace Xv6Sheet.Kernel

open Exec

section Path

variable [pm : Param]

/-- The link of a chain at which a lookup fails, and the path looked up there. -/
def Tree.lost (T : Tree) (c : ℕ) (omode : ℤ) : ℕ → ℕ → Bytes → Option (ℕ × Bytes)
  | 0, _, _ => none
  | m + 1, i, path =>
    match T.target omode i path with
    | none => none
    | some buf =>
      match T.namex c buf false with
      | none => some (i, buf)
      | some (j, _) => T.lost c omode m j buf

def Tree.snared (T : Tree) (c : ℕ) (omode : ℤ) : ℕ → ℕ → Bytes → Bool
  | 0, _, _ => false
  | m + 1, i, path =>
    match T.target omode i path with
    | none => false
    | some buf =>
      decide (i ∈ T.nodesOn c buf false) ||
        match T.namex c buf false with
        | none => false
        | some (j, _) => T.snared c omode m j buf

/-- The link of the chain from a path at which the call loses the way, and the path looked up
there. -/
def Tree.lostOn (T : Tree) (c : ℕ) (omode : ℤ) (path : StrArg) : Option (ℕ × Bytes) :=
  match argstr path Param.MAXPATH with
  | none => none
  | some path =>
    if hasFlag omode O_CREATE then none
    else match T.namex c path false with
      | none => none
      | some (i, _) => T.lost c omode maxDepth i path

/-- Some link of the chain from a path lies on the way to its own target. -/
def Tree.snaredOn (T : Tree) (c : ℕ) (omode : ℤ) (path : StrArg) : Bool :=
  match argstr path Param.MAXPATH with
  | none => false
  | some path =>
    if hasFlag omode O_CREATE then false
    else match T.namex c path false with
      | none => false
      | some (i, _) => T.snared c omode maxDepth i path

end Path

variable [sb : Superblock]

section Content

variable {d d' : Disk} {i : ℕ}

omit sb in
theorem content_congr {F F' : ℕ → Inode} (hF : F' i = F i) (hd : d'.block = d.block) :
    Fs.content F' d' i = Fs.content F d i := by
  have he : d'.entry = d.entry := by
    funext b k
    rw [Disk.entry, hd, Disk.entry]
  have hptr : ∀ x : ℕ × ℕ × List ℕ, x.1 = i → ptrAt F' d' x = ptrAt F d x := by
    rintro x rfl
    show walk d'.entry ((F' x.1).addrs x.2.1) x.2.2 = walk d.entry ((F x.1).addrs x.2.1) x.2.2
    rw [he, hF]
  have hbyte : Fs.byteAt F' d' i = Fs.byteAt F d i := by
    funext k
    rw [Fs.byteAt, Fs.byteAt, hd, hptr _ rfl]
  rw [Fs.content, Fs.content, hbyte, hF]

theorem tree_erase {dip : Dinode} (hd : d' = d.setDinode i dip) (h0 : dip.type = 0) :
    tree d' = Function.update (tree d) i none := by
  have hdin : ∀ j, d'.dinode j = if j = i then dip else d.dinode j := fun j => by
    rw [hd, Disk.dinode_setDinode]
  rw [tree_update hdin fun j hj => content_congr (by rw [live, live, hdin, if_neg hj])
    (by rw [hd]; rfl)]
  rw [nodeOf, if_pos h0]

end Content

variable [pm : Param] {base : Set ℕ} {T : Tree} {R : ℕ → ℤ} {s t : FsState} {ip cwd c m : ℕ}
  {path : Bytes} {omode : ℤ} {n : Node} {E : Fault → Prop} [hE : Permits E]

namespace View

omit hE in
theorem destroy (h : View base T (R + Pi.single ip 1) (Function.update (fun _ => false) ip true) s)
    (hn : T (s.inodes ip).inum = some n) (hlast : n.nlink = 0 → 0 < R ip) : Wp E (do
      Kernel.itrunc ip
      modifyInode ip fun i => { i with type := 0 }
      iupdate ip
      Kernel.iunlockput ip
      return (none : Option (ℕ × ℕ)))
      (fun r t => r = none ∧ Pins R s t ∧
        tree t.disk = Function.update T (s.inodes ip).inum none ∧
        (∀ k, (t.inodes k).ref = R k) ∧ ∀ k, (t.inodes k).locked = false) s := by
  have hl : Function.update (fun _ => false) ip true ip = true := Function.update_self ..
  have hpos := (h.held ip hl).1
  refine wp_bind.mpr ((h.itrunc hl hn).mono fun _ t ht => ?_)
  obtain ⟨ht, hk⟩ := ht
  have hpin := h.pins ht hk le_rfl le_rfl
  have hi := (hpin ip hpos).1
  have hnt : Function.update T (s.inodes ip).inum (some { n with data := [] }) (t.inodes ip).inum =
      some { n with data := [] } := by rw [hi, Function.update_self]
  obtain ⟨-, -, hnlink, -⟩ := ht.size_eq hl hnt
  refine wp_bind.mpr (wp_modifyInode.mpr (wp_bind.mpr (wp_onInode.mpr (wp_bind.mpr
    (wp_modify.mpr (wp_pure.mpr ?_))))))
  simp only [Function.update_self, Function.update_idem]
  -- the rest changes the table only
  suffices hput : ∀ x : FsState,
      x.disk = t.disk.setDinode (t.inodes ip).inum { (t.inodes ip).toDinode with type := 0 } →
      x.inodes = Function.update t.inodes ip { t.inodes ip with type := 0 } → Wp E (do
        Kernel.iunlockput ip
        return (none : Option (ℕ × ℕ))) (fun r t => r = none ∧ Pins R s t ∧
          tree t.disk = Function.update T (s.inodes ip).inum none ∧
          (∀ k, (t.inodes k).ref = R k) ∧ ∀ k, (t.inodes k).locked = false) x from
    hput _ rfl rfl
  intro x hxd hxi
  have hdisk : tree x.disk = Function.update T (s.inodes ip).inum none := by
    rw [tree_erase hxd rfl, ht.tree_eq, hi, Function.update_idem]
  have hxip : x.inodes ip = { t.inodes ip with type := 0 } := by rw [hxi, Function.update_self]
  have hother : ∀ k, k ≠ ip → x.inodes k = t.inodes k := fun k hk => by
    rw [hxi, Function.update_of_ne hk]
  refine wp_bind.mpr (wp_bind.mpr (wp_bind.mpr (wp_inode.mpr ?_)))
  rw [hxip, ht.ref_eq, ht.lock_eq, hl, if_neg (by simp only [Bool.true_eq_false, false_or]; omega)]
  refine wp_modifyInode.mpr (wp_bind.mpr (wp_inode.mpr ?_))
  simp only [Function.update_self, hxip, ht.ref_eq, hnlink]
  -- the last reference to a link without links is not given back here
  rw [if_neg fun hfree => ?_]
  · refine wp_modifyInode.mpr (wp_pure.mpr ⟨rfl, ?_, hdisk, fun k => ?_, fun k => ?_⟩)
    · refine (hpin.mono (le_add_single R ip)).trans fun k _ => ?_
      by_cases hkip : k = ip
      · subst hkip
        simp
      · simp [hkip, hother k hkip]
    · by_cases hkip : k = ip
      · subst hkip
        simp
      · simp [hkip, hother k hkip, ht.ref_eq]
    · by_cases hkip : k = ip
      · subst hkip
        simp
      · simp [hkip, hother k hkip, ht.lock_eq]
  · have hR := hlast hfree.2.2
    have hone := hfree.1
    simp only [Pi.add_apply, Pi.single_eq_same] at hone
    omega

/-- What the loop leaves in a tree: the inode it found, or nothing held, and the link freed at which
a lookup failed. -/
def Dangled (base : Set ℕ) (T : Tree) (R : ℕ → ℤ) (c m : ℕ) (omode : ℤ) (i : ℕ) (path : Bytes) :
    Option (ℕ × ℕ) → FsState → Prop
  | some (k, _), t => T.lost c omode m i path = none ∧ isLink (t.inodes k) omode = false ∧
      T.Within c (t.inodes k).inum ∧
      View base T (R + Pi.single k 1) (Function.update (fun _ => false) k true) t
  | none, t => match T.lost c omode m i path with
    | none => View base T R (fun _ => false) t
    | some (j, _) => tree t.disk = Function.update T j none ∧
        (∀ k, (t.inodes k).ref = R k) ∧ ∀ k, (t.inodes k).locked = false

theorem followDangling
    (h : View base T (R + Pi.single ip 1) (Function.update (fun _ => false) ip true) s)
    (hR : ∀ k, 0 ≤ R k) (hcwd : 0 < R cwd) (hc : (s.inodes cwd).inum = c)
    (hin : T.Within c (s.inodes ip).inum) (hanch : T.Anchored (InUse R s) c)
    (hmax : Param.MAXPATH ≤ BSIZE) (hE : E noType)
    (hdead : T.snared c omode m (s.inodes ip).inum path = true → E .deadlock) :
    Wp E (Kernel.followDangling cwd omode m ip path) (fun r t => Pins R s t ∧
      T.snared c omode m (s.inodes ip).inum path = false ∧
      Dangled base T R c m omode (s.inodes ip).inum path r t) s := by
  induction m generalizing ip path s with
  | zero =>
    have hl : Function.update (fun _ => false) ip true ip = true := Function.update_self ..
    obtain ⟨n, hn, -⟩ := h.node (h.held ip hl).1 (h.held ip hl).2
    unfold Kernel.followDangling
    refine wp_bind.mpr (wp_inode.mpr ?_)
    split
    · exact wp_bind.mpr ((h.giveBackKept rfl hn (h.last (h.held ip hl).1 hanch hin hn)).mono
        fun _ t ht =>
        wp_pure.mpr ⟨ht.1, rfl, ht.2⟩)
    · rename_i hlink
      exact wp_pure.mpr ⟨.refl R s, rfl, rfl, by simpa using hlink, hin, h⟩
  | succ m ih =>
    have hl : Function.update (fun _ => false) ip true ip = true := Function.update_self ..
    obtain ⟨n, hn, htype, -⟩ := h.node (h.held ip hl).1 (h.held ip hl).2
    have hlast := h.last (h.held ip hl).1 hanch hin hn
    -- where the loop ends, the chain ends in the tree
    have hstop : T.target omode (s.inodes ip).inum path = none →
        T.lost c omode (m + 1) (s.inodes ip).inum path = none ∧
          T.snared c omode (m + 1) (s.inodes ip).inum path = false := by
      intro htarget
      unfold Tree.lost Tree.snared
      rw [htarget]
      exact ⟨rfl, rfl⟩
    unfold Kernel.followDangling
    refine wp_bind.mpr (wp_inode.mpr ?_)
    split
    swap
    · rename_i hlink
      have hnone : T.target omode (s.inodes ip).inum path = none := by
        unfold Tree.target
        rw [hn]
        dsimp only
        rw [if_neg fun hc => hlink (by simp [isLink, htype, hc.1, hc.2.1])]
      exact wp_pure.mpr ⟨.refl R s, (hstop hnone).2, (hstop hnone).1, by simpa using hlink, hin, h⟩
    rename_i hlink
    refine wp_bind.mpr ((h.readLink hl hn hmax path).mono fun r t hr => ?_)
    obtain ⟨r, buf⟩ := r
    obtain ⟨ht, hr, hbuf⟩ := hr
    subst t
    dsimp only at hr hbuf ⊢
    split
    · rename_i hempty
      have hnone : T.target omode (s.inodes ip).inum path = none := by
        unfold Tree.target
        rw [hn]
        dsimp only
        rw [if_neg fun hc => by omega]
      exact wp_bind.mpr ((h.giveBackKept rfl hn hlast).mono fun _ t ht => wp_pure.mpr
        ⟨ht.1, (hstop hnone).2, by rw [Dangled, (hstop hnone).1]; exact ht.2⟩)
    rename_i hsome
    have htarget : T.target omode (s.inodes ip).inum path = some buf := by
      unfold Tree.target
      rw [hn]
      dsimp only
      have hlink' : n.type = T_SYMLINK ∧ hasFlag omode O_NOFOLLOW = false := by
        simpa [isLink, htype] using hlink
      rw [if_pos ⟨hlink'.1, hlink'.2, by omega⟩, hbuf]
    unfold Tree.snared at hdead ⊢
    unfold Dangled Tree.lost
    rw [htarget] at hdead ⊢
    dsimp only at hdead ⊢
    have hle := le_add_single R ip
    have hpos := (h.held ip hl).1
    refine wp_bind.mpr ((h.nameiStill (lt_of_lt_of_le hcwd (hle cwd)) hc
      (fun i k hk h0 hw => (hanch i k hk h0 hw).mono hle) hE fun k hk hmem => ?_).mono
      fun r v hv => ?_)
    · obtain rfl : k = ip := by
        by_contra hne
        rw [Function.update_of_ne hne] at hk
        cases hk
      exact hdead (by rw [decide_eq_true hmem, Bool.true_or])
    obtain ⟨hpin, hapart, hv⟩ := hv
    have hi := (hpin ip hpos).1
    have hnv : T (v.inodes ip).inum = some n := by rw [hi, hn]
    rw [decide_eq_false (hapart ip hl), Bool.false_or] at hdead ⊢
    rcases r with - | next
    · obtain ⟨hnone, hv⟩ := hv
      rw [hnone]
      refine (hv.destroy hnv hlast).mono fun r t ht => ?_
      obtain ⟨rfl, hpin', ht⟩ := ht
      rw [hi] at ht
      exact ⟨(hpin.mono hle).trans hpin', rfl, ht⟩
    · obtain ⟨name, hw, hv⟩ := hv
      rw [hw] at hdead ⊢
      dsimp only at hdead ⊢
      have hle' := le_add_single R next
      have hone : 0 < (R + Pi.single next 1 : ℕ → ℤ) next := by
        have h0 := hR next
        simp only [Pi.add_apply, Pi.single_eq_same]
        omega
      rw [add_right_comm] at hv
      refine wp_bind.mpr ((hv.giveBackKept rfl hnv fun h0 => lt_of_lt_of_le (hlast h0)
        (hle' ip)).mono fun _ u hu => ?_)
      obtain ⟨hpin', hu⟩ := hu
      refine wp_bind.mpr ((hu.ilock hone (fun _ => hE) (by simp)).mono fun _ x hx => ?_)
      obtain ⟨hx, hk, -, -⟩ := hx
      have hpin'' := hu.pins hx hk le_rfl le_rfl
      have hpins : Pins R s x :=
        ((hpin.mono hle).trans (hpin'.mono hle')).trans (hpin''.mono hle')
      have hinum : (x.inodes next).inum = (v.inodes next).inum :=
        (hpin'' next hone).1.trans (hpin' next hone).1
      rw [← hinum] at hw hdead ⊢
      refine (ih hx ((hpins cwd hcwd).1.trans hc) (Tree.within_namex hw)
        (fun i k hk h0 hwi => hpins.inUse (hanch i k hk h0 hwi)) hdead).mono fun r y hy =>
        ⟨hpins.trans hy.1, hy.2⟩

end View

end Xv6Sheet.Kernel
