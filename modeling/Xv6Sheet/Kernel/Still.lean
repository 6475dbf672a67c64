import Xv6Sheet.Kernel.Balance
import Xv6Sheet.Kernel.Settled

/-! # Walks that write nothing

A walk reads the disk. It writes there only when it gives back the last reference to a node without
links, which goes away with it.
-/

namespace Xv6Sheet.Kernel

open Exec

variable [sb : Superblock] [pm : Param] {base : Set ℕ} {T : Tree} {R : ℕ → ℤ} {L : ℕ → Bool}
  {s : FsState} {ip cwd c : ℕ} {n : Node} {path name : Bytes} {parent : Bool} {E : Fault → Prop}
  [hE : Permits E]

namespace View

omit hE in
theorem iputStill (h : View base T R L s) (hr : 0 < R ip)
    (hlast : ∀ n, T (s.inodes ip).inum = some n → n.nlink = 0 → 1 < R ip) :
    Wp E (Kernel.iput ip) (fun _ t => t.disk = s.disk) s := by
  refine wp_bind.mpr (wp_inode.mpr ?_)
  rw [h.ref_eq, if_neg]
  · exact wp_modifyInode.mpr rfl
  · rintro ⟨hone, hv, h0⟩
    obtain ⟨n, hn, -, -, -, hnlink, -⟩ := h.node hr hv
    have := hlast n hn (hnlink ▸ h0)
    omega

omit hE in
theorem iunlockputStill (h : View base T R L s) (hl : L ip = true)
    (hlast : ∀ n, T (s.inodes ip).inum = some n → n.nlink = 0 → 1 < R ip) :
    Wp E (Kernel.iunlockput ip) (fun _ t => t.disk = s.disk) s := by
  have hr := (h.held ip hl).1
  refine wp_bind.mpr (((h.iunlock hl).leaves (f := fun s => s.disk) (Leaves.iunlock ip)).mono
    fun _ t ht => ?_)
  obtain ⟨⟨ht, hk⟩, hdisk⟩ := ht
  rw [← (h.pins ht hk le_rfl le_rfl ip hr).1] at hlast
  exact (ht.iputStill hr hlast).mono fun _ u hu => hu.trans hdisk

theorem dirlookupStill (h : View base T R L s) (hl : L ip = true)
    (hn : T (s.inodes ip).inum = some n) (name : Bytes) :
    Wp E (Kernel.dirlookup ip name) (fun _ t => t.disk = s.disk) s := by
  obtain ⟨-, hsize, -, hdev⟩ := h.size_eq hl hn
  refine wp_dirlookup (n := n) (fun _ => permits_panic (by decide)) (fun k hk => ?_)
    (fun k j _ _ => ?_)
    fun _ _ => rfl
  · rw [hsize] at hk
    exact h.readDirent hl hn (permits_panic (by decide)) (h.entry_lt hn hk)
  · rw [hdev]
    exact ((h.iget j).leaves (f := fun s => s.disk) (Leaves.iget _ _)).mono fun _ _ hu => hu.2

theorem namexLoop_disk (fuel p : ℕ) (h : View base T (R + Pi.single ip 1) L s) (hR : ∀ k, 0 ≤ R k)
    (hanch : T.Anchored (InUse R s) c)
    (hin : T.Within c (s.inodes ip).inum) :
    Wp (fun _ => True) (Kernel.namexLoop path parent fuel ip p name)
    (fun _ t => t.disk = s.disk) s := by
  induction fuel generalizing ip p name s with
  | zero => exact wp_throw.mpr trivial
  | succ fuel ih =>
    have hpos : 0 < (R + Pi.single ip 1 : ℕ → ℤ) ip := by
      have h0 := hR ip
      simp only [Pi.add_apply, Pi.single_eq_same]
      omega
    -- the last reference does not go back
    have hlast : ∀ {t : FsState} {R' : ℕ → ℤ}, R ≤ R' → (t.inodes ip).inum = (s.inodes ip).inum →
        ∀ n, T (t.inodes ip).inum = some n → n.nlink = 0 →
        1 < (R' + Pi.single ip 1 : ℕ → ℤ) ip := by
      intro t R' hle hi n hn h0
      rw [hi] at hn
      have hold := h.last hpos hanch hin hn h0
      have hmore : R ip ≤ R' ip := hle ip
      simp only [Pi.add_apply, Pi.single_eq_same]
      omega
    unfold Kernel.namexLoop
    cases skipelem path p name with
    | none => exact wp_throw.mpr trivial
    | some e =>
    cases e with
    | last =>
      cases parent with
      | false => exact wp_pure.mpr rfl
      | true =>
        exact wp_bind.mpr ((h.iputStill hpos (hlast le_rfl rfl)).mono fun _ t ht => wp_pure.mpr ht)
    | elem p name =>
      refine wp_bind.mpr (((h.ilock hpos (fun _ => trivial) fun _ => trivial).leaves
        (f := fun s => s.disk) (Leaves.ilock ip)).mono fun _ t ht => ?_)
      obtain ⟨⟨ht, hk, hlock, hv⟩, hdisk⟩ := ht
      rw [← hdisk]
      have hpin := h.pins ht hk le_rfl le_rfl
      have hinum := (hpin ip hpos).1
      have hl : Function.update L ip true ip = true := Function.update_self ..
      obtain ⟨n, hn, -⟩ := ht.node hpos hv
      have hback : Wp (fun _ => True) (do
          Kernel.iunlockput ip
          return (none : Option (ℕ × Bytes))) (fun _ u => u.disk = t.disk) t :=
        wp_bind.mpr ((ht.iunlockputStill hl (hlast le_rfl hinum)).mono fun _ u hu => wp_pure.mpr hu)
      refine wp_bind.mpr (wp_inode.mpr ?_)
      split
      · exact hback
      rename_i hdir
      split
      · exact wp_bind.mpr (((ht.iunlock hl).leaves (f := fun s => s.disk) (Leaves.iunlock ip)).mono
          fun _ u hu => wp_pure.mpr hu.2)
      refine wp_bind.mpr (((ht.dirlookup hl hn name).and (ht.dirlookupStill hl hn name)).mono
        fun r u hr => ?_)
      obtain ⟨⟨hdir, hu⟩, hdisk'⟩ := hr
      rcases r with - | ⟨next, off⟩
      · obtain ⟨rfl, -⟩ := hu
        exact hback
      obtain ⟨k, j, hlookup, -, hu, hk', hj, -⟩ := hu
      rw [← hdisk']
      have hpin' := ht.pins hu hk' le_rfl (le_add_single _ next)
      have hui : (u.inodes ip).inum = (s.inodes ip).inum := (hpin' ip hpos).1.trans hinum
      have hnu : T (u.inodes ip).inum = some n := by rw [(hpin' ip hpos).1, hn]
      rw [add_right_comm] at hu
      have hle := le_add_single R next
      -- the directory goes back, while the node found in it is in use
      refine wp_bind.mpr (((hu.iunlockputStill hl (hlast hle hui)).and
        (hu.giveBackKept hlock hnu fun h0 => ?_)).mono fun _ v hv => ?_)
      · exact lt_of_lt_of_le (h.last hpos hanch hin (by rw [← hui, hnu]) h0) (hle ip)
      obtain ⟨hdisk'', hpin'', hv⟩ := hv
      rw [← hdisk'']
      have hpins : Pins R s v :=
        ((hpin.trans hpin').mono (le_add_single R ip)).trans (hpin''.mono hle)
      have hone : 0 < (R + Pi.single next 1 : ℕ → ℤ) next := by
        have h0 := hR next
        simp only [Pi.add_apply, Pi.single_eq_same]
        omega
      refine ih p hv (fun i n hn h0 hin => hpins.inUse (hanch i n hn h0 hin)) ?_
      rw [(hpin'' next hone).1, hj]
      exact .inr (.inr (Tree.named_of_lookup hn hdir hlookup))

end View

theorem Settled.namex_disk (h : Settled base T R cwd s) (path : Bytes) (parent : Bool) :
    Wp (fun _ => True) (Kernel.namex cwd path parent) (fun _ t => t.disk = s.disk) s := by
  have hloop : ∀ {ip : ℕ} {t : FsState}, View base T (R + Pi.single ip 1) (fun _ => false) t →
      Pins R s t → (t.inodes ip).inum = startOf (s.inodes cwd).inum path → t.disk = s.disk →
      Wp (fun _ => True) (Kernel.namexLoop path parent Param.MAXPATH ip 0 fun _ => 0)
        (fun _ u => u.disk = s.disk) t := by
    intro ip t ht hpin hi hdisk
    rw [← hdisk]
    refine ht.namexLoop_disk _ 0 h.view.nonneg
      (fun i n hn h0 hin => hpin.inUse (h.anchored i n hn h0 hin)) ?_
    rw [hi]
    exact T.within_startOf _ path
  unfold Kernel.namex
  split
  · rename_i hroot
    refine wp_bind.mpr (((h.view.iget ROOTINO).leaves (f := fun s => s.disk) (Leaves.iget _ _)).mono
      fun ip t ht => ?_)
    obtain ⟨⟨ht, hk, hi, -⟩, hdisk⟩ := ht
    refine hloop ht (h.view.pins ht hk le_rfl (le_add_single R ip)) ?_ hdisk
    rw [hi, startOf, if_pos hroot]
  · rename_i hroot
    refine wp_bind.mpr (((h.view.idup h.cwd_pos).leaves (f := fun s => s.disk) (Leaves.idup _)).mono
      fun ip t ht => ?_)
    obtain ⟨⟨rfl, ht, hk⟩, hdisk⟩ := ht
    have hpin := h.view.pins ht hk le_rfl (le_add_single R ip)
    refine hloop ht hpin ?_ hdisk
    rw [(hpin ip h.cwd_pos).1, startOf, if_neg hroot]

end Xv6Sheet.Kernel
