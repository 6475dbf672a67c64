import Xv6Sheet.Kernel.FullDisk
import Xv6Sheet.Kernel.NewBlocks

/-! # Calls that fail

A call that cannot make or remove an entry takes back what it did. The tree and the references are
those of before, and only the directory that was to get an entry may have new blocks.
-/

namespace Xv6Sheet.Kernel

open Exec

/-- The link counts that a `short` holds for nodes with links. -/
def Tree.Counted (T : Tree) : Prop := ∀ i n, T i = some n → 1 ≤ n.nlink ∧ n.nlink < 2 ^ 15

theorem Tree.Counted.ne_zero {T : Tree} (h : T.Counted) (i : ℕ) (n : Node) (hn : T i = some n) :
    n.nlink ≠ 0 := by
  have := (h i n hn).1
  omega

theorem Drops.counted {U : ℕ → Prop} {T T' : Tree} (h : Drops U T T') (hT : T.Counted) : T' = T :=
  h.eq fun i n hn h0 => absurd h0 (hT.ne_zero i n hn)

theorem toShort_succ_ne_zero {x : ℤ} (h : 1 ≤ x) (hlt : x < 2 ^ 15) : toShort (x + 1) ≠ 0 := by
  simp only [toShort, Int.bmod]
  split <;> omega

theorem toShort_pred_succ {x : ℤ} (h : 1 ≤ x) (hlt : x < 2 ^ 15) :
    toShort (toShort (x + 1) - 1) = x := by
  simp only [toShort, Int.bmod]
  split <;> split <;> omega

/-- The nodes that may gain blocks while `w` gets an entry: its directory, and free inodes. -/
def enlarged (T : Tree) (w : Option (ℕ × Bytes)) : Set ℕ :=
  {i | T i = none ∨ ∃ name, w = some (i, name)}

variable [sb : Superblock] [pm : Param] {base : Set ℕ} {T : Tree} {R : ℕ → ℤ} {L : ℕ → Bool}
  {s t u : FsState} {ip dp cwd i : ℕ} {n : Node} {path name : Bytes}

omit sb in
theorem Tree.namex_nlink (hn : T i = some n) (k : ℤ) (c : ℕ) (path : Bytes) (parent : Bool) :
    Tree.namex (Function.update T i (some { n with nlink := k })) c path parent = T.namex c path
    parent := by
  have hwalk : ∀ fuel j p name,
      Tree.walk (Function.update T i (some { n with nlink := k })) path parent fuel j p name =
        T.walk path parent fuel j p name := by
    intro fuel
    induction fuel with
    | zero => intro j p name; rfl
    | succ fuel ih =>
      intro j p name
      unfold Tree.walk
      by_cases hj : j = i
      · subst hj
        rw [Function.update_self, hn]
        simp only [ih]
        rfl
      · rw [Function.update_of_ne hj]
        simp only [ih]
  exact hwalk ..

/-- The state `t` shows what was there before a call that was to change the directory of `w`, on the
disk `d`. -/
structure Undone (base : Set ℕ) (T : Tree) (R : ℕ → ℤ) (w : Option (ℕ × Bytes)) (d : Disk)
    (t : FsState) :
    Prop where
  view : View base T R (fun _ => false) t
  gains : Gains (enlarged T w) d t.disk

omit pm in
theorem Fresh.gains {S : Set ℕ} {d d' : Disk} (h : Fresh i d d') (hfree : (d.dinode i).type = 0) :
    Gains S d d' := by
  refine .of_addrs h.block fun j => ?_
  by_cases hj : j = i
  · rw [hj, live, live, if_pos hfree]
    split
    · rfl
    · exact h.addrs
  · rw [live, live, h.dinodes j hj]

/-- What `create` leaves when it answers no inode: the parent at most has new blocks. -/
theorem Settled.createGains (h : Settled base T R cwd s) (path : Bytes) {type : ℤ} (h0 : type ≠ 0)
    (major minor : ℤ) :
    Wp (fun _ => True) (create cwd path type major minor) (fun r t => r = none →
      Gains (enlarged T (T.namex (s.inodes cwd).inum path true)) s.disk t.disk) s := by
  obtain ⟨w, hw⟩ : ∃ w, w = T.namex (s.inodes cwd).inum path true := ⟨_, rfl⟩
  obtain ⟨S, hS⟩ : ∃ S, S = enlarged T w := ⟨_, rfl⟩
  rw [← hw, ← hS]
  have hfound : ∀ {m : FsM Unit} {ip : ℕ} {u : FsState}, Wp (fun _ => True) (do
      m
      return some ip) (fun r t => r = none → Gains S s.disk t.disk) u :=
    wp_bind.mpr (wp_trivial.mono fun _ _ _ => wp_pure.mpr (by simp))
  refine h.wp_create h0 hw (fun t _ hdisk _ => .of_eq hdisk)
    (fun dp name nd ip k t _ _ _ ht hdisk => ?_) (fun dp t ht _ hdisk => ?_)
    fun dp ip i name nd t ht => ?_
  · -- the name is there
    rw [← hdisk]
    have hl : Function.update (fun _ => false) dp true dp = true := Function.update_self ..
    refine wp_bind.mpr (((ht.iunlockput hl).and (ht.iunlockputGains (S := S) hl)).mono
      fun _ u hu => ?_)
    obtain ⟨⟨hu, -⟩, hgains⟩ := hu
    rw [add_right_comm, add_sub_cancel_right] at hu
    refine wp_bind.mpr (((hu.ilock (h.view.single_pos ip)
      (fun _ => trivial) fun _ => trivial).leaves
      (f := fun s => s.disk) (Leaves.ilock ip)).mono fun _ v hv => ?_)
    obtain ⟨⟨hv, -⟩, hdisk'⟩ := hv
    rw [← hdisk'] at hgains
    refine wp_bind.mpr (wp_inode.mpr ?_)
    dsimp only
    split
    · exact wp_pure.mpr (by simp)
    · exact wp_bind.mpr ((hv.iunlockputGains (Function.update_self ..)).mono fun _ x hx =>
        wp_pure.mpr fun _ => hgains.trans hx)
  · rw [← hdisk]
    exact wp_bind.mpr ((ht.iunlockputGains (Function.update_self ..)).mono fun _ u hu =>
      wp_pure.mpr fun _ => hu)
  have hsub : ({(t.inodes dp).inum, i} : Set ℕ) ⊆ S := by
    rw [hS]
    rintro j (rfl | rfl)
    · exact .inr ⟨name, ht.parent⟩
    · exact .inl ht.free
  have hgains : Gains S s.disk t.disk :=
    ht.fresh.gains (tree_eq_none.mp (by rw [h.view.tree_eq, ht.free]))
  -- its name is entered
  have hlinks : Wp (fun _ => True) (Kernel.createLinks ip dp name type) _ t :=
    ht.view.createLinks ht.held ht.held_dir ht.inum rfl ht.dir_ne.symm ht.self ht.dir_self
  refine wp_bind.mpr ((hlinks.and (ht.view.createLinksGains ht.held ht.held_dir ht.inum rfl ht.self
    ht.dir_self ht.dir_ne.symm name type)).mono fun r u hu => ?_)
  obtain ⟨⟨hpin, hu⟩, hugains⟩ := hu
  replace hgains := hgains.trans (hugains.mono hsub)
  cases r with
  | true =>
    rw [if_pos rfl]
    split
    · exact wp_bind.mpr (wp_trivial.mono
        fun _ _ _ => wp_bind.mpr (wp_trivial.mono fun _ _ _ => hfound))
    · exact hfound
  | false =>
    rw [if_neg Bool.false_ne_true]
    obtain ⟨m, -, hu⟩ := hu
    have hui := (hpin ip (ht.view.held ip ht.held).1).1.trans ht.inum
    rw [Function.update_idem] at hu
    refine .seq ((hu.setNlink ht.held hui (Function.update_self ..) fun _ => 0).and
      (hu.setFieldsGains (S := S) ht.held _ fun _ => ⟨rfl, rfl, rfl⟩)) fun _ v hv => ?_
    obtain ⟨⟨hv, -⟩, hvgains⟩ := hv
    refine wp_bind.mpr (((hv.iunlockput ht.held).and (hv.iunlockputGains (S := S) ht.held)).mono
      fun _ x hx => ?_)
    obtain ⟨⟨hx, -⟩, hxgains⟩ := hx
    refine wp_bind.mpr ((hx.iunlockputGains ?_).mono fun _ y hy => wp_pure.mpr fun _ =>
      ((hgains.trans hvgains).trans hxgains).trans hy)
    rw [Function.update_of_ne (Ne.symm ht.ne), ht.held_dir]

theorem Undone.ops {w : Option (ℕ × Bytes)} {d : Disk} (h : Undone base T R w d t) (k : ℤ) :
    Undone base T R w d { t with ops := k } := ⟨h.view.ops k, h.gains⟩

theorem Undone.new_block {w : Option (ℕ × Bytes)} (h : Undone base T R w s.disk t)
    (hs : View base T R L s)
    {b : ℕ} (hb : b ∈ t.disk.used) (hnew : b ∉ s.disk.used) :
    ∃ d name, w = some (d, name) ∧ b ∈ blocksOf t.disk d := by
  obtain ⟨d, hd, htype, hblock⟩ := h.gains.new_block hs.sound h.view.sound hb hnew
  rcases hd with hfree | ⟨name, hname⟩
  · rw [← h.view.tree_eq] at hfree
    exact absurd (tree_eq_none.mp hfree) htype
  · exact ⟨d, name, hname, hblock⟩

theorem Settled.createUndone (h : Settled base T R cwd s) (hT : T.Counted) (path : Bytes) {type : ℤ}
    (h0 : type ≠ 0) (major minor : ℤ) :
    Wp (fun _ => True) (create cwd path type major minor) (fun r t => r = none →
      Undone base T R (T.namex (s.inodes cwd).inum path true) s.disk t) s := by
  have hcreate : Wp (fun _ => True) (create cwd path type major minor) _ s :=
    h.view.create (U := InUse R s) h.cwd_pos (fun _ _ hi => hi) (fun _ _ => trivial) (.inl trivial)
      (fun i hi => ⟨h.used i hi, hi⟩) h0 major minor
  refine (hcreate.and (h.createGains path h0 major minor)).mono fun r t ht hr => ?_
  obtain ⟨⟨-, hview⟩, hgains⟩ := ht
  subst hr
  obtain ⟨T', hd, hview⟩ := hview
  obtain rfl := hd.counted hT
  exact ⟨hview, hgains rfl⟩

/-- The entry that a call is to make or remove: its directory and its name. -/
def Tree.place (T : Tree) (c : ℕ) (path : StrArg) : Option (ℕ × Bytes) :=
  (argstr path Param.MAXPATH).bind fun path => T.namex c path true

theorem Settled.makeUndone (h : Settled base T R cwd s) (hT : T.Counted) (path : StrArg) {type : ℤ}
    (h0 : type ≠ 0) (major minor : ℤ) :
    Wp (fun _ => True) (do
      beginOp
      match argstr path Param.MAXPATH with
      | none => do
        endOp
        return (-1 : ℤ)
      | some path =>
        match ← create cwd path type major minor with
        | none => do
          endOp
          return -1
        | some ip => do
          iunlockput ip
          endOp
          return 0) (fun r t => r = -1 →
      Undone base T R (T.place (s.inodes cwd).inum path) s.disk t) s := by
  unfold Tree.place
  refine wp_bind.mpr (wp_modify.mpr ?_)
  cases argstr path Param.MAXPATH with
  | none =>
    exact wp_bind.mpr (wp_modify.mpr (wp_pure.mpr fun _ => ⟨(h.view.ops _).ops _, .refl _ _⟩))
  | some path =>
    refine wp_bind.mpr (((h.ops _).createUndone hT path h0 major minor).mono fun r t ht => ?_)
    cases r with
    | none => exact wp_bind.mpr (wp_modify.mpr (wp_pure.mpr fun _ => (ht rfl).ops _))
    | some ip =>
      refine wp_bind.mpr (wp_trivial.mono fun _ _ _ => wp_bind.mpr (wp_modify.mpr (wp_pure.mpr ?_)))
      exact fun hr => absurd hr (by decide)

theorem View.giveBackGains {S : Set ℕ} {d : Disk}
    (h : View base T (R + Pi.single ip 1) (Function.update L ip true) s) (hL : L ip = false)
    (hlinks : ∀ i n, T i = some n → n.nlink ≠ 0) (hgains : Gains S d s.disk) :
    Wp (fun _ => True) (Kernel.iunlockput ip)
      (fun _ t => Pins R s t ∧ View base T R L t ∧ Gains S d t.disk) s := by
  have hl : Function.update L ip true ip = true := Function.update_self ..
  obtain ⟨hr, hv⟩ := h.held ip hl
  obtain ⟨n, hn, -⟩ := h.node hr hv
  refine ((h.giveBackKept hL hn fun h0 => absurd h0 (hlinks _ n hn)).and
    (h.iunlockputGains (S := S) hl)).mono fun _ t ht => ?_
  exact ⟨ht.1.1, ht.1.2, hgains.trans ht.2⟩

theorem View.unlinkBadUndone {w : Option (ℕ × Bytes)} {d : Disk}
    (h : View base T (R + Pi.single dp 1) (Function.update (fun _ => false) dp true) s)
    (hlinks : ∀ i n, T i = some n → n.nlink ≠ 0) (hgains : Gains (enlarged T w) d s.disk) :
    Wp (fun _ => True) (unlinkBad dp) (fun _ t => Undone base T R w d t) s :=
  wp_bind.mpr ((h.giveBackGains rfl hlinks hgains).mono fun _ _ ht =>
    wp_bind.mpr (wp_modify.mpr (wp_pure.mpr ⟨ht.2.1.ops _, ht.2.2⟩)))

theorem Settled.sysUnlinkUndone (h : Settled base T R cwd s) (hT : T.Counted) (path : StrArg) :
    Wp (fun _ => True) (sysUnlink cwd path) (fun r t => r = -1 →
      Undone base T R (T.place (s.inodes cwd).inum path) s.disk t) s := by
  have hlinks : ∀ i n, T i = some n → n.nlink ≠ 0 := hT.ne_zero
  obtain ⟨w, hw⟩ : ∃ w, w = T.place (s.inodes cwd).inum path := ⟨_, rfl⟩
  rw [← hw]
  unfold Kernel.sysUnlink
  split
  · exact wp_pure.mpr fun _ => ⟨h.view, .refl _ _⟩
  rename_i p hp
  have hops := h.ops (s.ops + 1)
  refine wp_bind.mpr (wp_modify.mpr (wp_bind.mpr ?_))
  refine ((hops.view.namexStill hops.cwd_pos rfl hops.anchored trivial (by simp)).and
    (hops.namex_disk p true)).mono fun r t hr => ?_
  obtain ⟨⟨-, -, hr⟩, hdisk⟩ := hr
  rcases r with - | ⟨dp, name⟩
  · exact wp_bind.mpr (wp_modify.mpr (wp_pure.mpr fun _ => ⟨View.ops hr.2 _, .of_eq hdisk⟩))
  obtain ⟨-, ht⟩ := hr
  have hpos := h.view.single_pos dp
  refine wp_bind.mpr (((ht.ilock hpos (fun _ => trivial) fun _ => trivial).leaves
    (f := fun s => s.disk) (Leaves.ilock dp)).mono fun _ u hu => ?_)
  obtain ⟨⟨hu, -, -, hv⟩, hdisk'⟩ := hu
  have hgains : Gains (enlarged T w) s.disk u.disk := .of_eq (hdisk'.trans hdisk)
  obtain ⟨nd, hnd, -⟩ := hu.node hpos hv
  have hl : Function.update (fun _ => false) dp true dp = true := Function.update_self ..
  split
  · exact (hu.unlinkBadUndone hlinks hgains).mono fun _ _ hv _ => hv
  refine wp_bind.mpr (((hu.dirlookup hl hnd name).and (hu.dirlookupStill hl hnd name)).mono
    fun r v hr => ?_)
  obtain ⟨⟨-, hr⟩, hdisk''⟩ := hr
  rw [← hdisk''] at hgains
  rcases r with - | ⟨ip, off⟩
  · obtain ⟨rfl, -⟩ := hr
    exact (hu.unlinkBadUndone hlinks hgains).mono fun _ _ hv _ => hv
  obtain ⟨k, j, -, -, hv, -⟩ := hr
  have hip : 0 < (R + Pi.single dp 1 + Pi.single ip 1 : ℕ → ℤ) ip := hu.single_pos ip
  refine wp_bind.mpr (((hv.ilock hip (fun _ => trivial) fun _ => trivial).leaves
    (f := fun s => s.disk) (Leaves.ilock ip)).mono fun _ x hx => ?_)
  obtain ⟨⟨hx, -, hlock, hxv⟩, hxdisk⟩ := hx
  rw [← hxdisk] at hgains
  obtain ⟨n, hn, -⟩ := hx.node hip hxv
  refine wp_bind.mpr (wp_inode.mpr ?_)
  split
  · exact wp_throw.mpr trivial
  -- the directory to remove is not empty, or the call succeeds
  have hempty : Wp (fun _ => True) (if (x.inodes ip).type = T_DIR then isdirempty ip
    else return true)
      (fun _ y => y = x) x := by
    split
    · exact (hx.isdirempty (Function.update_self ..) hn).mono fun _ _ hy => hy.1
    · exact wp_pure.mpr rfl
  refine wp_bind.mpr (hempty.mono fun r y hy => ?_)
  subst hy
  split
  · refine wp_bind.mpr (wp_trivial.mono fun r _ _ => ?_)
    split
    · exact wp_throw.mpr trivial
    refine wp_bind.mpr (wp_trivial.mono fun _ _ _ => wp_bind.mpr (wp_trivial.mono fun _ _ _ =>
      wp_bind.mpr (wp_trivial.mono fun _ _ _ => wp_bind.mpr (wp_trivial.mono fun _ _ _ =>
        wp_bind.mpr (wp_trivial.mono fun _ _ _ => wp_bind.mpr (wp_trivial.mono fun _ _ _ =>
          wp_pure.mpr fun hr => absurd hr (by decide)))))))
  · exact wp_bind.mpr ((hx.giveBackGains hlock hlinks hgains).mono fun _ z hz =>
      (hz.2.1.unlinkBadUndone hlinks hz.2.2).mono fun _ _ hv _ => hv)

theorem View.linkBadUndone {w : Option (ℕ × Bytes)} {d : Disk}
    (h : View base (Function.update T i (some { n with nlink := toShort (n.nlink + 1) }))
      (R + Pi.single ip 1) (fun _ => false) s) (hR : ∀ k, 0 ≤ R k) (hi : (s.inodes ip).inum = i)
    (hn : T i = some n) (hT : T.Counted) (hgains : Gains (enlarged T w) d s.disk) :
    Wp (fun _ => True) (linkBad ip) (fun _ t => Undone base T R w d t) s := by
  have hpos : 0 < (R + Pi.single ip 1 : ℕ → ℤ) ip := by
    have h0 := hR ip
    simp only [Pi.add_apply, Pi.single_eq_same]
    omega
  obtain ⟨hle, hlt⟩ := hT i n hn
  refine wp_bind.mpr (((h.ilock hpos (fun _ => trivial) fun _ => trivial).leaves
    (f := fun s => s.disk) (Leaves.ilock ip)).mono fun _ t ht => ?_)
  obtain ⟨⟨ht, hk, hlock, -⟩, hdisk⟩ := ht
  have hti := (h.pins ht hk le_rfl le_rfl ip hpos).1.trans hi
  have hl : Function.update (fun _ => false) ip true ip = true := Function.update_self ..
  refine .seq ((ht.setNlink hl hti (Function.update_self ..) fun x => toShort (x - 1)).and
    (ht.setFieldsGains (S := enlarged T w) hl _ fun _ => ⟨rfl, rfl, rfl⟩)) fun _ u hu => ?_
  obtain ⟨⟨hu, -⟩, hugains⟩ := hu
  rw [hdisk] at hugains
  have hback : Function.update (Function.update T i
    (some { n with nlink := toShort (n.nlink + 1) })) i
      (some { n with nlink := toShort (toShort (n.nlink + 1) - 1) }) = T := by
    rw [toShort_pred_succ hle hlt, Function.update_idem, ← hn, Function.update_eq_self]
  dsimp only at hu
  rw [hback] at hu
  exact wp_bind.mpr ((hu.giveBackGains hlock hT.ne_zero (hgains.trans hugains)).mono fun _ _ hv =>
    wp_bind.mpr (wp_modify.mpr (wp_pure.mpr ⟨hv.2.1.ops _, hv.2.2⟩)))

omit sb pm in
theorem Tree.Counted.count (hT : T.Counted) (hn : T i = some n) :
    ∀ j m, Function.update T i (some { n with nlink := toShort (n.nlink + 1) }) j = some m →
      m.nlink ≠ 0 := by
  intro j m hm
  by_cases hj : j = i
  · subst hj
    rw [Function.update_self] at hm
    obtain rfl := Option.some.inj hm
    exact toShort_succ_ne_zero (hT j n hn).1 (hT j n hn).2
  · rw [Function.update_of_ne hj] at hm
    exact hT.ne_zero j m hm

theorem Settled.newLinkUndone {w : Option (ℕ × Bytes)} {d : Disk}
    (h : Settled base (Function.update T i (some { n with nlink := toShort (n.nlink + 1) }))
      (R + Pi.single ip 1) cwd s) (hR : ∀ k, 0 ≤ R k) (hi : (s.inodes ip).inum = i)
      (hn : T i = some n)
    (hT : T.Counted) (hw : w = T.namex (s.inodes cwd).inum path true)
    (hgains : Gains (enlarged T w) d s.disk) :
    Wp (fun _ => True) (do
      match ← nameiparent cwd path with
      | none => linkBad ip
      | some (dp, name) => do
        Kernel.ilock dp
        let d ← inode dp
        let i ← inode ip
        if d.dev ≠ i.dev then do
          Kernel.iunlockput dp
          linkBad ip
        else if (← Kernel.dirlink dp name i.inum) < 0 then do
          Kernel.iunlockput dp
          linkBad ip
        else do
          Kernel.iunlockput dp
          Kernel.iput ip
          endOp
          return 0) (fun r t => r = -1 → Undone base T R w d t) s := by
  have hpos : 0 < (R + Pi.single ip 1 : ℕ → ℤ) ip := by
    have h0 := hR ip
    simp only [Pi.add_apply, Pi.single_eq_same]
    omega
  have hlinks := hT.count hn
  obtain ⟨T₁, hT₁⟩ : ∃ T₁, T₁ = Function.update T i
    (some { n with nlink := toShort (n.nlink + 1) }) :=
    ⟨_, rfl⟩
  rw [← hT₁] at h hlinks
  have hbad : ∀ {t : FsState}, View base T₁ (R + Pi.single ip 1) (fun _ => false) t →
      Pins (R + Pi.single ip 1) s t → Gains (enlarged T w) d t.disk →
      Wp (fun _ => True) (linkBad ip) (fun r u => r = -1 → Undone base T R w d u) t :=
    fun ht hpin hgains => (View.linkBadUndone (hT₁ ▸ ht) hR ((hpin ip hpos).1.trans hi) hn hT
      hgains).mono fun _ _ hu _ => hu
  refine wp_bind.mpr (((h.view.namexStill h.cwd_pos rfl h.anchored trivial (by simp)).and
    (h.namex_disk path true)).mono fun r t hr => ?_)
  obtain ⟨⟨hpin, -, hr⟩, hdisk⟩ := hr
  rw [← hdisk] at hgains
  rcases r with - | ⟨dp, name⟩
  · exact hbad hr.2 hpin hgains
  obtain ⟨hwalk, ht⟩ := hr
  rw [hT₁, Tree.namex_nlink hn] at hwalk
  have hdpos := h.view.single_pos dp
  refine wp_bind.mpr (((ht.ilock hdpos (fun _ => trivial) fun _ => trivial).leaves
    (f := fun s => s.disk) (Leaves.ilock dp)).mono fun _ u hu => ?_)
  obtain ⟨⟨hu, hk, -, hv⟩, hdisk'⟩ := hu
  rw [← hdisk'] at hgains
  have hpin' := ht.pins hu hk le_rfl le_rfl
  have hpins := hpin.trans (hpin'.mono (le_add_single _ dp))
  obtain ⟨nd, hnd, -⟩ := hu.node hdpos hv
  have hl : Function.update (fun _ => false) dp true dp = true := Function.update_self ..
  have hin : ({(u.inodes dp).inum} : Set ℕ) ⊆ enlarged T w := by
    rintro j rfl
    exact .inr ⟨name, by rw [hw, (hpin' dp hdpos).1, hwalk]⟩
  -- the directory goes back before the link is taken back
  have hback : ∀ {v : FsState}, View base T₁ (R + Pi.single ip 1 + Pi.single dp 1)
      (Function.update (fun _ => false) dp true) v → Pins (R + Pi.single ip 1) s v →
      Gains (enlarged T w) d v.disk → Wp (fun _ => True) (do
        Kernel.iunlockput dp
        linkBad ip) (fun r t => r = -1 → Undone base T R w d t) v :=
    fun hv hpinv hvgains => wp_bind.mpr ((hv.giveBackGains rfl hlinks hvgains).mono fun _ x hx =>
      hbad hx.2.1 (hpinv.trans hx.1) hx.2.2)
  refine wp_bind.mpr (wp_inode.mpr (wp_bind.mpr (wp_inode.mpr ?_)))
  split
  · exact hback hu hpins hgains
  refine wp_bind.mpr (((hu.dirlink hl hnd name _).and (hu.dirlinkGains hl hnd name _)).mono
    fun r v hv => ?_)
  obtain ⟨⟨-, hkv, hv⟩, hvgains⟩ := hv
  split
  · rename_i hneg
    obtain ⟨-, hv⟩ | ⟨hnonneg, -⟩ := hv
    · exact hback hv (hpins.trans ((hu.pins hv hkv le_rfl le_rfl).mono (le_add_single _ dp)))
        (hgains.trans (hvgains.mono hin))
    · exact absurd hneg (not_lt.mpr hnonneg)
  · exact wp_bind.mpr (wp_trivial.mono fun _ _ _ => wp_bind.mpr (wp_trivial.mono fun _ _ _ =>
      wp_bind.mpr (wp_trivial.mono fun _ _ _ => wp_pure.mpr fun hr => absurd hr (by decide))))

theorem Settled.sysLinkUndone (h : Settled base T R cwd s) (hT : T.Counted) (old new : StrArg) :
    Wp (fun _ => True) (sysLink cwd old new) (fun r t => r = -1 →
      Undone base T R (T.place (s.inodes cwd).inum new) s.disk t) s := by
  obtain ⟨w, hw⟩ : ∃ w, w = T.place (s.inodes cwd).inum new := ⟨_, rfl⟩
  rw [← hw]
  unfold Kernel.sysLink
  split
  swap
  · exact wp_pure.mpr fun _ => ⟨h.view, .refl _ _⟩
  rename_i p q hp hq
  rw [Tree.place, hq, Option.bind_some] at hw
  have hops := h.ops (s.ops + 1)
  refine wp_bind.mpr (wp_modify.mpr (wp_bind.mpr ?_))
  have hnamei : Wp (fun _ => True) (Kernel.namei cwd p) (fun _ t => t.disk = s.disk)
      { s with ops := s.ops + 1 } :=
    wp_bind.mpr ((hops.namex_disk p false).mono fun r t ht => by cases r <;> exact wp_pure.mpr ht)
  refine ((hops.view.nameiStill hops.cwd_pos rfl hops.anchored trivial (by simp)).and
    hnamei).mono fun r t hr => ?_
  obtain ⟨⟨hpin, -, hr⟩, hdisk⟩ := hr
  rcases r with - | ip
  · exact wp_bind.mpr (wp_modify.mpr (wp_pure.mpr fun _ => ⟨View.ops hr.2 _, .of_eq hdisk⟩))
  obtain ⟨-, -, ht⟩ := hr
  have hpos := h.view.single_pos ip
  refine wp_bind.mpr (((ht.ilock hpos (fun _ => trivial) fun _ => trivial).leaves
    (f := fun s => s.disk) (Leaves.ilock ip)).mono fun _ u hu => ?_)
  obtain ⟨⟨hu, hk, -, hv⟩, hdisk'⟩ := hu
  have hgains : Gains (enlarged T w) s.disk u.disk := .of_eq (hdisk'.trans hdisk)
  have hpinu := ht.pins hu hk le_rfl le_rfl
  obtain ⟨n, hn, -⟩ := hu.node hpos hv
  obtain ⟨i, hi⟩ : ∃ i, (u.inodes ip).inum = i := ⟨_, rfl⟩
  rw [hi] at hn
  have hl : Function.update (fun _ => false) ip true ip = true := Function.update_self ..
  refine wp_bind.mpr (wp_inode.mpr ?_)
  split
  · exact wp_bind.mpr ((hu.giveBackGains rfl hT.ne_zero hgains).mono fun _ v hv =>
      wp_bind.mpr (wp_modify.mpr (wp_pure.mpr fun _ => ⟨hv.2.1.ops _, hv.2.2⟩)))
  -- the link is counted
  refine .seq ((hu.setNlink hl hi hn fun x => toShort (x + 1)).and
    (hu.setFieldsGains (S := enlarged T w) hl _ fun _ => ⟨rfl, rfl, rfl⟩)) fun _ v hv => ?_
  obtain ⟨⟨hv, hpinv⟩, hvgains⟩ := hv
  refine wp_bind.mpr (((hv.iunlock hl).leaves (f := fun s => s.disk) (Leaves.iunlock ip)).mono
    fun _ x hx => ?_)
  obtain ⟨⟨hx, hkx⟩, hxdisk⟩ := hx
  rw [Function.update_idem, Function.update_eq_self] at hx
  have hpinx := hpinv.trans (hv.pins hx hkx le_rfl le_rfl)
  have hpins : Pins R s x := hpin.trans ((hpinu.trans hpinx).mono (le_add_single R ip))
  have hxi := (hpinx ip hpos).1.trans hi
  refine Settled.newLinkUndone ⟨hx, lt_of_lt_of_le h.cwd_pos (le_add_single R ip cwd), ?_,
    fun j m hm h0 _ => absurd h0 (hT.count hn j m hm)⟩ h.view.nonneg hxi hn hT ?_ ?_
  · -- what is in use is allocated
    rintro j ⟨k, hk, rfl⟩
    by_cases hki : (x.inodes k).inum = i
    · rw [hki, Function.update_self]
      simp
    · have hkip : k ≠ ip := by
        rintro rfl
        exact hki hxi
      have hRk : 0 < R k := by simpa [hkip] using hk
      rw [Function.update_of_ne hki, (hpins k hRk).1]
      exact h.used _ ⟨k, hRk, rfl⟩
  · rw [hw, (hpins cwd h.cwd_pos).1]
  · rw [hxdisk]
    exact hgains.trans hvgains

inductive EntryCall
  | link (old new : StrArg)
  | mkdir (path : StrArg)
  | mknod (path : StrArg) (major minor : ℤ)
  | unlink (path : StrArg)

def EntryCall.run (cwd : ℕ) : EntryCall → FsM ℤ
  | .link old new => sysLink cwd old new
  | .mkdir path => sysMkdir cwd path
  | .mknod path major minor => sysMknod cwd path major minor
  | .unlink path => sysUnlink cwd path

def EntryCall.entryPath : EntryCall → StrArg
  | .link _ new => new
  | .mkdir path => path
  | .mknod path _ _ => path
  | .unlink path => path

theorem Settled.entryCallUndone (h : Settled base T R cwd s) (hT : T.Counted) (c : EntryCall) :
    Wp (fun _ => True) (c.run cwd) (fun r t => r = -1 →
      Undone base T R (T.place (s.inodes cwd).inum c.entryPath) s.disk t) s := by
  cases c with
  | link old new => exact h.sysLinkUndone hT old new
  | mkdir path => exact h.makeUndone hT path (by decide) 0 0
  | mknod path major minor => exact h.makeUndone hT path (by decide) (toShort major) (toShort minor)
  | unlink path => exact h.sysUnlinkUndone hT path

/-- A call that answers `-1` leaves the tree and the references as they were, every block in use
belongs to one inode, and one that is newly in use to the directory of the entry. -/
theorem entryCall_undone (h : Settled base T R cwd s) (hT : T.Counted) (c : EntryCall)
    (hrun : Ends (c.run cwd) s (-1) t) :
    tree t.disk = tree s.disk ∧ (∀ ip, (t.inodes ip).ref = (s.inodes ip).ref) ∧
      Fs.Sound base (live t.disk) t.disk ∧
      ∀ b ∈ t.disk.used, b ∉ s.disk.used → ∃ d name,
        T.place (s.inodes cwd).inum c.entryPath = some (d, name) ∧ b ∈ blocksOf t.disk d := by
  have hundone := (h.entryCallUndone hT c).post hrun rfl
  refine ⟨?_, fun ip => ?_, hundone.view.sound, fun b => hundone.new_block h.view⟩
  · rw [hundone.view.tree_eq, h.view.tree_eq]
  · rw [hundone.view.ref_eq, h.view.ref_eq]

section Small

omit pm sb

theorem counted_smallFs (block : ℕ → Bytes) :
    letI := smallDisk
    letI := smallParam
    (tree (smallFs block).disk).Counted := by
  let _ := smallDisk
  let _ := smallParam
  intro i n hn
  obtain ⟨htype, h0, -, -, hnlink, -⟩ := tree_eq_some hn
  have hd : (smallFs block).disk.dinode i =
      if i = 1 then { Dinode.zero with type := 1, nlink := 1 } else Dinode.zero := dinode_rootDisk i
  rw [hd] at htype hnlink
  split at htype
  · rename_i hi
    rw [if_pos hi] at hnlink
    rw [← hnlink]
    decide
  · exact absurd htype.symm h0

/-- The entries of a new directory take the last block, and there is none for its name. -/
theorem entryCall_undone_small :
    letI := smallDisk
    letI := smallParam
    ∃ t, Ends (sysMkdir 0 (pathArg [47, 120])) (smallFs oneLeft) (-1) t ∧
      tree t.disk = tree (smallFs oneLeft).disk ∧ (t.inodes 0).ref = 64 := by
  let _ := smallDisk
  let _ := smallParam
  have hrun := ends_answer (m := (EntryCall.mkdir (pathArg [47, 120])).run 0) (s := smallFs oneLeft)
    (a := -1) (by decide +kernel)
  obtain ⟨htree, href, -⟩ := entryCall_undone (settled_smallFs formatted_oneLeft)
    (counted_smallFs oneLeft) (.mkdir (pathArg [47, 120])) hrun
  exact ⟨_, hrun, htree, href 0⟩

end Small

end Xv6Sheet.Kernel
