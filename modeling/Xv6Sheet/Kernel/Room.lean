import Xv6Sheet.Fs.Room
import Xv6Sheet.Kernel.Still

/-! # Room for a new node

`create` needs a free inode, a place in the parent for the entry and the blocks that are missing on
the way to this place. It fails when one of these is not there, and takes exactly these blocks
otherwise.
-/

namespace Xv6Sheet.Kernel

open Exec

variable [sb : Superblock]

def Room (d : Disk) (i off n : ℕ) : Prop :=
  off + n ≤ Fs.MAXFILE * BSIZE ∧ Fs.lacking (live d) d i off ≤ d.free.card

/-- The disks have the same blocks, and the same inodes but for `i`, which has no blocks on the
second one. -/
structure Fresh (i : ℕ) (d d' : Disk) : Prop where
  block : d'.block = d.block
  dinodes : ∀ j, j ≠ i → d'.dinode j = d.dinode j
  addrs : (d'.dinode i).addrs = fun _ => 0

namespace Fresh

variable {d d' d'' : Disk} {i j : ℕ}

theorem trans (h : Fresh i d d') (h' : Fresh i d' d'') : Fresh i d d'' :=
  ⟨h'.block.trans h.block, fun j hj => (h'.dinodes j hj).trans (h.dinodes j hj), h'.addrs⟩

theorem free (h : Fresh i d d') : d'.free = d.free := by
  ext b
  rw [Disk.mem_free, Disk.mem_free, Disk.used, Disk.used]
  simp only [Disk.Marked, h.block]

theorem lacking (h : Fresh i d d') (hj : j ≠ i) (off : ℕ) :
    Fs.lacking (live d') d' j off = Fs.lacking (live d) d j off := by
  refine Fs.lacking_congr ?_ h.block off
  rw [live, live, h.dinodes j hj]

theorem room (h : Fresh i d d') (hj : j ≠ i) (off n : ℕ) : Room d' j off n ↔ Room d j off n := by
  unfold Room
  rw [h.free, h.lacking hj]

end Fresh

theorem lacking_of_addrs {d : Disk} {i : ℕ} (h : (d.dinode i).addrs = fun _ => 0) :
    Fs.lacking (live d) d i 0 = 1 := by
  refine Fs.lacking_zero ?_
  unfold live
  split
  · rfl
  · exact congrFun h 0

variable [pm : Param] {base : Set ℕ} {T : Tree} {R : ℕ → ℤ} {L : ℕ → Bool} {s : FsState}
  {ip dp cwd i c : ℕ} {n : Node} {path name : Bytes} {E : Fault → Prop} [hE : Permits E]

namespace View

omit hE in
/-- A write within one block takes the blocks it lacks, and is refused without room. -/
theorem writeiTakes (h : View base T R L s) (hl : L ip = true) (hn : T (s.inodes ip).inum = some n)
    (src : Bytes) {off cnt : ℕ} (hoff : off ≤ n.data.length) (hcnt : 0 < cnt)
    (hblock : off % BSIZE + cnt ≤ BSIZE) :
    Wp E (Kernel.writei ip src off cnt) (fun r t =>
      (∀ j, j ≠ (s.inodes ip).inum → t.disk.dinode j = s.disk.dinode j) ∧
      ((r = cnt ∧ Room s.disk (s.inodes ip).inum off cnt ∧
          t.disk.free.card + Fs.lacking (live s.disk) s.disk (s.inodes ip).inum off =
            s.disk.free.card) ∨
        (r ≠ cnt ∧ ¬ Room s.disk (s.inodes ip).inum off cnt))) s := by
  obtain ⟨hr, hv⟩ := h.held ip hl
  obtain ⟨hs, -⟩ := h.inodesWith_sound hr hv
  obtain ⟨n', hn', -, -, -, -, hsize⟩ := h.node hr hv
  obtain rfl : n = n' := Option.some.inj (hn.symm.trans hn')
  obtain ⟨hcached, h0⟩ := h.cached ip hr hv
  have hself := inodesWith_self s ip
  have hlack : Fs.lacking (inodesWith s ip) s.disk (s.inodes ip).inum off =
      Fs.lacking (live s.disk) s.disk (s.inodes ip).inum off := by
    refine Fs.lacking_congr ?_ rfl off
    rw [hself, hcached, live_of_type rfl (hcached ▸ h0)]
  have hmax := Fs.maxfile_lt
  by_cases hfit : off + cnt ≤ Fs.MAXFILE * BSIZE
  · obtain ⟨tot, x, d', he, -, hw, -⟩ := Fs.writei_ends hs.forest
      (fun _ => true) src (by rw [hself, hsize]; exact hoff) hfit
    have htakes := Fs.writei_takes hs.forest (by rw [hself, hsize]; exact hoff) hfit hcnt hblock he
    rw [hself] at he
    rw [hlack] at htakes
    refine wp_onInode.mpr (.of_ends he ⟨fun j hj => ?_, ?_⟩)
    · obtain ⟨a, hx⟩ := hw.inode
      rw [Function.update_self, hself] at hx
      have hd := hw.dinodes
      rw [Function.update_self, hx] at hd
      have hdin : d'.dinode j = (s.disk.setDinode (s.inodes ip).inum x.toDinode).dinode j := by
        rw [hx]
        simp only [Disk.dinode, hd]
      exact hdin.trans (by rw [Disk.dinode_setDinode, if_neg hj])
    · rcases htakes with ⟨htot, hcard⟩ | ⟨htot, hcard⟩
      · exact .inl ⟨htot, ⟨hfit, by omega⟩, hcard⟩
      · refine .inr ⟨?_, fun hroom => ?_⟩
        · dsimp only
          omega
        · have := hroom.2
          omega
  · have he : Ends (Fs.writei (inodesWith s ip (s.inodes ip).inum)
      (fun _ => true) src off cnt) s.disk
        (-1, inodesWith s ip (s.inodes ip).inum) s.disk :=
      Fs.writei_refuses (fun _ => true) src (by have := h.data_length_le hn; omega)
        (by simp only [BSIZE] at hblock; omega) (.inr (.inr (by omega)))
    rw [hself] at he
    exact wp_onInode.mpr (.of_ends he ⟨fun _ _ => rfl,
      .inr ⟨by dsimp only; omega, fun hroom => hfit hroom.1⟩⟩)

omit hE in
theorem setFields_disk (h : View base T R L s) (hl : L ip = true) (g : Inode → Inode)
    (hg : ∀ x, (g x).inum = x.inum ∧ (g x).addrs = x.addrs)
    (h0 : (s.disk.dinode (s.inodes ip).inum).addrs = fun _ => 0) :
    Wp E (do
      modifyInode ip g
      iupdate ip) (fun _ t => Fresh (s.inodes ip).inum s.disk t.disk) s := by
  obtain ⟨hr, hv⟩ := h.held ip hl
  obtain ⟨hcached, -⟩ := h.cached ip hr hv
  refine wp_bind.mpr (wp_modifyInode.mpr (wp_onInode.mpr (wp_bind.mpr (wp_modify.mpr
    (wp_pure.mpr ?_)))))
  obtain ⟨hi, ha⟩ := hg (s.inodes ip)
  simp only [Function.update_self, hi]
  refine ⟨rfl, fun j hj => ?_, ?_⟩
  · rw [Disk.dinode_setDinode, if_neg hj]
  · rw [Disk.dinode_setDinode, if_pos rfl, ha, hcached, h0]

theorem dirlinkTakes (h : View base T R L s) (hl : L ip = true) (hn : T (s.inodes ip).inum = some n)
    (habsent : n.lookup (Bytes.str name DIRSIZ) = none) (inum : ℕ) :
    Wp E (Kernel.dirlink ip name inum) (fun r t =>
      (∀ j, j ≠ (s.inodes ip).inum → t.disk.dinode j = s.disk.dinode j) ∧
      ((0 ≤ r ∧ Room s.disk (s.inodes ip).inum (direntSize * n.slot) direntSize ∧
          t.disk.free.card +
            Fs.lacking (live s.disk) s.disk (s.inodes ip).inum (direntSize * n.slot) =
            s.disk.free.card) ∨
        (r < 0 ∧ ¬ Room s.disk (s.inodes ip).inum (direntSize * n.slot) direntSize))) s := by
  refine wp_bind.mpr ((h.dirlookup hl hn name).mono fun r t hr => ?_)
  obtain ⟨-, ht⟩ := hr
  rcases r with - | ⟨next, off⟩
  swap
  · obtain ⟨k, j, hlookup, -⟩ := ht
    rw [habsent] at hlookup
    cases hlookup
  obtain ⟨rfl, -, hmod⟩ := ht
  refine wp_bind.mpr (wp_inode.mpr (wp_bind.mpr ?_))
  rw [(h.size_eq hl hn).2.1]
  refine (h.findSlot hl hn hmod).mono fun r u hu => ?_
  obtain ⟨rfl, hoff⟩ := hu
  rw [hoff, wp_bind]
  have hle : direntSize * n.slot ≤ n.data.length := by
    have hslot := n.slot_le
    rw [Node.length_entries] at hslot
    simp only [direntSize] at *
    omega
  have hblock : direntSize * n.slot % BSIZE + direntSize ≤ BSIZE := by
    simp only [direntSize, BSIZE]
    omega
  refine (h.writeiTakes hl hn _ hle (by decide) hblock).mono fun r v hv => ?_
  obtain ⟨hdin, ⟨rfl, hroom⟩ | ⟨hr, hroom⟩⟩ := hv
  · rw [if_neg (by simp)]
    exact wp_pure.mpr ⟨hdin, .inl ⟨le_rfl, hroom⟩⟩
  · rw [if_pos hr]
    exact wp_pure.mpr ⟨hdin, .inr ⟨by decide, hroom⟩⟩

end View

/-- The directory that a new path is entered in, and the offset of the entry. -/
def Tree.entering (T : Tree) (c : ℕ) (path : Bytes) : Option (ℕ × ℕ) :=
  match T.namex c path true with
  | none => none
  | some (d, name) =>
    match T d with
    | none => none
    | some n =>
      if n.lookup (Bytes.str name DIRSIZ) = none then some (d, direntSize * n.slot) else none

def Enters (T : Tree) (d : Disk) (c : ℕ) (path : Bytes) : Prop :=
  (∃ i, 0 < i ∧ i < sb.ninodes ∧ T i = none) ∧
    ∃ dir off, T.entering c path = some (dir, off) ∧ Room d dir off direntSize

/-- What `create` takes from the disk `d` for the entry, when it answers. -/
def Takes (T : Tree) (d : Disk) (c : ℕ) (path : Bytes) : Option ℕ → FsState → Prop
  | none, _ => ¬ Enters T d c path
  | some ip, t => (∃ i, 0 < i ∧ i < sb.ninodes ∧ T i = none) ∧
      (t.disk.dinode (t.inodes ip).inum).addrs = (fun _ => 0) ∧
      ∃ dir off, T.entering c path = some (dir, off) ∧ Room d dir off direntSize ∧
        t.disk.free.card + Fs.lacking (live d) d dir off = d.free.card

/-- What `create` answers is new in the tree, or a file that was there. -/
def TakesOrFinds (T : Tree) (d : Disk) (c : ℕ) (path : Bytes) (type : ℤ) (r : Option ℕ)
    (t : FsState) :
    Prop :=
  Takes T d c path r t ∧ (r ≠ none → tree t.disk ≠ T) ∨ type = T_FILE ∧ T.entering c path = none

/-- The state in which `create` has stored the record of the new inode `i` and is to enter its name
in the directory `nd`. -/
structure Stored (base : Set ℕ) (T : Tree) (R : ℕ → ℤ) (w : Option (ℕ × Bytes)) (n : Node)
    (s : FsState)
    (dp ip i : ℕ) (name : Bytes) (nd : Node) (t : FsState) : Prop where
  parent : w = some ((t.inodes dp).inum, name)
  dir : T (t.inodes dp).inum = some nd
  absent : nd.lookup (Bytes.str name DIRSIZ) = none
  free : T i = none
  pos : 0 < i
  lt : i < sb.ninodes
  view : View base (Function.update T i (some n)) (R + Pi.single dp 1 + Pi.single ip 1)
    (Function.update (Function.update (fun _ => false) dp true) ip true) t
  inum : (t.inodes ip).inum = i
  ne : ip ≠ dp
  pins : Pins R s t
  fresh : Fresh i s.disk t.disk

namespace Stored

variable {w : Option (ℕ × Bytes)} {nd : Node} {t : FsState}

theorem held (_ : Stored base T R w n s dp ip i name nd t) :
    Function.update (Function.update (fun _ => false) dp true) ip true ip = true :=
  Function.update_self ..

theorem held_dir (h : Stored base T R w n s dp ip i name nd t) :
    Function.update (Function.update (fun _ => false) dp true) ip true dp = true := by
  rw [Function.update_of_ne (Ne.symm h.ne), Function.update_self]

theorem dir_ne (h : Stored base T R w n s dp ip i name nd t) : (t.inodes dp).inum ≠ i :=
  fun he => by
  have hdir := h.dir
  rw [he, h.free] at hdir
  cases hdir

theorem self (_ : Stored base T R w n s dp ip i name nd t) :
    Function.update T i (some n) i = some n :=
  Function.update_self ..

theorem dir_self (h : Stored base T R w n s dp ip i name nd t) :
    Function.update T i (some n) (t.inodes dp).inum = some nd := by
  rw [Function.update_of_ne h.dir_ne, h.dir]

theorem last (h : Stored base T R (T.namex (s.inodes cwd).inum path true) n s dp ip i name nd t)
    (hs : Settled base T R cwd s) (h0 : nd.nlink = 0) : 0 < R dp := by
  obtain ⟨k, hk, hki⟩ := hs.anchored _ nd h.dir h0 (Tree.within_namex h.parent)
  have hle : R ≤ R + Pi.single dp 1 + Pi.single ip 1 :=
    (le_add_single R dp).trans (le_add_single _ ip)
  rw [← (h.pins k hk).1] at hki
  obtain rfl := h.view.unique k dp (lt_of_lt_of_le hk (hle k)) (h.view.held dp h.held_dir).1 hki
  exact hk

end Stored

/-- The ways of `create`: the path has no parent, the name is there, no inode is free, or the record
of a new one is stored and its links are made. -/
theorem Settled.wp_create (h : Settled base T R cwd s) {type : ℤ} (h0 : type ≠ 0) {major minor : ℤ}
    {w : Option (ℕ × Bytes)} (hw : w = T.namex (s.inodes cwd).inum path true)
    {Q : Option ℕ → FsState → Prop}
    (hnowhere : ∀ t, w = none → t.disk = s.disk → Q none t)
    (hthere : ∀ dp name nd ip k t, w = some ((t.inodes dp).inum, name) →
    T (t.inodes dp).inum = some nd →
      nd.lookup (Bytes.str name DIRSIZ) = some k →
      View base T (R + Pi.single dp 1 + Pi.single ip 1)
      (Function.update (fun _ => false) dp true) t →
      t.disk = s.disk → Wp (fun _ => True) (do
        iunlockput dp
        ilock ip
        let t := (← inode ip).type
        if type = T_FILE ∧ (t = T_FILE ∨ t = T_DEVICE) then return some ip
        else do
          iunlockput ip
          return none) Q t)
    (hfull : ∀ dp t, View base T (R + Pi.single dp 1) (Function.update (fun _ => false) dp true) t →
      (∀ i, 0 < i → i < sb.ninodes → T i ≠ none) → t.disk = s.disk → Wp (fun _ => True) (do
        iunlockput dp
        return none) Q t)
    (hnew : ∀ dp ip i name nd t, Stored base T R w ⟨type, major, minor, 1, []⟩ s dp ip i name nd t →
      Wp (fun _ => True) (do
        if ← createLinks ip dp name type then do
          if type = T_DIR then do
            modifyInode dp fun i => { i with nlink := toShort (i.nlink + 1) }
            iupdate dp
            iunlockput dp
            return some ip
          else do
            iunlockput dp
            return some ip
        else do
          modifyInode ip fun i => { i with nlink := 0 }
          iupdate ip
          iunlockput ip
          iunlockput dp
          return none) Q t) : Wp (fun _ => True) (create cwd path type major minor) Q s := by
  subst hw
  unfold Kernel.create
  refine wp_bind.mpr (((h.view.namexStill h.cwd_pos rfl h.anchored
    trivial (by simp)).and (h.namex_disk path true)).mono fun r t hr => ?_)
  obtain ⟨⟨hpin, -, hr⟩, hdisk⟩ := hr
  rcases r with - | ⟨dp, name⟩
  · exact wp_pure.mpr (hnowhere t hr.1 hdisk)
  obtain ⟨hw, ht⟩ := hr
  have hpos := h.view.single_pos dp
  refine wp_bind.mpr (((ht.ilock hpos (fun _ => trivial) fun _ => trivial).leaves
    (f := fun s => s.disk) (Leaves.ilock dp)).mono fun _ u hu => ?_)
  obtain ⟨⟨hu, hk, -, hv⟩, hdisk'⟩ := hu
  have hdu := (ht.pins hu hk le_rfl le_rfl dp hpos).1
  obtain ⟨nd, hnd, -⟩ := hu.node hpos hv
  have hl : Function.update (fun _ => false) dp true dp = true := Function.update_self ..
  rw [← hdu] at hw
  refine wp_bind.mpr (((hu.dirlookup hl hnd name).and (hu.dirlookupStill hl hnd name)).mono
    fun r v hr => ?_)
  obtain ⟨⟨-, hr⟩, hdisk''⟩ := hr
  have hvdisk : v.disk = s.disk := hdisk''.trans (hdisk'.trans hdisk)
  rcases r with - | ⟨ip, off⟩
  swap
  · obtain ⟨k, j, hlookup, -, hv, hkv, -⟩ := hr
    have hvd := (hu.pins hv hkv le_rfl (le_add_single _ ip) dp hpos).1
    rw [← hvd] at hw hnd
    exact hthere dp name nd ip (k, j) v hw hnd hlookup hv hvdisk
  obtain ⟨rfl, habsent, -⟩ := hr
  have hpinu := hpin.trans ((ht.pins hu hk le_rfl le_rfl).mono (le_add_single R dp))
  refine wp_bind.mpr (wp_inode.mpr (wp_bind.mpr ?_))
  rw [hu.dev dp hpos]
  refine ((hu.ialloc h0 fun k hk => ?_).and (wp_ialloc_disk ROOTDEV type)).mono fun r x hx => ?_
  · by_cases hkd : k = dp
    · rw [hkd, hnd]
      simp
    · have hRk : 0 < R k := by simpa [hkd] using hk
      rw [(hpinu k hRk).1]
      exact h.used _ ⟨k, hRk, rfl⟩
  obtain ⟨hx, hxdisk⟩ := hx
  rcases r with - | ip
  · obtain rfl := hx
    refine hfull dp x hu (fun i hi hlt hfree => ?_) hvdisk
    rw [← hu.tree_eq] at hfree
    exact hxdisk.2 i hi hlt (tree_eq_none.mp hfree)
  obtain ⟨i, hfree, hi0, hilt, hip, hxi, hkx, hx⟩ := hx
  have hne : ip ≠ dp := by
    rintro rfl
    exact absurd hip hpos.ne'
  have hip1 : 0 < (R + Pi.single dp 1 + Pi.single ip 1 : ℕ → ℤ) ip := by
    rw [Pi.add_apply, hip, Pi.single_eq_same]
    decide
  have hdp1 := lt_of_lt_of_le hpos (le_add_single (R + Pi.single dp 1) ip dp)
  have hpinx := hu.pins hx hkx le_rfl (le_add_single _ ip)
  have hfresh : Fresh i s.disk x.disk := by
    dsimp only at hxdisk
    rw [hxi] at hxdisk
    rw [hxdisk, hvdisk]
    refine ⟨rfl, fun j hj => ?_, ?_⟩
    · rw [Disk.dinode_setDinode, if_neg hj]
    · rw [Disk.dinode_setDinode, if_pos rfl]
      rfl
  -- the record of the new inode is stored
  refine wp_bind.mpr (((hx.ilock hip1 (fun _ => trivial) fun _ => trivial).leaves
    (f := fun s => s.disk) (Leaves.ilock ip)).mono fun _ y hy => ?_)
  obtain ⟨⟨hy, hky, -, -⟩, hydisk⟩ := hy
  have hpiny := hx.pins hy hky le_rfl le_rfl
  have hyi := (hpiny ip hip1).1.trans hxi
  have hlip : Function.update (Function.update (fun _ => false) dp true) ip true ip = true :=
    Function.update_self ..
  refine .seq ((hy.setFields (n := ⟨type, 0, 0, 0, []⟩) hlip
    (by rw [hyi, Function.update_self]) _ ⟨type, major, minor, 1, []⟩ rfl rfl).and
    (hy.setFields_disk hlip _
    (fun _ => ⟨rfl, rfl⟩) ?_)) fun _ z hz => ?_
  · rw [hyi, hydisk, hfresh.addrs]
  obtain ⟨⟨hz, hkz⟩, hzdisk⟩ := hz
  rw [hyi, hydisk] at hzdisk
  rw [hyi, Function.update_idem] at hz
  have hpinz := hpiny.trans (hy.pins hz hkz le_rfl le_rfl)
  have hzd := (hpinz dp hdp1).1.trans (hpinx dp hpos).1
  rw [← hzd] at hw hnd
  refine hnew dp ip i name nd z ⟨hw, hnd, habsent, hfree, hi0, hilt, hz,
    (hpinz ip hip1).1.trans hxi, hne, ?_,
    hfresh.trans hzdisk⟩
  exact hpinu.trans (((hpinx.trans (hpinz.mono (le_add_single _ ip))).mono (le_add_single R dp)))

theorem Settled.createTakesOrFinds (h : Settled base T R cwd s) (path : Bytes) {type : ℤ}
    (h0 : type ≠ 0) (hdir : type ≠ T_DIR) (major minor : ℤ) :
    Wp (fun _ => True) (create cwd path type major minor)
      (TakesOrFinds T s.disk (s.inodes cwd).inum path type) s := by
  have hback : ∀ {m : FsM Unit} {u : FsState}, ¬ Enters T s.disk (s.inodes cwd).inum path →
      Wp (fun _ => True) (do
        m
        return none) (TakesOrFinds T s.disk (s.inodes cwd).inum path type) u :=
    fun hnot => wp_bind.mpr (wp_trivial.mono fun _ _ _ =>
      wp_pure.mpr (.inl ⟨hnot, fun hne => absurd rfl hne⟩))
  refine h.wp_create h0 rfl (fun t hw _ => .inl ⟨?_, fun hne => absurd rfl hne⟩)
    (fun dp name nd ip k t hw hnd hlookup _ _ => ?_) (fun dp t _ hfull _ => hback fun hent => ?_)
    fun dp ip i name nd z hz => ?_
  · rintro ⟨-, dir, off, hent, -⟩
    rw [Tree.entering, hw] at hent
    cases hent
  · -- the name is there
    have hent : T.entering (s.inodes cwd).inum path = none := by
      rw [Tree.entering, hw]
      simp [hnd, hlookup]
    refine wp_bind.mpr (wp_trivial.mono fun _ _ _ => wp_bind.mpr (wp_trivial.mono fun _ _ _ =>
      wp_bind.mpr (wp_inode.mpr ?_)))
    dsimp only
    split
    · rename_i hfile
      exact wp_pure.mpr (.inr ⟨hfile.1, hent⟩)
    refine hback ?_
    rintro ⟨-, dir, off, hent', -⟩
    rw [hent] at hent'
    cases hent'
  · obtain ⟨⟨i, hi, hlt, hfree⟩, -⟩ := hent
    exact hfull i hi hlt hfree
  have hent : T.entering (s.inodes cwd).inum path = some
    ((z.inodes dp).inum, direntSize * nd.slot) := by
    rw [Tree.entering, hz.parent]
    simp [hz.dir, hz.absent]
  -- its name is entered
  unfold Kernel.createLinks
  refine wp_bind.mpr (wp_bind.mpr (wp_inode.mpr ?_))
  dsimp only
  rw [if_neg hdir]
  refine wp_bind.mpr (((hz.view.dirlink hz.held_dir hz.dir_self name _).and
    (hz.view.dirlinkTakes hz.held_dir hz.dir_self hz.absent _)).mono fun r a ha => ?_)
  obtain ⟨⟨-, hka, hview⟩, hdin, htakes⟩ := ha
  rw [hz.fresh.free, hz.fresh.lacking hz.dir_ne, hz.fresh.room hz.dir_ne] at htakes
  rcases htakes with ⟨hr, hroom, hcard⟩ | ⟨hr, hroom⟩
  swap
  · rw [if_pos hr]
    refine wp_pure.mpr ?_
    rw [if_neg Bool.false_ne_true]
    refine wp_bind.mpr (wp_trivial.mono fun _ _ _ => wp_bind.mpr (wp_trivial.mono fun _ _ _ =>
      wp_bind.mpr (wp_trivial.mono fun _ _ _ => hback ?_)))
    rintro ⟨-, dir, off, hent', hroom'⟩
    obtain ⟨rfl, rfl⟩ := Prod.mk.inj (Option.some.inj (hent.symm.trans hent'))
    exact hroom hroom'
  rw [if_neg (not_lt.mpr hr)]
  refine wp_pure.mpr ?_
  rw [if_pos rfl, if_neg hdir]
  obtain ⟨hneg, -⟩ | ⟨-, -, nd', hadds, ha⟩ := hview
  · exact absurd hneg (not_lt.mpr hr)
  -- the directory goes back
  have hpina := hz.view.pins ha hka le_rfl le_rfl
  have had := (hpina dp (hz.view.held dp hz.held_dir).1).1
  have hlast : nd'.nlink = 0 → 0 < R dp := fun hn0 => by
    rw [hadds.fields] at hn0
    exact hz.last h hn0
  rw [add_right_comm, Function.update_comm (Ne.symm hz.ne)] at ha
  have hlink : ∀ m, Function.update (Function.update T i (some ⟨type, major, minor, 1, []⟩))
      (z.inodes dp).inum (some nd') (a.inodes dp).inum = some m → m = nd' := fun m hm => by
    rw [had, Function.update_self] at hm
    exact (Option.some.inj hm).symm
  refine wp_bind.mpr (((ha.giveBackKept (n := nd') ?_ ?_ fun hn0 => ?_).and
    (ha.iunlockputStill (Function.update_self ..) fun m hm hm0 => ?_)).mono
    fun _ b hb => wp_pure.mpr ?_)
  · rw [Function.update_of_ne (Ne.symm hz.ne)]
  · rw [had, Function.update_self]
  · exact lt_of_lt_of_le (hlast hn0) (le_add_single R ip dp)
  · obtain rfl := hlink m hm
    have hR := hlast hm0
    simp only [Pi.add_apply, Pi.single_eq_same, Pi.single_eq_of_ne (Ne.symm hz.ne)]
    omega
  obtain ⟨⟨hpinb, hbview⟩, hbdisk⟩ := hb
  have hbi : (b.inodes ip).inum = i := by
    rw [(hpinb ip (h.view.single_pos ip)).1, (hpina ip (hz.view.held ip hz.held).1).1, hz.inum]
  refine .inl ⟨⟨⟨i, hz.pos, hz.lt, hz.free⟩, ?_, _, _, hent, hroom, ?_⟩, fun _ htree => ?_⟩
  · rw [hbi, hbdisk, hdin i hz.dir_ne.symm, hz.fresh.addrs]
  · rw [hbdisk]
    exact hcard
  · have hfree := hz.free
    rw [← htree, hbview.tree_eq, Function.update_of_ne hz.dir_ne.symm,
      Function.update_self] at hfree
    cases hfree

theorem Settled.createTakes (h : Settled base T R cwd s) (path : Bytes) {type : ℤ} (h0 : type ≠ 0)
    (hdir : type ≠ T_DIR) (hfile : type ≠ T_FILE) (major minor : ℤ) :
    Wp (fun _ => True) (create cwd path type major minor)
      (Takes T s.disk (s.inodes cwd).inum path) s :=
  (h.createTakesOrFinds path h0 hdir major minor).mono fun _ _ ht =>
    (ht.resolve_right fun hx => hfile hx.1).1

end Xv6Sheet.Kernel
