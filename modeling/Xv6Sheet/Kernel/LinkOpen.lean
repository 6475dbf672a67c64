import Xv6Sheet.Kernel.Balance
import Xv6Sheet.Kernel.LinkSpec
import Xv6Sheet.Kernel.OpenSpec
import Xv6Sheet.Kernel.PlainOpen
import Xv6Sheet.Kernel.ReadLink

/-! # Opening through links

A call of `sys_open` with links comes back with the references, the locks and the operations as
they were, but for one reference to the inode that a new descriptor stands for.
-/

namespace Xv6Sheet.Kernel

open Exec

section Hop

variable [sb : Superblock] [pm : Param] {cwd n ip k : ℕ} {omode : ℤ} {path : Bytes} {s : FsState}

/-- The loop over links with `n` turns left reads its `k`-th link `lp` in the state `t` and looks
up the path `buf`. -/
inductive Hop (cwd : ℕ) (omode : ℤ) : ℕ → ℕ → Bytes → FsState → ℕ → ℕ → Bytes → FsState → Prop
  | here {n ip path s r buf t} : isLink (s.inodes ip) omode = true →
      Ends (readi ip path 0 Param.MAXPATH) s (r, buf) t → 0 < r →
      Hop cwd omode (n + 1) ip path s 1 ip buf s
  | later {n ip path s r buf t u next v w k lp buf' s'} : isLink (s.inodes ip) omode = true →
      Ends (readi ip path 0 Param.MAXPATH) s (r, buf) t → 0 < r → Ends (iunlockput ip) t () u →
      Ends (namei cwd buf) u (some next) v → Ends (ilock next) v () w →
      Hop cwd omode n next buf w k lp buf' s' → Hop cwd omode (n + 1) ip path s (k + 1) lp buf' s'

theorem Hop.le {lp : ℕ} {buf : Bytes} {t : FsState} (h : Hop cwd omode n ip path s k lp buf t) :
    k ≤ n := by
  induction h with
  | here _ _ _ => omega
  | later _ _ _ _ _ _ _ ih => omega

theorem Hop.isLink {lp : ℕ} {buf : Bytes} {t : FsState} (h : Hop cwd omode n ip path s k lp buf t) :
    isLink (s.inodes ip) omode = true := by
  cases h with
  | here hlink _ _ => exact hlink
  | later hlink _ _ _ _ _ _ => exact hlink

end Hop

variable {χ : Type} [sb : Superblock] [pm : Param] {base : Set ℕ} {T : Tree} {R : ℕ → ℤ}
  {s t : FsState} {ip cwd : ℕ} {path : Bytes} {omode : ℤ} {E : Fault → Prop} [hE : Permits E]

omit sb in
def home (a : Task FilePtr (Sys χ)) : ℕ := (a.sys.fs.inodes a.proc.cwd).inum

/-- One reference to `ip` and its lock more than `R`, on some tree. -/
def Holding (base : Set ℕ) (R : ℕ → ℤ) (ip : ℕ) (t : FsState) : Prop :=
  ∃ T', View base T' (R + Pi.single ip 1) (Function.update (fun _ => false) ip true) t

/-- The references `R` and no lock, on some tree. -/
def Released (base : Set ℕ) (R : ℕ → ℤ) (t : FsState) : Prop :=
  ∃ T', View base T' R (fun _ => false) t

omit hE in
theorem Holding.release (h : Holding base R ip s) :
    Wp E (iunlockput ip) (fun _ t => Released base R t ∧ t.ops = s.ops) s := by
  obtain ⟨T', hs⟩ := h
  refine ((hs.giveBack (U := fun _ => False) rfl False.elim).leaves
    (Leaves.iunlockput ip)).mono fun _ t ht => ?_
  obtain ⟨⟨-, T'', -, ht⟩, hops⟩ := ht
  exact ⟨⟨T'', ht⟩, hops⟩

namespace View

omit hE in
theorem openPathStrict (h : View base T R (fun _ => false) s) (hcwd : 0 < R cwd)
    (hused : ∀ i, InUse R s i → T i ≠ none)
    (hsafe : Roamable E (InUse R s) T (s.inodes cwd).inum) (hs : Stops E path T R) :
    Wp E (openPath cwd path omode) (fun r t => Pins R s t ∧ match r with
      | none => Released base R t
      | some ip => ∃ T', View base T' (R + Pi.single ip 1)
          (Function.update (fun _ => false) ip true) t ∧
          if hasFlag omode O_CREATE then isLink (t.inodes ip) omode = false
          else Drops (InUse R s) T T' ∧
            ∃ name, T.namex (s.inodes cwd).inum path false = some
            ((t.inodes ip).inum, name)) s := by
  unfold Kernel.openPath
  split
  · refine (h.createStrict (U := InUse R s) hcwd (fun _ _ => id) (fun _ => by simp)
      hsafe.walkable (fun i hi => ⟨hused i hi, hi⟩) (by decide) (fun hd => absurd hd (by decide))
      hs 0 0).mono fun r t hr => ⟨hr.1, ?_⟩
    obtain ⟨hpin, hr⟩ := hr
    rcases r with - | ip
    · obtain ⟨T', -, ht⟩ := hr
      exact ⟨T', ht⟩
    obtain ⟨-, d, name, T₁, T₂, T', -, -, hd, ht, hkind⟩ := hr
    refine ⟨T', ht, ?_⟩
    -- `create` answers no link
    have hl : Function.update (fun _ => false) ip true ip = true := Function.update_self ..
    have htype : (t.inodes ip).type ≠ T_SYMLINK := by
      rcases hkind with ⟨-, -, nd, k, m, -, -, -, hm, hmt⟩ | ⟨nd, nd', n, hmade, htype, -, -⟩
      · rw [(ht.size_eq hl hm).1]
        rcases hmt with hmt | hmt <;> rw [hmt] <;> decide
      · have hne : (t.inodes ip).inum ≠ d := by
          rintro he
          have hfree := hmade.free
          rw [he, hmade.parent] at hfree
          cases hfree
        have hn : T₂ (t.inodes ip).inum = some n := by
          rw [hmade.tree, Function.update_of_ne hne, Function.update_self]
        have hn' := hd.keep _ n hn (.inl (by rw [hmade.nlink]; decide))
        rw [(ht.size_eq hl hn').1, htype]
        decide
    exact isLink_of_type htype
  · refine wp_bind.mpr ((h.nameiStrict (.refl (InUse R s) T) hcwd rfl (fun _ _ => id)
      (fun _ => by simp) hsafe hs).mono fun r t hr => ?_)
    obtain ⟨hpin, -, T', hd, hr⟩ := hr
    rcases r with - | ip
    · exact wp_pure.mpr ⟨hpin, T', hr.2⟩
    obtain ⟨name, hw, ht, hnone⟩ := hr
    have hpos := h.single_pos ip
    refine wp_bind.mpr ((ht.ilock hpos (fun hn => hnone.resolve_right fun hne => hne hn)
      (by simp)).mono fun _ u hu => wp_pure.mpr ?_)
    obtain ⟨hu, hk, -, -⟩ := hu
    have hpin' := ht.pins hu hk le_rfl le_rfl
    refine ⟨hpin.trans (hpin'.mono (le_add_single R ip)), T', hu, ?_⟩
    rw [(hpin' ip hpos).1]
    exact ⟨hd, name, hw⟩

theorem openPath (h : View base T R (fun _ => false) s) (hcwd : 0 < R cwd)
    (hused : ∀ i, InUse R s i → T i ≠ none)
    (hsafe : Roamable E (InUse R s) T (s.inodes cwd).inum) :
    Wp E (Kernel.openPath cwd path omode) (fun r t => Pins R s t ∧ match r with
      | none => Released base R t
      | some ip => ∃ T', View base T' (R + Pi.single ip 1)
          (Function.update (fun _ => false) ip true) t ∧
          if hasFlag omode O_CREATE then isLink (t.inodes ip) omode = false
          else Drops (InUse R s) T T' ∧
            ∃ name, T.namex (s.inodes cwd).inum path false = some ((t.inodes ip).inum, name)) s :=
  h.openPathStrict hcwd hused hsafe (.of_permits path T R)

omit hE in
theorem lead (h : View base T R (fun _ => false) s) (hcwd : 0 < R cwd)
    (hused : ∀ i, InUse R s i → T i ≠ none)
    (hsafe : Roamable E (InUse R s) T (s.inodes cwd).inum) (hpass : Passable E T R)
    (hpath : ∃ l, Spells path l ∧ l.length < Param.MAXPATH)
    (hends : E .overread ∨ ∀ i name, hasFlag omode O_CREATE = false →
      T.namex (s.inodes cwd).inum path false = some (i, name) →
      T.Bounded (T.hops (s.inodes cwd).inum omode maxDepth i path))
    (hmax : Param.MAXPATH ≤ BSIZE) :
    Wp E (Kernel.openPath cwd path omode) (fun r t => t.ops = s.ops ∧ match r with
      | none => Released base R t
      | some ip => Wp E (Kernel.followLinks cwd omode maxDepth ip path) (fun r u =>
          u.ops = s.ops ∧ match r with
            | none => Released base R u
            | some (k, _) => Holding base R k u ∧ isLink (u.inodes k) omode = false) t) s := by
  refine ((h.openPathStrict hcwd hused hsafe (hpass.stops (.inr hpath))).leaves
    (Leaves.openPath cwd path omode)).mono fun r t hr => ⟨hr.2, ?_⟩
  obtain ⟨⟨hpin, hr⟩, hops⟩ := hr
  rcases r with - | ip
  · exact hr
  obtain ⟨T', ht, hled⟩ := hr
  dsimp only
  split at hled
  · exact .of_ends (followLinks_of_not_link hled) ⟨hops, ⟨T', ht⟩, hled⟩
  · rename_i hcreate
    obtain ⟨hd, name, hw⟩ := hled
    refine ((ht.followLinks (m := maxDepth) rfl hd hcwd (hpin cwd hcwd).1
      (Tree.within_namex hw) (fun i _ hi => hpin.inUse hi) (by simp) hsafe hpass
      (hends.imp_right fun hb => hb _ name (by simpa using hcreate) hw) hmax).leaves
      (Leaves.followLinks cwd omode maxDepth ip path)).mono fun r u hu => ⟨hu.2.trans hops, ?_⟩
    obtain ⟨⟨-, T'', -, hu⟩, -⟩ := hu
    rcases r with - | ⟨k, m⟩
    · exact ⟨T'', hu⟩
    · exact ⟨⟨T'', hu.2.2.2.2⟩, hu.2.2.1⟩

end View

omit sb hE in
/-- The references have grown by `more`, no lock is held, and the operations are balanced. -/
structure Evened (more : ℕ → ℤ) (s t : FsState) : Prop where
  ref : ∀ k, (t.inodes k).ref = (s.inodes k).ref + more k
  unlocked : ∀ k, (t.inodes k).locked = false
  ops : t.ops = s.ops

omit hE in
theorem View.evened (h : View base T R (fun _ => false) s) {more : ℕ → ℤ}
    (ht : Released base (R + more) t) (hops : t.ops = s.ops) : Evened more s t := by
  obtain ⟨T', ht⟩ := ht
  refine ⟨fun k => ?_, ht.lock_eq, hops⟩
  rw [ht.ref_eq, h.ref_eq]
  rfl

/-- What a call of `sys_open` leaves: the process and the files as they were when it fails, and
otherwise a descriptor for a new file, with the one reference more that is the file's. -/
def LeavesOpen (a : Task FilePtr (Sys χ)) (omode r : ℤ) (b : Task FilePtr (Sys χ)) : Prop :=
  (r = -1 ∧ b.proc = a.proc ∧ b.sys.ftable = a.sys.ftable ∧ Evened 0 a.sys.fs b.sys.fs) ∨
    ∃ (fd : Fin Param.NOFILE) (f : FilePtr) (x : File), r = fd ∧ a.proc.ofile fd = none ∧
      b.proc = a.proc.setFile fd (some f) ∧ (a.sys.ftable f).ref = 0 ∧ x.ref = 1 ∧
      b.sys.ftable = Function.update a.sys.ftable f x ∧
      isLink (b.sys.fs.inodes x.ip) omode = false ∧
      Evened (Pi.single x.ip 1) a.sys.fs b.sys.fs

/-- A task in the middle of an operation that holds the inode `ip` and has changed nothing else. -/
structure Midway (base : Set ℕ) (R : ℕ → ℤ) (ip : ℕ) (a b : Task FilePtr (Sys χ)) : Prop where
  proc : b.proc = a.proc
  ftable : b.sys.ftable = a.sys.ftable
  ops : b.sys.fs.ops = a.sys.fs.ops + 1
  holding : Holding base R ip b.sys.fs

variable {L : FileLayer χ} {a b : Task FilePtr (Sys χ)}

omit hE in
theorem Midway.giveUp (h : Midway base R ip a b) (ha : View base T R (fun _ => false) a.sys.fs) :
    Wp E (giveUp ip) (LeavesOpen a omode) b := by
  refine wp_bind.mpr (wp_onFs.mpr (h.holding.release.mono fun _ t ht => ?_))
  obtain ⟨⟨T', ht⟩, hops⟩ := ht
  refine wp_bind.mpr (wp_onFs.mpr (wp_modify.mpr (wp_pure.mpr (.inl ⟨rfl, h.proc, h.ftable, ?_⟩))))
  refine ha.evened ⟨T', ?_⟩ ?_
  · rw [add_zero]
    exact ht.ops _
  · show t.ops - 1 = _
    rw [hops, h.ops]
    omega

omit hE in
theorem Holding.finish (h : Holding base R ip s) (trunc : Prop) [Decidable trunc] : Wp E (do
      (if trunc then itrunc ip else return ())
      iunlock ip) (fun _ t => t.ops = s.ops ∧ Released base (R + Pi.single ip 1) t ∧
        (t.inodes ip).type = (s.inodes ip).type) s := by
  obtain ⟨T', hs⟩ := h
  have hl : Function.update (fun _ => false) ip true ip = true := Function.update_self ..
  obtain ⟨n, hn, htype, -⟩ := hs.node (hs.held ip hl).1 (hs.held ip hl).2
  have htrunc : Wp E (if trunc then itrunc ip else return ()) (fun _ t => t.ops = s.ops ∧
      ∃ T' n', n'.type = n.type ∧ T' (t.inodes ip).inum = some n' ∧
        View base T' (R + Pi.single ip 1) (Function.update (fun _ => false) ip true) t) s := by
    split
    · refine ((hs.itrunc hl hn).leaves (Leaves.onInode ip _)).mono fun _ t ht => ?_
      obtain ⟨⟨ht, hk⟩, hops⟩ := ht
      refine ⟨hops, _, { n with data := [] }, rfl, ?_, ht⟩
      rw [((hs.pins ht hk le_rfl le_rfl) ip (hs.held ip hl).1).1, Function.update_self]
    · exact wp_pure.mpr ⟨rfl, T', n, rfl, hn, hs⟩
  refine wp_bind.mpr (htrunc.mono fun _ t ht => ?_)
  obtain ⟨hops, T₁, m, hm, hmn, ht⟩ := ht
  refine ((ht.iunlock hl).leaves (Leaves.iunlock (f := FsState.ops) ip)).mono fun _ u hu => ?_
  obtain ⟨⟨hu, hk⟩, hops'⟩ := hu
  have hpos := (ht.held ip hl).1
  have hpin := ht.pins hu hk le_rfl le_rfl ip hpos
  have hnone : Function.update (Function.update (fun _ => false) ip true) ip false =
      fun _ => false := by
    rw [Function.update_idem]
    exact Function.update_eq_self ip _
  obtain ⟨m', hm', htype', -⟩ := hu.node hpos (hpin.2 (ht.held ip hl).2)
  rw [hpin.1] at hm'
  obtain rfl := Option.some.inj (hmn.symm.trans hm')
  rw [hnone] at hu
  exact ⟨hops'.trans hops, ⟨T₁, hu⟩, by rw [htype', hm, htype]⟩

omit sb hE in
theorem Midway.unopened [Superblock] {c : Task FilePtr (Sys χ)} (h : Midway base R ip a b)
    (hc : Unopened b c) (hb : FilesClosed b.sys) : Midway base R ip a c where
  proc := hc.proc.trans h.proc
  ftable := (hc.ftable hb).trans h.ftable
  ops := by
    rw [hc.fs hb]
    exact h.ops
  holding := by
    rw [hc.fs hb]
    exact h.holding

omit hE in
theorem Midway.openInode (hL : TableLaws L) (h : Midway base R ip a b)
    (ha : View base T R (fun _ => false) a.sys.fs)
    (hclosed : FilesClosed a.sys) (hlink : isLink (b.sys.fs.inodes ip) omode = false) :
    Wp E (openInode L ip omode) (LeavesOpen a omode) b := by
  have hclosed' : FilesClosed b.sys := by
    unfold FilesClosed
    rw [h.ftable]
    exact hclosed
  refine wp_openInode hL.toOpenLaws (fun e he => absurd he (openFile_returns hL hclosed'))
    (fun c hc _ => ?_) fun f k c _ hc => ?_
  · exact (h.unopened hc hclosed').giveUp ha
  have htrunc : ∀ (trunc : Prop) [Decidable trunc], (if trunc then onFs (itrunc ip) else return () :
      TaskM χ Unit) = onFs (if trunc then itrunc ip else return ()) := by
    intro trunc _
    split
    · rfl
    · exact (onFs_pure ()).symm
  rw [htrunc, ← hc.fs]
  have hholding := h.holding
  rw [← hc.fs] at hholding
  have hfinish := hholding.finish (E := E)
    (hasFlag omode O_TRUNC ∧ (c.sys.fs.inodes ip).type = T_FILE)
  refine wp_bind.mpr (wp_onFs.mpr ((wp_bind.mp hfinish).mono fun _ t ht => ?_))
  refine wp_bind.mpr (wp_onFs.mpr (ht.mono
    fun _ u hu => wp_bind.mpr (wp_onFs.mpr (wp_modify.mpr ?_))))
  obtain ⟨hops, ⟨T', hu⟩, htype⟩ := hu
  refine wp_pure.mpr (.inr ⟨k, f, (b.sys.ftable f).onInode ip (b.sys.fs.inodes ip) omode, rfl, ?_,
    ?_, ?_, rfl, ?_, ?_, ha.evened ⟨T', hu.ops _⟩ ?_⟩)
  · rw [← h.proc, hc.fd]
  · rw [← h.proc, ← hc.proc]
  · rw [← h.ftable, hc.ref]
  · rw [← h.ftable, ← hc.ftable]
  · unfold isLink at hlink ⊢
    rwa [← hc.fs, ← htype] at hlink
  · show u.ops - 1 = _
    rw [hops, hc.fs, h.ops]
    omega

omit hE in
/-- A call of `sys_open` with links opens one inode, holds nothing when it fails, and does not wait
for a lock of its own. -/
theorem wp_symlinkOpen (hL : TableLaws L) (h : View base T R (fun _ => false) a.sys.fs)
    (hcwd : 0 < R a.proc.cwd)
    (hused : ∀ i, InUse R a.sys.fs i → T i ≠ none) (hclosed : FilesClosed a.sys)
    (hmax : Param.MAXPATH ≤ BSIZE)
    (hsafe : Roamable E (InUse R a.sys.fs) T (home a)) (hpass : Passable E T R) (path : StrArg)
    (omode : ℤ) (hends : E .overread ∨ T.Bounded (T.hopsOn (home a) omode path)) :
    Wp E (symlinkOpen L path omode) (LeavesOpen a omode) a := by
  refine wp_bind.mpr (wp_get.mpr ?_)
  dsimp only
  have hrest : ∀ {u : FsState}, Released base R u → u.ops = a.sys.fs.ops + 1 →
      Wp E (do
        onFs endOp
        return (-1 : ℤ)) (LeavesOpen a omode) (⟨a.proc, { a.sys with fs := u }⟩ :
          Task FilePtr (Sys χ)) := by
    intro u hu hops
    obtain ⟨T', hu⟩ := hu
    refine wp_bind.mpr (wp_onFs.mpr (wp_modify.mpr (wp_pure.mpr (.inl ⟨rfl, rfl, rfl, ?_⟩))))
    refine h.evened ⟨T', ?_⟩ ?_
    · rw [add_zero]
      exact hu.ops _
    · show u.ops - 1 = _
      rw [hops]
      omega
  split
  · exact wp_pure.mpr (.inl ⟨rfl, rfl, rfl, h.evened ⟨T, by rwa [add_zero]⟩ rfl⟩)
  rename_i p hp
  refine wp_bind.mpr (wp_onFs.mpr (wp_modify.mpr (wp_bind.mpr (wp_onFs.mpr ?_))))
  refine ((h.ops (a.sys.fs.ops + 1)).lead hcwd hused hsafe hpass (spells_argstr hp)
    (hends.imp_right fun hb i name hcreate hw => ?_) hmax).mono fun r t ht => ?_
  · have hw' : T.namex (home a) p false = some (i, name) := hw
    rw [Tree.hopsOn, hp] at hb
    dsimp only at hb
    rwa [hcreate, if_neg Bool.false_ne_true, hw'] at hb
  obtain ⟨hops, ht⟩ := ht
  rcases r with - | ip
  · exact hrest ht hops
  refine wp_bind.mpr (wp_onFs.mpr (ht.mono fun r u hu => ?_))
  obtain ⟨hops, hu⟩ := hu
  rcases r with - | ⟨k, m⟩
  · exact hrest hu hops
  obtain ⟨hu, hlink⟩ := hu
  have hmid : Midway base R k a (⟨a.proc, { a.sys with fs := u }⟩ : Task FilePtr (Sys χ)) :=
    ⟨rfl, rfl, hops, hu⟩
  refine wp_bind.mpr (wp_onFs.mpr (wp_inode.mpr ?_))
  rw [if_neg Bool.false_ne_true]
  split
  · exact hmid.giveUp h
  · exact hmid.openInode hL h hclosed hlink

/-- What may stop a call of `sys_open` with links: a table with less than two free entries, an entry
that is cut off, one that names a node without links, and a path read at a link that does not
end. -/
def OpenFault (T : Tree) (R : ℕ → ℤ) (omode : ℤ) (path : StrArg) (a : Task FilePtr (Sys χ))
    (e : Fault) : Prop :=
  e = .panic "iget: no inodes" ∧ ¬ Spare R ∨ e = .panic "dirlookup read" ∧ ¬ T.Whole ∨
    e = noType ∧ ¬ (T.Tidy ∧ T.Lasting (InUse R a.sys.fs) ROOTINO) ∨
    e = .overread ∧ ¬ T.Bounded (T.hopsOn (home a) omode path)

omit sb hE in
theorem passable_openFault (T : Tree) (R : ℕ → ℤ) (omode : ℤ) (path : StrArg)
    (a : Task FilePtr (Sys χ)) : Passable (OpenFault T R omode path a) T R where
  full := by
    by_cases hs : Spare R
    · exact .inr hs
    · exact .inl (.inl ⟨rfl, hs⟩)
  cut := by
    by_cases hw : T.Whole
    · exact .inr hw
    · exact .inl (.inr (.inl ⟨rfl, hw⟩))

/-- A call of `sys_open` with links follows at most ten of them and then opens one inode, with one
reference more, or fails with everything counted as before. It never waits for a lock, and nothing
else stops it than what `OpenFault` names. -/
theorem symlinkOpen_balanced (hL : TableLaws L) (h : View base T R (fun _ => false) a.sys.fs)
    (hcwd : 0 < R a.proc.cwd) (hused : ∀ i, InUse R a.sys.fs i → T i ≠ none)
    (hclosed : FilesClosed a.sys) (hmax : Param.MAXPATH ≤ BSIZE) (path : StrArg) (omode : ℤ) :
    (∀ r b, Ends (symlinkOpen L path omode) a r b → LeavesOpen a omode r b) ∧
    (∀ e, Faults (symlinkOpen L path omode) a e → OpenFault T R omode path a e) ∧
    ((∀ e, ¬ OpenFault T R omode path a e) → ∃ r b, Ends (symlinkOpen L path omode) a r b) ∧
    ∀ p found u k lp buf t, argstr path Param.MAXPATH = some p →
      Ends (openPath a.proc.cwd p omode) { a.sys.fs with ops := a.sys.fs.ops + 1 } (some found) u →
      Hop a.proc.cwd omode maxDepth found p u k lp buf t → k ≤ 10 := by
  have hwp := wp_symlinkOpen (E := OpenFault T R omode path a) hL h hcwd hused hclosed hmax ?_
    (passable_openFault T R omode path a) path omode ?_
  · refine ⟨hwp.1, hwp.2, fun hnone => ?_, fun _ _ _ _ _ _ _ _ _ hop => hop.le⟩
    obtain hends | ⟨e, he⟩ := ends_or_faults (symlinkOpen L path omode) a
    · exact hends
    · exact absurd (hwp.2 e he) (hnone e)
  · by_cases htidy : T.Tidy ∧ T.Lasting (InUse R a.sys.fs) ROOTINO
    · have hin : InUse R a.sys.fs (home a) := ⟨_, hcwd, rfl⟩
      obtain ⟨n, hn⟩ := Option.ne_none_iff_exists'.mp (hused _ hin)
      exact .inr ⟨htidy.1, htidy.2, n, hn, .inr hin⟩
    · exact .inl (.inr (.inr (.inl ⟨rfl, htidy⟩)))
  · by_cases hb : T.Bounded (T.hopsOn (home a) omode path)
    · exact .inr hb
    · exact .inl (.inr (.inr (.inr ⟨rfl, hb⟩)))

section Small

omit pm sb

/-- The sizes that `mkfs` gives the disk. -/
@[reducible] def mkfsDisk : Superblock where
  size := 2000
  ninodes := 200
  inodestart := 32
  bmapstart := 45
  size_lt := by decide
  ninodes_lt := by decide

/-- A root directory with `nlink` links and the bytes of block 46, where all other inodes are empty
files but the inode 51. -/
def namingDisk (nlink : ℤ) (size : ℕ) (blocks : ℕ → List UInt8) (dip : Dinode) : Disk where
  block b := Bytes.ofList (blocks b)
  dinodes b k :=
    if b = 32 ∧ k = 1 then
      { Dinode.zero with
        type := 1, nlink := nlink, size := size, addrs := fun j => if j = 0 then 46 else 0 }
    else if b = 35 ∧ k = 3 then dip
    else { Dinode.zero with type := 2, nlink := 1 }

/-- The root directory has a directory `d` with a file `f`. -/
def nestedDisk : Disk :=
  namingDisk 1 16 (fun b => if b = 46 then [51, 0, 100] else if b = 47 then [52, 0, 102] else [])
    { Dinode.zero with
      type := 1, nlink := 1, size := 16, addrs := fun j => if j = 0 then 47 else 0 }

/-- The root directory has a byte behind its entry `a`. -/
def raggedDisk : Disk :=
  namingDisk 1 17 (fun b => if b = 46 then [51, 0, 97] else [])
    { Dinode.zero with type := 2, nlink := 1 }

/-- The root directory has an entry `a` for a link to `/a`. The two count these links. -/
def loopDisk (root link : ℤ) : Disk :=
  namingDisk root 16 (fun b => if b = 46 then [51, 0, 97] else if b = 47 then [47, 97] else
      if b = 45 then [255, 255, 255, 255, 255, 255] else [])
    { Dinode.zero with
      type := 4, nlink := link, size := 2, addrs := fun j => if j = 0 then 47 else 0 }

/-- A process that is in the directory `cwd` of the inode table, where the entries `held` are in
use. -/
def holdingTask (cwd : ℕ) (held : ℕ → Bool) (disk : Disk) :
    @Task (@FilePtr smallParam) (@Sys Unit smallParam) smallParam :=
  let _ := smallParam
  { proc := { smallMachine.procs 0 with cwd := cwd }
    sys :=
      { fs :=
          { inodes := fun ip => { Dinode.zero with
              dev := 1, inum := ip + 1, ref := if held ip then 1 else 0, valid := false,
              locked := false }
            disk := disk
            ops := 0 }
        ftable := smallMachine.sys.ftable
        rest := () } }

/-- Where every entry names an inode, the call still does not return with one free entry in the
table, with an entry cut off, with a link or a root directory that goes away on the walk, or with
a path that does not end behind a link's target. -/
theorem symlinkOpen_stopped :
    letI := mkfsDisk
    letI := smallParam
    (∀ disk ∈ [nestedDisk, raggedDisk, loopDisk 1 0, loopDisk 0 1, loopDisk 1 1],
      ∀ i, (disk.dinode i).type ≠ 0) ∧
      Faults (symlinkOpen (fileTable (χ := Unit)) (pathArg [100, 47, 102]) 0)
        (holdingTask 0 (· < 49) nestedDisk) (.panic "iget: no inodes") ∧
      Faults (symlinkOpen (fileTable (χ := Unit)) (pathArg [120]) 0)
        (holdingTask 0 (· = 0) raggedDisk) (.panic "dirlookup read") ∧
      Faults (symlinkOpen (fileTable (χ := Unit)) (pathArg [97]) 0)
        (holdingTask 0 (· = 0) (loopDisk 1 0)) noType ∧
      Faults (symlinkOpen (fileTable (χ := Unit)) (pathArg [47, 97]) 0)
        (holdingTask 1 (· = 1) (loopDisk 0 1)) noType ∧
      Faults (symlinkOpen (fileTable (χ := Unit)) { pathArg [97] with buf := fun _ => 120 } 0)
        (holdingTask 0 (· = 0) (loopDisk 1 1)) .overread := by
  let _ := mkfsDisk
  let _ := smallParam
  have htype : ∀ nlink size blocks dip, dip.type ≠ 0 →
      ∀ i, ((namingDisk nlink size blocks dip).dinode i).type ≠ 0 := by
    intro nlink size blocks dip hdip i
    show (if _ then _ else if _ then _ else _ : Dinode).type ≠ 0
    split
    · exact one_ne_zero
    · split
      · exact hdip
      · exact two_ne_zero
  refine ⟨fun disk hdisk => ?_, faults_of_fault (by decide +kernel),
    faults_of_fault (by decide +kernel), faults_of_fault (by decide +kernel),
    faults_of_fault (by decide +kernel), faults_of_fault (by decide +kernel)⟩
  simp only [List.mem_cons, List.not_mem_nil, or_false] at hdisk
  rcases hdisk with rfl | rfl | rfl | rfl | rfl <;> exact htype _ _ _ _ (by decide)

/-- The link `/l` is followed to the root directory. -/
theorem symlinkOpen_balanced_small :
    letI := smallDisk
    letI := smallParam
    let a := rootLink.task
    ((tree a.sys.fs.disk).hopsOn (home a) 0 (pathArg [47, 108])).map (·.1) = [2] ∧
      ∃ b, Ends (symlinkOpen fileTable (pathArg [47, 108]) 0) a 0 b ∧ LeavesOpen a 0 0 b := by
  let _ := smallDisk
  let _ := smallParam
  have h := ends_answer (m := symlinkOpen fileTable (pathArg [47, 108]) 0) (s := rootLink.task)
    (a := 0) (by decide +kernel)
  obtain ⟨T, -, hset⟩ := rootLink.settled
  refine ⟨by decide +kernel, _, h, ?_⟩
  exact (symlinkOpen_balanced fileTable_tableLaws hset.view hset.cwd_pos hset.used (fun _ _ => rfl)
    (by decide) (pathArg [47, 108]) 0).1 _ _ h

end Small

end Xv6Sheet.Kernel
