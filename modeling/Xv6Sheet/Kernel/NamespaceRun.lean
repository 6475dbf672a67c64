import Xv6Sheet.Kernel.NamespaceTask

/-! # Runs on a proper tree

Processes open, link, make and remove files one after the other. In every state they reach the link
counts are exact, the directories hang from the root, the references to inodes are those of the
processes and their files, and no call comes to a free inode or waits for a lock of its own.
-/

namespace Xv6Sheet.Kernel

open Exec

variable {χ : Type} [sb : Superblock] [pm : Param]

/-- The calls of a process on names and descriptors, with the arguments as machine words. -/
inductive TreeCall
  | open' (path : StrArg) (omode : Int32)
  | symlinkOpen (path : StrArg) (omode : Int32)
  | securityOpen (path : StrArg) (omode : Int32)
  | close (fd : Int32)
  | dup (fd : Int32)
  | chdir (path : StrArg)
  | symlink (target path : StrArg)
  | readlink (path : StrArg) (ubuf : Bytes) (bufsize : Int32)
  | entry (c : EntryCall)

def treeCall (L : FileLayer χ) (c : TreeCall) : TaskM χ ℤ := do
  let cwd := (← get).proc.cwd
  match c with
  | .open' path omode => sysOpen L path omode.toInt
  | .symlinkOpen path omode => symlinkOpen L path omode.toInt
  | .securityOpen path omode => securityOpen L path omode.toInt
  | .close fd => sysClose L fd.toInt
  | .dup fd => sysDup L fd.toInt
  | .chdir path => sysChdir path
  | .symlink target path => onFs (sysSymlink cwd target path)
  | .readlink path ubuf bufsize => onFs (do
      let (n, _) ← sysReadlink cwd path ubuf bufsize
      return n)
  | .entry c => onFs (c.run cwd)

omit sb in
theorem wp_runAs {α : Type} {E : Fault → Prop} {i : Fin Param.NPROC} {m : TaskM χ α}
    {Q : α → Machine χ → Prop} {s : Machine χ} : Wp E (runAs i m) Q s ↔
      Wp E m (fun r b => Q r ⟨Function.update s.procs i b.proc, b.sys⟩)
      ⟨s.procs i, s.sys⟩ := wp_zoom

def treeStep (L : FileLayer χ) (c : Fin Param.NPROC × TreeCall) : Exec (Machine χ) Fault ℤ :=
  runAs c.1 (treeCall L c.2)

/-- What a call does to the tree in the directory `c`, by its answer. -/
def TreeCall.Does (T : Tree) (c : ℕ) (r : ℤ) (T' : Tree) : TreeCall → Prop
  | .open' path omode => T.Opened c path omode.toInt r T'
  | .symlinkOpen path omode => T.Opened c path omode.toInt r T'
  | .securityOpen path omode => T.Opened c path omode.toInt r T'
  | .close _ => T.Released T'
  | .dup _ => T' = T
  | .chdir _ => T.Released T'
  | .symlink target path => T.Symlinked c target path r T'
  | .readlink .. => T' = T
  | .entry e => e.Does T c r T'

def Machine.dir (s : Machine χ) (i : Fin Param.NPROC) : ℕ := (s.sys.fs.inodes (s.procs i).cwd).inum

def Machine.InUse (s : Machine χ) (i : ℕ) : Prop :=
  ∃ ip, 0 < (s.sys.fs.inodes ip).ref ∧ (s.sys.fs.inodes ip).inum = i

/-- When a call may be made: every link count has room for one more, and a directory is not removed
while it is in use. -/
structure Allowed (s : Machine χ) (c : Fin Param.NPROC × TreeCall) : Prop where
  roomy : (tree s.sys.fs.disk).Roomy
  idle : ∀ path, c.2 = .entry (.unlink path) → (tree s.sys.fs.disk).Idle s.InUse (s.dir c.1) path

/-- A machine right after the boot from a disk with a proper tree, where every node has a name: no
file is open, and the processes hold the only references. -/
structure Mounted (s : Machine χ) : Prop where
  view : ∃ base, View base (tree s.sys.fs.disk) (fun ip => cwds s.procs ip)
    (fun _ => false) s.sys.fs
  proper : (tree s.sys.fs.disk).Proper
  linked : ∀ i n, tree s.sys.fs.disk i = some n → n.nlink ≠ 0
  dir : ∀ i, tree s.sys.fs.disk (s.dir i) ≠ none
  files : ∀ f, (s.sys.ftable f).type = .none

def Standing (s : Machine χ) : Prop :=
  ∃ base T, Orderly base T ((fun ip => (cwds s.procs ip : ℤ)) + fileHolds s.sys.ftable) s.sys.fs ∧
    FilesClosed s.sys

variable {L : FileLayer χ} {s t : Machine χ} {c : Fin Param.NPROC × TreeCall} {r : ℤ}

theorem Mounted.standing (h : Mounted s) : Standing s := by
  obtain ⟨base, hview⟩ := h.view
  have hfiles : fileHolds s.sys.ftable = 0 :=
    Finset.sum_eq_zero fun f _ => File.hold_none (h.files f)
  refine ⟨base, tree s.sys.fs.disk, ?_, fun f _ => h.files f⟩
  rw [hfiles, add_zero]
  refine ⟨hview, h.proper, ?_, fun i n hi h0 => absurd h0 (h.linked i n hi)⟩
  rintro i ⟨ip, hip, rfl⟩
  by_cases hnone : ∃ p, (s.procs p).cwd = ip
  · obtain ⟨p, rfl⟩ := hnone
    exact h.dir p
  · push Not at hnone
    have hzero : cwds s.procs ip = 0 := count_eq_zero.mpr hnone
    simp [hzero] at hip

omit sb in
theorem cwds_update_int (procs : Fin Param.NPROC → Proc FilePtr) (i : Fin Param.NPROC)
    (p : Proc FilePtr) : (fun ip => (cwds (Function.update procs i p) ip : ℤ)) + Pi.single
    (procs i).cwd 1 =
      (fun ip => (cwds procs ip : ℤ)) + Pi.single p.cwd 1 := by
  funext ip
  have hc := congrFun (cwds_update procs i p) ip
  simp only [Pi.add_apply, Pi.single_apply] at hc ⊢
  split at hc <;> split at hc <;> simp_all
  omega

theorem Standing.orderly (h : Standing s) : ∃ base, Orderly base (tree s.sys.fs.disk)
    ((fun ip => (cwds s.procs ip : ℤ)) + fileHolds s.sys.ftable) s.sys.fs := by
  obtain ⟨base, T, h, -⟩ := h
  exact ⟨base, h.view.tree_eq ▸ h⟩

/-- A call of a process leaves a proper tree and the references of the processes and their files,
and does to the tree what its answer tells. -/
theorem Standing.treeStep {E : Fault → Prop} [Permits E] (hL : CloseLaws L) (h : Standing s)
    (hN : sb.ninodes ≤ 2 ^ 16)
    (hmax : Param.MAXPATH ≤ BSIZE) (hg : Allowed s c) :
    Wp E (treeStep L c) (fun r t => Standing t ∧
      c.2.Does (tree s.sys.fs.disk) (s.dir c.1) r (tree t.sys.fs.disk)) s := by
  obtain ⟨base, T, horderly, hclosed⟩ := h
  obtain rfl := horderly.view.tree_eq
  obtain ⟨H, hH⟩ : ∃ H : ℕ → ℤ, H = fun ip => (cwds s.procs ip : ℤ) := ⟨_, rfl⟩
  obtain ⟨a, ha⟩ : ∃ a : Task FilePtr (Sys χ), a = ⟨s.procs c.1, s.sys⟩ := ⟨_, rfl⟩
  have hproc : a.proc = s.procs c.1 := by rw [ha]
  have hdir : (a.sys.fs.inodes a.proc.cwd).inum = s.dir c.1 := by rw [ha]; rfl
  have htended : Tended base (tree s.sys.fs.disk) H a := by
    subst ha
    exact ⟨hH ▸ horderly, hclosed⟩
  have hnonneg : ∀ k, 0 ≤ H k := fun k => by
    rw [hH]
    exact Int.natCast_nonneg _
  have hcwd : 0 < H a.proc.cwd := by
    rw [hH, hproc]
    exact Int.natCast_pos.mpr (cwds_pos s.procs c.1)
  have hroom := hg.roomy
  have hfs : Wp E (treeCall L c.2) (fun r b =>
    ∃ T' K, c.2.Does (tree s.sys.fs.disk) (s.dir c.1) r T' ∧
      Tended base T' K b ∧ K + Pi.single a.proc.cwd 1 = H + Pi.single b.proc.cwd 1) a := by
    have hstay : ∀ {P : ℤ → Tree → Prop} {m : TaskM χ ℤ}, Wp E m (Stays base H a.proc.cwd P) a →
        Wp E m (fun r b => ∃ T' K, P r T' ∧ Tended base T' K b ∧
          K + Pi.single a.proc.cwd 1 = H + Pi.single b.proc.cwd 1) a := fun hm =>
      hm.mono fun _ b ⟨hc, T', hP, hb⟩ => ⟨T', H, hP, hb, by rw [hc]⟩
    refine wp_bind.mpr (wp_get.mpr ?_)
    rw [← hdir]
    cases hcall : c.2 with
    | open' path omode => exact hstay (htended.sysOpen hcwd hL.toTableLaws hN hroom path _)
    | symlinkOpen path omode =>
      exact hstay (htended.openFollowing hcwd hL.toTableLaws hN hmax hroom _ path _)
    | securityOpen path omode =>
      exact hstay (htended.openFollowing hcwd hL.toTableLaws hN hmax hroom _ path _)
    | close fd => exact hstay (htended.sysClose hL hnonneg _)
    | dup fd => exact hstay (htended.sysDup hL _)
    | chdir path => exact htended.sysChdir hcwd path
    | symlink target path =>
      exact hstay (htended.onFs (htended.sysSymlink hcwd hN hmax hroom target path))
    | readlink path ubuf bufsize =>
      exact hstay (htended.onFs (wp_bind.mpr ((htended.sysReadlink hcwd path ubuf bufsize).mono
        fun _ _ hu => wp_pure.mpr ⟨_, rfl, hu⟩)))
    | entry e =>
      refine hstay (htended.onFs ((htended.orderly.entryCall (cwd_pos hcwd) hN hroom e ?_).mono
        fun _ _ hu => hu.2.imp fun _ h => ⟨h.2, h.1⟩))
      rintro path rfl
      have hidle := hg.idle path hcall
      subst ha
      intro d name nd k i n hplace hd hlook hi hdir hin
      obtain ⟨ip, hip, hinum⟩ := hin
      refine hidle d name nd k i n hplace hd hlook hi hdir ⟨ip, ?_, hinum⟩
      rwa [htended.orderly.view.ref_eq]
  subst ha
  refine wp_runAs.mpr (hfs.mono fun r b hb => ?_)
  obtain ⟨T', K, hdoes, hb, hadd⟩ := hb
  refine ⟨⟨base, T', ?_, hb.closed⟩, ?_⟩
  · have hcwds := cwds_update_int s.procs c.1 b.proc
    rw [← hH, ← hadd] at hcwds
    obtain rfl := add_right_cancel hcwds
    exact hb.orderly
  · rwa [← hb.orderly.view.tree_eq] at hdoes

section Run

variable (hL : CloseLaws L) (hN : sb.ninodes ≤ 2 ^ 16) (hmax : Param.MAXPATH ≤ BSIZE)
  (h : Reached (treeStep L) Allowed Mounted s)

include hL hN hmax h

theorem standing_of_reached : Standing s :=
  h.invariant (fun _ hs => hs.standing) fun _ _ _ _ hs hg he =>
  ((hs.treeStep (E := fun _ => True) hL hN hmax hg).1 _ _ he).1

/-- The link count of every node is the number of entries that are links to it, entries name nodes
with links, and a node without links is cached for a process or a file that uses it. -/
theorem link_counts_exact :
    (∀ i, ((tree s.sys.fs.disk).links i : ℤ) = (tree s.sys.fs.disk i).elim 0 Node.nlink) ∧
      (∀ d n e, tree s.sys.fs.disk d = some n → n.type = T_DIR → e ∈ n.entries → e.inum ≠ 0 →
        ∃ m, tree s.sys.fs.disk e.inum = some m ∧ m.nlink ≠ 0) ∧
      ∀ i n, tree s.sys.fs.disk i = some n → n.nlink = 0 →
        ∃ ip, (s.sys.fs.inodes ip).inum = i ∧ (s.sys.fs.inodes ip).valid = true ∧
          0 < cwds s.procs ip + filesOn s.sys.ftable ip := by
  obtain ⟨base, hs⟩ := (standing_of_reached hL hN hmax h).orderly
  refine ⟨hs.proper.counted, fun d n e hd hdir he h0 => ?_, fun i n hi h0 => ?_⟩
  · rcases hs.proper.tidy d n hd hdir e he h0 with hself | hthere
    · rw [hself]
      exact ⟨n, hd, hs.proper.nlink_ne_zero hd hdir⟩
    · exact hthere
  · obtain ⟨ip, hip, hinum, hv⟩ := hs.held i n hi h0
    refine ⟨ip, hinum, hv, ?_⟩
    rw [Pi.add_apply, fileHolds_apply] at hip
    omega

/-- The directories are a tree: from each the entries `..` lead to the root, each but the root has
one name, and that is in the directory that its `..` names. -/
theorem directories_hang :
    (∀ d n, tree s.sys.fs.disk d = some n → n.type = T_DIR →
      Relation.ReflTransGen (tree s.sys.fs.disk).Parent d ROOTINO ∧
        (tree s.sys.fs.disk).names d = if d = ROOTINO then 0 else 1) ∧
      ∀ p n name k c m, tree s.sys.fs.disk p = some n → n.lookup name = some (k, c) →
        name ≠ Bytes.str dot DIRSIZ → name ≠ Bytes.str dotdot DIRSIZ →
        tree s.sys.fs.disk c = some m →
        n.type = T_DIR → m.type = T_DIR → m.Directory c p := by
  obtain ⟨base, hs⟩ := (standing_of_reached hL hN hmax h).orderly
  refine ⟨fun d n hd hdir => ⟨hs.proper.rooted d n hd hdir, hs.proper.named d n hd hdir⟩, ?_⟩
  intro p n name k c m hp hlook hdot hdotdot hc hdir hcdir
  obtain ⟨q, hq⟩ := hs.proper.directory p n hp hdir
  exact hs.proper.home p n c hp (hq.mem_children_of_lookup hlook hdot hdotdot) m hc hcdir

/-- An inode of the table is referenced as often as a process has it for its directory or a file is
open on it. No inode is cached twice, or locked between calls, or cached when it is free. -/
theorem inode_refs_exact :
    (∀ ip, (s.sys.fs.inodes ip).ref = cwds s.procs ip + filesOn s.sys.ftable ip) ∧
      (∀ ip, (s.sys.fs.inodes ip).locked = false) ∧
      (∀ ip, 0 < (s.sys.fs.inodes ip).ref → tree s.sys.fs.disk (s.sys.fs.inodes ip).inum ≠ none) ∧
      ∀ ip ip', 0 < (s.sys.fs.inodes ip).ref → 0 < (s.sys.fs.inodes ip').ref →
        (s.sys.fs.inodes ip).inum = (s.sys.fs.inodes ip').inum → ip = ip' := by
  obtain ⟨base, hs⟩ := (standing_of_reached hL hN hmax h).orderly
  refine ⟨fun ip => ?_, hs.view.lock_eq, fun ip hip => ?_, fun ip ip' hip hip' he => ?_⟩
  · rw [hs.view.ref_eq, Pi.add_apply, fileHolds_apply]
  · rw [hs.view.ref_eq] at hip
    exact hs.used _ ⟨ip, hip, rfl⟩
  · rw [hs.view.ref_eq] at hip hip'
    exact hs.view.unique ip ip' hip hip' he

/-- The next call never locks a free inode, and never waits for a lock that it holds. -/
theorem no_call_stuck (hg : Allowed s c) :
    ¬ Faults (treeStep L c) s noType ∧ ¬ Faults (treeStep L c) s .deadlock := by
  have hstep := (standing_of_reached hL hN hmax h).treeStep
    (E := fun e => e ≠ noType ∧ e ≠ .deadlock) hL hN hmax hg
  exact ⟨fun he => (hstep.2 _ he).1 rfl, fun he => (hstep.2 _ he).2 rfl⟩

end Run

section Small

def addDots : FsM ℤ := do
  ilock 0
  let r ← dirlink 0 dot ROOTINO
  let r' ← dirlink 0 dotdot ROOTINO
  iunlock 0
  return min r r'

theorem addDots_view {base : Set ℕ} {T : Tree} {R : ℕ → ℤ} {s t : FsState} {n : Node}
    (h : View base T R (fun _ => false) s) (hR : 0 < R 0) (hi : (s.inodes 0).inum = ROOTINO)
    (hn : T ROOTINO = some n) (hrun : Ends addDots s 0 t) : ∃ m, Dots ROOTINO ROOTINO n m ∧
      View base (Function.update T ROOTINO (some m)) R (fun _ => false) t ∧
      (t.inodes 0).inum = ROOTINO := by
  have hl : Function.update (fun _ => false) 0 true 0 = true := Function.update_self ..
  have hwp : Wp (fun _ => True) addDots (fun r t => r = 0 → ∃ m, Dots ROOTINO ROOTINO n m ∧
      View base (Function.update T ROOTINO (some m)) R (fun _ => false) t ∧
      (t.inodes 0).inum = ROOTINO) s := by
    refine wp_bind.mpr ((h.ilock hR (fun _ => trivial) (fun _ => trivial)).mono fun _ u hu => ?_)
    obtain ⟨hu, hk, -, -⟩ := hu
    have hui := ((h.pins hu hk le_rfl le_rfl) 0 hR).1.trans hi
    refine wp_bind.mpr ((hu.dirlink hl (hui ▸ hn) dot ROOTINO).mono fun r v hv => ?_)
    obtain ⟨-, hkv, hv⟩ := hv
    have hsecond : ∀ {T' : Tree} {n' : Node},
      View base T' R (Function.update (fun _ => false) 0 true) v →
        T' ROOTINO = some n' → Wp (fun _ => True) (do
          let r' ← dirlink 0 dotdot ROOTINO
          iunlock 0
          return min r r') (fun x w => x = 0 → 0 ≤ r ∧
            ∃ m, Adds n' m ⟨ROOTINO, Bytes.str dotdot DIRSIZ⟩ ∧
            View base (Function.update T' ROOTINO (some m)) R (fun _ => false) w ∧
            (w.inodes 0).inum = ROOTINO) v := by
      intro T' n' hv hn'
      have hvi := ((hu.pins hv hkv le_rfl le_rfl) 0 hR).1.trans hui
      refine wp_bind.mpr ((hv.dirlink hl (hvi ▸ hn') dotdot ROOTINO).mono fun r' w hw => ?_)
      obtain ⟨-, hkw, hw⟩ := hw
      rcases hw with ⟨hneg, hw⟩ | ⟨-, -, m, hadds, hw⟩
      · refine wp_bind.mpr ((hw.iunlock hl).mono fun _ x _ => wp_pure.mpr fun hx => ?_)
        omega
      · refine wp_bind.mpr ((hw.iunlock hl).mono fun _ x hx => wp_pure.mpr fun hmin => ?_)
        obtain ⟨hx, hkx⟩ := hx
        rw [Function.update_idem, Function.update_eq_self, hvi] at hx
        rw [hvi] at hw
        have hwi := ((hv.pins hw hkw le_rfl le_rfl) 0 hR).1.trans hvi
        exact ⟨by omega, m, hadds, hx, ((hw.pins hx hkx le_rfl le_rfl) 0 hR).1.trans hwi⟩
    rcases hv with ⟨hneg, hv⟩ | ⟨-, -, m, hadds, hv⟩
    · refine (hsecond hv hn).mono fun x w hw hx => ?_
      have := (hw hx).1
      omega
    · rw [hui] at hv
      refine (hsecond hv (Function.update_self ..)).mono fun x w hw hx => ?_
      obtain ⟨-, m', hadds', hw, hwi⟩ := hw hx
      rw [Function.update_idem] at hw
      exact ⟨m', ⟨m, hadds, hadds'⟩, hw, hwi⟩
  exact hwp.post hrun rfl

/-- A machine on a disk with an empty root directory, after the entries of that are made. -/
theorem mounted_of_addDots {base : Set ℕ} {u : FsState} {n : Node} (hn : n = ⟨T_DIR, 0, 0, 1, []⟩)
    (hview : View base (Function.update (fun _ => none) ROOTINO (some n))
    (fun ip => cwds s.procs ip)
      (fun _ => false) s.sys.fs) (hN : ROOTINO < sb.ninodes) (hR : 0 < cwds s.procs 0)
    (hcwd : ∀ i, (s.procs i).cwd = 0) (hi : (s.sys.fs.inodes 0).inum = ROOTINO)
    (hfiles : ∀ f, (s.sys.ftable f).type = .none) (hrun : Ends addDots s.sys.fs 0 u) :
    Mounted ⟨s.procs, { s.sys with fs := u }⟩ := by
  obtain ⟨m, hdots, hu, hui⟩ := addDots_view hview (Int.natCast_pos.mpr hR) hi
    (Function.update_self ..) hrun
  rw [Function.update_idem] at hu
  have hfields := hdots.fields
  have hself : ({ m with data := [] } : Node) = n := by
    rw [hfields, hn]
  have hentries := Node.entries_of_dots (by rwa [hself]) (by decide) (by decide) (by decide)
  have htype : m.type = T_DIR := by
    rw [hfields, hn]
  have hlink : m.nlink = 1 := by
    rw [hfields, hn]
  have hproper := Tree.Proper.lone (Node.directory_of_two htype hentries) hlink
    (Node.children_of_two htype hentries) hN
  have htree := hu.tree_eq
  refine ⟨⟨_, htree.symm ▸ hu⟩, htree.symm ▸ hproper, fun i k hk => ?_, fun i => ?_, hfiles⟩
  · dsimp only at hk
    rw [htree] at hk
    by_cases hi : i = ROOTINO
    · subst hi
      rw [Function.update_self] at hk
      obtain rfl := Option.some.inj hk
      rw [hlink]
      decide
    · rw [Function.update_of_ne hi] at hk
      cases hk
  · show tree u.disk (u.inodes (s.procs i).cwd).inum ≠ none
    rw [hcwd, hui, htree, Function.update_self]
    simp

def roomyDisk (d : Disk) : Bool := decide (∀ i < sb.ninodes, (d.dinode i).nlink < 2 ^ 15 - 1)

theorem Standing.roomy (h : Standing s) (hr : roomyDisk s.sys.fs.disk = true) :
    (tree s.sys.fs.disk).Roomy := by
  obtain ⟨base, hs⟩ := h.orderly
  intro i n hi
  rw [← (tree_eq_some hi).2.2.2.2.1]
  exact of_decide_eq_true hr i (hs.view.bounded i n hi)

/-- Calls other than `unlink` are made one after the other, with room for their links. -/
def roomyRun (L : FileLayer χ) : List (Fin Param.NPROC × TreeCall) → Machine χ → Bool
  | [], _ => true
  | c :: cs, s => roomyDisk s.sys.fs.disk && ((treeStep L c).run s).isOk &&
      (match c.2 with | .entry (.unlink _) => false | _ => true) && roomyRun L cs
      (after (treeStep L c) s)

theorem reached_roomyRun (hL : CloseLaws L) (hN : sb.ninodes ≤ 2 ^ 16)
    (hmax : Param.MAXPATH ≤ BSIZE)
    {cs : List (Fin Param.NPROC × TreeCall)} (hs : Reached (treeStep L) Allowed Mounted s)
    (hrun : roomyRun L cs s = true) :
    Reached (treeStep L) Allowed Mounted (afterAll (treeStep L) cs s) := by
  induction cs generalizing s with
  | nil => exact hs
  | cons c cs ih =>
    rw [roomyRun, Bool.and_eq_true, Bool.and_eq_true, Bool.and_eq_true] at hrun
    obtain ⟨⟨⟨hroom, hok⟩, hcall⟩, hcs⟩ := hrun
    obtain ⟨r, hr⟩ := ends_after hok
    refine ih (.call hs ⟨(standing_of_reached hL hN hmax hs).roomy hroom, fun path hc => ?_⟩ hr) hcs
    rw [hc] at hcall
    exact absurd hcall (by simp)

theorem Standing.unlink_file (h : Standing s) (hroom : roomyDisk s.sys.fs.disk = true)
    {p : Fin Param.NPROC} {path : StrArg} {d k i : ℕ} {name : List UInt8} {l : ℤ}
    (hplace : ((tree s.sys.fs.disk).place (s.dir p) path).map
    (fun w => (w.1, Bytes.str w.2 DIRSIZ)) =
      some (d, name))
    (hlook : (tree s.sys.fs.disk d).bind (fun n => n.lookup name) = some (k, i))
    (hfile : (tree s.sys.fs.disk i).map (fun n => (n.type, n.nlink)) = some (T_FILE, l)) :
    Allowed s (p, .entry (.unlink path)) := by
  refine ⟨h.roomy hroom, fun path' hc => ?_⟩
  obtain rfl := EntryCall.unlink.inj (TreeCall.entry.inj hc)
  intro d' name' nd k' i' n hw hd hl hi htype
  rw [hw] at hplace
  obtain ⟨rfl, rfl⟩ := Prod.mk.inj (Option.some.inj hplace)
  rw [hd, Option.bind_some, hl] at hlook
  obtain ⟨-, rfl⟩ := Prod.mk.inj (Option.some.inj hlook)
  rw [hi] at hfile
  exact absurd ((Prod.mk.inj (Option.some.inj hfile)).1.symm.trans htype) (by decide)

omit sb pm

theorem closeLaws_small : @CloseLaws Unit smallParam smallDisk
    (@fileTable Unit smallParam smallDisk) :=
  @fileTable_closeLaws Unit smallParam smallDisk

theorem runs_addDots :
    letI := smallDisk
    letI := smallParam
    answer addDots smallMachine.sys.fs = some 0 := by
  decide +kernel

def rootedMachine : @Machine Unit smallParam :=
  let _ := smallDisk
  let _ := smallParam
  ⟨smallMachine.procs, { smallMachine.sys with fs := after addDots smallMachine.sys.fs }⟩

theorem mounted_rootedMachine :
    letI := smallDisk
    letI := smallParam
    Mounted rootedMachine := by
  let _ := smallDisk
  let _ := smallParam
  have hview := view_smallMachine
  have hrefs : (fun ip => (cwds smallMachine.procs ip : ℤ)) = fun ip => if ip = 0 then 64 else 0 :=
    funext fun ip => (booted_smallMachine.ref ip).symm.trans (hview.ref_eq ip)
  have htree : tree rootDisk = Function.update (fun _ => none) ROOTINO
    (some ⟨T_DIR, 0, 0, 1, []⟩) := by
    funext i
    rw [tree_rootDisk, Function.update_apply]
  rw [htree, ← hrefs] at hview
  exact mounted_of_addDots rfl hview (by decide) (cwds_pos smallMachine.procs ⟨0, smallParam_procs⟩)
    (fun _ => rfl) rfl (fun _ => rfl) (ends_answer runs_addDots)

/-- A directory is made, a file in it opened and linked, and the directory entered. -/
def smallCalls : List (@Fin (@Param.NPROC smallParam) × TreeCall) :=
  [(⟨0, smallParam_procs⟩, .entry (.mkdir (pathArg [47, 97]))),
    (⟨1, smallParam_procs_one⟩, .open' (pathArg [47, 97, 47, 102]) 0x202),
    (⟨1, smallParam_procs_one⟩, .entry (.link (pathArg [47, 97, 47, 102]) (pathArg [47, 103]))),
    (⟨0, smallParam_procs⟩, .chdir (pathArg [47, 97]))]

def usedMachine : @Machine Unit smallParam :=
  let _ := smallDisk
  let _ := smallParam
  afterAll (treeStep fileTable) smallCalls rootedMachine

def smallUnlink : @Fin (@Param.NPROC smallParam) × TreeCall :=
  (⟨1, smallParam_procs_one⟩, .entry (.unlink (pathArg [47, 97, 47, 102])))

theorem runs_usedMachine :
    letI := smallDisk
    letI := smallParam
    roomyRun fileTable smallCalls rootedMachine = true ∧ roomyDisk usedMachine.sys.fs.disk = true ∧
      ((tree usedMachine.sys.fs.disk).place (usedMachine.dir smallUnlink.1)
      (pathArg [47, 97, 47, 102])).map
        (fun w => (w.1, Bytes.str w.2 DIRSIZ)) = some (2, [102]) ∧
      (tree usedMachine.sys.fs.disk 2).bind (fun n => n.lookup [102]) = some (2, 3) ∧
      (tree usedMachine.sys.fs.disk 2).map Node.type = some T_DIR ∧
      (tree usedMachine.sys.fs.disk 3).map (fun n => (n.type, n.nlink)) = some (T_FILE, 2) ∧
      (usedMachine.sys.fs.inodes 1).ref = 1 ∧ (usedMachine.sys.fs.inodes 2).ref = 1 ∧
      answer (treeStep fileTable smallUnlink) usedMachine = some 0 := by
  decide +kernel

theorem reached_usedMachine :
    letI := smallDisk
    letI := smallParam
    Reached (treeStep fileTable) Allowed Mounted usedMachine := by
  let _ := smallDisk
  let _ := smallParam
  exact reached_roomyRun closeLaws_small (by decide) (by decide) (.init mounted_rootedMachine)
    runs_usedMachine.1

theorem allowed_smallUnlink :
    letI := smallDisk
    letI := smallParam
    Allowed usedMachine smallUnlink :=
  @Standing.unlink_file _ smallDisk smallParam _
    (@standing_of_reached _ smallDisk smallParam _ _ closeLaws_small (by decide)
    (by decide) reached_usedMachine)
    runs_usedMachine.2.1 _ _ _ _ _ _ _ runs_usedMachine.2.2.1 runs_usedMachine.2.2.2.1
    runs_usedMachine.2.2.2.2.2.1

/-- A file has the two names that it was given. -/
theorem link_counts_exact_small :
    letI := smallDisk
    letI := smallParam
    Reached (treeStep fileTable) Allowed Mounted usedMachine ∧
    ((tree usedMachine.sys.fs.disk).links 3 : ℤ) = 2 := by
  let _ := smallDisk
  let _ := smallParam
  have hcount := (link_counts_exact closeLaws_small (by decide) (by decide) reached_usedMachine).1 3
  obtain ⟨n, hn, hfile⟩ := Option.map_eq_some_iff.mp runs_usedMachine.2.2.2.2.2.1
  rw [hn, Option.elim_some, (Prod.mk.inj hfile).2] at hcount
  exact ⟨reached_usedMachine, hcount⟩

theorem directories_hang_small :
    letI := smallDisk
    letI := smallParam
    Reached (treeStep fileTable) Allowed Mounted usedMachine ∧
      Relation.ReflTransGen (tree usedMachine.sys.fs.disk).Parent 2 ROOTINO := by
  let _ := smallDisk
  let _ := smallParam
  obtain ⟨n, hn, htype⟩ := Option.map_eq_some_iff.mp runs_usedMachine.2.2.2.2.1
  exact ⟨reached_usedMachine,
    ((directories_hang closeLaws_small (by decide) (by decide) reached_usedMachine).1 2 n hn
    htype).1⟩

/-- One process is in the directory, and another has the file open. -/
theorem inode_refs_exact_small :
    letI := smallDisk
    letI := smallParam
    cwds usedMachine.procs 1 + filesOn usedMachine.sys.ftable 1 = 1 ∧
      cwds usedMachine.procs 2 + filesOn usedMachine.sys.ftable 2 = 1 := by
  let _ := smallDisk
  let _ := smallParam
  obtain ⟨-, -, -, -, -, -, hdir, hfile, -⟩ := runs_usedMachine
  have hrefs := (inode_refs_exact closeLaws_small (by decide) (by decide) reached_usedMachine).1
  have h1 := hrefs 1
  have h2 := hrefs 2
  rw [hdir] at h1
  rw [hfile] at h2
  omega

theorem no_call_stuck_small :
    letI := smallDisk
    letI := smallParam
    ¬ Faults (treeStep fileTable smallUnlink) usedMachine noType ∧
      ¬ Faults (treeStep fileTable smallUnlink) usedMachine .deadlock := by
  let _ := smallDisk
  let _ := smallParam
  exact no_call_stuck closeLaws_small (by decide) (by decide) reached_usedMachine
    allowed_smallUnlink

end Small

end Xv6Sheet.Kernel
