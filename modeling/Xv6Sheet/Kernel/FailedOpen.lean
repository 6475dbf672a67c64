import Xv6Sheet.Kernel.FullDisk
import Xv6Sheet.Kernel.LostLink

/-! # Opening that fails

`sys_open` makes the file before it takes a `struct file` and a descriptor. Where one of them is
missing the call fails, and a file that it made stays.
-/

namespace Xv6Sheet.Kernel

open Exec

variable {χ : Type} [sb : Superblock] [pm : Param] {base : Set ℕ} {T : Tree} {R : ℕ → ℤ}
    {s : FsState}
  {ip cwd : ℕ} {L : FileLayer χ} {a b : Task FilePtr (Sys χ)} {omode r : ℤ} {path : StrArg}

/-- The file that `create` answers is new exactly where there is a free inode, and room for its
entry. -/
theorem Settled.createFile (h : Settled base T R cwd s) (path : Bytes) :
    Wp (fun _ => True) (create cwd path T_FILE 0 0) (fun r t => match r with
      | none => View base T R (fun _ => false) t ∧ ¬ Enters T s.disk (s.inodes cwd).inum path
      | some ip => ∃ T', Grasped base T' R ip t ∧
          (T' ≠ T ↔ Enters T s.disk (s.inodes cwd).inum path) ∧
          (T' ≠ T → (t.inodes ip).type ≠ T_DEVICE)) s := by
  refine ((h.view.createStill h.cwd_pos rfl h.used h.anchored trivial path (by decide) (by decide) 0
    0).and (h.createTakesOrFinds path (by decide) (by decide) 0 0)).mono fun r t ht => ?_
  obtain ⟨⟨-, ht⟩, htakes⟩ := ht
  rcases r with - | ip
  · refine ⟨ht, ?_⟩
    rcases htakes with ⟨htakes, -⟩ | ⟨-, hnone⟩
    · exact htakes
    · rintro ⟨-, dir, off, hent, -⟩
      rw [hnone] at hent
      cases hent
  obtain ⟨T', hkept, ht, hkind⟩ := ht
  have hl : Function.update (fun _ => false) ip true ip = true := Function.update_self ..
  refine ⟨T', ⟨hkept, ht⟩, ?_⟩
  rcases htakes with ⟨⟨hfree, -, dir, off, hent, hroom, -⟩, hne⟩ | ⟨-, hnone⟩
  · rw [ht.tree_eq] at hne
    refine ⟨iff_of_true (hne (by simp)) ⟨hfree, dir, off, hent, hroom⟩, fun _ => ?_⟩
    rcases hkind with ⟨-, rfl, -⟩ | ⟨d, name, nd, nd', n, -, hmade, htype, -⟩
    · exact absurd rfl (hne (by simp))
    · rw [(ht.size_eq hl hmade.self).1, htype]
      decide
  · have hT : T' = T := by
      rcases hkind with ⟨-, hT, -⟩ | ⟨d, name, nd, nd', n, hw, hmade, -⟩
      · exact hT
      · rw [Tree.entering, hw] at hnone
        simp [hmade.parent, hmade.absent] at hnone
    refine ⟨iff_of_false (not_not.mpr hT) ?_, fun hne => absurd hT hne⟩
    rintro ⟨-, dir, off, hent, -⟩
    rw [hnone] at hent
    cases hent

theorem Grasped.openInodeRoom (h : Grasped base T R ip a.sys.fs) (hL : TableLaws L)
    (hclosed : FilesClosed a.sys) : Wp (fun _ => True) (Kernel.openInode L ip omode) (fun r b =>
      (r = -1 → tree b.sys.fs.disk = T) ∧
        ((a.sys.fs.inodes ip).type ≠ T_DEVICE → (r = -1 ↔ Full a))) a := by
  refine wp_openInode hL.toOpenLaws (fun _ _ => trivial) (fun c hc hwhy => ?_)
    fun f k c hroom hc => ?_
  · rw [← hc.fs hclosed] at h
    refine (h.giveUp.and (wp_giveUp (Q := fun r _ => r = -1) fun _ => rfl)).mono fun r b hb => ?_
    exact ⟨fun _ => hb.1, fun hdev =>
      iff_of_true hb.2 ((openFile_full hL (hwhy.resolve_left hdev)).mp rfl)⟩
  · have hne : (k : ℤ) ≠ -1 := by omega
    refine wp_bind.mpr (wp_trivial.mono fun _ _ _ => wp_bind.mpr (wp_trivial.mono fun _ _ _ =>
      wp_bind.mpr (wp_trivial.mono fun _ _ _ => wp_pure.mpr ?_)))
    obtain ⟨d, hd⟩ := hroom
    have hroom : ¬ Full a := fun hfull => absurd ((openFile_full hL hd).mpr hfull) (by simp)
    exact ⟨fun hk => absurd hk hne, fun _ => iff_of_false hne hroom⟩

/-- The call makes a file and has no `struct file` or no descriptor for it. -/
def Leaks (a : Task FilePtr (Sys χ)) (path : StrArg) (omode : ℤ) : Prop :=
  hasFlag omode O_CREATE = true ∧ (∃ p, argstr path Param.MAXPATH = some p ∧
    Enters (tree a.sys.fs.disk) a.sys.fs.disk (home a) p) ∧ Full a

theorem Settled.sysOpen (h : Settled base T R a.proc.cwd a.sys.fs) (hL : TableLaws L)
    (hclosed : FilesClosed a.sys)
    (path : StrArg) (omode : ℤ) :
    Wp (fun _ => True) (Kernel.sysOpen L path omode) (fun r b =>
      (r = -1 → tree b.sys.fs.disk = T) ↔ ¬ Leaks a path omode) a := by
  refine wp_bind.mpr (wp_get.mpr ?_)
  unfold Leaks
  rw [h.view.tree_eq]
  dsimp only
  split
  · rename_i hnone
    refine wp_pure.mpr (iff_of_true (fun _ => h.view.tree_eq) ?_)
    rintro ⟨-, ⟨p, hp, -⟩, -⟩
    rw [hnone] at hp
    cases hp
  rename_i p hp
  have hops : Settled base T R a.proc.cwd { a.sys.fs with ops := a.sys.fs.ops + 1 } := h.ops _
  have hback : ∀ {P : Prop} {u : FsState}, View base T R (fun _ => false) u → ¬ P →
      Wp (fun _ => True) (do
        onFs endOp
        return (-1 : ℤ)) (fun r b => (r = -1 → tree b.sys.fs.disk = T) ↔ ¬ P)
          (⟨a.proc, { a.sys with fs := u }⟩ : Task FilePtr (Sys χ)) :=
    fun hu hP => wp_bind.mpr (wp_onFs.mpr (wp_modify.mpr (wp_pure.mpr
      (iff_of_true (fun _ => hu.tree_eq) hP))))
  refine wp_bind.mpr (wp_onFs.mpr (wp_modify.mpr ?_))
  split
  · rename_i hcreate
    refine wp_bind.mpr (wp_onFs.mpr ((hops.createFile p).mono fun r u hu => ?_))
    have henters : (∃ p', argstr path Param.MAXPATH = some p' ∧
        Enters T a.sys.fs.disk (home a) p') ↔ Enters T a.sys.fs.disk (home a) p := by
      simp [hp]
    rw [henters]
    rcases r with - | ip
    · exact hback hu.1 fun hleak => hu.2 hleak.2.1
    obtain ⟨T', hg, hnew, hdev⟩ := hu
    have hg : Grasped base T' R ip
      (⟨a.proc, { a.sys with fs := u }⟩ : Task FilePtr (Sys χ)).sys.fs := hg
    refine (hg.openInodeRoom hL hclosed).mono fun r b hb => ?_
    obtain ⟨hsame, hfull⟩ := hb
    by_cases hne : T' = T
    · subst hne
      exact iff_of_true hsame fun hleak => hnew.mpr hleak.2.1 rfl
    · have hfull : r = -1 ↔ Full a := hfull (hdev hne)
      constructor
      · rintro hkept ⟨-, -, hno⟩
        have hr := hfull.mpr hno
        exact hne ((hsame hr).symm.trans (hkept hr))
      · intro hleak hr
        exact absurd ⟨hcreate, hnew.mp hne, hfull.mp hr⟩ hleak
  · rename_i hcreate
    have hno : ¬ (hasFlag omode O_CREATE = true ∧ (∃ p, argstr path Param.MAXPATH = some p ∧
        Enters T a.sys.fs.disk (home a) p) ∧ Full a) := fun hleak => hcreate hleak.1
    refine wp_bind.mpr (wp_onFs.mpr ((hops.view.nameiStill h.cwd_pos rfl h.anchored trivial
      (by simp)).mono fun r u hu => ?_))
    obtain ⟨hpin, -, hu⟩ := hu
    rcases r with - | ip
    · exact hback hu.2 hno
    obtain ⟨name, hw, hu⟩ := hu
    have hpos := h.view.single_pos ip
    refine wp_bind.mpr (wp_onFs.mpr ((hu.ilock hpos (fun _ => trivial) (by simp)).mono
      fun _ v hv => ?_))
    obtain ⟨hv, hk, -, -⟩ := hv
    have hpin' := hu.pins hv hk le_rfl le_rfl
    have hpins := hpin.trans (hpin'.mono (le_add_single R ip))
    rw [← (hpin' ip hpos).1] at hw
    have hg : Grasped base T R ip (⟨a.proc, { a.sys with fs := v }⟩ :
      Task FilePtr (Sys χ)).sys.fs :=
      ⟨fun n hn => hv.last hpos (fun i n hn h0 hin => hpins.inUse (h.anchored i n hn h0 hin))
        (Tree.within_namex hw) hn, hv⟩
    refine wp_bind.mpr (wp_onFs.mpr (wp_inode.mpr ?_))
    split
    · exact hg.giveUp.mono fun _ _ hb => iff_of_true (fun _ => hb) hno
    · exact (hg.openInodeRoom hL hclosed).mono fun _ _ hb => iff_of_true hb.1 hno

/-- A failed call of `sys_open` leaves the tree as it was exactly when it made no file for which
there is no `struct file` or no descriptor. -/
theorem sysOpen_traceless (h : Settled base T R a.proc.cwd a.sys.fs) (hL : TableLaws L)
    (hclosed : FilesClosed a.sys) (hrun : Ends (sysOpen L path omode) a r b) :
    (r = -1 → tree b.sys.fs.disk = tree a.sys.fs.disk) ↔ ¬ Leaks a path omode := by
  rw [h.view.tree_eq]
  exact (h.sysOpen hL hclosed path omode).1 _ _ hrun

section Small

omit pm sb

theorem smallParam_files : 0 < smallParam.NFILE := by decide

def fullTask : @Task (@FilePtr smallParam) (@Sys Unit smallParam) smallParam :=
  let _ := smallParam
  { smallTask with proc.ofile := fun _ => some ⟨0, smallParam_files⟩ }

def crowdedTask : @Task (@FilePtr smallParam) (@Sys Unit smallParam) smallParam :=
  let _ := smallParam
  { smallTask with sys.fs := smallFs noneLeft }

/-- A call gives up the file that it has begun, and one fails for want of a descriptor. -/
theorem runs_sysOpen :
    letI := smallDisk
    letI := smallParam
    let b := after (sysOpen fileTable (pathArg [47, 120]) 0x202) fullTask
    answer (sysOpen fileTable (pathArg [47, 120]) 0x202) crowdedTask = some (-1) ∧
      answer (sysOpen fileTable (pathArg [47, 120]) 0x202) fullTask = some (-1) ∧
      ((tree fullTask.sys.fs.disk).namex ROOTINO (Bytes.ofList [47, 120]) false).isNone = true ∧
      ((tree b.sys.fs.disk).namex ROOTINO (Bytes.ofList [47, 120]) false).map Prod.fst = some 2 ∧
      (tree fullTask.sys.fs.disk 2).isNone = true ∧ (tree b.sys.fs.disk 2).isNone = false := by
  decide +kernel

/-- The disk is full: the inode of the file is made, and given up without an entry. -/
theorem sysOpen_traceless_small :
    letI := smallDisk
    letI := smallParam
    ∃ b, Ends (sysOpen fileTable (pathArg [47, 120]) 0x202) crowdedTask (-1) b ∧
      tree b.sys.fs.disk = tree crowdedTask.sys.fs.disk := by
  let _ := smallDisk
  let _ := smallParam
  have hrun := ends_answer runs_sysOpen.1
  have hsettled := settled_smallFs formatted_noneLeft
  refine ⟨_, hrun, (sysOpen_traceless (a := crowdedTask) hsettled fileTable_tableLaws
    (fun _ _ => rfl) hrun).mpr ?_ rfl⟩
  rintro ⟨-, ⟨p, hp, -, dir, off, hent, -, hroom⟩, -⟩
  exact (not_room_noneLeft (by simp) hp hent).not_ge hroom

/-- The call fails for want of a descriptor, and the file is there. -/
theorem sysOpen_leaves_file :
    letI := smallDisk
    letI := smallParam
    (∃ base T R, Settled base T R fullTask.proc.cwd fullTask.sys.fs) ∧
      (tree fullTask.sys.fs.disk).namex ROOTINO (Bytes.ofList [47, 120]) false = none ∧
      ∃ b, Ends (sysOpen fileTable (pathArg [47, 120]) 0x202) fullTask (-1) b ∧
        tree b.sys.fs.disk ≠ tree fullTask.sys.fs.disk ∧
        ((tree b.sys.fs.disk).namex ROOTINO (Bytes.ofList [47, 120]) false).map Prod.fst =
        some 2 := by
  let _ := smallDisk
  let _ := smallParam
  obtain ⟨-, hanswer, hbefore, hafter, hnone, hthere⟩ := runs_sysOpen
  refine ⟨⟨_, _, _, settled_smallTask⟩, Option.isNone_iff_eq_none.mp hbefore, _,
    ends_answer hanswer, fun he => ?_, hafter⟩
  rw [← he, hthere] at hnone
  cases hnone

end Small

end Xv6Sheet.Kernel
