import Xv6Sheet.Kernel.ReadLink
import Xv6Sheet.Kernel.Room

/-! # Links on a full disk

`sys_symlink` enters the name of the link before it writes the target. When the entry takes the last
free block there is none for the target, and the call fails with the entry in place.
-/

namespace Xv6Sheet.Kernel

open Exec

variable [sb : Superblock] [pm : Param] {base : Set ℕ} {T T' : Tree} {R : ℕ → ℤ} {s t : FsState}
  {cwd c : ℕ} {target path : StrArg}

/-- The entry of a link takes the last free block, and the target needs one. -/
def Exhausts (T : Tree) (d : Disk) (c : ℕ) (target path : StrArg) : Prop :=
  target.text ≠ [] ∧ (∃ i, 0 < i ∧ i < sb.ninodes ∧ T i = none) ∧ ∃ p dir off,
    argstr path Param.MAXPATH = some p ∧ T.entering c p = some (dir, off) ∧
      off + direntSize ≤ Fs.MAXFILE * BSIZE ∧ Fs.lacking (live d) d dir off = d.free.card

theorem Exhausts.enters {d : Disk} (h : Exhausts T d c target path) :
    ∃ p, argstr path Param.MAXPATH = some p ∧ Enters T d c p := by
  obtain ⟨-, hfree, p, dir, off, hp, hent, hfit, hcard⟩ := h
  exact ⟨p, hp, hfree, dir, off, hent, hfit, hcard.le⟩

/-- A call of `sys_symlink` fails with the entry in place exactly when the disk is exhausted. -/
theorem Settled.sysSymlink_exhausts (h : Settled base T R cwd s) (hmax : Param.MAXPATH ≤ BSIZE) :
    Wp (fun _ => True) (Kernel.sysSymlink cwd target path) (fun r t =>
      (r = -1 ∧ tree t.disk ≠ T) ↔ Exhausts T s.disk (s.inodes cwd).inum target path) s := by
  unfold Kernel.sysSymlink
  split
  swap
  · rename_i hargs
    refine wp_pure.mpr (iff_of_false (fun hne => hne.2 h.view.tree_eq) fun hex => ?_)
    obtain ⟨p, hp, -⟩ := hex.enters
    cases htarget : argstr target Param.MAXPATH with
    | none => exact hex.1 (by rw [StrArg.text, htarget])
    | some tbuf => exact hargs tbuf p htarget hp
  rename_i tbuf p htarget hpath
  have htext : target.text = Bytes.str tbuf Param.MAXPATH := by
    unfold StrArg.text
    rw [htarget]
  have hops : Settled base T R cwd { s with ops := s.ops + 1 } := h.ops _
  refine wp_bind.mpr (wp_modify.mpr (wp_bind.mpr ?_))
  refine ((hops.view.createStill h.cwd_pos rfl h.used h.anchored trivial p (by decide) (by decide) 0
    0).and (hops.createTakes p (by decide) (by decide) (by decide) 0 0)).mono fun r t ht => ?_
  obtain ⟨⟨hpin, ht⟩, htakes⟩ := ht
  rcases r with - | ip
  · refine wp_bind.mpr (wp_modify.mpr (wp_pure.mpr (iff_of_false (fun hne => hne.2 ht.tree_eq)
      fun hex => htakes ?_)))
    obtain ⟨p', hp', hent⟩ := hex.enters
    obtain rfl := Option.some.inj (hpath.symm.trans hp')
    exact hent
  obtain ⟨T', hkept, ht, ⟨hfile, -⟩ | ⟨d, name, nd, nd', n, hw, hmade, htype, -⟩⟩ := ht
  · exact absurd hfile (by decide)
  obtain ⟨hfree, haddrs, dir, off, hent, hroom, hcard⟩ := htakes
  have hex : Exhausts T s.disk (s.inodes cwd).inum target path ↔
      target.text ≠ [] ∧ t.disk.free.card = 0 := by
    constructor
    · rintro ⟨hne, -, p', dir', off', hp', hent', -, hcard'⟩
      obtain rfl := Option.some.inj (hpath.symm.trans hp')
      obtain ⟨rfl, rfl⟩ := Prod.mk.inj (Option.some.inj (hent.symm.trans hent'))
      dsimp only at hcard
      exact ⟨hne, by omega⟩
    · rintro ⟨hne, h0⟩
      rw [h0, Nat.zero_add] at hcard
      exact ⟨hne, hfree, p, dir, off, hpath, hent, hroom.1, hcard⟩
  have hnew : ∀ {T₁ : Tree}, T₁ (t.inodes ip).inum ≠ none → T₁ ≠ T := by
    rintro T₁ hne rfl
    exact hne hmade.free
  have hl : Function.update (fun _ => false) ip true ip = true := Function.update_self ..
  have hdata : n.data = [] := by
    have hdata := hmade.data
    rwa [if_neg (by rw [htype]; decide)] at hdata
  -- the link is given back, and the operation ends
  have hdone : ∀ {T₁ : Tree} {m : Node} {v : FsState} (r : ℤ),
      View base T₁ (R + Pi.single ip 1) (Function.update (fun _ => false) ip true) v →
      T₁ (v.inodes ip).inum = some m → m.nlink = 1 →
      ((r = -1 ∧ T₁ ≠ T) ↔ Exhausts T s.disk (s.inodes cwd).inum target path) →
      Wp (fun _ => True) (do
          Kernel.iunlockput ip
          endOp
          return r) (fun r t => (r = -1 ∧ tree t.disk ≠ T) ↔
            Exhausts T s.disk (s.inodes cwd).inum target path) v := by
    intro T₁ m v r hv hm hlink hpost
    refine (hv.returns rfl hm (by rw [hlink]; decide) r).mono fun a w hw => ?_
    obtain ⟨rfl, -, hw⟩ := hw
    rw [hw.tree_eq]
    exact hpost
  dsimp only
  rw [← htext]
  have hlen := target.length_text_le
  -- the link stays, with or without its target
  have hwrite : Wp (fun _ => True) (Kernel.writei ip tbuf 0 target.text.length) (fun r v =>
      (target.text = [] → r = 0) ∧ ∃ T₁ m, View base T₁ (R + Pi.single ip 1)
        (Function.update (fun _ => false) ip true) v ∧ T₁ (v.inodes ip).inum = some m ∧
        m.nlink = 1 ∧
          T₁ (t.inodes ip).inum ≠ none) t := by
    refine (ht.writei hl hmade.self tbuf (Nat.zero_le _)
      (by simp only [BSIZE] at hmax; omega)).mono fun r v hv => ?_
    rcases hv with ⟨rfl, rfl, hlt⟩ | ⟨tot, rfl, hle, hv, hkeep, -⟩
    · refine ⟨fun hnil => ?_, T', n, ht, hmade.self, hmade.nlink, by simp [hmade.self]⟩
      rw [hnil, hdata] at hlt
      exact absurd hlt (by simp)
    · obtain ⟨m, hm⟩ : ∃ m, m = { n with data := Bytes.overlay n.data 0 (tbuf.toList tot) } :=
        ⟨_, rfl⟩
      have hlink : m.nlink = 1 := by rw [hm, hmade.nlink]
      rw [← hm] at hv
      have hi := (ht.pins hv hkeep le_rfl le_rfl ip (ht.held ip hl).1).1
      refine ⟨fun hnil => ?_, _, m, hv, by rw [hi, Function.update_self], hlink, by simp⟩
      rw [hnil] at hle
      simp only [List.length_nil] at hle
      omega
  rcases eq_or_ne target.text [] with hnil | hne
  · refine wp_bind.mpr (hwrite.mono fun r v hv => ?_)
    obtain ⟨h0, T₁, m, hv, hm, hlink, -⟩ := hv
    rw [h0 hnil, hnil, if_neg (by simp)]
    exact hdone 0 hv hm hlink (iff_of_false (fun hr => absurd hr.1 (by decide))
      fun hex' => hex'.1 hnil)
  · have hpos := List.length_pos_iff.mpr hne
    refine wp_bind.mpr ((hwrite.and (ht.writeiTakes hl hmade.self tbuf (Nat.zero_le _) hpos
      ?_)).mono fun r v hv => ?_)
    · simp only [BSIZE] at hmax ⊢
      omega
    obtain ⟨⟨-, T₁, m, hv, hm, hlink, hin⟩, -, htakes⟩ := hv
    unfold Room at htakes
    rw [lacking_of_addrs haddrs] at htakes
    rcases htakes with ⟨rfl, ⟨-, hroom'⟩, -⟩ | ⟨hr, hroom'⟩
    · rw [if_neg (by simp)]
      refine hdone 0 hv hm hlink (iff_of_false (fun hr => absurd hr.1 (by decide)) fun hex' => ?_)
      have h0 := (hex.mp hex').2
      omega
    · rw [if_pos hr]
      refine hdone (-1) hv hm hlink (iff_of_true ⟨rfl, hnew hin⟩ (hex.mpr ⟨hne, ?_⟩))
      by_contra h0
      refine hroom' ⟨?_, by omega⟩
      have hblock : BSIZE ≤ Fs.MAXFILE * BSIZE := by decide
      omega

/-- `sys_symlink` leaves the tree as it was when it fails exactly when its entry does not take the
last free block that the target needs. -/
theorem sysSymlink_atomic (h : Settled base T R cwd s) (hmax : Param.MAXPATH ≤ BSIZE) {r : ℤ}
    (hrun : Ends (Kernel.sysSymlink cwd target path) s r t) : (r = -1 → tree t.disk = tree s.disk) ↔
      ¬ Exhausts (tree s.disk) s.disk (s.inodes cwd).inum target path := by
  have hex : (r = -1 ∧ tree t.disk ≠ T) ↔ Exhausts T s.disk (s.inodes cwd).inum target path :=
    (h.sysSymlink_exhausts hmax).1 _ _ hrun
  rw [h.view.tree_eq, ← hex]
  tauto

section Small

omit pm sb

def oneLeft (b : ℕ) : Bytes := if b = 3 then Bytes.ofList [0xff, 0x7f] else Bytes.ofList []

theorem formatted_oneLeft : @Disk.Formatted smallDisk { rootDisk with block := oneLeft } :=
  formatted_small (by decide) (by decide)

def noneLeft (b : ℕ) : Bytes := if b = 3 then Bytes.ofList [0xff, 0xff] else Bytes.ofList []

theorem formatted_noneLeft : @Disk.Formatted smallDisk { rootDisk with block := noneLeft } :=
  formatted_small (by decide) (by decide)

theorem lacking_noneLeft :
    letI := smallDisk
    letI := smallParam
    let d := (smallFs noneLeft).disk
    d.free.card = 0 ∧ ∀ name ∈ [120, 108],
      (argstr (pathArg [47, name]) Param.MAXPATH).map (fun p =>
        ((tree d).entering ROOTINO p).map fun w => Fs.lacking (live d) d w.1 w.2) =
          some (some 1) := by
  decide +kernel

theorem not_room_noneLeft {name : UInt8} (hname : name ∈ [120, 108]) {p : Bytes} {dir off : ℕ}
    (hp :
      letI := smallParam
      argstr (pathArg [47, name]) Param.MAXPATH = some p)
    (hent :
      letI := smallDisk
      letI := smallParam
      (tree (smallFs noneLeft).disk).entering ROOTINO p = some (dir, off)) :
    letI := smallDisk
    let d := (smallFs noneLeft).disk
    d.free.card < Fs.lacking (live d) d dir off := by
  obtain ⟨hcard, hlack⟩ := lacking_noneLeft
  have hone := hlack name hname
  rw [hp, Option.map_some, hent, Option.map_some] at hone
  dsimp only
  rw [hcard, Option.some.inj (Option.some.inj hone)]
  decide

/-- A call gives up the link that it has begun, and one leaves it in the directory. -/
theorem runs_sysSymlink :
    letI := smallDisk
    letI := smallParam
    let d := (smallFs oneLeft).disk
    let d' := (after (sysSymlink 0 (pathArg [47, 120]) (pathArg [47, 108])) (smallFs oneLeft)).disk
    answer (sysSymlink 0 (pathArg [47, 120]) (pathArg [47, 108])) (smallFs noneLeft) = some (-1) ∧
      answer (sysSymlink 0 (pathArg [47, 120]) (pathArg [47, 108])) (smallFs oneLeft) = some (-1) ∧
      ((tree d).namex ROOTINO (Bytes.ofList [47, 108]) false).isNone = true ∧
      ((tree d').namex ROOTINO (Bytes.ofList [47, 108]) false).map Prod.fst = some 2 ∧
      (tree d 2).isNone = true ∧ (tree d' 2).isNone = false := by
  decide +kernel

/-- The disk is full: the inode of the link is made, and given up without an entry. -/
theorem sysSymlink_atomic_small :
    letI := smallDisk
    letI := smallParam
    ∃ t, Ends (sysSymlink 0 (pathArg [47, 120]) (pathArg [47, 108])) (smallFs noneLeft) (-1) t ∧
      tree t.disk = tree (smallFs noneLeft).disk := by
  let _ := smallDisk
  let _ := smallParam
  have hrun := ends_answer runs_sysSymlink.1
  refine ⟨_, hrun, (sysSymlink_atomic (settled_smallFs formatted_noneLeft) (by decide) hrun).mpr ?_
    rfl⟩
  rintro ⟨-, -, p, dir, off, hp, hent, -, hcard⟩
  exact (not_room_noneLeft (by simp) hp hent).ne' hcard

/-- The entry takes the last free block: the call fails, and the path leads to the link. -/
theorem sysSymlink_leaves_entry :
    letI := smallDisk
    letI := smallParam
    (∃ base T R, Settled base T R 0 (smallFs oneLeft)) ∧
      (tree (smallFs oneLeft).disk).namex ROOTINO (Bytes.ofList [47, 108]) false = none ∧
      ∃ t, Ends (sysSymlink 0 (pathArg [47, 120]) (pathArg [47, 108])) (smallFs oneLeft) (-1) t ∧
        tree t.disk ≠ tree (smallFs oneLeft).disk ∧
        ((tree t.disk).namex ROOTINO (Bytes.ofList [47, 108]) false).map Prod.fst = some 2 := by
  let _ := smallDisk
  let _ := smallParam
  obtain ⟨-, hanswer, hbefore, hafter, hnone, hthere⟩ := runs_sysSymlink
  refine ⟨⟨_, _, _, settled_smallFs formatted_oneLeft⟩, Option.isNone_iff_eq_none.mp hbefore, _,
    ends_answer hanswer, fun he => ?_, hafter⟩
  rw [← he, hthere] at hnone
  cases hnone

end Small

end Xv6Sheet.Kernel
