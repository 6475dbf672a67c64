import Xv6Sheet.Kernel.FileTable
import Xv6Sheet.Kernel.Symlink

/-! # Making a descriptor

The end of `sys_open` over a file layer with its laws: a free file and a free descriptor are taken
for the inode, or both tables stay as they were.
-/

namespace Xv6Sheet.Kernel

open Exec

variable {χ : Type} [pm : Param] {E : Fault → Prop}

def Full (a : Task FilePtr (Sys χ)) : Prop := a.sys.freeFile = none ∨ a.proc.freeFd = none

/-- An open file on the inode `ip`, which is `i`. -/
def File.onInode (x : File) (ip : ℕ) (i : Inode) (omode : ℤ) : File where
  type := if i.type = T_DEVICE then .device else .inode
  ref := 1
  readable := !hasFlag omode O_WRONLY
  writable := hasFlag omode O_WRONLY || hasFlag omode O_RDWR
  ip := ip
  off := if i.type = T_DEVICE then x.off else 0
  major := if i.type = T_DEVICE then i.major else x.major

/-- A process with one more descriptor, for the file `f` on the inode `ip`. -/
structure WithFile (a : Task FilePtr (Sys χ)) (k : Fin Param.NOFILE) (f : FilePtr) (ip : ℕ)
    (omode : ℤ) (b : Task FilePtr (Sys χ)) : Prop where
  fd : a.proc.ofile k = none
  ref : (a.sys.ftable f).ref = 0
  proc : b.proc = a.proc.setFile k (some f)
  fs : b.sys.fs = a.sys.fs
  ftable : b.sys.ftable =
    Function.update a.sys.ftable f ((a.sys.ftable f).onInode ip (a.sys.fs.inodes ip) omode)

/-- No file was opened, and where closed files have no type the tables are as they were. -/
structure Unopened (a b : Task FilePtr (Sys χ)) : Prop where
  proc : b.proc = a.proc
  fs : FilesClosed a.sys → b.sys.fs = a.sys.fs
  ftable : FilesClosed a.sys → b.sys.ftable = a.sys.ftable

theorem Unopened.closed {a b : Task FilePtr (Sys χ)} (h : Unopened a b) (ha : FilesClosed a.sys) :
    FilesClosed b.sys := by
  rw [FilesClosed, h.ftable ha]
  exact ha

variable {L : FileLayer χ} {a b : Task FilePtr (Sys χ)} {e : Fault}

theorem wp_openFile (hL : OpenLaws L) : Wp (fun _ => True) (openFile L) (fun r b => match r with
    | none => Unopened a b
    | some (f, k) => a.proc.ofile k = none ∧ (a.sys.ftable f).ref = 0 ∧
      b.proc = a.proc.setFile k (some f) ∧ b.sys.fs = a.sys.fs ∧
      b.sys.ftable = Function.update a.sys.ftable f { a.sys.ftable f with ref := 1 }) a := by
  refine wp_bind.mpr (wp_onSys.mpr ⟨fun r u hu => ?_, fun _ _ => trivial⟩)
  rcases r with - | f
  · obtain ⟨hfs, hft⟩ := hL.filealloc hu
    exact wp_pure.mpr ⟨rfl, fun _ => hfs, fun _ => hft⟩
  obtain ⟨h0, hfs, hft⟩ := hL.filealloc_some hu
  refine wp_bind.mpr (wp_fdalloc.mono fun r b hb => ?_)
  obtain ⟨-, hb⟩ := hb
  rcases r with - | k
  · subst hb
    refine wp_bind.mpr (wp_onSys.mpr ⟨fun _ v hv => wp_pure.mpr ?_, fun _ _ => trivial⟩)
    have hback : FilesClosed a.sys → v.fs = a.sys.fs ∧ v.ftable = a.sys.ftable := by
      intro hclosed
      have hself : ({ a.sys.ftable f with ref := 0 } : File) = a.sys.ftable f := by rw [← h0]
      have href : (u.ftable f).ref = 1 := by rw [hft, Function.update_self]
      have htype : (u.ftable f).type = .none := by
        rw [hft, Function.update_self]
        exact hclosed f h0
      obtain ⟨hfs', hft'⟩ := hL.fileclose href htype hv
      refine ⟨hfs'.trans hfs, hft'.trans ?_⟩
      rw [hft, Function.update_idem, Function.update_self, hself, Function.update_eq_self]
    exact ⟨rfl, fun hc => (hback hc).1, fun hc => (hback hc).2⟩
  · obtain ⟨hk, rfl⟩ := hb
    exact wp_pure.mpr ⟨hk, h0, rfl, hfs, hft⟩

theorem openFile_full (hL : TableLaws L) {r : Option (FilePtr × Fin Param.NOFILE)}
    (h : Ends (openFile L) a r b) : r = none ↔ Full a := by
  refine (?_ : Wp (fun _ => True) (openFile L) (fun r _ => r = none ↔ Full a) a).post h
  refine wp_bind.mpr (wp_onSys.mpr ⟨fun r u hu => ?_, fun _ _ => trivial⟩)
  rcases r with - | f
  · have hfull : a.sys.freeFile = none := by simpa [Sys.freeFile] using hL.filealloc_full hu
    exact wp_pure.mpr (iff_of_true rfl (.inl hfull))
  have hfile : a.sys.freeFile ≠ none := by
    intro hnone
    have h0 := (hL.filealloc_some hu).1
    simp only [Sys.freeFile, List.find?_eq_none, List.mem_finRange, decide_eq_true_eq] at hnone
    exact hnone f trivial h0
  refine wp_bind.mpr (wp_fdalloc.mono fun r b hb => ?_)
  obtain ⟨hfd, -⟩ := hb
  rcases r with - | k
  · exact wp_bind.mpr (wp_trivial.mono fun _ _ _ =>
      wp_pure.mpr (iff_of_true rfl (.inr hfd.symm)))
  · refine wp_pure.mpr (iff_of_false (by simp) ?_)
    rintro (hnone | hnone)
    · exact hfile hnone
    · exact absurd (hfd.trans hnone) (by simp)

theorem openFile_returns (hL : TableLaws L) (hclosed : FilesClosed a.sys) :
    ¬ Faults (openFile L) a e := by
  refine fun he => (?_ : Wp (fun _ => False) (openFile L) (fun _ _ => True) a).2 e he
  refine wp_bind.mpr (wp_onSys.mpr ⟨fun r u hu => ?_, fun _ => hL.filealloc_returns⟩)
  rcases r with - | f
  · exact wp_pure.mpr trivial
  obtain ⟨h0, -, hft⟩ := hL.filealloc_some hu
  refine wp_bind.mpr (wp_fdalloc.mono fun r b hb => ?_)
  obtain ⟨-, hb⟩ := hb
  rcases r with - | k
  · subst hb
    refine wp_bind.mpr (wp_onSys.mpr ⟨fun _ _ _ => wp_pure.mpr trivial, fun _ =>
      hL.fileclose_returns ?_ ?_⟩)
    · rw [hft, Function.update_self]
    · rw [hft, Function.update_self]
      exact hclosed f h0
  · exact wp_pure.mpr trivial

variable [sb : Superblock] {omode : ℤ} {ip : ℕ}

theorem wp_giveUp {Q : ℤ → Task FilePtr (Sys χ) → Prop} (hQ : ∀ b, Q (-1) b) :
    Wp (fun _ => True) (giveUp ip) Q a :=
  wp_bind.mpr (wp_trivial.mono fun _ _ _ => wp_bind.mpr (wp_trivial.mono fun _ b _ =>
    wp_pure.mpr (hQ b)))

/-- The end of `sys_open` either gives up with the tables as they were, or makes a descriptor
before it unlocks the inode. -/
theorem wp_openInode (hL : OpenLaws L) {Q : ℤ → Task FilePtr (Sys χ) → Prop}
    (hE : ∀ e, Faults (openFile L) a e → E e)
    (hbad : ∀ b, Unopened a b →
      ((a.sys.fs.inodes ip).type = T_DEVICE ∨ Ends (openFile L) a none b) →
        Wp E (giveUp ip) Q b)
    (hgood : ∀ f k b, (∃ c, Ends (openFile L) a (some (f, k)) c) → WithFile a k f ip omode b →
      Wp E (do
        (if hasFlag omode O_TRUNC ∧ (a.sys.fs.inodes ip).type = T_FILE then onFs (itrunc ip)
          else return ())
        onFs (iunlock ip)
        onFs endOp
        return (k : ℤ)) Q b) :
    Wp E (openInode L ip omode) Q a := by
  refine wp_bind.mpr (wp_onFs.mpr (wp_inode.mpr ?_))
  split
  · rename_i hdev
    exact hbad a ⟨rfl, fun _ => rfl, fun _ => rfl⟩ (.inl hdev.1)
  refine wp_bind.mpr ⟨fun r b hrun => ?_, hE⟩
  have hb := (wp_openFile hL).post hrun
  rcases r with - | ⟨f, k⟩
  · exact hbad b hb (.inr hrun)
  obtain ⟨hk, h0, hproc, hfs, hft⟩ := hb
  refine wp_bind.mpr (wp_onFs.mpr (wp_inode.mpr ?_))
  refine wp_bind.mpr (wp_modifyFile.mpr (wp_bind.mpr (wp_modifyFile.mpr ?_)))
  have hgood := hgood f k ⟨b.proc, a.sys.fs, Function.update a.sys.ftable f
    ((a.sys.ftable f).onInode ip (a.sys.fs.inodes ip) omode), b.sys.rest⟩ ⟨b, hrun⟩
    ⟨hk, h0, hproc, rfl, rfl⟩
  rw [hft, hfs]
  simp only [Function.update_idem, Function.update_self]
  unfold File.onInode at hgood
  by_cases hdev : (a.sys.fs.inodes ip).type = T_DEVICE
  · simp only [if_pos hdev] at hgood ⊢
    exact hgood
  · simp only [if_neg hdev] at hgood ⊢
    exact hgood

end Xv6Sheet.Kernel
