import Mathlib.Algebra.Group.Pi.Basic
import Xv6Sheet.Kernel.Sysfile

/-! # The file table

What the system calls rely on of the file layer and the pipes, and a file table that does
it: a file is free when its count is 0, and the last close of a file on an inode gives the
inode back.
-/

namespace Xv6Sheet.Kernel

open Exec

variable {χ : Type} [pm : Param]

def refs (s : Sys χ) : FilePtr → ℤ := fun f => (s.ftable f).ref

/-- What the file layer, the pipes and the virtual memory do to reference counts. -/
structure FileLaws (L : FileLayer χ) : Prop where
  filealloc : ∀ {s t}, Ends L.filealloc s none t → refs t = refs s
  filealloc_some : ∀ {s t f}, Ends L.filealloc s (some f) t →
    refs s f = 0 ∧ refs t = refs s + Pi.single f 1
  pipealloc : ∀ {s t}, Ends L.pipealloc s none t → refs t = refs s
  pipealloc_some : ∀ {s t rf wf}, Ends L.pipealloc s (some (rf, wf)) t →
    rf ≠ wf ∧ refs s rf = 0 ∧ refs s wf = 0 ∧
      refs t = refs s + Pi.single rf 1 + Pi.single wf 1
  filedup : ∀ {s t f}, 1 ≤ refs s f → Ends (L.filedup f) s () t →
    refs t = refs s + Pi.single f 1
  fileclose : ∀ {s t f}, 1 ≤ refs s f → Ends (L.fileclose f) s () t →
    refs t = refs s - Pi.single f 1
  copyout : ∀ {s t addr src n ok}, Ends (L.copyout addr src n) s ok t → refs t = refs s
  vma_unmap : ∀ {s t v addr n}, Ends (L.vma_unmap v addr n) s () t → refs t = refs s

/-- What `sys_open` relies on of the file layer: a free file is handed out with one reference,
and a file that is not yet open is closed without a change to the file system. -/
structure OpenLaws (L : FileLayer χ) : Prop where
  filealloc : ∀ {s t}, Ends L.filealloc s none t → t.fs = s.fs ∧ t.ftable = s.ftable
  filealloc_some : ∀ {s t f}, Ends L.filealloc s (some f) t → (s.ftable f).ref = 0 ∧
    t.fs = s.fs ∧ t.ftable = Function.update s.ftable f { s.ftable f with ref := 1 }
  fileclose : ∀ {s t f}, (s.ftable f).ref = 1 → (s.ftable f).type = .none →
    Ends (L.fileclose f) s () t →
      t.fs = s.fs ∧ t.ftable = Function.update s.ftable f { s.ftable f with ref := 0 }

def FilesClosed (s : Sys χ) : Prop := ∀ f, (s.ftable f).ref = 0 → (s.ftable f).type = .none

/-- The file table is full only where every file has references, and a file that is not yet open
is handed out and closed without a panic. -/
structure TableLaws (L : FileLayer χ) : Prop extends OpenLaws L where
  filealloc_full : ∀ {s t}, Ends L.filealloc s none t → ∀ f, (s.ftable f).ref ≠ 0
  filealloc_returns : ∀ {s e}, ¬ Faults L.filealloc s e
  fileclose_returns : ∀ {s f e}, (s.ftable f).ref = 1 → (s.ftable f).type = .none →
    ¬ Faults (L.fileclose f) s e

def File.release [Superblock] (x : File) : FsM Unit :=
  if x.type = .inode ∨ x.type = .device then do
    beginOp
    iput x.ip
    endOp
  else return ()

/-- What `dup` and `close` rely on of the file layer: another reference is counted, and the last
close of a file gives its inode back. -/
structure CloseLaws [Superblock] (L : FileLayer χ) : Prop extends TableLaws L where
  filedup_ends : ∀ {s t f}, Ends (L.filedup f) s () t → 1 ≤ (s.ftable f).ref ∧ t.fs = s.fs ∧
    t.ftable = Function.update s.ftable f { s.ftable f with ref := (s.ftable f).ref + 1 }
  filedup_faults : ∀ {s f e}, Faults (L.filedup f) s e → e = .panic "filedup"
  fileclose_ends : ∀ {s t f}, Ends (L.fileclose f) s () t →
    1 < (s.ftable f).ref ∧ t.fs = s.fs ∧
      t.ftable = Function.update s.ftable f { s.ftable f with ref := (s.ftable f).ref - 1 } ∨
    (s.ftable f).ref = 1 ∧ Ends (s.ftable f).release s.fs () t.fs ∧
      t.ftable = Function.update s.ftable f { s.ftable f with ref := 0, type := .none }
  fileclose_faults : ∀ {s f e}, Faults (L.fileclose f) s e → e = .panic "fileclose" ∨
    (s.ftable f).ref = 1 ∧ Faults (s.ftable f).release s.fs e

/-- Pipes and copies to user memory leave the operations on the file system as they are. -/
structure PipeLaws (L : FileLayer χ) : Prop where
  pipealloc : ∀ {s t r}, Ends L.pipealloc s r t → t.fs.ops = s.fs.ops
  copyout : ∀ {s t addr src n ok}, Ends (L.copyout addr src n) s ok t → t.fs.ops = s.fs.ops

def setFile (f : FilePtr) (x : File) : Exec (Sys χ) Fault Unit :=
  modify fun s => { s with ftable := Function.update s.ftable f x }

def Sys.freeFile (s : Sys χ) : Option FilePtr :=
  (List.finRange Param.NFILE).find? fun f => decide ((s.ftable f).ref = 0)

def takeFile : Exec (Sys χ) Fault (Option FilePtr) := do
  let s ← get
  match s.freeFile with
  | none => return none
  | some f => do
    setFile f { s.ftable f with ref := 1 }
    return some f

def dropFile [Superblock] (f : FilePtr) : Exec (Sys χ) Fault Unit := do
  let x := (← get).ftable f
  if x.ref < 1 then panicAt "fileclose"
  else if 1 < x.ref then setFile f { x with ref := x.ref - 1 }
  else do
    setFile f { x with ref := 0, type := .none }
    zoom Sys.fs (fun u s => { s with fs := u }) x.release

def fileTable [Superblock] : FileLayer χ where
  writable s f := (s.ftable f).writable
  filealloc := takeFile
  filedup f := do
    let x := (← get).ftable f
    if x.ref < 1 then panicAt "filedup"
    else setFile f { x with ref := x.ref + 1 }
  fileclose := dropFile
  pipealloc := do
    match ← takeFile with
    | none => return none
    | some rf =>
      match ← takeFile with
      | none => do
        dropFile rf
        return none
      | some wf => return some (rf, wf)
  copyout _ _ _ := return true
  vma_unmap _ _ _ := return ()

theorem refs_setFile (s : Sys χ) (f : FilePtr) (x : File) :
    refs { s with ftable := Function.update s.ftable f x } =
      refs s + Pi.single f (x.ref - refs s f) := by
  funext g
  show (Function.update s.ftable f x g).ref = refs s g + (Pi.single f _ : FilePtr → ℤ) g
  by_cases hg : g = f
  · rw [hg, Function.update_self, Pi.single_eq_same]
    omega
  · rw [Function.update_of_ne hg, Pi.single_eq_of_ne hg, add_zero]
    rfl

theorem FilesClosed.setFile {s : Sys χ} (h : FilesClosed s) {t : Sys χ} {f : FilePtr} {x : File}
    (ht : t.ftable = Function.update s.ftable f x) (hx : x.ref = 0 → x.type = .none) :
    FilesClosed t := by
  intro g hg
  rw [ht] at hg ⊢
  by_cases hgf : g = f
  · subst hgf
    rw [Function.update_self] at hg ⊢
    exact hx hg
  · rw [Function.update_of_ne hgf] at hg ⊢
    exact h g hg

theorem takeFile_ends {s t : Sys χ} {r : Option FilePtr} (h : Ends takeFile s r t) :
    (r = none ∧ (∀ f, (s.ftable f).ref ≠ 0) ∧ t = s) ∨ ∃ f, r = some f ∧ refs s f = 0 ∧
      t = { s with ftable := Function.update s.ftable f { s.ftable f with ref := 1 } } := by
  have h := ends_get_bind.mp h
  split at h
  · rename_i hnone
    have hfull : ∀ f, (s.ftable f).ref ≠ 0 := by simpa [Sys.freeFile] using hnone
    obtain ⟨rfl, rfl⟩ := ends_pure.mp h
    exact Or.inl ⟨rfl, hfull, rfl⟩
  · rename_i f hf
    simp only [setFile, ends_bind, ends_modify, ends_pure] at h
    obtain ⟨_, _, rfl, rfl, rfl⟩ := h
    exact Or.inr ⟨f, rfl, by simpa [refs] using List.find?_some hf, rfl⟩

theorem takeFile_returns {s : Sys χ} {e : Fault} : ¬ Faults takeFile s e := by
  intro he
  have he := faults_get_bind.mp he
  split at he <;> simp [setFile] at he

theorem takeFile_none {s t : Sys χ} (h : Ends takeFile s none t) : t = s := by
  obtain ⟨-, -, ht⟩ | ⟨f, hf, -⟩ := takeFile_ends h
  · exact ht
  · cases hf

theorem takeFile_some {s t : Sys χ} {f : FilePtr} (h : Ends takeFile s (some f) t) :
    refs s f = 0 ∧ refs t = refs s + Pi.single f 1 := by
  rcases takeFile_ends h with ⟨hn, -⟩ | ⟨g, hg, h0, rfl⟩
  · cases hn
  · obtain rfl := Option.some.inj hg
    refine ⟨h0, ?_⟩
    rw [refs_setFile, h0, sub_zero]

variable [Superblock]

theorem dropFile_ends {s t : Sys χ} {f : FilePtr} (h : Ends (dropFile f) s () t) :
    1 < (s.ftable f).ref ∧ t.fs = s.fs ∧
      t.ftable = Function.update s.ftable f { s.ftable f with ref := (s.ftable f).ref - 1 } ∨
    (s.ftable f).ref = 1 ∧ Ends (s.ftable f).release s.fs () t.fs ∧
      t.ftable = Function.update s.ftable f { s.ftable f with ref := 0, type := .none } := by
  have h := ends_get_bind.mp h
  dsimp only at h
  split at h
  · simp [panicAt] at h
  split at h
  · rename_i hmore
    obtain rfl := ends_modify.mp h
    exact .inl ⟨hmore, rfl, rfl⟩
  · obtain ⟨_, u, hu, h⟩ := ends_bind.mp h
    obtain rfl := ends_modify.mp hu
    obtain ⟨v, hv, rfl⟩ := ends_zoom.mp h
    exact .inr ⟨by omega, hv, rfl⟩

theorem dropFile_faults {s : Sys χ} {f : FilePtr} {e : Fault} (h : Faults (dropFile f) s e) :
    e = .panic "fileclose" ∨ (s.ftable f).ref = 1 ∧ Faults (s.ftable f).release s.fs e := by
  have h := faults_get_bind.mp h
  dsimp only at h
  split at h
  · exact .inl (by simpa [panicAt] using h)
  split at h
  · simp [setFile] at h
  · obtain hmod | ⟨_, u, hu, h⟩ := faults_bind.mp h
    · simp [setFile] at hmod
    obtain rfl := ends_modify.mp hu
    have hrelease := faults_zoom.mp h
    exact .inr ⟨by omega, hrelease⟩

theorem dropFile_refs {s t : Sys χ} {f : FilePtr} (h : Ends (dropFile f) s () t) :
    refs t = refs s - Pi.single f 1 := by
  have hdrop : ∀ x : File, x.ref = refs s f - 1 → t.ftable = Function.update s.ftable f x →
      refs t = refs s - Pi.single f 1 := by
    intro x hx ht
    have hrefs : refs t = refs { s with ftable := Function.update s.ftable f x } := by
      unfold refs
      rw [ht]
    funext g
    rw [hrefs, refs_setFile, hx, sub_sub_cancel_left]
    simp only [Pi.add_apply, Pi.sub_apply, Pi.single_apply]
    split <;> omega
  obtain ⟨-, -, hft⟩ | ⟨h1, -, hft⟩ := dropFile_ends h
  · exact hdrop _ rfl hft
  · refine hdrop _ ?_ hft
    show (0 : ℤ) = (s.ftable f).ref - 1
    omega

theorem fileTable_laws : FileLaws (fileTable (χ := χ)) where
  filealloc h := by rw [takeFile_none h]
  filealloc_some h := takeFile_some h
  pipealloc {s t} h := by
    obtain ⟨r, u, hu, h⟩ := ends_bind.mp h
    cases r with
    | none =>
      obtain ⟨-, rfl⟩ := ends_pure.mp h
      rw [takeFile_none hu]
    | some rf =>
      obtain ⟨hrf, hur⟩ := takeFile_some hu
      obtain ⟨r, v, hv, h⟩ := ends_bind.mp h
      cases r with
      | none =>
        obtain ⟨_, w, hw, h⟩ := ends_bind.mp h
        obtain ⟨-, rfl⟩ := ends_pure.mp h
        rw [takeFile_none hv] at hw
        rw [dropFile_refs hw, hur,
          add_sub_cancel_right]
      | some wf => simp at h
  pipealloc_some {s t rf wf} h := by
    obtain ⟨r, u, hu, h⟩ := ends_bind.mp h
    cases r with
    | none => simp at h
    | some rf' =>
      obtain ⟨hrf, hur⟩ := takeFile_some hu
      obtain ⟨r, v, hv, h⟩ := ends_bind.mp h
      cases r with
      | none => simp at h
      | some wf' =>
        obtain ⟨he, rfl⟩ := ends_pure.mp h
        simp only [Option.some.injEq, Prod.mk.injEq] at he
        obtain ⟨rfl, rfl⟩ := he
        obtain ⟨hwf, hvr⟩ := takeFile_some hv
        have hne : rf ≠ wf := by
          rintro rfl
          rw [hur] at hwf
          simp [hrf] at hwf
        rw [hur, Pi.add_apply, Pi.single_eq_of_ne hne.symm, add_zero] at hwf
        exact ⟨hne, hrf, hwf, by rw [hvr, hur]⟩
  filedup {s t f} hf h := by
    have h := ends_get_bind.mp h
    have hlt : ¬ (s.ftable f).ref < 1 := Int.not_lt.mpr hf
    simp only [if_neg hlt] at h
    obtain rfl := ends_modify.mp h
    rw [refs_setFile]
    show refs s + Pi.single f ((s.ftable f).ref + 1 - (s.ftable f).ref) = _
    rw [add_sub_cancel_left]
  fileclose _ h := dropFile_refs h
  copyout h := by rw [(ends_pure.mp h).2]
  vma_unmap h := by rw [(ends_pure.mp h).2]

omit pm in
theorem File.release_none {x : File} (h : x.type = .none) : x.release = return () := by
  unfold File.release
  rw [if_neg (by simp [h])]

theorem fileTable_openLaws : OpenLaws (fileTable (χ := χ)) where
  filealloc h := by rw [takeFile_none h]; exact ⟨rfl, rfl⟩
  filealloc_some h := by
    obtain ⟨hn, -⟩ | ⟨g, hg, h0, rfl⟩ := takeFile_ends h
    · cases hn
    · obtain rfl := Option.some.inj hg
      exact ⟨h0, rfl, rfl⟩
  fileclose {s t f} href htype h := by
    obtain ⟨hmore, -⟩ | ⟨-, hrelease, hft⟩ := dropFile_ends h
    · omega
    rw [File.release_none htype] at hrelease
    obtain ⟨-, hfs⟩ := ends_pure.mp hrelease
    refine ⟨hfs, hft.trans ?_⟩
    rw [← htype]

theorem fileTable_tableLaws : TableLaws (fileTable (χ := χ)) where
  toOpenLaws := fileTable_openLaws
  filealloc_full h := by
    obtain ⟨-, hfull, -⟩ | ⟨f, hf, -⟩ := takeFile_ends h
    · exact hfull
    · cases hf
  filealloc_returns := takeFile_returns
  fileclose_returns {s f e} href htype he := by
    rcases dropFile_faults he with rfl | ⟨-, he⟩
    · have hrun := faults_get_bind.mp he
      simp only [href] at hrun
      obtain hmod | ⟨_, u, -, hz⟩ := faults_bind.mp hrun
      · simp [setFile] at hmod
      · rw [File.release_none htype] at hz
        simp at hz
    · rw [File.release_none htype] at he
      simp at he

theorem fileTable_closeLaws : CloseLaws (fileTable (χ := χ)) where
  toTableLaws := fileTable_tableLaws
  filedup_ends {s t f} h := by
    have h := ends_get_bind.mp h
    dsimp only at h
    split at h
    · simp [panicAt] at h
    · rename_i hpos
      obtain rfl := ends_modify.mp h
      exact ⟨not_lt.mp hpos, rfl, rfl⟩
  filedup_faults h := by
    have h := faults_get_bind.mp h
    dsimp only at h
    split at h
    · simpa [panicAt] using h
    · simp [setFile] at h
  fileclose_ends h := dropFile_ends h
  fileclose_faults h := dropFile_faults h

end Xv6Sheet.Kernel
