import Mathlib.Tactic.Abel
import Xv6Sheet.Kernel.FileTable
import Xv6Sheet.Lib.Count
import Xv6Sheet.Lib.Run

/-! # References to open files

The descriptors and the mappings of a process account for the reference counts of its open
files. A call may hold further references in hand while it runs; it ends with none.
-/

namespace Xv6Sheet.Kernel

open Exec

variable {χ : Type} [pm : Param]

/-- How often each file was handed out and how often it was closed by its last reference;
how often a file without references was to be duplicated or closed. -/
structure History where
  opened : FilePtr → ℕ
  closed : FilePtr → ℕ
  misused : ℕ

namespace History

def open' (h : History) (f : FilePtr) : History := { h with opened := h.opened + Pi.single f 1 }

/-- The file `f` is closed if its count was `r = 1`. -/
def close (h : History) (f : FilePtr) (r : ℤ) : History :=
  if r = 1 then { h with closed := h.closed + Pi.single f 1 } else h

end History

def beside {α : Type} (m : Exec (Sys χ) Fault α) : Exec (Sys (χ × History)) Fault α :=
  zoom (fun s => ⟨s.fs, s.ftable, s.rest.1⟩) (fun u s => ⟨u.fs, u.ftable, (u.rest, s.rest.2)⟩) m

def record (g : History → History) : Exec (Sys (χ × History)) Fault Unit :=
  modify fun s => { s with rest := (s.rest.1, g s.rest.2) }

/-- Use a file that has a reference; when it has none, where the file layer panics, only
note it. -/
def referenced (f : FilePtr) (m : ℤ → Exec (Sys (χ × History)) Fault Unit) :
    Exec (Sys (χ × History)) Fault Unit := do
  let r := refs (← get) f
  if r < 1 then record fun h => { h with misused := h.misused + 1 }
  else m r

def FileLayer.recorded (L : FileLayer χ) : FileLayer (χ × History) where
  writable s := L.writable ⟨s.fs, s.ftable, s.rest.1⟩
  filedup f := referenced f fun _ => beside (L.filedup f)
  fileclose f := referenced f fun r => do
    beside (L.fileclose f)
    record fun h => h.close f r
  vma_unmap v addr n := beside (L.vma_unmap v addr n)
  filealloc := do
    match ← beside L.filealloc with
    | none => return none
    | some f => do
      record fun h => h.open' f
      return some f
  pipealloc := do
    match ← beside L.pipealloc with
    | none => return none
    | some (rf, wf) => do
      record fun h => (h.open' rf).open' wf
      return some (rf, wf)
  copyout addr src n := beside (L.copyout addr src n)

/-- The calls that work on the descriptors and mappings of a process, with the arguments as
machine words. -/
inductive FileCall
  | open' (path : StrArg) (omode : Int32)
  | dup (fd : Int32)
  | close (fd : Int32)
  | pipe (fdarray : UInt64)
  | vm (c : VmCall)

def fileCall [Superblock] (L : FileLayer χ) : FileCall → TaskM χ ℤ
  | .open' path omode => sysOpen L path omode.toInt
  | .dup fd => sysDup L fd.toInt
  | .close fd => sysClose L fd.toInt
  | .pipe fdarray => sysPipe L fdarray.toNat
  | .vm c => vmCall L.toFileOps c

end Xv6Sheet.Kernel

namespace Xv6Sheet.Proc

variable [pm : Param]

/-- The number of descriptors for `f`. -/
def descriptors (p : Proc Kernel.FilePtr) (f : Kernel.FilePtr) : ℕ :=
  count (fun o => o = some f) p.ofile

def mappings (p : Proc Kernel.FilePtr) (f : Kernel.FilePtr) : ℕ :=
  count (fun v => v.valid = true ∧ v.f = f) p.vmas

def held (p : Proc Kernel.FilePtr) : Kernel.FilePtr → ℤ :=
  fun f => p.descriptors f + p.mappings f

variable {p : Proc Kernel.FilePtr} {f : Kernel.FilePtr}

theorem held_nonneg (p : Proc Kernel.FilePtr) (f : Kernel.FilePtr) : 0 ≤ p.held f := by
  unfold held
  omega

theorem held_setFile (p : Proc Kernel.FilePtr) (fd : Fin Param.NOFILE)
    (o : Option Kernel.FilePtr) (f : Kernel.FilePtr) :
    (p.setFile fd o).held f + (if p.ofile fd = some f then 1 else 0) =
      p.held f + if o = some f then 1 else 0 := by
  have hc := count_update (fun o => o = some f) p.ofile fd o
  have hf : ((p.setFile fd o).descriptors f : ℤ) + (if p.ofile fd = some f then 1 else 0) =
      p.descriptors f + if o = some f then 1 else 0 := by
    unfold descriptors setFile
    exact_mod_cast hc
  have hm : (p.setFile fd o).mappings f = p.mappings f := rfl
  unfold held
  rw [hm]
  omega

theorem held_setVma (p : Proc Kernel.FilePtr) (i : Fin Param.MAX_VMA) (v : Vma Kernel.FilePtr)
    (f : Kernel.FilePtr) :
    (p.setVma i v).held f + (if (p.vmas i).valid = true ∧ (p.vmas i).f = f then 1 else 0) =
      p.held f + if v.valid = true ∧ v.f = f then 1 else 0 := by
  have hc := count_update (fun v : Vma Kernel.FilePtr => v.valid = true ∧ v.f = f) p.vmas i v
  have hm : ((p.setVma i v).mappings f : ℤ) +
      (if (p.vmas i).valid = true ∧ (p.vmas i).f = f then 1 else 0) =
      p.mappings f + if v.valid = true ∧ v.f = f then 1 else 0 := by
    unfold mappings setVma
    exact_mod_cast hc
  have hd : (p.setVma i v).descriptors f = p.descriptors f := rfl
  unfold held
  rw [hd]
  omega

end Xv6Sheet.Proc

namespace Xv6Sheet.Kernel

open Exec

variable {χ : Type} [pm : Param]

/-- Every file has been closed as often as it was handed out, less the one time it is open
now; none was used without a reference. -/
structure Recorded (s : Sys (χ × History)) : Prop where
  closed : ∀ f, s.rest.2.opened f = s.rest.2.closed f + if 0 < refs s f then 1 else 0
  used : s.rest.2.misused = 0

theorem Recorded.opened {f : FilePtr} {s : Sys (χ × History)} (h : Recorded s)
    {t : Sys (χ × History)} (hf : refs s f = 0) (ht : refs t = refs s + Pi.single f 1)
    (hh : t.rest.2 = s.rest.2.open' f) : Recorded t := by
  refine ⟨fun g => ?_, by rw [hh]; exact h.used⟩
  have hc := h.closed g
  have hu : refs t g = refs s g + (Pi.single f 1 : FilePtr → ℤ) g := by rw [ht]; rfl
  rw [hh, hu, Pi.single_apply]
  show s.rest.2.opened g + (Pi.single f 1 : FilePtr → ℕ) g = s.rest.2.closed g + _
  rw [Pi.single_apply]
  by_cases hg : g = f
  · subst hg
    rw [if_pos rfl, if_pos rfl, if_pos (by omega)]
    rw [if_neg (by omega)] at hc
    omega
  · rwa [if_neg hg, if_neg hg, add_zero, add_zero]

/-- The process holds all references to files but those in `b`. -/
structure Balanced (b : FilePtr → ℤ) (s : Task FilePtr (Sys (χ × History))) : Prop where
  refs_eq : ∀ f, refs s.sys f = s.proc.held f + b f
  recorded : Recorded s.sys

namespace Balanced

variable {b b' : FilePtr → ℤ} {s : Task FilePtr (Sys (χ × History))} {f : FilePtr}
  {L : FileLayer χ}

theorem congr (h : Balanced b s) (hb : b = b') : Balanced b' s := hb ▸ h

theorem one_le (h : Balanced b s) (hf : 1 ≤ b f) : 1 ≤ refs s.sys f := by
  have hr := h.refs_eq f
  have hn := s.proc.held_nonneg f
  omega

theorem setFile (h : Balanced b s) {fd : Fin Param.NOFILE} (hfd : s.proc.ofile fd = none)
    (f : FilePtr) : Balanced (b - Pi.single f 1) ⟨s.proc.setFile fd (some f), s.sys⟩ := by
  refine ⟨fun g => ?_, h.recorded⟩
  have hr := h.refs_eq g
  have hs := s.proc.held_setFile fd (some f) g
  rw [hfd] at hs
  simp only [reduceCtorEq, if_false, Option.some.injEq, eq_comm (a := f)] at hs
  simp only [Pi.sub_apply, Pi.single_apply]
  omega

theorem clearFile (h : Balanced b s) {fd : Fin Param.NOFILE} (hfd : s.proc.ofile fd = some f) :
    Balanced (b + Pi.single f 1) ⟨s.proc.setFile fd none, s.sys⟩ := by
  refine ⟨fun g => ?_, h.recorded⟩
  have hr := h.refs_eq g
  have hs := s.proc.held_setFile fd none g
  rw [hfd] at hs
  simp only [reduceCtorEq, if_false, Option.some.injEq, eq_comm (a := f)] at hs
  simp only [Pi.add_apply, Pi.single_apply]
  omega

theorem of_refs (h : Balanced b s) {t : Sys (χ × History)} {d : FilePtr → ℤ}
    (ht : refs t = refs s.sys + d) (hrec : Recorded t) : Balanced (b + d) ⟨s.proc, t⟩ := by
  refine ⟨fun g => ?_, hrec⟩
  have hr := h.refs_eq g
  show refs t g = s.proc.held g + (b + d) g
  rw [ht, Pi.add_apply, Pi.add_apply]
  omega

theorem of_refs_eq (h : Balanced b s) {t : Sys (χ × History)} (ht : refs t = refs s.sys)
    (hh : t.rest.2 = s.sys.rest.2) : Balanced b ⟨s.proc, t⟩ where
  refs_eq g := by rw [ht]; exact h.refs_eq g
  recorded := ⟨fun g => by rw [ht, hh]; exact h.recorded.closed g, hh ▸ h.recorded.used⟩

theorem onFs {α : Type} (h : Balanced b s) (m : FsM α) :
    Wp (fun _ => True) (onFs m) (fun _ t => Balanced b t) s :=
  wp_onFs.mpr ⟨fun _ _ _ => h.of_refs_eq rfl rfl, fun _ _ => trivial⟩

theorem modifyFile (h : Balanced b s) {g : File → File} (hg : ∀ x, (g x).ref = x.ref) :
    Wp (fun _ => True) (modifyFile f g) (fun _ t => Balanced b t) s := by
  refine wp_modifyFile.mpr (h.of_refs_eq (funext fun k => ?_) rfl)
  show (Function.update s.sys.ftable f (g (s.sys.ftable f)) k).ref = (s.sys.ftable k).ref
  by_cases hk : k = f
  · rw [hk, Function.update_self, hg]
  · rw [Function.update_of_ne hk]

theorem beside {α : Type} {m : Exec (Sys χ) Fault α} (h : Balanced b s)
    (hm : ∀ {s t a}, Ends m s a t → refs t = refs s) :
    Wp (fun _ => True) (onSys (beside m)) (fun _ t => Balanced b t ∧ t.proc = s.proc) s := by
  refine wp_onSys.mpr (wp_zoom.mpr ⟨fun a u hu => ⟨h.of_refs_eq ?_ rfl, rfl⟩, fun _ _ => trivial⟩)
  exact hm hu

theorem fileclose (h : Balanced b s) (hL : FileLaws L) (hf : 1 ≤ refs s.sys f) :
    Wp (fun _ => True) (onSys (L.recorded.fileclose f))
      (fun _ t => Balanced (b - Pi.single f 1) t ∧ t.proc = s.proc) s := by
  refine wp_onSys.mpr (wp_bind.mpr (wp_get.mpr ?_))
  rw [if_neg (Int.not_lt.mpr hf)]
  refine wp_bind.mpr (wp_zoom.mpr ⟨fun _ u hu => wp_modify.mpr ⟨?_, rfl⟩, fun _ _ => trivial⟩)
  have hr : refs u = refs s.sys - Pi.single f 1 := hL.fileclose hf hu
  rw [sub_eq_add_neg]
  refine h.of_refs (hr.trans (sub_eq_add_neg ..)) ⟨fun g => ?_, ?_⟩
  · have hc := h.recorded.closed g
    have hu : refs u g = refs s.sys g - (Pi.single f 1 : FilePtr → ℤ) g := by rw [hr]; rfl
    show (History.close _ f _).opened g = (History.close _ f _).closed g +
      if 0 < refs u g then 1 else 0
    rw [hu, Pi.single_apply]
    unfold History.close
    by_cases hg : g = f
    · subst hg
      rw [if_pos rfl]
      rw [if_pos (by omega)] at hc
      split
      · rename_i h1
        rw [if_neg (by omega)]
        simpa using hc
      · rename_i h1
        rw [if_pos (by omega)]
        exact hc
    · rw [if_neg hg, sub_zero]
      split
      · simpa [hg] using hc
      · exact hc
  · show (History.close _ f _).misused = 0
    unfold History.close
    split <;> exact h.recorded.used

theorem filedup (h : Balanced b s) (hL : FileLaws L) (hf : 1 ≤ refs s.sys f) :
    Wp (fun _ => True) (onSys (L.recorded.filedup f))
      (fun _ t => Balanced (b + Pi.single f 1) t ∧ t.proc = s.proc) s := by
  refine wp_onSys.mpr (wp_bind.mpr (wp_get.mpr ?_))
  rw [if_neg (Int.not_lt.mpr hf)]
  refine wp_zoom.mpr ⟨fun _ u hu => ⟨?_, rfl⟩, fun _ _ => trivial⟩
  have hr : refs u = refs s.sys + Pi.single f 1 := hL.filedup hf hu
  refine h.of_refs hr ⟨fun g => ?_, h.recorded.used⟩
  have hc := h.recorded.closed g
  have hu : refs u g = refs s.sys g + (Pi.single f 1 : FilePtr → ℤ) g := by rw [hr]; rfl
  show s.sys.rest.2.opened g = s.sys.rest.2.closed g + if 0 < refs u g then 1 else 0
  rw [hu, Pi.single_apply]
  by_cases hg : g = f
  · subst hg
    rw [if_pos rfl, if_pos (by omega)]
    rwa [if_pos (by omega)] at hc
  · rwa [if_neg hg, add_zero]

theorem filealloc (h : Balanced b s) (hL : FileLaws L) :
    Wp (fun _ => True) (onSys L.recorded.filealloc) (fun r t => t.proc = s.proc ∧
      match r with
      | none => Balanced b t
      | some f => Balanced (b + Pi.single f 1) t) s := by
  refine wp_onSys.mpr (wp_bind.mpr (wp_zoom.mpr ⟨fun r u hu => ?_, fun _ _ => trivial⟩))
  cases r with
  | none => exact wp_pure.mpr ⟨rfl, h.of_refs_eq (hL.filealloc hu) rfl⟩
  | some f =>
    obtain ⟨h0, hr⟩ := hL.filealloc_some hu
    exact wp_bind.mpr (wp_modify.mpr (wp_pure.mpr
      ⟨rfl, h.of_refs hr (h.recorded.opened h0 hr rfl)⟩))

theorem pipealloc (h : Balanced b s) (hL : FileLaws L) :
    Wp (fun _ => True) (onSys L.recorded.pipealloc) (fun r t => t.proc = s.proc ∧
      match r with
      | none => Balanced b t
      | some (rf, wf) => Balanced (b + Pi.single rf 1 + Pi.single wf 1) t) s := by
  refine wp_onSys.mpr (wp_bind.mpr (wp_zoom.mpr ⟨fun r u hu => ?_, fun _ _ => trivial⟩))
  rcases r with - | ⟨rf, wf⟩
  · exact wp_pure.mpr ⟨rfl, h.of_refs_eq (hL.pipealloc hu) rfl⟩
  · obtain ⟨hne, hrf, hwf, hr⟩ := hL.pipealloc_some hu
    refine wp_bind.mpr (wp_modify.mpr (wp_pure.mpr ⟨rfl, ?_⟩))
    -- the two ends are handed out one after the other
    obtain ⟨v, hv, hh⟩ : ∃ v : Sys (χ × History), refs v = refs s.sys + Pi.single rf 1 ∧
        v.rest.2 = s.sys.rest.2.open' rf :=
      ⟨⟨s.sys.fs, fun g => { s.sys.ftable g with
        ref := (refs s.sys + Pi.single rf 1 : FilePtr → ℤ) g },
        (s.sys.rest.1, s.sys.rest.2.open' rf)⟩, rfl, rfl⟩
    have hrv : Recorded v := h.recorded.opened hrf hv hh
    have hwv : refs v wf = 0 := by
      rw [hv, Pi.add_apply, Pi.single_eq_of_ne hne.symm, add_zero]
      exact hwf
    refine ((h.of_refs hv hrv).of_refs (t := _) (d := Pi.single wf 1) ?_ ?_)
    · rw [hv]; exact hr
    · exact hrv.opened hwv (by rw [hv]; exact hr) (by rw [hh])

theorem openFile (h : Balanced 0 s) (hL : FileLaws L) :
    Wp (fun _ => True) (openFile L.recorded) (fun _ t => Balanced 0 t) s := by
  refine wp_bind.mpr ((h.filealloc hL).mono fun r t ⟨_, ht⟩ => ?_)
  rcases r with - | f
  · exact wp_pure.mpr ht
  · rw [wp_bind]
    refine wp_fdalloc.mono fun r u hu => ?_
    obtain ⟨-, hu⟩ := hu
    cases r with
    | none =>
      subst hu
      refine wp_bind.mpr ((ht.fileclose hL (ht.one_le (by simp))).mono fun _ v hv => ?_)
      exact wp_pure.mpr (hv.1.congr (by simp))
    | some fd =>
      obtain ⟨hfd, rfl⟩ := hu
      exact wp_pure.mpr ((ht.setFile hfd f).congr (by simp))

variable [sb : Superblock]

theorem openInode (h : Balanced 0 s) (hL : FileLaws L) (ip : ℕ) (omode : ℤ) :
    Wp (fun _ => True) (openInode L.recorded ip omode) (fun _ t => Balanced 0 t) s := by
  refine wp_bind.mpr ((h.onFs _).mono fun i t ht => ?_)
  split
  · refine wp_bind.mpr ((ht.onFs _).mono fun _ u hu => wp_bind.mpr ((hu.onFs _).mono ?_))
    exact fun _ v hv => wp_pure.mpr hv
  · refine wp_bind.mpr ((ht.openFile hL).mono fun r u hu => ?_)
    rcases r with - | ⟨f, fd⟩
    · refine wp_bind.mpr ((hu.onFs _).mono fun _ v hv => wp_bind.mpr ((hv.onFs _).mono ?_))
      exact fun _ w hw => wp_pure.mpr hw
    · refine wp_bind.mpr ((hu.onFs _).mono fun i v hv => wp_bind.mpr ((hv.modifyFile ?_).mono ?_))
      · intro x
        split <;> rfl
      refine fun _ w hw => wp_bind.mpr ((hw.modifyFile ?_).mono fun _ x hx => ?_)
      · exact fun _ => rfl
      have htrunc : Wp (fun _ => True)
          (if hasFlag omode O_TRUNC ∧ i.type = T_FILE then Kernel.onFs (itrunc ip) else return ())
          (fun _ t => Balanced 0 t) x := by
        split
        · exact hx.onFs _
        · exact wp_pure.mpr hx
      refine wp_bind.mpr (htrunc.mono fun _ y hy => wp_bind.mpr ((hy.onFs _).mono fun _ z hz => ?_))
      exact wp_bind.mpr ((hz.onFs _).mono fun _ w hw => wp_pure.mpr hw)

theorem sysOpen (h : Balanced 0 s) (hL : FileLaws L) (path : StrArg) (omode : ℤ) :
    Wp (fun _ => True) (sysOpen L.recorded path omode) (fun _ t => Balanced 0 t) s := by
  refine wp_bind.mpr (wp_get.mpr ?_)
  have hfail : ∀ t, Balanced 0 t → Wp (fun _ => True) (do
      Kernel.onFs (χ := χ × History) endOp
      return (-1 : ℤ)) (fun _ t => Balanced 0 t) t := fun t ht =>
    wp_bind.mpr ((ht.onFs _).mono fun _ u hu => wp_pure.mpr hu)
  split
  · exact wp_pure.mpr h
  refine wp_bind.mpr ((h.onFs _).mono fun _ t ht => ?_)
  split
  · refine wp_bind.mpr ((ht.onFs _).mono fun r u hu => ?_)
    cases r with
    | none => exact hfail u hu
    | some ip => exact hu.openInode hL ip omode
  · refine wp_bind.mpr ((ht.onFs _).mono fun r u hu => ?_)
    cases r with
    | none => exact hfail u hu
    | some ip =>
      refine wp_bind.mpr ((hu.onFs _).mono fun _ v hv => wp_bind.mpr ((hv.onFs _).mono ?_))
      intro i w hw
      split
      · exact wp_bind.mpr ((hw.onFs _).mono fun _ x hx => hfail x hx)
      · exact hw.openInode hL ip omode

omit sb

theorem sysDup (h : Balanced 0 s) (hL : FileLaws L) (fd : ℤ) :
    Wp (fun _ => True) (sysDup L.recorded fd) (fun _ t => Balanced 0 t) s := by
  refine wp_bind.mpr (wp_get.mpr ?_)
  split
  · exact wp_pure.mpr h
  · rename_i k f hfd
    refine wp_bind.mpr (wp_fdalloc.mono fun r t ht => ?_)
    obtain ⟨-, ht⟩ := ht
    cases r with
    | none => exact wp_pure.mpr (ht ▸ h)
    | some k' =>
      obtain ⟨hk', rfl⟩ := ht
      -- the new descriptor stands before its reference is counted; the old one has one
      have hold : 1 ≤ refs s.sys f := by
        have hd : 0 < s.proc.descriptors f := count_pos (Proc.ofile_of_argfd hfd)
        have hr := h.refs_eq f
        simp only [Proc.held, Pi.zero_apply] at hr
        omega
      have hdup := (h.setFile hk' f).filedup hL hold
      exact wp_bind.mpr (hdup.mono fun _ t ht => wp_pure.mpr (ht.1.congr (by simp)))

theorem sysClose (h : Balanced 0 s) (hL : FileLaws L) (fd : ℤ) :
    Wp (fun _ => True) (sysClose L.recorded fd) (fun _ t => Balanced 0 t) s := by
  refine wp_bind.mpr (wp_get.mpr ?_)
  split
  · exact wp_pure.mpr h
  · rename_i k f hfd
    have hclear := h.clearFile (Proc.ofile_of_argfd hfd)
    refine wp_bind.mpr (wp_modifyProc.mpr (wp_bind.mpr ?_))
    refine (hclear.fileclose hL (hclear.one_le (by simp))).mono fun _ t ht => ?_
    exact wp_pure.mpr (ht.1.congr (by simp))

theorem pipeBad {rf wf : FilePtr} (hL : FileLaws L) (fds : List (Fin Param.NOFILE))
    (h : Balanced (Pi.single rf 1 + Pi.single wf 1)
      ⟨fds.foldl (fun p fd => p.setFile fd none) s.proc, s.sys⟩) :
    Wp (fun _ => True) (pipeBad L.recorded rf wf fds) (fun _ t => Balanced 0 t) s := by
  have hrf : 1 ≤ (Pi.single rf 1 + Pi.single wf 1 : FilePtr → ℤ) rf := by
    simp only [Pi.add_apply, Pi.single_apply, if_true]
    split <;> omega
  refine wp_bind.mpr (wp_modifyProc.mpr (wp_bind.mpr ?_))
  refine (h.fileclose hL (h.one_le hrf)).mono fun _ t ht => ?_
  have ht' : Balanced (Pi.single wf 1) t := ht.1.congr (by abel)
  refine wp_bind.mpr ((ht'.fileclose hL (ht'.one_le (by simp))).mono fun _ u hu => ?_)
  exact wp_pure.mpr (hu.1.congr (by simp))

theorem sysPipe (h : Balanced 0 s) (hL : FileLaws L) (fdarray : ℕ) :
    Wp (fun _ => True) (sysPipe L.recorded fdarray) (fun _ t => Balanced 0 t) s := by
  refine wp_bind.mpr ((h.pipealloc hL).mono fun r t ⟨_, ht⟩ => ?_)
  rcases r with - | ⟨rf, wf⟩
  · exact wp_pure.mpr ht
  have ht : Balanced (Pi.single rf 1 + Pi.single wf 1) t := ht.congr (by simp)
  refine wp_bind.mpr (wp_fdalloc.mono fun r u hu => ?_)
  obtain ⟨-, hu⟩ := hu
  cases r with
  | none =>
    subst hu
    exact pipeBad hL [] ht
  | some fd0 =>
    obtain ⟨hfd0, rfl⟩ := hu
    have hu := ht.setFile hfd0 rf
    refine wp_bind.mpr (wp_fdalloc.mono fun r v hv => ?_)
    obtain ⟨-, hv⟩ := hv
    cases r with
    | none =>
      subst hv
      refine pipeBad hL [fd0] ?_
      have hclear := hu.clearFile (Proc.setFile_ofile_self ..)
      exact hclear.congr (by abel)
    | some fd1 =>
      obtain ⟨hfd1, rfl⟩ := hv
      have hv : Balanced 0 ⟨(t.proc.setFile fd0 (some rf)).setFile fd1 (some wf), t.sys⟩ :=
        (hu.setFile hfd1 wf).congr (by abel)
      have hne : fd0 ≠ fd1 := by
        rintro rfl
        simp [Proc.setFile] at hfd1
      -- whatever `copyout` does, both descriptors stand
      have hbad : ∀ w : Task FilePtr (Sys (χ × History)), Balanced 0 w →
          w.proc = (t.proc.setFile fd0 (some rf)).setFile fd1 (some wf) →
          Wp (fun _ => True) (Kernel.pipeBad L.recorded rf wf [fd0, fd1])
            (fun _ t => Balanced 0 t) w := by
        intro w hw hp
        have h0 : w.proc.ofile fd0 = some rf := by
          rw [hp, Proc.setFile_ofile_of_ne hne, Proc.setFile_ofile_self]
        have h1 : (w.proc.setFile fd0 none).ofile fd1 = some wf := by
          rw [Proc.setFile_ofile_of_ne hne.symm, hp, Proc.setFile_ofile_self]
        have hclear := (hw.clearFile h0).clearFile h1
        exact pipeBad hL [fd0, fd1] (hclear.congr (by simp))
      refine wp_bind.mpr ((hv.beside hL.copyout).mono fun ok w ⟨hw, hp⟩ => ?_)
      cases ok with
      | false => exact hbad w hw hp
      | true =>
        refine wp_bind.mpr ((hw.beside hL.copyout).mono fun ok x ⟨hx, hp'⟩ => ?_)
        cases ok with
        | false => exact hbad x hx (hp'.trans hp)
        | true => exact wp_pure.mpr hx

theorem sysMmap (h : Balanced 0 s) (hL : FileLaws L) (length prot flags fd offset : ℤ) :
    Wp (fun _ => True) (sysMmap L.recorded.toFileOps length prot flags fd offset)
      (fun _ t => Balanced 0 t) s := by
  refine ⟨fun r t he => ?_, fun _ _ => trivial⟩
  rcases sysMmap_cases he with ⟨-, rfl, -⟩ | ⟨k, f, i, hfd, hslot, hdup, -, hproc, -⟩
  · exact h
  · have hold : 1 ≤ refs s.sys f := by
      have hd : 0 < s.proc.descriptors f := count_pos (Proc.ofile_of_argfd hfd)
      have hr := h.refs_eq f
      simp only [Proc.held, Pi.zero_apply] at hr
      omega
    have hb := ((wp_onSys.mp (h.filedup hL hold)).1 () t.sys hdup).1
    refine ⟨fun g => ?_, hb.recorded⟩
    have hr : refs t.sys g = _ := hb.refs_eq g
    have hs := s.proc.held_setVma i
      ⟨true, s.proc.base, pgroundupInt length, prot, flags, f, offset⟩ g
    rw [← hproc, Proc.freeVma_spec hslot] at hs
    simp only [Bool.false_eq_true, false_and, if_false, true_and, eq_comm (a := f)] at hs
    simp only [Pi.add_apply, Pi.zero_apply, Pi.single_apply] at hr ⊢
    omega

theorem sysMunmap (h : Balanced 0 s) (hL : FileLaws L) (addr : ℕ) (length : ℤ) :
    Wp (fun _ => True) (sysMunmap L.recorded.toFileOps addr length)
      (fun _ t => Balanced 0 t) s := by
  refine ⟨fun r t he => ?_, fun _ _ => trivial⟩
  rcases sysMunmap_cases he with ⟨-, rfl, -⟩ | ⟨i, u, hfind, -, hproc, hunmap, hclose⟩
  · exact h
  obtain ⟨hvalid, -, -⟩ := Proc.findVma_spec hfind
  have hu := ((wp_onSys.mp (h.beside hL.vma_unmap)).1 () u hunmap).1
  have hs := s.proc.held_setVma i ((s.proc.vmas i).unmap addr length)
  rw [← hproc] at hs
  split at hclose
  · rename_i hw
    have hold : 1 ≤ refs u (s.proc.vmas i).f := by
      have hm : 0 < s.proc.mappings (s.proc.vmas i).f := count_pos (i := i) ⟨hvalid, rfl⟩
      have hr : refs u _ = _ := hu.refs_eq (s.proc.vmas i).f
      simp only [Proc.held, Pi.zero_apply] at hr
      omega
    have hb := ((wp_onSys.mp (hu.fileclose hL hold)).1 () t.sys hclose).1
    refine ⟨fun g => ?_, hb.recorded⟩
    have hr : refs t.sys g = _ := hb.refs_eq g
    have hg := hs g
    rw [Vma.unmap, if_pos hw] at hg
    simp only [hvalid, Bool.false_eq_true, false_and, if_false, true_and] at hg
    simp only [Pi.sub_apply, Pi.zero_apply, Pi.single_apply, eq_comm (a := g)] at hr ⊢
    omega
  · rename_i hw
    have ht : t.sys = u := hclose
    refine ⟨fun g => ?_, ht ▸ hu.recorded⟩
    have hr : refs u g = _ := hu.refs_eq g
    have hg := hs g
    have hcut : ((s.proc.vmas i).cut addr length).valid = (s.proc.vmas i).valid ∧
        ((s.proc.vmas i).cut addr length).f = (s.proc.vmas i).f := by
      unfold Vma.cut
      split <;> exact ⟨rfl, rfl⟩
    rw [Vma.unmap, if_neg hw, hcut.1, hcut.2] at hg
    rw [ht, hr]
    simp only [Pi.zero_apply] at hr ⊢
    omega

theorem fileCall [Superblock] (h : Balanced 0 s) (hL : FileLaws L) (c : FileCall) :
    Wp (fun _ => True) (fileCall L.recorded c) (fun _ t => Balanced 0 t) s := by
  cases c with
  | open' path omode => exact h.sysOpen hL path omode.toInt
  | dup fd => exact h.sysDup hL fd.toInt
  | close fd => exact h.sysClose hL fd.toInt
  | pipe fdarray => exact h.sysPipe hL fdarray.toNat
  | vm c =>
    cases c with
    | mmap addr length prot flags fd offset =>
      exact h.sysMmap hL length.toInt prot.toInt flags.toInt fd.toInt offset.toInt
    | munmap addr length => exact h.sysMunmap hL addr.toNat length.toInt

end Balanced

/-- The files open at the start are those of the process. -/
structure Start (s : Task FilePtr (Sys (χ × History))) : Prop where
  refs_eq : ∀ f, refs s.sys f = s.proc.descriptors f + s.proc.mappings f
  opened : ∀ f, s.sys.rest.2.opened f = if 0 < refs s.sys f then 1 else 0
  closed : ∀ f, s.sys.rest.2.closed f = 0
  misused : s.sys.rest.2.misused = 0

theorem Start.balanced {s : Task FilePtr (Sys (χ × History))} (h : Start s) : Balanced 0 s where
  refs_eq f := by rw [h.refs_eq, Pi.zero_apply, add_zero, Proc.held]
  recorded := ⟨fun f => by rw [h.opened, h.closed, zero_add], h.misused⟩

/-- In every state a process reaches, the count of a file is the number of its descriptors
and valid mappings; a file without any has been closed once for each time it was handed
out, any other once less; and no file was duplicated or closed without a reference. -/
theorem file_refs_exact [Superblock] {L : FileLayer χ} (hL : FileLaws L)
    {s : Task FilePtr (Sys (χ × History))}
    (h : Reached (fileCall L.recorded) (fun _ _ => True) Start s) :
    (∀ f, refs s.sys f = s.proc.descriptors f + s.proc.mappings f) ∧
      (∀ f, s.sys.rest.2.opened f = s.sys.rest.2.closed f +
        if s.proc.descriptors f + s.proc.mappings f = 0 then 0 else 1) ∧
      s.sys.rest.2.misused = 0 := by
  have hb : Balanced 0 s := by
    apply Reached.invariant (I := fun s => Balanced 0 s) _ _ h
    · exact fun s hs => hs.balanced
    · exact fun s t c a hs _ he => (hs.fileCall hL c).1 a t he
  have hr : ∀ f, refs s.sys f = s.proc.descriptors f + s.proc.mappings f := fun f => by
    rw [hb.refs_eq f, Pi.zero_apply, add_zero, Proc.held]
  refine ⟨hr, fun f => ?_, hb.recorded.used⟩
  have hc := hb.recorded.closed f
  have hf := hr f
  by_cases h0 : s.proc.descriptors f + s.proc.mappings f = 0
  · rw [if_pos h0]
    rwa [if_neg (by omega)] at hc
  · rw [if_neg h0]
    rwa [if_pos (by omega)] at hc

omit pm in
/-- A pipe, of which one end is duplicated and mapped and the other closed. -/
theorem file_refs_exact_small :
    letI := smallParam
    letI := smallDisk
    ∃ s : Task FilePtr (Sys (Unit × History)),
      Reached (fileCall (fileTable (χ := Unit)).recorded) (fun _ _ => True) Start s ∧
      let rf : FilePtr := ⟨0, by decide⟩
      let wf : FilePtr := ⟨1, by decide⟩
      refs s.sys rf = s.proc.descriptors rf + s.proc.mappings rf ∧ refs s.sys rf = 3 ∧
      s.sys.rest.2.opened wf = 1 ∧ s.sys.rest.2.closed wf = 1 := by
  let _ := smallParam
  let _ := smallDisk
  let s₀ : Task FilePtr (Sys (Unit × History)) :=
    { proc := ⟨fun _ => none, fun _ => ⟨false, 0, 0, 0, 0, ⟨0, by decide⟩, 0⟩, 0, 0⟩
      sys := ⟨⟨.small fun _ => 1, 0⟩, fun _ => ⟨.none, 0, false, false, 0, 0, 0⟩,
        ((), ⟨0, 0, 0⟩)⟩ }
  have h₀ : Start s₀ := by
    refine ⟨fun f => ?_, fun _ => rfl, fun _ => rfl, rfl⟩
    have hd : s₀.proc.descriptors f = 0 := count_eq_zero.mpr fun i => by simp [s₀]
    have hm : s₀.proc.mappings f = 0 := count_eq_zero.mpr fun i => by simp [s₀]
    rw [hd, hm]
    rfl
  have h : Reached (fileCall (fileTable (χ := Unit)).recorded) (fun _ _ => True) Start
      (afterAll (fileCall (fileTable (χ := Unit)).recorded)
        [.pipe 0, .dup 0, .vm (.mmap 0 8192 1 2 0 0), .close 1] s₀) :=
    (Reached.init h₀).calls (by decide +kernel)
  refine ⟨_, h, (file_refs_exact fileTable_laws h).1 _, ?_, ?_, ?_⟩
  all_goals decide +kernel

end Xv6Sheet.Kernel
