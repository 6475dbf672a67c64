import Mathlib.Data.Fin.Basic
import Mathlib.Data.List.FinRange
import Mathlib.Logic.Function.Basic
import Xv6Sheet.Disk.Layout
import Xv6Sheet.Lib.Wp

/-! # Processes

The part of a process the system calls work on: its descriptor table, its mappings, its
size and its current directory. What the file layer and the virtual memory do for the
calls lies outside the code verified here and is a parameter of it.
-/

namespace Xv6Sheet

open Exec

/-- The limits of `param.h`. -/
class Param where
  NOFILE : ℕ
  NINODE : ℕ
  NDEV : ℕ
  MAXPATH : ℕ
  MAX_VMA : ℕ
  NFILE : ℕ
  NPROC : ℕ

variable {φ σ α : Type}

/-- `struct vma`: a mapping of a file `f : φ`, with a 64-bit address and `int` fields. -/
structure Vma (φ : Type) where
  valid : Bool
  addr : ℕ
  length : ℤ
  prot : ℤ
  flags : ℤ
  f : φ
  offset : ℤ

/-- The `x & flag` of an `int`, as a condition. -/
def hasFlag (x : ℤ) (flag : ℕ) : Bool := (x % 2 ^ 32).toNat &&& flag != 0

variable [pm : Param]

/-- `struct proc`. -/
structure Proc (φ : Type) [Param] where
  ofile : Fin Param.NOFILE → Option φ
  vmas : Fin Param.MAX_VMA → Vma φ
  sz : ℕ
  cwd : ℕ

structure Task (φ σ : Type) [Param] where
  proc : Proc φ
  sys : σ

def onSys (m : Exec σ Fault α) : Exec (Task φ σ) Fault α :=
  zoom Task.sys (fun u s => { s with sys := u }) m

def modifyProc (g : Proc φ → Proc φ) : Exec (Task φ σ) Fault Unit :=
  modify fun s => { s with proc := g s.proc }

@[simp] theorem ends_onSys {m : Exec σ Fault α} {s t : Task φ σ} {a : α} :
    Ends (onSys m) s a t ↔ ∃ u, Ends m s.sys a u ∧ t = ⟨s.proc, u⟩ := ends_zoom

@[simp] theorem faults_onSys {m : Exec σ Fault α} {s : Task φ σ} {e : Fault} :
    Faults (onSys m) s e ↔ Faults m s.sys e := faults_zoom

@[simp] theorem ends_modifyProc {g : Proc φ → Proc φ} {s t : Task φ σ} {u : Unit} :
    Ends (modifyProc g) s u t ↔ t = ⟨g s.proc, s.sys⟩ := ends_modify

@[simp] theorem faults_modifyProc {g : Proc φ → Proc φ} {s : Task φ σ} {e : Fault} :
    ¬ Faults (modifyProc g) s e := faults_modify

@[simp] theorem wp_onSys {E : Fault → Prop} {m : Exec σ Fault α} {Q : α → Task φ σ → Prop}
    {s : Task φ σ} : Wp E (onSys m) Q s ↔ Wp E m (fun a u => Q a ⟨s.proc, u⟩) s.sys := wp_zoom

@[simp] theorem wp_modifyProc {E : Fault → Prop} {g : Proc φ → Proc φ}
    {Q : Unit → Task φ σ → Prop} {s : Task φ σ} :
    Wp E (modifyProc g) Q s ↔ Q () ⟨g s.proc, s.sys⟩ := wp_modify

namespace Proc

def setFile (p : Proc φ) (fd : Fin Param.NOFILE) (f : Option φ) : Proc φ :=
  { p with ofile := Function.update p.ofile fd f }

def setVma (p : Proc φ) (i : Fin Param.MAX_VMA) (v : Vma φ) : Proc φ :=
  { p with vmas := Function.update p.vmas i v }

@[simp] theorem setFile_vmas (p : Proc φ) (fd : Fin Param.NOFILE) (f : Option φ) :
    (p.setFile fd f).vmas = p.vmas := rfl

@[simp] theorem setFile_ofile_self (p : Proc φ) (fd : Fin Param.NOFILE) (f : Option φ) :
    (p.setFile fd f).ofile fd = f := Function.update_self ..

theorem setFile_ofile_of_ne {p : Proc φ} {fd k : Fin Param.NOFILE} {f : Option φ} (h : k ≠ fd) :
    (p.setFile fd f).ofile k = p.ofile k := Function.update_of_ne h ..

@[simp] theorem setVma_ofile (p : Proc φ) (i : Fin Param.MAX_VMA) (v : Vma φ) :
    (p.setVma i v).ofile = p.ofile := rfl

@[simp] theorem setVma_sz (p : Proc φ) (i : Fin Param.MAX_VMA) (v : Vma φ) :
    (p.setVma i v).sz = p.sz := rfl

@[simp] theorem setVma_vmas_self (p : Proc φ) (i : Fin Param.MAX_VMA) (v : Vma φ) :
    (p.setVma i v).vmas i = v := Function.update_self ..

theorem setVma_vmas_of_ne {p : Proc φ} {i j : Fin Param.MAX_VMA} {v : Vma φ} (h : j ≠ i) :
    (p.setVma i v).vmas j = p.vmas j := Function.update_of_ne h ..

/-- Fetch a system call argument as a file descriptor, with the file it stands for. -/
def argfd (p : Proc φ) (fd : ℤ) : Option (Fin Param.NOFILE × φ) :=
  if h : 0 ≤ fd ∧ fd < (Param.NOFILE : ℤ) then
    (p.ofile ⟨fd.toNat, by omega⟩).map fun f => (⟨fd.toNat, by omega⟩, f)
  else none

theorem ofile_of_argfd {p : Proc φ} {fd : ℤ} {k : Fin Param.NOFILE} {f : φ}
    (h : p.argfd fd = some (k, f)) : p.ofile k = some f := by
  unfold argfd at h
  split at h
  · obtain ⟨g, hg, he⟩ := Option.map_eq_some_iff.mp h
    obtain ⟨rfl, rfl⟩ := Prod.mk.inj he
    exact hg
  · simp at h

/-- The descriptor that `fdalloc` takes. -/
def freeFd (p : Proc φ) : Option (Fin Param.NOFILE) :=
  (List.finRange Param.NOFILE).find? fun fd => (p.ofile fd).isNone

theorem ofile_of_freeFd {p : Proc φ} {fd : Fin Param.NOFILE} (h : p.freeFd = some fd) :
    p.ofile fd = none := by
  simpa using List.find?_some h

end Proc

def fdalloc (f : φ) : Exec (Task φ σ) Fault (Option (Fin Param.NOFILE)) := do
  match (← get).proc.freeFd with
  | some fd => do
    modifyProc fun p => p.setFile fd (some f)
    return some fd
  | none => return none

theorem wp_fdalloc {E : Fault → Prop} {f : φ} {s : Task φ σ} :
    Wp E (fdalloc f) (fun r t => r = s.proc.freeFd ∧ match r with
      | none => t = s
      | some fd => s.proc.ofile fd = none ∧ t = ⟨s.proc.setFile fd (some f), s.sys⟩) s := by
  unfold fdalloc
  rw [wp_bind, wp_get]
  cases h : s.proc.freeFd with
  | none => exact wp_pure.mpr ⟨rfl, rfl⟩
  | some fd =>
    rw [wp_bind, wp_modifyProc, wp_pure]
    exact ⟨rfl, Proc.ofile_of_freeFd h, rfl⟩

/-- What the calls use of the file layer and of the virtual memory: the state of files is
part of `σ`. -/
structure FileOps (φ σ : Type) where
  writable : σ → φ → Bool
  filedup : φ → Exec σ Fault Unit
  fileclose : φ → Exec σ Fault Unit
  vma_unmap : Vma φ → ℕ → ℤ → Exec σ Fault Unit

end Xv6Sheet
