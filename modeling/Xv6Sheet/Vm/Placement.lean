import Mathlib.Data.Finset.Lattice.Fold
import Mathlib.Data.Fintype.Basic
import Mathlib.Order.Lattice.Nat
import Xv6Sheet.Lib.Run
import Xv6Sheet.Vm.Mmap

/-! # Where mappings are placed

A mapping goes to the top: the highest end of the mappings in use. Nothing compares the
top with the size of the process or with the end of the user address space, so the
mapping lies between them exactly when the top does.
-/

namespace Xv6Sheet

open Exec

def MAXVA : ℕ := 2 ^ 38

variable {φ σ : Type}

def Vma.stop (v : Vma φ) : ℤ := v.addr + v.length

/-- The mapping lies outside the addresses from `lo` up to `hi`. -/
def Vma.Outside (v : Vma φ) (lo hi : ℤ) : Prop := v.stop ≤ lo ∨ hi ≤ v.addr

structure Vma.Paged (v : Vma φ) : Prop where
  addr_dvd : PGSIZE ∣ v.addr
  length_dvd : (PGSIZE : ℤ) ∣ v.length
  pos : 0 < v.length
  addr_lt : v.addr < 2 ^ 64
  length_lt : v.length < 2 ^ 31

theorem Vma.Paged.end64_dvd {v : Vma φ} (h : v.Paged) : PGSIZE ∣ v.end64 := by
  have ha := h.addr_dvd
  have hl := h.length_dvd
  simp only [Vma.end64, PGSIZE] at *
  omega

variable [pm : Param]

namespace Proc

variable {p : Proc φ}

def Paged (p : Proc φ) : Prop := ∀ i, (p.vmas i).valid = true → (p.vmas i).Paged

def top (p : Proc φ) : ℕ :=
  ({i | (p.vmas i).valid = true} : Finset (Fin Param.MAX_VMA)).sup
    (fun i => (p.vmas i).end64) ⊔ 0x40000000

theorem base_eq_top (h : ∀ i, (p.vmas i).valid = true → PGSIZE ∣ (p.vmas i).end64) :
    p.base = p.top := by
  obtain ⟨hmin, -, hle, hex⟩ := base_spec h
  apply Nat.le_antisymm
  · rcases hex with he | ⟨i, hv, he⟩
    · rw [he]; exact le_sup_right
    · rw [he]
      refine le_trans ?_ le_sup_left
      exact Finset.le_sup (f := fun i => (p.vmas i).end64) (by simpa using hv)
  · refine sup_le (Finset.sup_le fun i hi => hle i (by simpa using hi)) hmin

/-- The range of `length` bytes at `a` lies in the user address space, above the process
and outside every mapping. -/
def Fits (p : Proc φ) (a : ℕ) (length : ℤ) : Prop :=
  p.sz ≤ a ∧ a + length ≤ MAXVA ∧
    ∀ i, (p.vmas i).valid = true → (p.vmas i).Outside a (a + length)

theorem outside_top (h : p.Paged) {length : ℤ}
    (hmax : p.top + length ≤ MAXVA) {i : Fin Param.MAX_VMA} (hv : (p.vmas i).valid = true) :
    (p.vmas i).Outside p.top (p.top + length) := by
  obtain ⟨-, -, hle, -⟩ := base_spec fun i hv => (h i hv).end64_dvd
  have hend := hle i hv
  rw [base_eq_top fun i hv => (h i hv).end64_dvd] at hend
  have hpos := (h i hv).pos
  have hlt := (h i hv).length_lt
  have haddr := (h i hv).addr_lt
  -- the mapping ends below the top, or it wraps and starts far above
  simp only [Vma.Outside, Vma.stop, Vma.end64, MAXVA] at *
  omega

end Proc

/-- Lengths are positive page multiples, and only whole mappings are unmapped. -/
def WholeOnly (s : Task φ σ) : VmCall → Prop
  | .mmap _ length _ _ _ _ => 0 < length.toInt ∧ (PGSIZE : ℤ) ∣ length.toInt
  | .munmap addr length => ∀ i, s.proc.findVma addr.toNat = some i →
    addr.toNat = (s.proc.vmas i).addr ∧ length.toInt = (s.proc.vmas i).length

instance (s : Task φ σ) (c : VmCall) : Decidable (WholeOnly s c) :=
  match c with
  | .mmap _ length _ _ _ _ =>
    inferInstanceAs (Decidable (0 < length.toInt ∧ (PGSIZE : ℤ) ∣ length.toInt))
  | .munmap addr length =>
    inferInstanceAs (Decidable (∀ i, s.proc.findVma addr.toNat = some i →
      addr.toNat = (s.proc.vmas i).addr ∧ length.toInt = (s.proc.vmas i).length))

variable {ops : FileOps φ σ} {s t : Task φ σ}

theorem Proc.Paged.setVma {p : Proc φ} (h : p.Paged) {i : Fin Param.MAX_VMA} {v : Vma φ}
    (hv : v.valid = true → v.Paged) : (p.setVma i v).Paged := by
  intro j hj
  by_cases hji : j = i
  · subst hji
    rw [Proc.setVma_vmas_self] at hj ⊢
    exact hv hj
  · rw [Proc.setVma_vmas_of_ne hji] at hj ⊢
    exact h j hj

theorem wholeOnly_paged {c : VmCall} {r : ℤ} (h : s.proc.Paged) (hg : WholeOnly s c)
    (he : Ends (vmCall ops c) s r t) : t.proc.Paged := by
  cases c with
  | mmap addr length prot flags fd offset =>
    obtain ⟨hpos, hdvd⟩ := hg
    rcases sysMmap_cases he with ⟨-, rfl, -⟩ | ⟨k, f, i, -, -, -, -, hproc, -⟩
    · exact h
    · obtain ⟨-, hbase, -, hex⟩ := Proc.base_spec fun i hv => (h i hv).end64_dvd
      have hlt := length.toInt_lt
      rw [hproc]
      refine h.setVma fun _ => ⟨hbase, ?_, ?_, ?_, ?_⟩
      · rw [pgroundupInt_of_dvd hdvd length.le_toInt hlt]; exact hdvd
      · rw [pgroundupInt_of_dvd hdvd length.le_toInt hlt]; exact hpos
      · rcases hex with he | ⟨j, -, he⟩
        · show s.proc.base < 2 ^ 64
          rw [he]
          decide
        · show s.proc.base < 2 ^ 64
          rw [he]
          exact Vma.end64_lt _
      · rw [pgroundupInt_of_dvd hdvd length.le_toInt hlt]; exact hlt
  | munmap addr length =>
    rcases sysMunmap_cases he with ⟨-, rfl, -⟩ | ⟨i, u, hfind, -, hproc, -⟩
    · exact h
    · rw [hproc, Vma.unmap, if_pos (hg i hfind)]
      exact h.setVma fun hv => by simp at hv

/-- The call answers -1, or an address range that fits; and -1 when no range fits. -/
def MmapFits (ops : FileOps φ σ) (s : Task φ σ) (addr : UInt64)
    (length prot flags fd offset : Int32) : Prop :=
  ∃ r t, Ends (vmCall ops (.mmap addr length prot flags fd offset)) s r t ∧
    (r ≠ -1 → ∃ a : ℕ, r = a ∧ s.proc.Fits a length.toInt) ∧
    ((¬ ∃ a, s.proc.Fits a length.toInt) → r = -1)

/-- After any run that unmaps only whole mappings, the next mapping lies in the user address
space above the process exactly when the call is refused or the top does. -/
theorem mmap_fits_iff (h : Reached (vmCall ops) WholeOnly (fun s => s.proc.NoVma) s)
    (hlive : ops.Live s) (addr : UInt64) (length prot flags fd offset : Int32) :
    MmapFits ops s addr length prot flags fd offset ↔
      Refused ops s prot.toInt flags.toInt fd.toInt ∨
        (s.proc.sz ≤ s.proc.top ∧ s.proc.top + length.toInt ≤ MAXVA) := by
  have hpaged : s.proc.Paged := by
    apply Reached.invariant (I := fun s => s.proc.Paged) _ _ h
    · intro s hs i hv
      simp [hs i] at hv
    · exact fun s t c r hs hg he => wholeOnly_paged hs hg he
  have hbase := Proc.base_eq_top fun i hv => (hpaged i hv).end64_dvd
  constructor
  · rintro ⟨r, t, he, hfits, -⟩
    rcases sysMmap_cases he with ⟨-, -, href⟩ | ⟨k, f, i, -, -, -, hr, -, -⟩
    · exact Or.inl href
    · obtain ⟨a, hra, hsz, hmax, -⟩ := hfits (by omega)
      obtain rfl : a = s.proc.top := by omega
      exact Or.inr ⟨hsz, hmax⟩
  · intro hcond
    obtain ⟨r, t, he⟩ := sysMmap_ends hlive length.toInt prot.toInt flags.toInt fd.toInt
      offset.toInt
    refine ⟨r, t, he, ?_⟩
    rcases sysMmap_cases he with ⟨rfl, -, -⟩ | ⟨k, f, i, -, -, -, hr, -, href⟩
    · exact ⟨fun hr => absurd rfl hr, fun _ => rfl⟩
    · obtain ⟨hsz, hmax⟩ := hcond.resolve_left href
      have hfit : s.proc.Fits s.proc.top length.toInt :=
        ⟨hsz, hmax, fun i hv => Proc.outside_top hpaged hmax hv⟩
      exact ⟨fun _ => ⟨s.proc.top, by rw [hr, hbase], hfit⟩, fun hno => absurd ⟨_, hfit⟩ hno⟩

def onceTask : @Task ℕ (ℕ → ℤ) smallParam :=
  let _ := smallParam
  ⟨(freshTask 0x3000).proc.setVma ⟨0, Nat.zero_lt_succ 15⟩ ⟨true, 0x40000000, 0x3000, 3, 1, 0, 0⟩,
    Function.update (fun _ => 1) 0 2⟩

def twiceTask : @Task ℕ (ℕ → ℤ) smallParam :=
  let _ := smallParam
  ⟨onceTask.proc.setVma ⟨1, Nat.one_lt_succ_succ 14⟩ ⟨true, onceTask.proc.base, 0x2000, 3, 1, 0, 0⟩,
    Function.update onceTask.sys 0 3⟩

def remappedTask : @Task ℕ (ℕ → ℤ) smallParam :=
  let _ := smallParam
  ⟨twiceTask.proc.setVma ⟨0, Nat.zero_lt_succ 15⟩ ⟨false, 0x40000000, 0x3000, 3, 1, 0, 0⟩,
    Function.update twiceTask.sys 0 2⟩

omit pm in
theorem remappedTask_reached :
    letI := smallParam
    Reached (vmCall countingOps) WholeOnly (fun s => s.proc.NoVma) remappedTask := by
  let _ := smallParam
  have hfirst : Ends (vmCall countingOps (.mmap 0 0x3000 3 1 0 0)) (freshTask 0x3000) 0x40000000
      onceTask := rfl
  have hsecond : Ends (vmCall countingOps (.mmap 0 0x2000 3 1 0 0)) onceTask onceTask.proc.base
      twiceTask := rfl
  have hfind : twiceTask.proc.findVma 0x40000000 = some ⟨0, by decide⟩ := by decide +kernel
  have haddr : 0x40000000 = (twiceTask.proc.vmas ⟨0, by decide⟩).addr := by decide +kernel
  have hunmap : Ends (countingOps.vma_unmap (twiceTask.proc.vmas ⟨0, by decide⟩) 0x40000000
      (twiceTask.proc.vmas ⟨0, by decide⟩).length) twiceTask.sys () twiceTask.sys := rfl
  have hclose : Ends (countingOps.fileclose (twiceTask.proc.vmas ⟨0, by decide⟩).f) twiceTask.sys ()
      remappedTask.sys := rfl
  have hwhole := sysMunmap_whole hfind haddr hunmap hclose
  have hthird : Ends (sysMunmap countingOps 0x40000000 0x3000) twiceTask 0 remappedTask := hwhole
  exact ((Reached.call (.init fun _ => rfl) (by decide) hfirst).call (by decide) hsecond).call
    (c := .munmap 0x40000000 0x3000) (by decide +kernel) hthird

omit pm in
/-- A page is mapped behind the mapping that is left. -/
theorem mmap_fits_small :
    letI := smallParam
    remappedTask.proc.top = 0x40005000 ∧ MmapFits countingOps remappedTask 0 4096 3 1 0 0 := by
  let _ := smallParam
  refine ⟨by decide +kernel, (mmap_fits_iff remappedTask_reached (countingOps_live fun f => ?_)
    0 4096 3 1
    0 0).mpr (Or.inr (by decide))⟩
  unfold remappedTask twiceTask onceTask
  by_cases hf : f = 0 <;> simp [hf]

omit pm in
/-- A process that has grown beyond the start of the mapping area gets a mapping over its
own memory. -/
theorem mmap_over_process :
    letI := smallParam
    Reached (vmCall countingOps) WholeOnly (fun s => s.proc.NoVma) (freshTask 0x40001000) ∧
      ¬ MmapFits countingOps (freshTask 0x40001000) 0 4096 3 1 0 0 := by
  let _ := smallParam
  have hinit : Reached (vmCall countingOps) WholeOnly (fun s => s.proc.NoVma)
      (freshTask 0x40001000) := .init fun _ => rfl
  refine ⟨hinit, ?_⟩
  rintro ⟨r, t, he, hfits, -⟩
  rcases sysMmap_cases he with ⟨-, -, href⟩ | ⟨k, f, i, -, -, -, rfl, -, -⟩
  · rcases href with hn | hn
    · exact absurd hn (by decide)
    · exact absurd (hn 0 0 (by decide)) (by decide)
  · obtain ⟨a, ha, hsz, -⟩ := hfits (by decide)
    have hbase : (freshTask 0x40001000).proc.base = 0x40000000 := by decide
    have hsz' : 0x40001000 ≤ a := hsz
    omega

end Xv6Sheet
