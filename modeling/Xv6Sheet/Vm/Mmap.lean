import Xv6Sheet.Kernel.Proc

/-! # Mapping files

`sys_mmap` and `sys_munmap` over the mapping table of a process. A new mapping goes above
the highest end in use; an unmapping drops the mapping it hits or moves one of its ends.
-/

namespace Xv6Sheet

open Exec

def PGSIZE : ℕ := 4096

def MAP_SHARED : ℕ := 0x01
def PROT_WRITE : ℕ := 0x2

def pgroundup (x : ℕ) : ℕ := (x + (PGSIZE - 1)) % 2 ^ 64 / PGSIZE * PGSIZE

def pgroundupInt (x : ℤ) : ℤ := Int.bmod (x + (PGSIZE - 1)) (2 ^ 32) / PGSIZE * PGSIZE

variable {φ σ : Type}

/-- `v->addr + v->length` as a `uint64`. -/
def Vma.end64 (v : Vma φ) : ℕ := (((v.addr : ℤ) + v.length) % 2 ^ 64).toNat

theorem pgroundupInt_of_dvd {x : ℤ} (h : (PGSIZE : ℤ) ∣ x) (hlo : -2 ^ 31 ≤ x)
    (hhi : x < 2 ^ 31) : pgroundupInt x = x := by
  simp only [pgroundupInt, PGSIZE] at *
  rw [Int.bmod_eq_of_le (by omega) (by omega)]
  omega

theorem pgroundup_of_dvd {x : ℕ} (h : PGSIZE ∣ x) (hx : x < 2 ^ 64) : pgroundup x = x := by
  simp only [pgroundup, PGSIZE] at *
  omega

theorem Vma.end64_lt (v : Vma φ) : v.end64 < 2 ^ 64 := by
  unfold Vma.end64
  omega

variable [pm : Param]

namespace Proc

def freeVma (p : Proc φ) : Option (Fin Param.MAX_VMA) :=
  (List.finRange Param.MAX_VMA).find? fun i => !(p.vmas i).valid

def base (p : Proc φ) : ℕ :=
  (List.finRange Param.MAX_VMA).foldl (fun base i =>
    if (p.vmas i).valid ∧ (p.vmas i).end64 > base then pgroundup (p.vmas i).end64 else base)
    0x40000000

def findVma (p : Proc φ) (addr : ℕ) : Option (Fin Param.MAX_VMA) :=
  (List.finRange Param.MAX_VMA).find? fun i =>
    (p.vmas i).valid && decide ((p.vmas i).addr ≤ addr) && decide (addr < (p.vmas i).end64)

end Proc

def sysMmap (ops : FileOps φ σ) (length prot flags fd offset : ℤ) :
    Exec (Task φ σ) Fault ℤ := do
  let s ← get
  match s.proc.argfd fd with
  | none => return -1
  | some (_, f) =>
    if hasFlag flags MAP_SHARED ∧ hasFlag prot PROT_WRITE ∧ ops.writable s.sys f = false then
      return -1
    else
      let length := pgroundupInt length
      match s.proc.freeVma with
      | none => return -1
      | some i => do
        let base := s.proc.base
        onSys (ops.filedup f)
        modifyProc fun p => p.setVma i ⟨true, base, length, prot, flags, f, offset⟩
        return base

/-- A mapping of which a part is unmapped, at its start or else at its end. -/
def Vma.cut (v : Vma φ) (addr : ℕ) (length : ℤ) : Vma φ :=
  if addr = v.addr then
    { v with
      addr := (((v.addr : ℤ) + length) % 2 ^ 64).toNat
      offset := Int.bmod (v.offset + length) (2 ^ 32)
      length := Int.bmod (v.length - length) (2 ^ 32) }
  else { v with length := Int.bmod (v.length - length) (2 ^ 32) }

def sysMunmap (ops : FileOps φ σ) (addr : ℕ) (length : ℤ) : Exec (Task φ σ) Fault ℤ := do
  let s ← get
  match s.proc.findVma addr with
  | none => return -1
  | some i => do
    let v := s.proc.vmas i
    onSys (ops.vma_unmap v addr length)
    if addr = v.addr ∧ length = v.length then do
      onSys (ops.fileclose v.f)
      modifyProc fun p => p.setVma i { v with valid := false }
      return 0
    else do
      modifyProc fun p => p.setVma i (v.cut addr length)
      return 0

/-- The mapping a call of `sys_munmap` leaves. -/
def Vma.unmap (v : Vma φ) (addr : ℕ) (length : ℤ) : Vma φ :=
  if addr = v.addr ∧ length = v.length then { v with valid := false } else v.cut addr length

namespace Proc

variable {p : Proc φ}

theorem freeVma_spec {i : Fin Param.MAX_VMA} (h : p.freeVma = some i) :
    (p.vmas i).valid = false := by simpa using List.find?_some h

theorem findVma_spec {addr : ℕ} {i : Fin Param.MAX_VMA} (h : p.findVma addr = some i) :
    (p.vmas i).valid = true ∧ (p.vmas i).addr ≤ addr ∧ addr < (p.vmas i).end64 := by
  simpa [and_assoc] using List.find?_some h

end Proc

section Step

variable {ops : FileOps φ σ} {s t : Task φ σ} {r : ℤ}

/-- The call is refused: no such file, a file that may not be written, or no slot left. -/
def Refused (ops : FileOps φ σ) (s : Task φ σ) (prot flags fd : ℤ) : Prop :=
  s.proc.freeVma = none ∨ ∀ k f, s.proc.argfd fd = some (k, f) →
    hasFlag flags MAP_SHARED ∧ hasFlag prot PROT_WRITE ∧ ops.writable s.sys f = false

theorem sysMmap_cases {length prot flags fd offset : ℤ}
    (h : Ends (sysMmap ops length prot flags fd offset) s r t) :
    (r = -1 ∧ t = s ∧ Refused ops s prot flags fd) ∨
      ∃ k f i, s.proc.argfd fd = some (k, f) ∧ s.proc.freeVma = some i ∧
        Ends (ops.filedup f) s.sys () t.sys ∧ r = s.proc.base ∧
        t.proc = s.proc.setVma i
          ⟨true, s.proc.base, pgroundupInt length, prot, flags, f, offset⟩ ∧
        ¬ Refused ops s prot flags fd := by
  unfold sysMmap at h
  simp only [ends_bind, ends_get] at h
  obtain ⟨_, _, ⟨rfl, rfl⟩, h⟩ := h
  split at h
  · rename_i hfd
    obtain ⟨rfl, rfl⟩ := ends_pure.mp h
    exact Or.inl ⟨rfl, rfl, Or.inr (by simp [hfd])⟩
  · rename_i k f hfd
    split at h
    · rename_i hperm
      obtain ⟨rfl, rfl⟩ := ends_pure.mp h
      refine Or.inl ⟨rfl, rfl, Or.inr fun k' f' hf => ?_⟩
      obtain ⟨-, rfl⟩ := Prod.mk.inj (Option.some.inj (hfd.symm.trans hf))
      exact hperm
    · rename_i hperm
      split at h
      · rename_i hslot
        obtain ⟨rfl, rfl⟩ := ends_pure.mp h
        exact Or.inl ⟨rfl, rfl, Or.inl hslot⟩
      · rename_i i hslot
        simp only [ends_bind, ends_onSys, ends_modifyProc, ends_pure] at h
        obtain ⟨⟨⟩, _, ⟨u, hdup, rfl⟩, _, _, rfl, rfl, rfl⟩ := h
        refine Or.inr ⟨k, f, i, hfd, hslot, hdup, rfl, rfl, ?_⟩
        rintro (hn | hn)
        · simp [hslot] at hn
        · exact hperm (hn k f hfd)

theorem sysMunmap_cases {addr : ℕ} {length : ℤ} (h : Ends (sysMunmap ops addr length) s r t) :
    (r = -1 ∧ t = s ∧ s.proc.findVma addr = none) ∨
      ∃ i u, s.proc.findVma addr = some i ∧ r = 0 ∧
        t.proc = s.proc.setVma i ((s.proc.vmas i).unmap addr length) ∧
        Ends (ops.vma_unmap (s.proc.vmas i) addr length) s.sys () u ∧
        if addr = (s.proc.vmas i).addr ∧ length = (s.proc.vmas i).length then
          Ends (ops.fileclose (s.proc.vmas i).f) u () t.sys
        else t.sys = u := by
  unfold sysMunmap at h
  simp only [ends_bind, ends_get] at h
  obtain ⟨_, _, ⟨rfl, rfl⟩, h⟩ := h
  split at h
  · rename_i hfind
    obtain ⟨rfl, rfl⟩ := ends_pure.mp h
    exact Or.inl ⟨rfl, rfl, hfind⟩
  · rename_i i hfind
    simp only [ends_bind, ends_onSys] at h
    obtain ⟨⟨⟩, _, ⟨u, hun, rfl⟩, h⟩ := h
    unfold Vma.unmap
    split at h
    · rename_i hw
      simp only [ends_bind, ends_onSys, ends_modifyProc, ends_pure] at h
      obtain ⟨⟨⟩, _, ⟨u', hclose, rfl⟩, _, _, rfl, rfl, rfl⟩ := h
      refine Or.inr ⟨i, u, hfind, rfl, ?_⟩
      rw [if_pos hw, if_pos hw]
      exact ⟨rfl, hun, hclose⟩
    · rename_i hw
      simp only [ends_bind, ends_modifyProc, ends_pure] at h
      obtain ⟨_, _, rfl, rfl, rfl⟩ := h
      refine Or.inr ⟨i, u, hfind, rfl, ?_⟩
      rw [if_neg hw, if_neg hw]
      exact ⟨rfl, hun, rfl⟩

/-- The file layer serves the process: it can duplicate the files of open descriptors, and
unmap and close those of mappings. -/
structure FileOps.Live (ops : FileOps φ σ) (s : Task φ σ) : Prop where
  filedup : ∀ fd f, s.proc.ofile fd = some f → ∃ u, Ends (ops.filedup f) s.sys () u
  unmap : ∀ i, (s.proc.vmas i).valid = true → ∀ addr length,
    ∃ u, Ends (ops.vma_unmap (s.proc.vmas i) addr length) s.sys () u ∧
      ∃ u', Ends (ops.fileclose (s.proc.vmas i).f) u () u'

theorem sysMmap_ends (h : ops.Live s) (length prot flags fd offset : ℤ) :
    ∃ r t, Ends (sysMmap ops length prot flags fd offset) s r t := by
  cases hfd : s.proc.argfd fd with
  | none => exact ⟨-1, s, by simp [sysMmap, hfd]⟩
  | some kf =>
    obtain ⟨k, f⟩ := kf
    obtain ⟨u, hu⟩ := h.filedup k f (Proc.ofile_of_argfd hfd)
    by_cases hperm : hasFlag flags MAP_SHARED ∧ hasFlag prot PROT_WRITE ∧
        ops.writable s.sys f = false
    · exact ⟨-1, s, by simp [sysMmap, hfd, hperm]⟩
    · cases hslot : s.proc.freeVma with
      | none =>
        refine ⟨-1, s, (ends_get.mpr ⟨rfl, rfl⟩).bind ?_⟩
        simp only [hfd, if_neg hperm, hslot]
        simp
      | some i =>
        refine ⟨s.proc.base, ⟨s.proc.setVma i
          ⟨true, s.proc.base, pgroundupInt length, prot, flags, f, offset⟩, u⟩, ?_⟩
        unfold sysMmap
        refine (ends_get.mpr ⟨rfl, rfl⟩).bind ?_
        simp only [hfd, if_neg hperm, hslot]
        exact (ends_onSys.mpr ⟨u, hu, rfl⟩).bind (by simp)

theorem sysMunmap_whole {addr : ℕ} {i : Fin Param.MAX_VMA} {u u' : σ}
    (hi : s.proc.findVma addr = some i) (haddr : addr = (s.proc.vmas i).addr)
    (hu : Ends (ops.vma_unmap (s.proc.vmas i) addr (s.proc.vmas i).length) s.sys () u)
    (hu' : Ends (ops.fileclose (s.proc.vmas i).f) u () u') :
    Ends (sysMunmap ops addr (s.proc.vmas i).length) s 0
      ⟨s.proc.setVma i { s.proc.vmas i with valid := false }, u'⟩ := by
  unfold sysMunmap
  refine (ends_get.mpr ⟨rfl, rfl⟩).bind ?_
  simp only [hi]
  refine (ends_onSys.mpr ⟨u, hu, rfl⟩).bind ?_
  rw [if_pos ⟨haddr, trivial⟩]
  exact (ends_onSys.mpr ⟨u', hu', rfl⟩).bind (by simp)

theorem sysMunmap_ends (h : ops.Live s) (addr : ℕ) (length : ℤ) :
    ∃ r t, Ends (sysMunmap ops addr length) s r t := by
  cases hfind : s.proc.findVma addr with
  | none => exact ⟨-1, s, by simp [sysMunmap, hfind]⟩
  | some i =>
    obtain ⟨u, hu, u', hu'⟩ := h.unmap i (Proc.findVma_spec hfind).1 addr length
    by_cases hw : addr = (s.proc.vmas i).addr ∧ length = (s.proc.vmas i).length
    · obtain ⟨haddr, rfl⟩ := hw
      exact ⟨0, _, sysMunmap_whole hfind haddr hu hu'⟩
    · unfold sysMunmap
      refine ⟨0, ⟨s.proc.setVma i ((s.proc.vmas i).cut addr length), u⟩,
        (ends_get.mpr ⟨rfl, rfl⟩).bind ?_⟩
      simp only [hfind]
      refine (ends_onSys.mpr ⟨u, hu, rfl⟩).bind ?_
      rw [if_neg hw]
      simp

end Step

/-- The system calls on the mappings of a process, with the arguments as machine words. -/
inductive VmCall
  | mmap (addr : UInt64) (length prot flags fd offset : Int32)
  | munmap (addr : UInt64) (length : Int32)

def vmCall (ops : FileOps φ σ) : VmCall → Exec (Task φ σ) Fault ℤ
  | .mmap _ length prot flags fd offset =>
    sysMmap ops length.toInt prot.toInt flags.toInt fd.toInt offset.toInt
  | .munmap addr length => sysMunmap ops addr.toNat length.toInt

def countingOps : FileOps ℕ (ℕ → ℤ) where
  writable _ _ := true
  filedup f := do
    if (← get) f < 1 then panicAt "filedup"
    else modify fun ref => Function.update ref f (ref f + 1)
  fileclose f := do
    if (← get) f < 1 then panicAt "fileclose"
    else modify fun ref => Function.update ref f (ref f - 1)
  vma_unmap _ _ _ := return ()

theorem countingOps_live {s : Task ℕ (ℕ → ℤ)} (h : ∀ f, 1 ≤ s.sys f) : countingOps.Live s where
  filedup fd f _ := by
    have hf := h f
    refine ⟨Function.update s.sys f (s.sys f + 1), (ends_get.mpr ⟨rfl, rfl⟩).bind ?_⟩
    rw [if_neg (by omega)]
    simp
  unmap i _ addr length := by
    have hf := h (s.proc.vmas i).f
    refine ⟨s.sys, by simp [countingOps], Function.update s.sys (s.proc.vmas i).f
      (s.sys (s.proc.vmas i).f - 1), (ends_get.mpr ⟨rfl, rfl⟩).bind ?_⟩
    rw [if_neg (by omega)]
    simp

@[reducible] def smallParam : Param := ⟨16, 50, 10, 128, 16, 100, 64⟩

/-- A process of size `sz` with one open file and no mapping. -/
def freshTask (sz : ℕ) : @Task ℕ (ℕ → ℤ) smallParam :=
  let _ := smallParam
  { proc :=
      { ofile := fun fd => if fd.val = 0 then some 0 else none
        vmas := fun _ => ⟨false, 0, 0, 0, 0, 0, 0⟩
        sz := sz
        cwd := 0 }
    sys := fun _ => 1 }

def Proc.NoVma (p : Proc φ) : Prop := ∀ i, (p.vmas i).valid = false

/-! ### Where a new mapping goes -/

namespace Proc

variable {p : Proc φ}

/-- When the ends are page aligned, the new mapping starts at the largest of them. -/
theorem base_spec (h : ∀ i, (p.vmas i).valid = true → PGSIZE ∣ (p.vmas i).end64) :
    0x40000000 ≤ p.base ∧ PGSIZE ∣ p.base ∧
      (∀ i, (p.vmas i).valid = true → (p.vmas i).end64 ≤ p.base) ∧
      (p.base = 0x40000000 ∨ ∃ i, (p.vmas i).valid = true ∧ p.base = (p.vmas i).end64) := by
  have hfold : ∀ (is : List (Fin Param.MAX_VMA)) (b : ℕ), PGSIZE ∣ b →
      let r := is.foldl (fun base i =>
        if (p.vmas i).valid ∧ (p.vmas i).end64 > base then pgroundup (p.vmas i).end64 else base) b
      b ≤ r ∧ PGSIZE ∣ r ∧ (∀ i ∈ is, (p.vmas i).valid = true → (p.vmas i).end64 ≤ r) ∧
        (r = b ∨ ∃ i, (p.vmas i).valid = true ∧ r = (p.vmas i).end64) := by
    intro is
    induction is with
    | nil => exact fun b hb => ⟨Nat.le_refl b, hb, by simp, Or.inl rfl⟩
    | cons i is ih =>
      intro b hb
      rw [List.foldl_cons]
      split
      · rename_i hi
        rw [pgroundup_of_dvd (h i hi.1) (Vma.end64_lt _)]
        obtain ⟨hle, hdvd, hall, hex⟩ := ih (p.vmas i).end64 (h i hi.1)
        refine ⟨Nat.le_trans (Nat.le_of_lt hi.2) hle, hdvd, ?_, ?_⟩
        · rintro j hj hv
          rcases List.mem_cons.mp hj with rfl | hj
          · exact hle
          · exact hall j hj hv
        · rcases hex with he | hex
          · exact Or.inr ⟨i, hi.1, he⟩
          · exact Or.inr hex
      · rename_i hi
        obtain ⟨hle, hdvd, hall, hex⟩ := ih b hb
        refine ⟨hle, hdvd, ?_, hex⟩
        rintro j hj hv
        rcases List.mem_cons.mp hj with rfl | hj
        · exact Nat.le_trans (Nat.le_of_not_lt fun hlt => hi ⟨hv, hlt⟩) hle
        · exact hall j hj hv
  obtain ⟨hle, hdvd, hall, hex⟩ := hfold (List.finRange Param.MAX_VMA) 0x40000000
    (by decide)
  exact ⟨hle, hdvd, fun i hv => hall i (List.mem_finRange i) hv, hex⟩

end Proc

end Xv6Sheet
