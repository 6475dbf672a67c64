import Mathlib.Algebra.Group.Pi.Basic
import Mathlib.Data.Fin.Tuple.Basic
import Xv6Sheet.Vm.Mmap

/-! # Mapping and unmapping the same length

`sys_mmap` rounds the length up and keeps the rounded one; `sys_munmap` compares it with the
length it is given. An unmapping right after the mapping therefore undoes it for page multiples
only.
-/

namespace Xv6Sheet

open Exec

variable {φ σ : Type}

/-- What the calls rely on of the file layer, which counts the references to a file. -/
structure RefLaws [DecidableEq φ] (ops : FileOps φ σ) (ref : σ → φ → ℤ) : Prop where
  filedup : ∀ {s t f}, Ends (ops.filedup f) s () t → 1 ≤ ref s f ∧ ref t = ref s + Pi.single f 1
  unmap : ∀ {s t v addr length}, Ends (ops.vma_unmap v addr length) s () t → ref t = ref s
  unmap_ends : ∀ {s v} addr length, 1 ≤ ref s v.f → ∃ t, Ends (ops.vma_unmap v addr length) s () t
  fileclose : ∀ {s t f}, Ends (ops.fileclose f) s () t → ref t = ref s - Pi.single f 1
  fileclose_ends : ∀ {s f}, 1 ≤ ref s f → ∃ t, Ends (ops.fileclose f) s () t

variable [pm : Param]

namespace Proc

variable {p : Proc φ}

theorem base_lt (p : Proc φ) : p.base < 2 ^ 64 := by
  unfold base
  generalize hl : List.finRange Param.MAX_VMA = is
  clear hl
  have hfold : ∀ b < 2 ^ 64, is.foldl (fun base i =>
      if (p.vmas i).valid ∧ (p.vmas i).end64 > base then pgroundup (p.vmas i).end64 else base) b <
        2 ^ 64 := by
    induction is with
    | nil => exact fun b hb => hb
    | cons i is ih =>
      intro b hb
      rw [List.foldl_cons]
      apply ih
      split
      · simp only [pgroundup, PGSIZE]
        omega
      · exact hb
  exact hfold _ (by decide)

theorem freeVma_eq_some {i : Fin Param.MAX_VMA} : p.freeVma = some i ↔
    (p.vmas i).valid = false ∧ ∀ j < i, (p.vmas j).valid = true := by
  rw [freeVma, ← Fin.find?_eq_find?_finRange, Fin.find?_eq_some_iff]
  simp

theorem findVma_eq_some {addr : ℕ} {i : Fin Param.MAX_VMA} : p.findVma addr = some i ↔
    ((p.vmas i).valid = true ∧ (p.vmas i).addr ≤ addr ∧ addr < (p.vmas i).end64) ∧
      ∀ j < i, (p.vmas j).valid = true → (p.vmas j).addr ≤ addr → (p.vmas j).end64 ≤ addr := by
  rw [findVma, ← Fin.find?_eq_find?_finRange, Fin.find?_eq_some_iff]
  simp [and_assoc]

/-- No mapping in a slot before the free one holds the address of the next mapping. -/
def Clear (p : Proc φ) : Prop :=
  ∀ i, p.freeVma = some i → ∀ j < i, (p.vmas j).addr ≤ p.base → (p.vmas j).end64 ≤ p.base

end Proc

variable {ops : FileOps φ σ} {s t : Task φ σ}

/-- Unmapping the range at `addr` ends with 0 and gives back the mapping table and the
reference counts of `s`. -/
def Undoes (ops : FileOps φ σ) (ref : σ → φ → ℤ) (s t : Task φ σ) (addr : UInt64)
    (length : Int32) : Prop :=
  ∃ u, Ends (vmCall ops (.munmap addr length)) t 0 u ∧
    (∀ i, (u.proc.vmas i).valid = (s.proc.vmas i).valid ∧
      ((s.proc.vmas i).valid = true → u.proc.vmas i = s.proc.vmas i)) ∧
    ref u.sys = ref s.sys

omit pm in
theorem Vma.unmap_valid {v : Vma φ} {addr : ℕ} {length : ℤ} (hv : v.valid = true)
    (h : (v.unmap addr length).valid = false) : addr = v.addr ∧ length = v.length := by
  unfold Vma.unmap at h
  split at h
  · assumption
  · unfold Vma.cut at h
    split at h <;> simp [hv] at h

omit pm in
theorem pgroundupInt_spec {x : ℤ} (hpos : 0 < x) (hmax : x + (PGSIZE - 1) < 2 ^ 31) :
    x ≤ pgroundupInt x ∧ pgroundupInt x < 2 ^ 31 ∧ (pgroundupInt x = x ↔ (PGSIZE : ℤ) ∣ x) := by
  simp only [pgroundupInt, PGSIZE] at *
  rw [Int.bmod_eq_of_le (by omega) (by omega)]
  omega

/-- An unmapping right after a mapping undoes it exactly for page multiples, when the mapping
ends in the addresses and is the first one found at its start. -/
theorem munmap_undoes_iff [DecidableEq φ] {ref : σ → φ → ℤ} (hL : RefLaws ops ref) {r : ℤ}
    {addr start : UInt64} {length prot flags fd offset : Int32}
    (h : Ends (vmCall ops (.mmap addr length prot flags fd offset)) s r t)
    (hr : r = start.toNat) (hpos : 0 < length.toInt)
    (hmax : length.toInt + (PGSIZE - 1) < 2 ^ 31) :
    Undoes ops ref s t start length ↔ (PGSIZE : ℤ) ∣ length.toInt ∧
      s.proc.base + length.toInt < 2 ^ 64 ∧ s.proc.Clear := by
  rcases sysMmap_cases h with ⟨rfl, -⟩ | ⟨k, f, i, -, hfree, hdup, hbase, hproc, -⟩
  · omega
  obtain ⟨hge, hlt, hdvd⟩ := pgroundupInt_spec hpos hmax
  have hstart : start.toNat = s.proc.base := by omega
  have hlt64 := s.proc.base_lt
  obtain ⟨hinvalid, hfirst⟩ := Proc.freeVma_eq_some.mp hfree
  obtain ⟨v, hv⟩ : ∃ v : Vma φ, v = ⟨true, s.proc.base, pgroundupInt length.toInt, prot.toInt,
    flags.toInt, f, offset.toInt⟩ := ⟨_, rfl⟩
  rw [← hv] at hproc
  have hi : t.proc.vmas i = v := by rw [hproc, Proc.setVma_vmas_self]
  have hother : ∀ j, j ≠ i → t.proc.vmas j = s.proc.vmas j := fun j hj => by
    rw [hproc, Proc.setVma_vmas_of_ne hj]
  have hend : s.proc.base < v.end64 ↔ s.proc.base + pgroundupInt length.toInt < 2 ^ 64 := by
    rw [hv]
    simp only [Vma.end64]
    omega
  obtain ⟨href, href'⟩ := hL.filedup hdup
  constructor
  · rintro ⟨u, hu, htable, -⟩
    rcases sysMunmap_cases hu with ⟨hneg, -⟩ | ⟨j, w, hfind, -, huproc, -⟩
    · cases hneg
    -- another mapping would leave the slot in use
    have hji : j = i := by
      by_contra hji
      have hstill := (htable i).1
      rw [huproc, Proc.setVma_vmas_of_ne (Ne.symm hji), hi, hinvalid, hv] at hstill
      cases hstill
    subst hji
    have hclosed := (htable j).1
    rw [huproc, Proc.setVma_vmas_self, hi, hinvalid] at hclosed
    obtain ⟨-, hlen⟩ := Vma.unmap_valid (by rw [hv]) hclosed
    rw [hstart] at hfind
    obtain ⟨⟨-, -, hin⟩, hothers⟩ := Proc.findVma_eq_some.mp hfind
    rw [hi] at hin
    have hkept : v.length = pgroundupInt length.toInt := by rw [hv]
    have hround : pgroundupInt length.toInt = length.toInt := (hlen.trans hkept).symm
    rw [hend, hround] at hin
    refine ⟨hdvd.mp hround, hin, fun i' hi' k hk haddr => ?_⟩
    obtain rfl := Option.some.inj (hfree.symm.trans hi')
    have hk' := hothers k hk
    rw [hother k hk.ne] at hk'
    exact hk' (hfirst k hk) haddr
  · rintro ⟨hmul, hin, hclear⟩
    have hround := hdvd.mpr hmul
    have hfind : t.proc.findVma start.toNat = some i := by
      rw [hstart]
      refine Proc.findVma_eq_some.mpr ⟨⟨?_, ?_, ?_⟩, fun k hk _ haddr => ?_⟩
      · rw [hi, hv]
      · rw [hi, hv]
      · rwa [hi, hend, hround]
      · rw [hother k hk.ne] at haddr ⊢
        exact hclear i hfree k hk haddr
    have hf : v.f = f := by rw [hv]
    have hone : 1 ≤ ref t.sys v.f := by
      rw [href', hf]
      simp only [Pi.add_apply, Pi.single_eq_same]
      omega
    obtain ⟨w, hw⟩ := hL.unmap_ends start.toNat length.toInt hone
    have hrefw := hL.unmap hw
    obtain ⟨x, hx⟩ := hL.fileclose_ends (s := w) (f := v.f) (by rwa [hrefw])
    refine ⟨⟨t.proc.setVma i { v with valid := false }, x⟩, ?_, fun j => ?_, ?_⟩
    · refine (ends_get.mpr ⟨rfl, rfl⟩).bind ?_
      simp only [hfind, hi]
      refine (ends_onSys.mpr ⟨w, hw, rfl⟩).bind ?_
      rw [if_pos ⟨by rw [hstart, hv], by rw [hv, hround]⟩]
      exact (ends_onSys.mpr ⟨x, hx, rfl⟩).bind (by simp)
    · rcases eq_or_ne j i with rfl | hji
      · rw [Proc.setVma_vmas_self, hinvalid]
        simp
      · rw [Proc.setVma_vmas_of_ne hji, hother j hji]
        exact ⟨rfl, fun _ => rfl⟩
    · show ref x = ref s.sys
      rw [hL.fileclose hx, hrefw, href', hf, add_sub_cancel_right]

omit pm in
theorem update_add (ref : ℕ → ℤ) (f : ℕ) (x : ℤ) :
    Function.update ref f (ref f + x) = ref + Pi.single f x := by
  funext g
  rcases eq_or_ne g f with rfl | hg
  · simp
  · simp [hg]

omit pm in
theorem countingOps_refLaws : RefLaws countingOps (fun ref : ℕ → ℤ => ref) where
  filedup {s t f} h := by
    have h := ends_get_bind.mp h
    split at h
    · simp at h
    · rename_i hf
      refine ⟨Int.not_lt.mp hf, ?_⟩
      rw [ends_modify.mp h, update_add]
  unmap h := by rw [(ends_pure.mp h).2]
  unmap_ends _ _ _ := ⟨_, ends_pure.mpr ⟨rfl, rfl⟩⟩
  fileclose {s t f} h := by
    have h := ends_get_bind.mp h
    split at h
    · simp at h
    · rw [ends_modify.mp h, sub_eq_add_neg, update_add, sub_eq_add_neg]
      funext g
      simp only [Pi.add_apply, Pi.neg_apply, Pi.single_apply]
      split <;> rfl
  fileclose_ends {s f} hf := by
    refine ⟨Function.update s f (s f - 1), ends_get_bind.mpr ?_⟩
    rw [if_neg (Int.not_lt.mpr hf)]
    exact ends_modify.mpr rfl

omit pm in
/-- A page is mapped and unmapped. -/
theorem munmap_undoes_small :
    letI := smallParam
    ∃ t, Ends (vmCall countingOps (.mmap 0 0x1000 3 1 0 0)) (freshTask 0x3000) 0x40000000 t ∧
      Undoes countingOps (fun ref => ref) (freshTask 0x3000) t 0x40000000 0x1000 := by
  let _ := smallParam
  obtain ⟨t, hmap⟩ : ∃ t, Ends (vmCall countingOps (.mmap 0 0x1000 3 1 0 0)) (freshTask 0x3000)
      0x40000000 t := ⟨_, rfl⟩
  refine ⟨t, hmap, (munmap_undoes_iff countingOps_refLaws hmap (by decide) (by decide)
    (by decide)).mpr ⟨by decide, by decide, fun i hi j hj => ?_⟩⟩
  cases (Proc.freeVma_eq_some.mp hi).2 j hj

omit pm in
/-- A mapping of 100 bytes is shortened to 3996 bytes by the unmapping of 100 bytes, which leaves
its slot and its file in use. -/
theorem munmap_leaks :
    letI := smallParam
    ∃ t, Ends (vmCall countingOps (.mmap 0 100 3 1 0 0)) (freshTask 0x3000) 0x40000000 t ∧
      ¬ Undoes countingOps (fun ref => ref) (freshTask 0x3000) t 0x40000000 100 := by
  let _ := smallParam
  refine ⟨_, rfl, ?_⟩
  rintro ⟨u, hu, htable, -⟩
  have hvalid : (u.proc.vmas ⟨0, by decide⟩).valid = true := by
    obtain ⟨-, rfl⟩ := hu.unique rfl
    rfl
  exact absurd ((htable ⟨0, by decide⟩).1.symm.trans hvalid) (by decide)

end Xv6Sheet
