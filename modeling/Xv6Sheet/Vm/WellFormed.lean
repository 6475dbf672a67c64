import Xv6Sheet.Vm.Placement

/-! # Well-formed mapping tables

Mappings start at a page, have a positive number of whole pages and do not overlap. The
calls do not check the lengths they are given; the table stays well formed in the runs
that give them lengths it survives.
-/

namespace Xv6Sheet

open Exec

variable {φ σ : Type} [pm : Param]

/-- The mappings start at a page, are whole positive numbers of pages long and do not
overlap. -/
structure Proc.WellFormed (p : Proc φ) : Prop where
  addr_dvd : ∀ i, (p.vmas i).valid = true → PGSIZE ∣ (p.vmas i).addr
  length : ∀ i, (p.vmas i).valid = true →
    0 < (p.vmas i).length ∧ (PGSIZE : ℤ) ∣ (p.vmas i).length
  disjoint : ∀ i j, i ≠ j → (p.vmas i).valid = true → (p.vmas j).valid = true →
    (p.vmas i).Outside (p.vmas j).addr (p.vmas j).stop

/-- A well-formed table in which no mapping reaches the end of the addresses. -/
structure Proc.Laid (p : Proc φ) : Prop where
  paged : p.Paged
  stop_lt : ∀ i, (p.vmas i).valid = true → (p.vmas i).stop < 2 ^ 64
  disjoint : ∀ i j, i ≠ j → (p.vmas i).valid = true → (p.vmas j).valid = true →
    (p.vmas i).Outside (p.vmas j).addr (p.vmas j).stop

omit pm in
theorem Vma.Outside.symm {v w : Vma φ} (h : v.Outside w.addr w.stop) :
    w.Outside v.addr v.stop := Or.symm h

theorem Proc.Laid.wellFormed {p : Proc φ} (h : p.Laid) : p.WellFormed where
  addr_dvd i hv := (h.paged i hv).addr_dvd
  length i hv := ⟨(h.paged i hv).pos, (h.paged i hv).length_dvd⟩
  disjoint := h.disjoint

omit pm in
theorem Vma.end64_eq {v : Vma φ} (hlo : 0 ≤ v.stop) (hhi : v.stop < 2 ^ 64) :
    (v.end64 : ℤ) = v.stop := by
  unfold Vma.end64
  unfold Vma.stop at *
  omega

theorem Proc.Laid.setVma {p : Proc φ} (h : p.Laid) {i : Fin Param.MAX_VMA} {v : Vma φ}
    (hv : v.valid = true → v.Paged ∧ v.stop < 2 ^ 64 ∧
      ∀ j, j ≠ i → (p.vmas j).valid = true → (p.vmas j).Outside v.addr v.stop) :
    (p.setVma i v).Laid where
  paged := h.paged.setVma fun hval => (hv hval).1
  stop_lt j hj := by
    by_cases hji : j = i
    · subst hji
      rw [setVma_vmas_self] at hj ⊢
      exact (hv hj).2.1
    · rw [setVma_vmas_of_ne hji] at hj ⊢
      exact h.stop_lt j hj
  disjoint j k hjk hj hk := by
    by_cases hji : j = i
    · subst hji
      rw [setVma_vmas_self] at hj ⊢
      rw [setVma_vmas_of_ne hjk.symm] at hk ⊢
      exact ((hv hj).2.2 k hjk.symm hk).symm
    · rw [setVma_vmas_of_ne hji] at hj ⊢
      by_cases hki : k = i
      · subst hki
        rw [setVma_vmas_self] at hk ⊢
        exact (hv hk).2.2 j hji hj
      · rw [setVma_vmas_of_ne hki] at hk ⊢
        exact h.disjoint j k hjk hj hk

/-- The addresses from `lo` up to `hi` can hold the mapping `i`: no other mapping is in
the way, they are addresses, and their number is an `int`. -/
def Proc.Room (p : Proc φ) (i : Fin Param.MAX_VMA) (lo hi : ℤ) : Prop :=
  0 ≤ lo ∧ hi < 2 ^ 64 ∧ hi - lo < 2 ^ 31 ∧
    ∀ j, j ≠ i → (p.vmas j).valid = true → (p.vmas j).Outside lo hi

/-- The part of the mapping that a call leaves lies in a range where there is room. -/
theorem Proc.Laid.cut {p : Proc φ} (h : p.Laid) {i : Fin Param.MAX_VMA} {addr : ℕ}
    {length lo hi : ℤ} (hi' : p.findVma addr = some i) (hdvd : (PGSIZE : ℤ) ∣ length)
    (hlt : length < (p.vmas i).length)
    (hlo : lo = if addr = (p.vmas i).addr then (p.vmas i).addr + length else (p.vmas i).addr)
    (hhi : hi = if addr = (p.vmas i).addr then (p.vmas i).stop else (p.vmas i).stop - length)
    (hroom : p.Room i lo hi) : (p.setVma i ((p.vmas i).cut addr length)).Laid := by
  obtain ⟨hval, -, -⟩ := findVma_spec hi'
  obtain ⟨hadvd, hldvd, hpos, halt, hllt⟩ := h.paged i hval
  obtain ⟨h0, h64, h31, hout⟩ := hroom
  have hstop : (p.vmas i).stop = (p.vmas i).addr + (p.vmas i).length := rfl
  have hspan : hi - lo = (p.vmas i).length - length := by
    rw [hlo, hhi]
    split <;> omega
  have hlen : Int.bmod ((p.vmas i).length - length) (2 ^ 32) = (p.vmas i).length - length :=
    Int.bmod_eq_of_le (by omega) (by omega)
  apply h.setVma
  intro _
  unfold Vma.cut
  by_cases ha : addr = (p.vmas i).addr
  · rw [if_pos ha] at hlo hhi ⊢
    rw [hlen]
    refine ⟨⟨?_, ?_, ?_, ?_, ?_⟩, ?_, fun j hj hv => ?_⟩
    · simp only [PGSIZE] at *
      omega
    · exact Int.dvd_sub hldvd hdvd
    · show 0 < (p.vmas i).length - length
      omega
    · show ((((p.vmas i).addr : ℤ) + length) % 2 ^ 64).toNat < 2 ^ 64
      omega
    · show (p.vmas i).length - length < 2 ^ 31
      omega
    · show (((((p.vmas i).addr : ℤ) + length) % 2 ^ 64).toNat : ℤ) +
        ((p.vmas i).length - length) < 2 ^ 64
      omega
    · have hj := hout j hj hv
      simp only [Vma.Outside, Vma.stop] at *
      omega
  · rw [if_neg ha] at hlo hhi ⊢
    rw [hlen]
    refine ⟨⟨hadvd, Int.dvd_sub hldvd hdvd, ?_, halt, ?_⟩, ?_, fun j hj hv => ?_⟩
    · show 0 < (p.vmas i).length - length
      omega
    · show (p.vmas i).length - length < 2 ^ 31
      omega
    · show ((p.vmas i).addr : ℤ) + ((p.vmas i).length - length) < 2 ^ 64
      omega
    · have hj := hout j hj hv
      simp only [Vma.Outside, Vma.stop] at *
      omega

/-- The calls the table survives: a mapping gets a positive length and ends below `2 ^ 64`;
an unmapping drops a whole mapping, or its length is a number of pages smaller than the
mapping's, and when it is negative there is room for what the mapping grows by. -/
def Survives (ops : FileOps φ σ) (s : Task φ σ) : VmCall → Prop
  | .mmap _ length prot flags fd _ => Refused ops s prot.toInt flags.toInt fd.toInt ∨
    (0 < pgroundupInt length.toInt ∧ s.proc.top + pgroundupInt length.toInt < 2 ^ 64)
  | .munmap addr length => ∀ i, s.proc.findVma addr.toNat = some i →
    let v := s.proc.vmas i
    (addr.toNat = v.addr ∧ length.toInt = v.length) ∨
      ((PGSIZE : ℤ) ∣ length.toInt ∧ length.toInt < v.length ∧
        (length.toInt < 0 → if addr.toNat = v.addr then s.proc.Room i (v.addr + length.toInt) v.stop
          else s.proc.Room i v.addr (v.stop - length.toInt)))

variable {ops : FileOps φ σ} {s t : Task φ σ}

omit pm in
theorem pgroundupInt_dvd (x : ℤ) : (PGSIZE : ℤ) ∣ pgroundupInt x := Dvd.intro_left _ rfl

omit pm in
theorem pgroundupInt_lt (x : ℤ) : pgroundupInt x < 2 ^ 31 := by
  have hx := Int.bmod_lt (x := x + (PGSIZE - 1)) (m := 2 ^ 32) (by decide)
  simp only [pgroundupInt, PGSIZE] at *
  omega

theorem survives_laid {c : VmCall} {r : ℤ} (h : s.proc.Laid) (hc : Survives ops s c)
    (he : Ends (vmCall ops c) s r t) : t.proc.Laid := by
  have hdvd := fun i hv => (h.paged i hv).end64_dvd
  cases c with
  | mmap addr length prot flags fd offset =>
    rcases sysMmap_cases he with ⟨-, rfl, -⟩ | ⟨k, f, i, -, -, -, -, hproc, href⟩
    · exact h
    · obtain ⟨hpos, hmax⟩ := hc.resolve_left href
      obtain ⟨-, hbase, hle, -⟩ := Proc.base_spec hdvd
      rw [← Proc.base_eq_top hdvd] at hmax
      rw [hproc]
      apply h.setVma
      intro _
      refine ⟨⟨hbase, pgroundupInt_dvd _, hpos, ?_, pgroundupInt_lt _⟩, hmax, fun j _ hv => ?_⟩
      · show s.proc.base < 2 ^ 64
        omega
      · have hj := hle j hv
        have hend := Vma.end64_eq (v := s.proc.vmas j)
          (by have := (h.paged j hv).pos; unfold Vma.stop; omega) (h.stop_lt j hv)
        exact Or.inl (by show (s.proc.vmas j).stop ≤ (s.proc.base : ℤ); omega)
  | munmap addr length =>
    rcases sysMunmap_cases he with ⟨-, rfl, -⟩ | ⟨i, u, hfind, -, hproc, -⟩
    · exact h
    · obtain ⟨hval, -, -⟩ := Proc.findVma_spec hfind
      rw [hproc, Vma.unmap]
      split
      · exact h.setVma fun hv => by simp at hv
      · rename_i hw
        obtain ⟨hldvd, hlt, hneg⟩ := (hc i hfind).resolve_left hw
        apply h.cut hfind hldvd hlt rfl rfl
        have hpos := (h.paged i hval).pos
        have hllt := (h.paged i hval).length_lt
        have hstop := h.stop_lt i hval
        rcases Int.lt_or_le length.toInt 0 with hl | hl
        · have hroom := hneg hl
          split at hroom <;> rename_i ha
          · rwa [if_pos ha, if_pos ha]
          · rwa [if_neg ha, if_neg ha]
        · -- a cut of a non-negative length leaves a part of the mapping
          have hdis := fun j hj hv => h.disjoint j i hj hv hval
          split <;> rename_i ha
          all_goals
            refine ⟨by omega, by omega, by unfold Vma.stop; omega, fun j hj hv => ?_⟩
            have hj := hdis j hj hv
            simp only [Vma.Outside, Vma.stop] at *
            omega

/-- In every run whose calls the table survives, it is well formed in every state. -/
theorem vmas_wellFormed (h : Reached (vmCall ops) (Survives ops) (fun s => s.proc.NoVma) s) :
    s.proc.WellFormed := by
  apply Proc.Laid.wellFormed
  apply Reached.invariant (I := fun s => s.proc.Laid) _ _ h
  · intro s hs
    refine ⟨fun i hv => ?_, fun i hv => ?_, fun i j _ hv => ?_⟩
    all_goals simp [hs i] at hv
  · exact fun s t c r hs hc he => survives_laid hs hc he

omit pm in
/-- A mapping of two pages, cut to one. -/
theorem vmas_wellFormed_small :
    letI := smallParam
    ∃ s : Task ℕ (ℕ → ℤ), (s.proc.vmas ⟨0, by decide⟩).addr = 0x40001000 ∧
      (s.proc.vmas ⟨0, by decide⟩).length = 4096 ∧ s.proc.WellFormed := by
  let _ := smallParam
  let s : Task ℕ (ℕ → ℤ) :=
    ⟨(freshTask 0x3000).proc.setVma ⟨0, by decide⟩ ⟨true, 0x40000000, 8192, 3, 1, 0, 0⟩,
      Function.update (fun _ => 1) 0 2⟩
  have hmap : Ends (vmCall countingOps (.mmap 0 8192 3 1 0 0)) (freshTask 0x3000) 0x40000000 s :=
    rfl
  have hs : Reached (vmCall countingOps) (Survives countingOps) (fun s => s.proc.NoVma) s :=
    .call (c := .mmap 0 8192 3 1 0 0) (.init fun _ => rfl)
      (Or.inr ⟨by decide, by decide⟩) hmap
  have hfirst : s.proc.findVma 0x40000000 = some ⟨0, by decide⟩ := by decide
  have hlive : countingOps.Live s := countingOps_live fun f => by
    show 1 ≤ Function.update (fun _ => (1 : ℤ)) 0 2 f
    rw [Function.update_apply]
    split <;> decide
  obtain ⟨r, t, hunmap⟩ := sysMunmap_ends hlive 0x40000000 4096
  have ht := vmas_wellFormed (.call (c := .munmap 0x40000000 4096) hs (fun i hi => by
    obtain rfl : ⟨0, by decide⟩ = i := Option.some.inj (hfirst.symm.trans hi)
    exact Or.inr ⟨by decide, by decide, fun h => absurd h (by decide)⟩) hunmap)
  rcases sysMunmap_cases hunmap with ⟨-, -, hn⟩ | ⟨i, u, hi, -, hproc, -⟩
  · exact absurd (hfirst.symm.trans hn) (by simp)
  · obtain rfl : ⟨0, by decide⟩ = i := Option.some.inj (hfirst.symm.trans hi)
    exact ⟨t, by rw [hproc]; decide, by rw [hproc]; decide, ht⟩

omit pm in
/-- A mapping of no bytes enters the table. -/
theorem vmas_not_wellFormed :
    letI := smallParam
    ∃ s : Task ℕ (ℕ → ℤ), Reached (vmCall countingOps) (fun _ _ => True)
      (fun s => s.proc.NoVma) s ∧ ¬ s.proc.WellFormed := by
  let _ := smallParam
  have hlive : countingOps.Live (freshTask 0x3000) := countingOps_live fun _ => Int.le_refl 1
  obtain ⟨r, t, he⟩ := sysMmap_ends hlive 0 3 1 0 0
  refine ⟨t, .call (c := .mmap 0 0 3 1 0 0) (.init fun _ => rfl) trivial he, fun h => ?_⟩
  rcases sysMmap_cases he with ⟨-, -, href⟩ | ⟨k, f, i, -, -, -, -, hproc, -⟩
  · rcases href with hn | hn
    · exact absurd hn (by decide)
    · exact absurd (hn 0 0 (by decide)) (by decide)
  · have hlen := h.length i
    rw [hproc, Proc.setVma_vmas_self] at hlen
    have hpos : 0 < pgroundupInt 0 := (hlen rfl).1
    exact absurd hpos (by decide)

end Xv6Sheet
