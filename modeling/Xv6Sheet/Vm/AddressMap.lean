import Xv6Sheet.Vm.WellFormed

/-! # The table as an address map

The mappings describe a partial map from pages to pages of files. Unmapping a range of
one mapping takes the range out of the map when the range is at the start or at the end
of the mapping; a range in the middle is taken for one at the end.
-/

namespace Xv6Sheet

open Exec

variable {φ σ : Type}

def Vma.Covers (v : Vma φ) (a : ℤ) : Prop := v.valid = true ∧ v.addr ≤ a ∧ a < v.stop

instance (v : Vma φ) (a : ℤ) : Decidable (v.Covers a) :=
  inferInstanceAs (Decidable (_ ∧ _ ∧ _))

def Vma.place (v : Vma φ) (a : ℤ) : φ × ℤ := (v.f, v.offset + (a - v.addr))

/-- A mapping whose end is an address, possibly without a page left. -/
structure Vma.Ranged (v : Vma φ) : Prop where
  addr_dvd : PGSIZE ∣ v.addr
  length_dvd : (PGSIZE : ℤ) ∣ v.length
  stop_nonneg : 0 ≤ v.stop
  stop_lt : v.stop < 2 ^ 64
  length_ge : -2 ^ 31 ≤ v.length
  length_lt : v.length < 2 ^ 31
  offset_ge : -2 ^ 31 ≤ v.offset
  offset_lt : v.offset < 2 ^ 31

theorem Vma.Ranged.end64_dvd {v : Vma φ} (h : v.Ranged) : PGSIZE ∣ v.end64 := by
  have ha := h.addr_dvd
  have hl := h.length_dvd
  simp only [Vma.end64, PGSIZE] at *
  omega

theorem Vma.Ranged.end64_eq {v : Vma φ} (h : v.Ranged) : (v.end64 : ℤ) = v.stop :=
  Vma.end64_eq h.stop_nonneg h.stop_lt

variable [pm : Param]

namespace Proc

def pageMap (p : Proc φ) (a : ℤ) : Option (φ × ℤ) :=
  (List.finRange Param.MAX_VMA).findSome? fun i =>
    if (p.vmas i).Covers a then some ((p.vmas i).place a) else none

structure Apart (p : Proc φ) : Prop where
  ranged : ∀ i, (p.vmas i).valid = true → (p.vmas i).Ranged
  unique : ∀ i j a, (p.vmas i).Covers a → (p.vmas j).Covers a → i = j

variable {p : Proc φ} {i : Fin Param.MAX_VMA} {v : Vma φ} {a : ℤ}

theorem pageMap_of_covers (h : p.Apart) (hi : (p.vmas i).Covers a) :
    p.pageMap a = some ((p.vmas i).place a) := by
  unfold pageMap
  cases hfind : (List.finRange Param.MAX_VMA).findSome? fun i =>
      if (p.vmas i).Covers a then some ((p.vmas i).place a) else none with
  | none =>
    have hn := List.findSome?_eq_none_iff.mp hfind i (List.mem_finRange i)
    simp [hi] at hn
  | some x =>
    obtain ⟨j, -, hj⟩ := List.exists_of_findSome?_eq_some hfind
    split at hj
    · rename_i hc
      obtain rfl := h.unique i j a hi hc
      exact hj.symm
    · simp at hj

theorem pageMap_of_not_covers (h : ∀ i, ¬ (p.vmas i).Covers a) : p.pageMap a = none := by
  refine List.findSome?_eq_none_iff.mpr fun i _ => ?_
  rw [if_neg (h i)]

/-- Replacing a mapping takes its pages out of the map and puts those of the new one in. -/
theorem pageMap_setVma (h : p.Apart) (h' : (p.setVma i v).Apart) (a : ℤ) :
    (p.setVma i v).pageMap a = if v.Covers a then some (v.place a)
      else if (p.vmas i).Covers a then none else p.pageMap a := by
  split
  · rename_i hv
    have hc := pageMap_of_covers h' (i := i) (a := a) (by rwa [setVma_vmas_self])
    rwa [setVma_vmas_self] at hc
  · rename_i hv
    have hself : ¬ ((p.setVma i v).vmas i).Covers a := by rwa [setVma_vmas_self]
    split
    · rename_i hi
      apply pageMap_of_not_covers
      intro j hj
      by_cases hji : j = i
      · exact hself (hji ▸ hj)
      · rw [setVma_vmas_of_ne hji] at hj
        exact hji (h.unique j i a hj hi)
    · rename_i hi
      by_cases hex : ∃ j, (p.vmas j).Covers a
      · obtain ⟨j, hj⟩ := hex
        have hji : j ≠ i := fun he => hi (he ▸ hj)
        have hj' : ((p.setVma i v).vmas j).Covers a := by rwa [setVma_vmas_of_ne hji]
        rw [pageMap_of_covers h hj, pageMap_of_covers h' hj', setVma_vmas_of_ne hji]
      · rw [pageMap_of_not_covers fun j hj => hex ⟨j, hj⟩]
        apply pageMap_of_not_covers
        intro j hj
        by_cases hji : j = i
        · exact hself (hji ▸ hj)
        · rw [setVma_vmas_of_ne hji] at hj
          exact hex ⟨j, hj⟩

/-- The pages from `lo` up to `hi` are taken out of the map, and nothing else changes. -/
def Removes (p p' : Proc φ) (lo hi : ℤ) : Prop :=
  ∀ a : ℤ, (PGSIZE : ℤ) ∣ a → p'.pageMap a = if lo ≤ a ∧ a < hi then none else p.pageMap a

theorem removes_setVma (h : p.Apart) (h' : (p.setVma i v).Apart) {lo hi : ℤ}
    (hin : ∀ a, lo ≤ a → a < hi → (p.vmas i).Covers a)
    (hv : ∀ a, v.Covers a ↔ (p.vmas i).Covers a ∧ ¬ (lo ≤ a ∧ a < hi))
    (hplace : ∀ a, v.Covers a → v.place a = (p.vmas i).place a) :
    p.Removes (p.setVma i v) lo hi := by
  intro a _
  rw [pageMap_setVma h h' a]
  by_cases hrange : lo ≤ a ∧ a < hi
  · rw [if_pos hrange, if_neg fun hc => ((hv a).mp hc).2 hrange, if_pos (hin a hrange.1 hrange.2)]
  · rw [if_neg hrange]
    by_cases hcov : (p.vmas i).Covers a
    · have hc := (hv a).mpr ⟨hcov, hrange⟩
      rw [if_pos hc, hplace a hc, pageMap_of_covers h hcov]
    · rw [if_neg fun hc => hcov ((hv a).mp hc).1, if_neg hcov]

theorem findVma_of_covers (h : p.Apart) {addr : ℕ} (hi : (p.vmas i).Covers addr) :
    p.findVma addr = some i := by
  have hend := (h.ranged i hi.1).end64_eq
  have hlt : addr < (p.vmas i).end64 := by
    have := hi.2.2
    omega
  cases hfind : p.findVma addr with
  | none =>
    have hn := List.find?_eq_none.mp hfind i (List.mem_finRange i)
    simp only [hi.1, Bool.true_and, Bool.and_eq_true, decide_eq_true_eq, not_and] at hn
    exact absurd hlt (hn (by have := hi.2.1; omega))
  | some j =>
    obtain ⟨hv, hlo, hhi⟩ := findVma_spec hfind
    have hendj := (h.ranged j hv).end64_eq
    rw [h.unique i j addr hi ⟨hv, by omega, by omega⟩]

theorem Apart.setVma (h : p.Apart) (hr : v.valid = true → v.Ranged)
    (hc : ∀ a, v.Covers a → ∀ j, j ≠ i → ¬ (p.vmas j).Covers a) : (p.setVma i v).Apart where
  ranged j hj := by
    by_cases hji : j = i
    · subst hji
      rw [setVma_vmas_self] at hj ⊢
      exact hr hj
    · rw [setVma_vmas_of_ne hji] at hj ⊢
      exact h.ranged j hj
  unique j k a hj hk := by
    by_cases hji : j = i
    · subst hji
      rw [setVma_vmas_self] at hj
      by_contra hjk
      rw [setVma_vmas_of_ne (Ne.symm hjk)] at hk
      exact hc a hj k (Ne.symm hjk) hk
    · rw [setVma_vmas_of_ne hji] at hj
      by_cases hki : k = i
      · subst hki
        rw [setVma_vmas_self] at hk
        exact absurd hj (hc a hk j hji)
      · rw [setVma_vmas_of_ne hki] at hk
        exact h.unique j k a hj hk

end Proc

omit pm in
theorem Vma.cut_start {v : Vma φ} (h : v.Ranged) {length : ℤ} (hlo : 0 < length)
    (hhi : v.addr + length < 2 ^ 64) (hlt : length < 2 ^ 31) (hpos : 0 < v.length) :
    v.cut v.addr length = { v with
      addr := v.addr + length.toNat
      offset := Int.bmod (v.offset + length) (2 ^ 32)
      length := v.length - length } := by
  have hvlt := h.length_lt
  rw [Vma.cut, if_pos rfl, Int.bmod_eq_of_le (n := v.length - length) (by omega) (by omega)]
  have haddr : (((v.addr : ℤ) + length) % 2 ^ 64).toNat = v.addr + length.toNat := by omega
  rw [haddr]

omit pm in
theorem Vma.cut_end {v : Vma φ} (h : v.Ranged) {addr : ℕ} (ha : addr ≠ v.addr) {length : ℤ}
    (hlo : 0 < length) (hlt : length < 2 ^ 31) (hpos : 0 < v.length) :
    v.cut addr length = { v with length := v.length - length } := by
  have hvlt := h.length_lt
  rw [Vma.cut, if_neg ha, Int.bmod_eq_of_le (n := v.length - length) (by omega) (by omega)]

/-- Addresses and lengths are page multiples, lengths are positive, and no call moves the
end of a mapping out of the addresses. -/
def InRange (ops : FileOps φ σ) (s : Task φ σ) : VmCall → Prop
  | .mmap _ length prot flags fd _ => 0 < length.toInt ∧ (PGSIZE : ℤ) ∣ length.toInt ∧
    (Refused ops s prot.toInt flags.toInt fd.toInt ∨ s.proc.top + length.toInt < 2 ^ 64)
  | .munmap addr length => PGSIZE ∣ addr.toNat ∧ 0 < length.toInt ∧
    (PGSIZE : ℤ) ∣ length.toInt ∧ ∀ i, s.proc.findVma addr.toNat = some i →
      if addr.toNat = (s.proc.vmas i).addr then addr.toNat + length.toInt < 2 ^ 64
      else length.toInt ≤ (s.proc.vmas i).stop

variable {ops : FileOps φ σ} {s t : Task φ σ}

theorem unmap_ranged (h : s.proc.Apart) {addr : UInt64} {length : Int32}
    (hg : InRange ops s (.munmap addr length)) {i : Fin Param.MAX_VMA}
    (hfind : s.proc.findVma addr.toNat = some i) :
    let v := (s.proc.vmas i).unmap addr.toNat length.toInt
    (v.valid = true → v.Ranged) ∧ ∀ a, v.Covers a → (s.proc.vmas i).Covers a := by
  obtain ⟨hadvd, hpos, hdvd, hend⟩ := hg
  obtain ⟨hval, hlo, hhi⟩ := Proc.findVma_spec hfind
  have hr := h.ranged i hval
  have hend64 := hr.end64_eq
  have hlt := length.toInt_lt
  have hvpos : 0 < (s.proc.vmas i).length := by
    have : (s.proc.vmas i).stop = (s.proc.vmas i).addr + (s.proc.vmas i).length := rfl
    omega
  have hb := Int.bmod_lt (x := (s.proc.vmas i).offset + length.toInt) (m := 2 ^ 32) (by decide)
  have hb' := Int.le_bmod (x := (s.proc.vmas i).offset + length.toInt) (m := 2 ^ 32) (by decide)
  have hstop : (s.proc.vmas i).stop = (s.proc.vmas i).addr + (s.proc.vmas i).length := rfl
  obtain ⟨ha, hl, h0, h64, hge, hllt, hoge, holt⟩ := hr
  have hend := hend i hfind
  intro v
  by_cases hw : addr.toNat = (s.proc.vmas i).addr ∧ length.toInt = (s.proc.vmas i).length
  · have hv : v = { s.proc.vmas i with valid := false } := if_pos hw
    refine ⟨fun hv' => ?_, fun a hc => ?_⟩
    · rw [hv] at hv'; simp at hv'
    · rw [hv] at hc; exact absurd hc.1 (by simp)
  · have hv : v = (s.proc.vmas i).cut addr.toNat length.toInt := if_neg hw
    by_cases hstart : addr.toNat = (s.proc.vmas i).addr
    · rw [if_pos hstart] at hend
      rw [hstart, Vma.cut_start (h.ranged i hval) hpos (by omega) hlt hvpos] at hv
      rw [hv]
      constructor
      · intro _
        refine ⟨?_, Int.dvd_sub hl hdvd, ?_, ?_, ?_, ?_, hb', hb⟩
        · simp only [PGSIZE] at *
          omega
        all_goals simp only [Vma.stop]; omega
      · rintro a ⟨-, hca, hcb⟩
        refine ⟨hval, ?_, ?_⟩
        · simp only at hca; omega
        · simp only [Vma.stop] at hcb ⊢; omega
    · rw [if_neg hstart] at hend
      rw [Vma.cut_end (h.ranged i hval) hstart hpos hlt hvpos] at hv
      rw [hv]
      constructor
      · intro _
        refine ⟨ha, Int.dvd_sub hl hdvd, ?_, ?_, ?_, ?_, hoge, holt⟩
        all_goals simp only [Vma.stop] at *; omega
      · rintro a ⟨-, hca, hcb⟩
        refine ⟨hval, hca, ?_⟩
        simp only [Vma.stop] at hcb ⊢
        omega

theorem inRange_apart {c : VmCall} {r : ℤ} (h : s.proc.Apart) (hg : InRange ops s c)
    (he : Ends (vmCall ops c) s r t) : t.proc.Apart := by
  cases c with
  | mmap addr length prot flags fd offset =>
    obtain ⟨hpos, hdvd, hmax⟩ := hg
    rcases sysMmap_cases he with ⟨-, rfl, -⟩ | ⟨k, f, i, -, -, -, -, hproc, href⟩
    · exact h
    · have hmax := hmax.resolve_left href
      have hend := fun i hv => (h.ranged i hv).end64_dvd
      obtain ⟨-, hbase, hle, -⟩ := Proc.base_spec hend
      have hlt := length.toInt_lt
      rw [← Proc.base_eq_top hend] at hmax
      rw [hproc, pgroundupInt_of_dvd hdvd length.le_toInt hlt]
      apply h.setVma
      · intro _
        refine ⟨hbase, hdvd, ?_, ?_, ?_, hlt, offset.le_toInt, offset.toInt_lt⟩
        all_goals simp only [Vma.stop]; omega
      · rintro a ⟨-, hca, -⟩ j - ⟨hvj, -, hcb⟩
        have hj := hle j hvj
        have hend' := (h.ranged j hvj).end64_eq
        simp only at hca
        omega
  | munmap addr length =>
    rcases sysMunmap_cases he with ⟨-, rfl, -⟩ | ⟨i, u, hfind, -, hproc, -⟩
    · exact h
    · obtain ⟨hr, hc⟩ := unmap_ranged h hg hfind
      rw [hproc]
      exact h.setVma hr fun a ha j hji hj => hji (h.unique j i a hj (hc a ha))

/-- The call removes exactly the pages of the range from the map, or fails and leaves the
map as it was. -/
def MunmapExact (ops : FileOps φ σ) (s : Task φ σ) (addr : UInt64) (length : Int32) : Prop :=
  ∃ r t, Ends (vmCall ops (.munmap addr length)) s r t ∧
    ((r = 0 ∧ s.proc.Removes t.proc addr.toNat (addr.toNat + length.toInt)) ∨
      (r = -1 ∧ ∀ a : ℤ, (PGSIZE : ℤ) ∣ a → t.proc.pageMap a = s.proc.pageMap a))

section Inside

variable {addr : UInt64} {length : Int32} {i : Fin Param.MAX_VMA}

/-- A range inside the mapping `i` is looked up in `i`, so the call is exact when what it
makes of `i` is. -/
theorem munmapExact_iff_removes (h : s.proc.Apart) (hlive : ops.Live s)
    (hi : (s.proc.vmas i).Covers addr.toNat) :
    MunmapExact ops s addr length ↔
      s.proc.Removes (s.proc.setVma i ((s.proc.vmas i).unmap addr.toNat length.toInt))
        addr.toNat (addr.toNat + length.toInt) := by
  have hfind := Proc.findVma_of_covers h hi
  have hends : ∀ {r t}, Ends (vmCall ops (.munmap addr length)) s r t → r = 0 ∧
      t.proc = s.proc.setVma i ((s.proc.vmas i).unmap addr.toNat length.toInt) := by
    intro r t he
    rcases sysMunmap_cases he with ⟨-, -, hn⟩ | ⟨j, u, hj, hr, hproc, -⟩
    · simp [hfind] at hn
    · obtain rfl : i = j := Option.some.inj (hfind.symm.trans hj)
      exact ⟨hr, hproc⟩
  constructor
  · rintro ⟨r, t, he, ⟨-, hex⟩ | ⟨hr, -⟩⟩
    · rwa [(hends he).2] at hex
    · have := (hends he).1
      omega
  · intro hex
    obtain ⟨r, t, he⟩ := sysMunmap_ends hlive addr.toNat length.toInt
    exact ⟨r, t, he, Or.inl ⟨(hends he).1, by rwa [(hends he).2]⟩⟩

/-- A range at the start: the rest of the mapping keeps its places in the file when the
offset stays an `int`. -/
theorem removes_start_iff {p : Proc φ} (h : p.Apart) (hval : (p.vmas i).valid = true)
    {l : ℤ} (h' : (p.setVma i ((p.vmas i).cut (p.vmas i).addr l)).Apart) (hpos : 0 < l)
    (hdvd : (PGSIZE : ℤ) ∣ l) (hlt : l < (p.vmas i).length) :
    p.Removes (p.setVma i ((p.vmas i).cut (p.vmas i).addr l)) (p.vmas i).addr
      ((p.vmas i).addr + l) ↔ (p.vmas i).offset + l < 2 ^ 31 := by
  have hr := h.ranged i hval
  have hstop : (p.vmas i).stop = (p.vmas i).addr + (p.vmas i).length := rfl
  have h64 := hr.stop_lt
  have hllt := hr.length_lt
  have hoge := hr.offset_ge
  have hv := Vma.cut_start hr hpos (by omega) (by omega) (by omega)
  have hkeep : ∀ a, ((p.vmas i).cut (p.vmas i).addr l).Covers a ↔
      (p.vmas i).Covers a ∧ ¬ ((p.vmas i).addr ≤ a ∧ a < (p.vmas i).addr + l) := by
    intro a
    rw [hv]
    simp only [Vma.Covers, hval, Vma.stop, true_and]
    omega
  have hb := Int.bmod_lt (x := (p.vmas i).offset + l) (m := 2 ^ 32) (by decide)
  constructor
  · intro hex
    -- the first page after the range shows the offset of the rest
    have hcov : (p.vmas i).Covers ((p.vmas i).addr + l) := ⟨hval, by omega, by omega⟩
    have hpage := hex ((p.vmas i).addr + l)
      (Int.dvd_add (Int.natCast_dvd_natCast.mpr hr.addr_dvd) hdvd)
    rw [Proc.pageMap_setVma h h', if_pos ((hkeep _).mpr ⟨hcov, by omega⟩), if_neg (by omega),
      Proc.pageMap_of_covers h hcov, hv] at hpage
    have hplace := congrArg Prod.snd (Option.some.inj hpage)
    simp only [Vma.place] at hplace
    omega
  · intro hfit
    refine Proc.removes_setVma h h' (fun a ha hb => ⟨hval, ha, by omega⟩) hkeep fun a _ => ?_
    rw [hv]
    simp only [Vma.place, Prod.mk.injEq, true_and]
    rw [Int.bmod_eq_of_le (by omega) (by omega)]
    omega

/-- A range after the start: the mapping loses its last pages, which are those of the range
when the range ends it. -/
theorem removes_end_iff {p : Proc φ} (h : p.Apart) {addr : ℕ} (hi : (p.vmas i).Covers addr)
    (hadvd : PGSIZE ∣ addr) (hne : addr ≠ (p.vmas i).addr) {l : ℤ}
    (h' : (p.setVma i ((p.vmas i).cut addr l)).Apart) (hpos : 0 < l)
    (hin : addr + l ≤ (p.vmas i).stop) :
    p.Removes (p.setVma i ((p.vmas i).cut addr l)) addr (addr + l) ↔
      addr + l = (p.vmas i).stop := by
  obtain ⟨hval, hlo, -⟩ := hi
  have hr := h.ranged i hval
  have hstop : (p.vmas i).stop = (p.vmas i).addr + (p.vmas i).length := rfl
  have hllt := hr.length_lt
  have hv := Vma.cut_end hr hne hpos (by omega) (by omega)
  have hkeep : ∀ a, ((p.vmas i).cut addr l).Covers a ↔
      (p.vmas i).Covers a ∧ a < (p.vmas i).stop - l := by
    intro a
    rw [hv]
    simp only [Vma.Covers, hval, Vma.stop, true_and]
    omega
  constructor
  · intro hex
    -- the first page of the range is still mapped unless the range ends the mapping
    by_contra hend
    have hpage := hex addr (Int.natCast_dvd_natCast.mpr hadvd)
    rw [Proc.pageMap_setVma h h', if_pos ((hkeep _).mpr ⟨⟨hval, hlo, by omega⟩, by omega⟩),
      if_pos ⟨Int.le_refl _, by omega⟩] at hpage
    simp at hpage
  · intro hend
    refine Proc.removes_setVma h h' (fun a ha hb => ⟨hval, by omega, by omega⟩) (fun a => ?_)
      fun a _ => by rw [hv]; rfl
    rw [hkeep]
    simp only [Vma.Covers, hval, true_and]
    omega

theorem removes_whole {p : Proc φ} (h : p.Apart) (hval : (p.vmas i).valid = true)
    (h' : (p.setVma i { p.vmas i with valid := false }).Apart) :
    p.Removes (p.setVma i { p.vmas i with valid := false }) (p.vmas i).addr (p.vmas i).stop := by
  refine Proc.removes_setVma h h' (fun a ha hb => ⟨hval, ha, hb⟩) (fun a => ?_)
    fun a hc => absurd hc.1 (by simp)
  simp only [Vma.Covers]
  simp

/-- Unmapping a range inside a mapping is exact when the range is at the start of the
mapping and the offset of the rest is still an `int`, or at its end. -/
theorem munmapExact_iff (h : s.proc.Apart) (hlive : ops.Live s) (hadvd : PGSIZE ∣ addr.toNat)
    (hpos : 0 < length.toInt) (hdvd : (PGSIZE : ℤ) ∣ length.toInt)
    (hi : (s.proc.vmas i).Covers addr.toNat)
    (hin : addr.toNat + length.toInt ≤ (s.proc.vmas i).stop) :
    MunmapExact ops s addr length ↔
      (addr.toNat = (s.proc.vmas i).addr ∧ (s.proc.vmas i).offset + length.toInt < 2 ^ 31) ∨
        addr.toNat + length.toInt = (s.proc.vmas i).stop := by
  have hstop : (s.proc.vmas i).stop = (s.proc.vmas i).addr + (s.proc.vmas i).length := rfl
  have hfind := Proc.findVma_of_covers h hi
  have hlo := hi.2.1
  have h64 := (h.ranged i hi.1).stop_lt
  have hapart : (s.proc.setVma i ((s.proc.vmas i).unmap addr.toNat length.toInt)).Apart := by
    have hg : InRange ops s (.munmap addr length) := by
      refine ⟨hadvd, hpos, hdvd, fun j hj => ?_⟩
      obtain rfl : i = j := Option.some.inj (hfind.symm.trans hj)
      split <;> omega
    obtain ⟨hr, hc⟩ := unmap_ranged h hg hfind
    exact h.setVma hr fun a ha j hji hj => hji (h.unique j i a hj (hc a ha))
  rw [munmapExact_iff_removes h hlive hi]
  by_cases hw : addr.toNat = (s.proc.vmas i).addr ∧ length.toInt = (s.proc.vmas i).length
  · have hv : (s.proc.vmas i).unmap addr.toNat length.toInt =
        { s.proc.vmas i with valid := false } := if_pos hw
    rw [hv] at hapart ⊢
    have hremoves := removes_whole h hi.1 hapart
    refine iff_of_true ?_ (Or.inr (by omega))
    rwa [hw.1, hw.2, ← hstop]
  · have hv : (s.proc.vmas i).unmap addr.toNat length.toInt =
        (s.proc.vmas i).cut addr.toNat length.toInt := if_neg hw
    rw [hv] at hapart ⊢
    by_cases hstart : addr.toNat = (s.proc.vmas i).addr
    · rw [hstart] at hapart ⊢
      rw [removes_start_iff h hi.1 hapart hpos hdvd (by omega)]
      have hend : ¬ ((s.proc.vmas i).addr + length.toInt = (s.proc.vmas i).stop) := by omega
      simp [hend]
    · rw [removes_end_iff h hi hadvd hstart hapart hpos hin]
      simp [hstart]

end Inside

/-- The mappings of every state of a run whose calls keep the ends of mappings in the
addresses do not overlap. -/
theorem reached_apart (h : Reached (vmCall ops) (InRange ops) (fun s => s.proc.NoVma) s) :
    s.proc.Apart := by
  apply Reached.invariant (I := fun s => s.proc.Apart) _ _ h
  · intro s hs
    exact ⟨fun i hv => by simp [hs i] at hv, fun i j a hc _ => by simp [Vma.Covers, hs i] at hc⟩
  · exact fun s t c r hs hg he => inRange_apart hs hg he

/-- After any run whose calls keep the ends of mappings in the addresses, unmapping a range
inside a mapping is exact when the range is at the start of the mapping and the offset of
the rest is still an `int`, or at the end of the mapping, and only then. -/
theorem munmap_exact (h : Reached (vmCall ops) (InRange ops) (fun s => s.proc.NoVma) s)
    (hlive : ops.Live s) {addr : UInt64} {length : Int32} (hadvd : PGSIZE ∣ addr.toNat)
    (hpos : 0 < length.toInt) (hdvd : (PGSIZE : ℤ) ∣ length.toInt) {i : Fin Param.MAX_VMA}
    (hi : (s.proc.vmas i).Covers addr.toNat)
    (hin : addr.toNat + length.toInt ≤ (s.proc.vmas i).stop) :
    MunmapExact ops s addr length ↔
      (addr.toNat = (s.proc.vmas i).addr ∧ (s.proc.vmas i).offset + length.toInt < 2 ^ 31) ∨
        addr.toNat + length.toInt = (s.proc.vmas i).stop :=
  munmapExact_iff (reached_apart h) hlive hadvd hpos hdvd hi hin

def mappedTask : @Task ℕ (ℕ → ℤ) smallParam :=
  let _ := smallParam
  ⟨(freshTask 0x3000).proc.setVma ⟨0, by decide⟩ ⟨true, 0x40000000, 0x3000, 3, 1, 0, 0⟩,
    Function.update (fun _ => 1) 0 2⟩

omit pm in
theorem mappedTask_live :
    letI := smallParam
    countingOps.Live mappedTask :=
  let _ := smallParam
  countingOps_live fun f => by
    show 1 ≤ Function.update (fun _ => (1 : ℤ)) 0 2 f
    rw [Function.update_apply]
    split <;> decide

omit pm in
theorem mappedTask_reached :
    letI := smallParam
    Reached (vmCall countingOps) (InRange countingOps) (fun s => s.proc.NoVma) mappedTask := by
  let _ := smallParam
  have hmap : Ends (vmCall countingOps (.mmap 0 0x3000 3 1 0 0)) (freshTask 0x3000) 0x40000000
      mappedTask := rfl
  exact .call (c := .mmap 0 0x3000 3 1 0 0) (.init fun _ => rfl)
    ⟨by decide, by decide, Or.inr (by decide)⟩ hmap

omit pm in
/-- The last two pages are unmapped exactly. -/
theorem munmap_exact_small :
    letI := smallParam
    MunmapExact countingOps mappedTask 0x40001000 0x2000 :=
  let _ := smallParam
  (munmap_exact mappedTask_reached mappedTask_live (by decide) (by decide) (by decide)
    (i := ⟨0, by decide⟩) (by decide) (by decide)).mpr (Or.inr (by decide))

omit pm in
/-- Unmapping the page in the middle drops the last page instead. -/
theorem munmap_not_exact :
    letI := smallParam
    Reached (vmCall countingOps) (InRange countingOps) (fun s => s.proc.NoVma) mappedTask ∧
      countingOps.Live mappedTask ∧ (mappedTask.proc.vmas ⟨0, by decide⟩).Covers 0x40001000 ∧
      0x40001000 + 0x1000 ≤ (mappedTask.proc.vmas ⟨0, by decide⟩).stop ∧
      ¬ MunmapExact countingOps mappedTask 0x40001000 0x1000 := by
  let _ := smallParam
  refine ⟨mappedTask_reached, mappedTask_live, by decide, by decide, fun hexact => ?_⟩
  have hcond := (munmapExact_iff (reached_apart mappedTask_reached) mappedTask_live (by decide)
    (by decide) (by decide) (i := ⟨0, by decide⟩) (by decide) (by decide)).mp hexact
  exact absurd hcond (by decide)

end Xv6Sheet
