import Mathlib.Algebra.Order.BigOperators.Group.Finset
import Xv6Sheet.Lib.Count
import Xv6Sheet.Itable.Sections

/-! # References are counted exactly

An entry is used by the processes that hold references to it and locked by one of them. What
a step changes is the process, one entry and the disk.
-/

namespace Xv6Sheet.Itable

variable {ι : Type} {n : ℕ}

variable {s t : State ι n} {i : ι} {ip : Fin n}

theorem lookup_some {dev inum : ℕ} (h : s.lookup dev inum = some ip) :
    0 < (s.entry ip).ref ∧ (s.entry ip).dev = dev ∧ (s.entry ip).inum = inum := by
  simpa using List.find?_some h

theorem lookup_none {dev inum : ℕ} (h : s.lookup dev inum = none) (hpos : 0 < (s.entry ip).ref)
    (hdev : (s.entry ip).dev = dev) : (s.entry ip).inum ≠ inum := by
  intro hinum
  have := List.find?_eq_none.mp h ip (List.mem_finRange ip)
  simp [hpos, hdev, hinum] at this

theorem empty_some (h : s.empty = some ip) : (s.entry ip).ref = 0 := by
  simpa using List.find?_some h

def Keeps (s t : State ι n) (ip : Fin n) : Prop :=
  (t.entry ip).dev = (s.entry ip).dev ∧ (t.entry ip).inum = (s.entry ip).inum

section

variable [DecidableEq ι]

theorem goto_self {pc : Pc n} (hpc : (s.proc i).pc = pc) : s.goto i pc = s := by
  subst hpc
  unfold State.goto State.setProc
  rw [Function.update_eq_self]

omit [DecidableEq ι] in
theorem Keeps.of_update {x : Entry ι} {e : Fin n} (ht : t.entry = Function.update s.entry e x)
    (hdev : x.dev = (s.entry e).dev) (hinum : x.inum = (s.entry e).inum) : Keeps s t ip := by
  unfold Keeps
  rw [ht]
  rcases eq_or_ne ip e with rfl | he
  · rw [Function.update_self]
    exact ⟨hdev, hinum⟩
  · rw [Function.update_of_ne he]
    exact ⟨rfl, rfl⟩

end

/-- The entry that the process works on behind its sleep lock, within `ilock` or `iput`. -/
def Pc.busy : Pc n → Option (Fin n)
  | load ip | trunc ip | clear ip | invalidate ip | release ip => some ip
  | _ => none

structure Inv [Fintype ι] (s : State ι n) : Prop where
  unique : ∀ ip ip', 0 < (s.entry ip).ref → 0 < (s.entry ip').ref →
    (s.entry ip).dev = (s.entry ip').dev → (s.entry ip).inum = (s.entry ip').inum → ip = ip'
  ref : ∀ ip, (s.entry ip).ref = ∑ i, ((s.proc i).held ip : ℤ)
  holder : ∀ ip i, (s.entry ip).holder = some i → 0 < (s.proc i).held ip
  busy : ∀ i ip, (s.proc i).pc.busy = some ip → (s.entry ip).holder = some i
  drop : ∀ i ip, (s.proc i).pc = .drop ip →
    0 < (s.proc i).held ip ∧ (s.entry ip).holder ≠ some i
  valid : ∀ ip i, (s.entry ip).holder = some i → (s.proc i).pc.busy ≠ some ip →
    (s.entry ip).valid = true

variable [Fintype ι]

theorem Start.inv (h : Start s) : Inv s where
  unique ip ip' hip := by simp [h.ref ip] at hip
  ref ip := by simp [h.ref, h.held]
  holder ip i hi := by simp [h.holder] at hi
  busy i ip hi := by simp [h.pc, Pc.busy] at hi
  drop i ip hi := by simp [h.pc] at hi
  valid ip i hi := by simp [h.holder] at hi

theorem Inv.held_le (h : Inv s) (i : ι) (ip : Fin n) :
    ((s.proc i).held ip : ℤ) ≤ (s.entry ip).ref := by
  rw [h.ref ip]
  exact Finset.single_le_sum (f := fun i => ((s.proc i).held ip : ℤ))
    (fun _ _ => Int.natCast_nonneg _) (Finset.mem_univ i)

theorem Inv.ref_pos (h : Inv s) (hi : 0 < (s.proc i).held ip) : 0 < (s.entry ip).ref := by
  have := h.held_le i ip
  omega

/-- The only reference to an entry is that of one process, so no other has the entry locked. -/
theorem Inv.holder_none (h : Inv s) (hone : (s.entry ip).ref = 1) (hi : Spare s i ip) :
    (s.entry ip).holder = none := by
  cases hx : (s.entry ip).holder with
  | none => rfl
  | some j =>
    have hj := h.holder ip j hx
    have hle := h.held_le i ip
    obtain ⟨hpos, hspare⟩ := hi
    rcases eq_or_ne j i with rfl | hne
    · have := hspare hx
      omega
    · have hsum := Finset.add_le_sum (f := fun i => ((s.proc i).held ip : ℤ))
        (fun _ _ => Int.natCast_nonneg _) (Finset.mem_univ i) (Finset.mem_univ j) hne.symm
      rw [← h.ref ip] at hsum
      omega

theorem Inv.setDisk (h : Inv s) (disk : ℕ → ℕ → Dinode) : Inv { s with disk := disk } :=
  ⟨h.unique, h.ref, h.holder, h.busy, h.drop, h.valid⟩

variable [DecidableEq ι]

theorem sum_held (s : State ι n) (i : ι) (p : Proc n) (ip : Fin n) :
    ∑ j, ((Function.update s.proc i p j).held ip : ℤ) + (s.proc i).held ip =
      ∑ j, ((s.proc j).held ip : ℤ) + p.held ip :=
  sum_update (fun p : Proc n => (p.held ip : ℤ)) s.proc i p

theorem Inv.update (h : Inv s) (i : ι) (ip : Fin n) (x : Entry ι) (p : Proc n)
    (disk : ℕ → ℕ → Dinode) (hheld : ∀ e, e ≠ ip → p.held e = (s.proc i).held e)
    (href : x.ref + (s.proc i).held ip = (s.entry ip).ref + p.held ip)
    (hsame : ∀ e, e ≠ ip → 0 < x.ref → 0 < (s.entry e).ref → x.dev = (s.entry e).dev →
      x.inum ≠ (s.entry e).inum)
    (hbusy : ∀ e, p.pc.busy = some e → e = ip ∧ x.holder = some i)
    (hold : ∀ e, (s.proc i).pc.busy = some e → e = ip)
    (hdrop : ∀ e, p.pc = .drop e → e = ip ∧ 0 < p.held ip ∧ x.holder ≠ some i)
    (hother : ∀ j, j ≠ i → (x.holder = some j ↔ (s.entry ip).holder = some j))
    (hvalid : ∀ j, j ≠ i → x.holder = some j → x.valid = (s.entry ip).valid)
    (hself : x.holder = some i → 0 < p.held ip ∧ (p.pc.busy ≠ some ip → x.valid = true)) :
    Inv ⟨Function.update s.entry ip x, disk, Function.update s.proc i p⟩ := by
  have hne : ∀ {e}, e ≠ ip → Function.update s.entry ip x e = s.entry e := fun he =>
    Function.update_of_ne he ..
  have hnp : ∀ {j}, j ≠ i → Function.update s.proc i p j = s.proc j := fun hj =>
    Function.update_of_ne hj ..
  have hkeep : ∀ e, e ≠ ip → p.pc.busy ≠ some e ∧ (s.proc i).pc.busy ≠ some e := fun e he =>
    ⟨fun hb => he (hbusy e hb).1, fun hb => he (hold e hb)⟩
  refine ⟨fun e e' he he' hdev hinum => ?_, fun e => ?_, fun e j hj => ?_, fun j e hj => ?_,
    fun j e hj => ?_, fun e j hj hb => ?_⟩ <;> dsimp only at *
  · by_cases hee : e = ip <;> by_cases hee' : e' = ip
    · rw [hee, hee']
    · rw [hee, Function.update_self] at he hdev hinum
      rw [hne hee'] at he' hdev hinum
      exact absurd hinum (hsame e' hee' he he' hdev)
    · rw [hee', Function.update_self] at he' hdev hinum
      rw [hne hee] at he hdev hinum
      exact absurd hinum.symm (hsame e hee he' he hdev.symm)
    · rw [hne hee] at he hdev hinum
      rw [hne hee'] at he' hdev hinum
      exact h.unique e e' he he' hdev hinum
  · have hsum := sum_held s i p e
    have hs := h.ref e
    rcases eq_or_ne e ip with rfl | he
    · rw [Function.update_self]
      omega
    · rw [hheld e he] at hsum
      rw [hne he]
      omega
  · rcases eq_or_ne e ip with rfl | he
    · rw [Function.update_self] at hj
      rcases eq_or_ne j i with rfl | hji
      · rw [Function.update_self]
        exact (hself hj).1
      · rw [hnp hji]
        exact h.holder e j ((hother j hji).mp hj)
    · rw [hne he] at hj
      have hpos := h.holder e j hj
      rcases eq_or_ne j i with rfl | hji
      · rwa [Function.update_self, hheld e he]
      · rwa [hnp hji]
  · rcases eq_or_ne j i with rfl | hji
    · rw [Function.update_self] at hj
      obtain ⟨rfl, hx⟩ := hbusy e hj
      rwa [Function.update_self]
    · rw [hnp hji] at hj
      have hx := h.busy j e hj
      rcases eq_or_ne e ip with rfl | he
      · rw [Function.update_self]
        exact (hother j hji).mpr hx
      · rwa [hne he]
  · rcases eq_or_ne j i with rfl | hji
    · rw [Function.update_self] at hj ⊢
      obtain ⟨rfl, hpos, hx⟩ := hdrop e hj
      rw [Function.update_self]
      exact ⟨hpos, hx⟩
    · rw [hnp hji] at hj ⊢
      obtain ⟨hpos, hx⟩ := h.drop j e hj
      rcases eq_or_ne e ip with rfl | he
      · rw [Function.update_self]
        exact ⟨hpos, fun hxj => hx ((hother j hji).mp hxj)⟩
      · rw [hne he]
        exact ⟨hpos, hx⟩
  · rcases eq_or_ne e ip with rfl | he
    · rw [Function.update_self] at hj ⊢
      rcases eq_or_ne j i with rfl | hji
      · rw [Function.update_self] at hb
        exact (hself hj).2 hb
      · rw [hnp hji] at hb
        rw [hvalid j hji hj]
        exact h.valid e j ((hother j hji).mp hj) hb
    · rw [hne he] at hj ⊢
      rcases eq_or_ne j i with rfl | hji
      · exact h.valid e j hj (hkeep e he).2
      · rw [hnp hji] at hb
        exact h.valid e j hj hb

theorem Inv.goto (h : Inv s) {pc : Pc n} (hold : (s.proc i).pc.busy = none)
    (hbusy : pc.busy = none) (hdrop : ∀ ip, pc ≠ .drop ip) : Inv (s.goto i pc) := by
  have hnp : ∀ {j}, j ≠ i → (s.goto i pc).proc j = s.proc j := fun hj =>
    Function.update_of_ne hj ..
  have hi : (s.goto i pc).proc i = { s.proc i with pc := pc } := Function.update_self ..
  have hheld : ∀ j e, ((s.goto i pc).proc j).held e = (s.proc j).held e := fun j e => by
    rcases eq_or_ne j i with rfl | hj
    · rw [hi]
    · rw [hnp hj]
  refine ⟨h.unique, fun e => ?_, fun e j hj => ?_, fun j e hj => ?_, fun j e hj => ?_,
    fun e j hj hb => ?_⟩
  · simp only [hheld]
    exact h.ref e
  · rw [hheld]
    exact h.holder e j hj
  · rcases eq_or_ne j i with rfl | hji
    · rw [hi, hbusy] at hj
      cases hj
    · rw [hnp hji] at hj
      exact h.busy j e hj
  · rw [hheld]
    rcases eq_or_ne j i with rfl | hji
    · rw [hi] at hj
      exact absurd hj (hdrop e)
    · rw [hnp hji] at hj
      exact h.drop j e hj
  · rcases eq_or_ne j i with rfl | hji
    · exact h.valid e j hj (by simp [hold])
    · rw [hnp hji] at hb
      exact h.valid e j hj hb

theorem Inv.idup (h : Inv s) (hold : (s.proc i).pc.busy = none) (hpos : 0 < (s.entry ip).ref) :
    Inv (s.idup i ip) := by
  refine h.update i ip _ _ _ (fun e he => Function.update_of_ne he ..) ?_ ?_ (by simp [Pc.busy])
    (by simp [hold]) (by simp) (fun _ _ => Iff.rfl) (fun _ _ _ => rfl) ?_
  · simp
    omega
  · intro e he _ hpos' hdev hinum
    exact he (h.unique ip e hpos hpos' hdev hinum).symm
  · intro hholder
    refine ⟨by simp, fun _ => h.valid ip i hholder (by simp [hold])⟩

theorem Inv.iget (h : Inv s) (hold : (s.proc i).pc.busy = none) (dev inum : ℕ) :
    Inv (s.iget i dev inum) := by
  unfold State.iget
  split
  · rename_i ip hip
    exact h.idup hold (lookup_some hip).1
  · rename_i hlookup
    split
    · rename_i ip hip
      have h0 := empty_some hip
      have hheld : ∀ j, (s.proc j).held ip = 0 := fun j => by
        have := h.held_le j ip
        omega
      have hholder : ∀ j, (s.entry ip).holder ≠ some j := fun j hj =>
        absurd (h.holder ip j hj) (by simp [hheld])
      refine h.update i ip _ _ _ (fun e he => Function.update_of_ne he ..) ?_ ?_
        (by simp [Pc.busy]) (by simp [hold]) (by simp) (fun _ _ => Iff.rfl)
        (fun j _ hj => absurd hj (hholder j)) (fun hi => absurd hi (hholder i))
      · simp [h0, hheld]
      · intro e _ _ hpos hdev hinum
        exact lookup_none hlookup hpos hdev.symm hinum.symm
    · exact h.goto hold rfl (by simp)

/-- A process drops a reference, though not its last one to an inode it has locked. -/
theorem Inv.dropRef (h : Inv s) (hold : (s.proc i).pc.busy = none) (hspare : Spare s i ip) :
    Inv (s.drop i ip) := by
  obtain ⟨hpos, hlocked⟩ := hspare
  refine h.update i ip _ _ _ (fun e he => Function.update_of_ne he ..) ?_ ?_ (by simp [Pc.busy])
    (by simp [hold]) (by simp) (fun _ _ => Iff.rfl) (fun _ _ _ => rfl) ?_
  · simp
    omega
  · intro e he hx hpos' hdev hinum
    exact he (h.unique ip e (h.ref_pos hpos) hpos' hdev hinum).symm
  · intro hholder
    have := hlocked hholder
    refine ⟨by simp; omega, fun _ => h.valid ip i hholder (by simp [hold])⟩

/-- What is to be shown of a step of process `i` on an entry it has a reference to and has
locked, or takes the lock of, or gives it up. -/
theorem Inv.onLocked (h : Inv s) (hpos : 0 < (s.proc i).held ip) {x : Entry ι} {pc : Pc n}
    (disk : ℕ → ℕ → Dinode) (hold : ∀ e, (s.proc i).pc.busy = some e → e = ip)
    (hdev : x.dev = (s.entry ip).dev) (hinum : x.inum = (s.entry ip).inum)
    (href : x.ref = (s.entry ip).ref)
    (hbefore : (s.entry ip).holder = none ∨ (s.entry ip).holder = some i)
    (hafter : x.holder = none ∨ x.holder = some i)
    (hbusy : ∀ e, pc.busy = some e → e = ip ∧ x.holder = some i)
    (hdrop : ∀ e, pc = .drop e → e = ip ∧ x.holder ≠ some i)
    (hvalid : x.holder = some i → pc.busy ≠ some ip → x.valid = true) :
    Inv ({ s with disk := disk, entry := Function.update s.entry ip x }.goto i pc) := by
  refine h.update i ip x { s.proc i with pc := pc } disk (fun _ _ => rfl) ?_ ?_ hbusy hold ?_ ?_ ?_
    fun hx => ⟨hpos, hvalid hx⟩
  · rw [href]
  · intro e he _ hpos' hdev' hinum'
    exact he (h.unique ip e (h.ref_pos hpos) hpos' (hdev ▸ hdev') (hinum ▸ hinum')).symm
  · intro e he
    obtain ⟨he, hx⟩ := hdrop e he
    exact ⟨he, hpos, hx⟩
  · intro j hj
    have hne : some i ≠ some j := fun heq => hj (Option.some.inj heq).symm
    rcases hbefore with hb | hb <;> rcases hafter with ha | ha <;> simp [hb, ha, hne]
  · intro j hj hx
    rcases hafter with ha | ha
    · rw [ha] at hx
      cases hx
    · rw [ha] at hx
      exact absurd (Option.some.inj hx).symm hj

theorem Inv.pass (h : Inv s) (hpc : (s.proc i).pc = .idle) (hspare : Spare s i ip) (j : ι) :
    Inv ((s.setHeld i ip ((s.proc i).held ip - 1) .idle).setHeld j ip
      (((s.setHeld i ip ((s.proc i).held ip - 1) .idle).proc j).held ip + 1)
      ((s.setHeld i ip ((s.proc i).held ip - 1) .idle).proc j).pc) := by
  obtain ⟨hpos, hlocked⟩ := hspare
  set u := s.setHeld i ip ((s.proc i).held ip - 1) .idle with hu
  have hui : u.proc i = ⟨.idle, Function.update (s.proc i).held ip ((s.proc i).held ip - 1)⟩ :=
    Function.update_self ..
  have hun : ∀ k, k ≠ i → u.proc k = s.proc k := fun k hk => Function.update_of_ne hk ..
  set t := u.setHeld j ip ((u.proc j).held ip + 1) (u.proc j).pc with ht
  have htj : t.proc j = ⟨(u.proc j).pc, Function.update (u.proc j).held ip
    ((u.proc j).held ip + 1)⟩ :=
    Function.update_self ..
  have htn : ∀ k, k ≠ j → t.proc k = u.proc k := fun k hk => Function.update_of_ne hk ..
  have hupc : ∀ k, (u.proc k).pc = (s.proc k).pc := fun k => by
    rcases eq_or_ne k i with rfl | hk
    · rw [hui, hpc]
    · rw [hun k hk]
  have hpcs : ∀ k, (t.proc k).pc = (s.proc k).pc := fun k => by
    rcases eq_or_ne k j with rfl | hk
    · rw [htj, ← hupc]
    · rw [htn k hk, hupc]
  have hle : ∀ k e, (u.proc k).held e ≤ (t.proc k).held e := fun k e => by
    rcases eq_or_ne k j with rfl | hk
    · rw [htj]
      dsimp only
      rcases eq_or_ne e ip with rfl | he
      · rw [Function.update_self]
        omega
      · rw [Function.update_of_ne he]
    · rw [htn k hk]
  -- only the giver has less than before, and not less than it needs
  have hheld : ∀ k e, 0 < (s.proc k).held e → (k = i → e = ip → 1 < (s.proc k).held e) →
      0 < (t.proc k).held e := fun k e hk hone => by
    refine lt_of_lt_of_le ?_ (hle k e)
    rcases eq_or_ne k i with rfl | hki
    · rw [hui]
      dsimp only
      rcases eq_or_ne e ip with rfl | he
      · have := hone rfl rfl
        rw [Function.update_self]
        omega
      · rwa [Function.update_of_ne he]
    · rwa [hun k hki]
  refine ⟨h.unique, fun e => ?_, fun e k hk => ?_, fun k e hk => ?_, fun k e hk => ?_,
    fun e k hk hb => ?_⟩
  · have hs := h.ref e
    have h1 := sum_held s i (u.proc i) e
    have h2 := sum_held u j (t.proc j) e
    have hu' : Function.update s.proc i (u.proc i) = u.proc := by rw [hui]; rfl
    have ht' : Function.update u.proc j (t.proc j) = t.proc := by rw [htj]; rfl
    rw [hu', hui] at h1
    rw [ht', htj] at h2
    show (s.entry e).ref = _
    dsimp only at h1 h2
    rcases eq_or_ne e ip with rfl | he
    · rw [Function.update_self] at h1 h2
      omega
    · rw [Function.update_of_ne he] at h1 h2
      omega
  · refine hheld k e (h.holder e k hk) ?_
    rintro rfl rfl
    exact hlocked hk
  · rw [hpcs] at hk
    exact h.busy k e hk
  · rw [hpcs] at hk
    obtain ⟨hk', hx⟩ := h.drop k e hk
    refine ⟨hheld k e hk' ?_, hx⟩
    rintro rfl
    rw [hpc] at hk
    cases hk
  · rw [hpcs] at hb
    exact h.valid e k hk hb

theorem Inv.call (h : Inv s) (hpc : (s.proc i).pc = .idle) {c : Call ι n}
    (hcall : call i c s = some t) : Inv t := by
  have hold : (s.proc i).pc.busy = none := by rw [hpc]; rfl
  cases c with
  | iget dev inum =>
    cases hcall
    exact h.iget hold dev inum
  | idup ip =>
    obtain ⟨hpos, ht⟩ := Option.ite_none_right_eq_some.mp hcall
    cases ht
    exact h.idup hold (h.ref_pos hpos)
  | ilock ip =>
    obtain ⟨hpos, ht⟩ := Option.ite_none_right_eq_some.mp hcall
    unfold State.ilock at ht
    dsimp only at ht
    split at ht
    · cases ht
      exact h.goto hold rfl (by simp)
    · obtain ⟨hfree, ht⟩ := Option.ite_none_right_eq_some.mp ht
      cases ht
      exact h.onLocked hpos s.disk (by simp [hold]) rfl rfl rfl (.inl hfree) (.inr rfl)
        (by simp [Pc.busy]) (by simp) (by simp [Pc.busy])
  | iunlock ip =>
    obtain ⟨hpos, ht⟩ := Option.ite_none_right_eq_some.mp hcall
    unfold State.iunlock at ht
    dsimp only at ht
    split at ht
    · cases ht
      exact h.goto hold rfl (by simp)
    · rename_i hlocked
      rw [not_or, not_not] at hlocked
      cases ht
      rw [← goto_self (s := s.setEntry ip _) hpc]
      exact h.onLocked hpos s.disk (by simp [hold]) rfl rfl rfl (.inr hlocked.1) (.inl rfl)
        (by simp [Pc.busy]) (by simp) (by simp)
  | iput ip =>
    obtain ⟨hspare, ht⟩ := Option.ite_none_right_eq_some.mp hcall
    unfold State.iput at ht
    dsimp only at ht
    split at ht
    · obtain ⟨hfree, ht⟩ := Option.ite_none_right_eq_some.mp ht
      cases ht
      exact h.onLocked hspare.1 s.disk (by simp [hold]) rfl rfl rfl (.inl hfree) (.inr rfl)
        (by simp [Pc.busy]) (by simp) (by simp [Pc.busy])
    · cases ht
      exact h.dropRef hold hspare
  | ialloc dev type =>
    cases hcall
    exact h.goto hold rfl (by simp)
  | store ip dip =>
    obtain ⟨hlocked, ht⟩ := Option.ite_none_right_eq_some.mp hcall
    cases ht
    rw [← goto_self (s := s.setEntry ip _) hpc]
    exact h.onLocked (h.holder ip i hlocked) s.disk (by simp [hold]) rfl rfl rfl (.inr hlocked)
      (.inr hlocked) (by simp [Pc.busy]) (by simp)
      (fun _ _ => h.valid ip i hlocked (by simp [hold]))
  | iupdate ip =>
    obtain ⟨-, ht⟩ := Option.ite_none_right_eq_some.mp hcall
    cases ht
    exact h.setDisk _
  | pass j ip =>
    obtain ⟨hspare, ht⟩ := Option.ite_none_right_eq_some.mp hcall
    cases ht
    exact h.pass hpc hspare j

section Run

variable [Superblock]

theorem Inv.resume (h : Inv s) (hresume : resume i s = some t) : Inv t := by
  unfold Itable.resume at hresume
  -- a process within `ilock` or `iput` has the entry locked
  have hbusy : ∀ ip, (s.proc i).pc.busy = some ip → (s.entry ip).holder = some i ∧
      0 < (s.proc i).held ip ∧ ∀ e, (s.proc i).pc.busy = some e → e = ip := fun ip hip =>
    ⟨h.busy i ip hip, h.holder ip i (h.busy i ip hip), fun e he =>
      (Option.some.inj (hip.symm.trans he)).symm⟩
  cases hpc : (s.proc i).pc with
  | idle => simp [hpc] at hresume
  | panicked => simp [hpc] at hresume
  | load ip =>
    obtain ⟨hlocked, hpos, hold⟩ := hbusy ip (by rw [hpc]; rfl)
    simp only [hpc, Option.some.injEq] at hresume
    subst hresume
    unfold State.load
    dsimp only
    split
    · refine h.onLocked hpos s.disk hold rfl rfl rfl (.inr hlocked) (.inr hlocked) ?_ ?_
        (fun _ _ => rfl)
      · split <;> simp [Pc.busy]
      · split <;> simp
    · rename_i hvalid
      have heq : s = { s with entry := Function.update s.entry ip (s.entry ip) } := by
        rw [Function.update_eq_self]
      rw [heq]
      exact h.onLocked hpos s.disk hold rfl rfl rfl (.inr hlocked) (.inr hlocked)
        (by simp [Pc.busy]) (by simp) (fun _ _ => by simpa using hvalid)
  | trunc ip =>
    obtain ⟨hlocked, hpos, hold⟩ := hbusy ip (by rw [hpc]; rfl)
    simp only [hpc, Option.some.injEq] at hresume
    subst hresume
    exact h.onLocked hpos _ hold rfl rfl rfl (.inr hlocked) (.inr hlocked)
      (by simpa [Pc.busy] using hlocked) (by simp) (by simp [Pc.busy])
  | clear ip =>
    obtain ⟨hlocked, hpos, hold⟩ := hbusy ip (by rw [hpc]; rfl)
    simp only [hpc, Option.some.injEq] at hresume
    subst hresume
    exact h.onLocked hpos _ hold rfl rfl rfl (.inr hlocked) (.inr hlocked)
      (by simpa [Pc.busy] using hlocked) (by simp) (by simp [Pc.busy])
  | invalidate ip =>
    obtain ⟨hlocked, hpos, hold⟩ := hbusy ip (by rw [hpc]; rfl)
    simp only [hpc, Option.some.injEq] at hresume
    subst hresume
    exact h.onLocked hpos s.disk hold rfl rfl rfl (.inr hlocked) (.inr hlocked)
      (by simpa [Pc.busy] using hlocked) (by simp) (by simp [Pc.busy])
  | release ip =>
    obtain ⟨hlocked, hpos, hold⟩ := hbusy ip (by rw [hpc]; rfl)
    simp only [hpc, Option.some.injEq] at hresume
    subst hresume
    exact h.onLocked hpos s.disk hold rfl rfl rfl (.inr hlocked) (.inl rfl)
      (by simp [Pc.busy]) (by simp) (by simp)
  | drop ip =>
    obtain ⟨hpos, hfree⟩ := h.drop i ip hpc
    simp only [hpc, Option.some.injEq] at hresume
    subst hresume
    exact h.dropRef (by rw [hpc]; rfl) ⟨hpos, fun hx => absurd hx hfree⟩
  | alloc dev inum type =>
    have hold : (s.proc i).pc.busy = none := by rw [hpc]; rfl
    simp only [hpc] at hresume
    split at hresume
    · split at hresume
      · cases hresume
        exact (h.setDisk _).goto hold rfl (by simp)
      · cases hresume
        exact h.goto hold rfl (by simp)
    · cases hresume
      exact h.goto hold rfl (by simp)
  | get dev inum =>
    have hold : (s.proc i).pc.busy = none := by rw [hpc]; rfl
    simp only [hpc, Option.some.injEq] at hresume
    subst hresume
    exact h.iget hold dev inum

theorem Inv.step (h : Inv s) (hstep : Step i s t) : Inv t := by
  obtain ⟨c, hact⟩ := hstep
  unfold act at hact
  split at hact
  · rename_i hpc
    exact h.call hpc hact
  · cases hact
  · exact h.resume hact

theorem Reached.inv (h : Reached s) : Inv s := by
  induction h with
  | start h => exact h.inv
  | step _ hstep ih => exact ih.step hstep

omit [Superblock] in
theorem Inv.iget_keeps (h : Inv s) {j : ι} (hj : 0 < (s.proc j).held ip) (dev inum : ℕ) :
    Keeps s (s.iget i dev inum) ip := by
  unfold State.iget
  split
  · exact Keeps.of_update rfl rfl rfl
  · split
    · rename_i e he
      have hne : ip ≠ e := by
        rintro rfl
        have := h.ref_pos hj
        rw [empty_some he] at this
        exact absurd this (lt_irrefl 0)
      unfold Keeps State.setHeld State.setProc State.setEntry
      dsimp only
      rw [Function.update_of_ne hne]
      exact ⟨rfl, rfl⟩
    · exact ⟨rfl, rfl⟩

omit [Superblock] in
theorem Inv.call_keeps (h : Inv s) {j : ι} (hj : 0 < (s.proc j).held ip) {c : Call ι n}
    (hcall : Itable.call i c s = some t) : Keeps s t ip := by
  cases c with
  | iget dev inum =>
    cases hcall
    exact h.iget_keeps hj dev inum
  | idup e =>
    obtain ⟨-, ht⟩ := Option.ite_none_right_eq_some.mp hcall
    cases ht
    exact Keeps.of_update rfl rfl rfl
  | ilock e =>
    obtain ⟨-, ht⟩ := Option.ite_none_right_eq_some.mp hcall
    unfold State.ilock at ht
    dsimp only at ht
    split at ht
    · cases ht
      exact ⟨rfl, rfl⟩
    · obtain ⟨-, ht⟩ := Option.ite_none_right_eq_some.mp ht
      cases ht
      exact Keeps.of_update rfl rfl rfl
  | iunlock e =>
    obtain ⟨-, ht⟩ := Option.ite_none_right_eq_some.mp hcall
    unfold State.iunlock at ht
    dsimp only at ht
    split at ht <;> cases ht
    · exact ⟨rfl, rfl⟩
    · exact Keeps.of_update rfl rfl rfl
  | iput e =>
    obtain ⟨-, ht⟩ := Option.ite_none_right_eq_some.mp hcall
    unfold State.iput at ht
    dsimp only at ht
    split at ht
    · obtain ⟨-, ht⟩ := Option.ite_none_right_eq_some.mp ht
      cases ht
      exact Keeps.of_update rfl rfl rfl
    · cases ht
      exact Keeps.of_update rfl rfl rfl
  | ialloc dev type =>
    cases hcall
    exact ⟨rfl, rfl⟩
  | store e dip =>
    obtain ⟨-, ht⟩ := Option.ite_none_right_eq_some.mp hcall
    cases ht
    exact Keeps.of_update rfl rfl rfl
  | iupdate e =>
    obtain ⟨-, ht⟩ := Option.ite_none_right_eq_some.mp hcall
    cases ht
    exact ⟨rfl, rfl⟩
  | pass k e =>
    obtain ⟨-, ht⟩ := Option.ite_none_right_eq_some.mp hcall
    cases ht
    exact ⟨rfl, rfl⟩

theorem Inv.resume_keeps (h : Inv s) {j : ι} (hj : 0 < (s.proc j).held ip)
    (hresume : Itable.resume i s = some t) : Keeps s t ip := by
  unfold Itable.resume at hresume
  split at hresume
  · cases hresume
  · cases hresume
  · cases hresume
    unfold State.load
    dsimp only
    split
    · exact Keeps.of_update rfl rfl rfl
    · exact ⟨rfl, rfl⟩
  · cases hresume
    exact Keeps.of_update rfl rfl rfl
  · cases hresume
    exact Keeps.of_update rfl rfl rfl
  · cases hresume
    exact Keeps.of_update rfl rfl rfl
  · cases hresume
    exact Keeps.of_update rfl rfl rfl
  · cases hresume
    exact Keeps.of_update rfl rfl rfl
  · split at hresume
    · split at hresume <;> cases hresume <;> exact ⟨rfl, rfl⟩
    · cases hresume
      exact ⟨rfl, rfl⟩
  · cases hresume
    exact h.iget_keeps hj _ _

theorem Inv.step_keeps (h : Inv s) {j : ι} (hj : 0 < (s.proc j).held ip) (hstep : Step i s t) :
    Keeps s t ip := by
  obtain ⟨c, hact⟩ := hstep
  unfold act at hact
  split at hact
  · exact h.call_keeps hj hact
  · cases hact
  · exact h.resume_keeps hj hact

/-- The process has completed `ilock`, and has neither unlocked the inode since nor begun to
free it. -/
def Locked (s : State ι n) (i : ι) (ip : Fin n) : Prop :=
  (s.entry ip).holder = some i ∧ (s.proc i).pc.busy ≠ some ip

theorem Inv.ilock_completes (h : Inv s) (hpc : (s.proc i).pc = .load ip) (hstep : Step i s t)
    (hidle : (t.proc i).pc = .idle) : Locked t i ip := by
  have hlocked := h.busy i ip (by rw [hpc]; rfl)
  obtain ⟨c, hact⟩ := hstep
  have ht : t = s.load i ip := by
    unfold act at hact
    split at hact
    · rename_i hpc'
      rw [hpc] at hpc'
      cases hpc'
    · cases hact
    · unfold Itable.resume at hact
      rw [hpc] at hact
      exact (Option.some.inj hact).symm
  refine ⟨?_, by rw [hidle]; simp [Pc.busy]⟩
  rw [ht]
  unfold State.load
  dsimp only
  split
  · show (Function.update s.entry ip _ ip).holder = some i
    rw [Function.update_self]
    exact hlocked
  · exact hlocked

end Run

/-- In every state that any number of processes can reach in any order of their steps, an
inode has one entry, the count of an entry is the number of references held to it, an entry to
which somebody holds a reference stays with its inode, and one that a process has locked is
valid from the end of `ilock` on. `iput` never waits for the lock of the inode it frees. -/
theorem references_exact (ι : Type) [Fintype ι] [DecidableEq ι] [Superblock] (n : ℕ)
    (s : State ι n) (hs : Reached s) :
    (∀ ip ip', 0 < (s.entry ip).ref → 0 < (s.entry ip').ref →
      (s.entry ip).dev = (s.entry ip').dev → (s.entry ip).inum = (s.entry ip').inum → ip = ip') ∧
    (∀ ip, (s.entry ip).ref = ∑ i, ((s.proc i).held ip : ℤ)) ∧
    (∀ i t, Step i s t → ∀ ip j, 0 < (s.proc j).held ip →
      (t.entry ip).dev = (s.entry ip).dev ∧ (t.entry ip).inum = (s.entry ip).inum) ∧
    (∀ i ip t, (s.proc i).pc = .load ip → Step i s t → (t.proc i).pc = .idle → Locked t i ip) ∧
    (∀ i ip, Locked s i ip → (s.entry ip).valid = true) ∧
    (∀ i ip, Spare s i ip → (s.entry ip).ref = 1 → (s.entry ip).holder = none) := by
  have h := hs.inv
  refine ⟨h.unique, h.ref, fun i t hstep ip j hj => h.step_keeps hj hstep,
    fun i ip t hpc hstep hidle => h.ilock_completes hpc hstep hidle,
    fun i ip hlocked => h.valid ip i hlocked.1 hlocked.2,
    fun i ip hspare hone => h.holder_none hone hspare⟩

section Small

local instance small : Superblock := ⟨0, 2, 0, 0, by decide, by decide⟩

def smallStart : State (Fin 2) 2 where
  entry _ := ⟨.zero, 0, 0, 0, false, none⟩
  disk _ _ := { Dinode.zero with type := 1 }
  proc _ := ⟨.idle, fun _ => 0⟩

/-- One process frees the inode, and between its sections the other one allocates it and waits
for its lock. -/
def smallRun {ι : Type} {n : ℕ} (i j : ι) (ip : Fin n) : List (ι × Option (Call ι n)) :=
  [(i, some (.iget 1 1)), (i, some (.ilock ip)), (i, none), (i, some (.iunlock ip)),
    (i, some (.iput ip)), (i, none), (i, none), (j, some (.ialloc 1 2)), (j, none), (j, none),
    (i, none), (i, none), (j, some (.ilock ip)), (j, none), (i, none)]

theorem references_exact_small : ∃ s, runAll (smallRun 0 1 0) smallStart = some s ∧
    Locked s 1 0 ∧ (s.entry 0).valid = true ∧ (s.entry 0).ref = ∑ i, ((s.proc i).held 0 : ℤ) := by
  have hlocked : (runAll (smallRun 0 1 0) smallStart).any (fun s =>
      (s.entry 0).holder = some 1 ∧ (s.proc 1).pc.busy ≠ some 0) = true := by decide +kernel
  cases hs : runAll (smallRun 0 1 0) smallStart with
  | none => simp [hs] at hlocked
  | some s =>
    rw [hs, Option.any_some, decide_eq_true_eq] at hlocked
    have hreached : Reached s := Reached.of_runAll (.start
      ⟨fun _ => rfl, fun _ => rfl, fun _ => rfl, fun _ _ => rfl⟩) hs
    obtain ⟨-, href, -, -, hvalid, -⟩ := references_exact (Fin 2) 2 s hreached
    exact ⟨s, rfl, hlocked, hvalid 1 0 hlocked, href 0⟩

end Small

end Xv6Sheet.Itable
