import Mathlib.Algebra.Order.BigOperators.Group.Finset
import Xv6Sheet.Primes.Sieve

/-! # The pipeline ends

No schedule of the processes goes on forever. A process has a few steps left for each number it has
still to read, and there is at most one process for each prime.
-/

namespace Xv6Sheet.Primes

variable {n i k : ℕ} {s t : State}

/-- The steps to the next `read`, or to the end for a process that has read all. -/
def Pc.rank (n : ℕ) : Pc → ℕ
  | pipe => n + 11
  | fill i => n + 12 - i
  | close0 _ => 10
  | dup _ => 9
  | closeRd _ => 8
  | closeWr _ => 7
  | print _ => 6
  | pipeNext => 8
  | fork => 7
  | closeRead => 6
  | write => 5
  | read => 4
  | closeWrite => 3
  | wait => 2
  | exit => 1
  | exited => 0

/-- At most so many steps are left to process `k`, which may not have been made yet. A number that
is read costs up to five. -/
def State.left (n : ℕ) (s : State) (k : ℕ) : ℕ :=
  if k < s.nproc then (s.proc k).pc.rank n + 5 * (n - (s.pipe k).taken) else 10 + 5 * n

def State.leftAll (n : ℕ) (s : State) : ℕ := ∑ k ∈ Finset.range n, s.left n k

theorem add_two_le_prime (k : ℕ) : k + 2 ≤ prime k := Nat.add_two_le_nth_prime k

theorem Inv.lt_of_proc (h : Inv n s) (hk : k < s.nproc) : k < n := by
  have hle := h.le k hk
  have hlt := add_two_le_prime k
  omega

theorem Inv.taken_lt (h : Inv n s) (hlt : (s.pipe k).taken < (s.pipe k).written.length) :
    (s.pipe k).taken < n := by
  have hle := (h.written k).length_le
  have hsieve : (sieve n k).length ≤ n - 1 := by
    unfold sieve
    exact (List.length_filter_le _ _).trans (by rw [List.length_range'])
  omega

theorem leftAll_lt (hi : i < n) (hother : ∀ k, k ≠ i → t.left n k ≤ s.left n k)
    (hself : t.left n i < s.left n i) : t.leftAll n < s.leftAll n := by
  refine Finset.sum_lt_sum (fun k _ => ?_) ⟨i, Finset.mem_range.mpr hi, hself⟩
  rcases eq_or_ne k i with rfl | hk
  · exact hself.le
  · exact hother k hk

theorem Inv.left_lt (h : Inv n s) (hi : i < s.nproc) (hnproc : t.nproc = s.nproc)
    (hproc : ∀ k, k ≠ i → t.proc k = s.proc k)
    (htaken : ∀ k, k ≠ i → (t.pipe k).taken = (s.pipe k).taken)
    (hself : (t.proc i).pc.rank n + 5 * (n - (t.pipe i).taken) <
      (s.proc i).pc.rank n + 5 * (n - (s.pipe i).taken)) : t.leftAll n < s.leftAll n := by
  refine leftAll_lt (h.lt_of_proc hi) (fun k hk => ?_) ?_
  · rw [State.left, State.left, hnproc, hproc k hk, htaken k hk]
  · rw [State.left, State.left, if_pos (hnproc ▸ hi), if_pos hi]
    exact hself

theorem Inv.left_setProc (h : Inv n s) (hi : i < s.nproc) {q : Proc}
    (hq : q.pc.rank n < (s.proc i).pc.rank n) : (s.setProc i q).leftAll n < s.leftAll n := by
  refine h.left_lt hi rfl (fun k hk => s.setProc_ne i q hk) (fun _ _ => rfl) ?_
  rw [State.setProc_self]
  exact Nat.add_lt_add_right hq _

theorem Inv.left_openPipe (h : Inv n s) (hi : i < s.nproc) {pc : Pc}
    (hpc : pc.rank n < (s.proc i).pc.rank n) : (s.openPipe i pc).leftAll n < s.leftAll n := by
  unfold State.openPipe
  dsimp only
  split
  · exact h.left_setProc hi hpc
  · split
    · exact h.left_setProc hi hpc
    · exact h.left_setProc hi hpc

theorem Inv.left_dup (h : Inv n s) (hi : i < s.nproc) {fd : ℕ} {pc : Pc}
    (hpc : pc.rank n < (s.proc i).pc.rank n) : (s.dup i fd pc).leftAll n < s.leftAll n := by
  unfold State.dup
  dsimp only
  split
  · exact h.left_setProc hi hpc
  · exact h.left_setProc hi hpc

theorem Inv.left_send (h : Inv n s) (hi : i < s.nproc) {fd x : ℕ} {pc : Pc}
    (hpc : pc.rank n < (s.proc i).pc.rank n) : (s.send i fd x pc).leftAll n < s.leftAll n := by
  unfold State.send
  dsimp only
  split
  · refine h.left_lt hi rfl (fun k hk => ?_) (fun k _ => ?_) ?_
    · rw [State.push_proc, s.setProc_ne i _ hk]
    · rw [State.push_taken, State.setProc_pipe]
    · rw [State.push_proc, State.setProc_self, State.push_taken, State.setProc_pipe]
      exact Nat.add_lt_add_right hpc _
  · exact h.left_setProc hi hpc

theorem Inv.left_receive (h : Inv n s) (hi : i < s.nproc) (hpc : (s.proc i).pc = .read)
    (hstep : s.receive i = some t) : t.leftAll n < s.leftAll n := by
  have hg := h.good i hi
  simp only [Good, hpc] at hg
  unfold State.receive at hstep
  simp only [hg.1.zero] at hstep
  cases hx : (s.pipe i).written[(s.pipe i).taken]? with
  | some x =>
    simp only [hx, Option.some.injEq] at hstep
    subst hstep
    have hlt := h.taken_lt (List.getElem?_eq_some_iff.mp hx).1
    have hrank : (State.afterRead { s.proc i with data := x }).rank n ≤ 8 := by
      rcases afterRead_cases (p := { s.proc i with data := x }) rfl with
        ⟨-, heq⟩ | ⟨-, -, heq⟩ | ⟨-, -, heq⟩
      · rw [heq]
        exact Nat.le_add_right 4 4
      · rw [heq]
        exact Nat.le_refl 8
      · rw [heq]
        exact Nat.le_add_right 5 3
    refine h.left_lt hi rfl (fun k hk => ?_) (fun k hk => ?_) ?_
    · rw [State.pull_proc, s.setProc_ne i _ hk]
    · rw [State.pull_ne _ _ _ hk, State.setProc_pipe]
    · rw [State.pull_proc, State.setProc_self, State.pull_taken, State.setProc_pipe, hpc]
      have hread : Pc.read.rank n = 4 := rfl
      refine Nat.lt_of_le_of_lt (Nat.add_le_add_right hrank _) ?_
      omega
  | none =>
    simp only [hx] at hstep
    split at hstep
    · cases hstep
    · cases hstep
      exact h.left_setProc hi (by rw [hpc]; exact Nat.lt_succ_self _)

theorem Inv.left_fork (h : Inv n s) (hi : i < s.nproc) (hpc : (s.proc i).pc = .fork) :
    (s.fork i).leftAll n < s.leftAll n := by
  have hne : i ≠ s.nproc := hi.ne
  refine leftAll_lt (h.lt_of_proc hi) (fun k hk => ?_) ?_
  · unfold State.left State.fork
    dsimp only
    rcases eq_or_ne k s.nproc with rfl | hkn
    · rw [if_pos (Nat.lt_succ_self _), if_neg (Nat.lt_irrefl _), Function.update_self]
      exact Nat.add_le_add_left (Nat.mul_le_mul_left 5 (Nat.sub_le _ _)) 10
    · rw [Function.update_of_ne hkn, Function.update_of_ne hk]
      by_cases hlt : k < s.nproc
      · rw [if_pos hlt, if_pos (by omega)]
      · rw [if_neg hlt, if_neg (by omega)]
  · unfold State.left State.fork
    dsimp only
    rw [Function.update_of_ne hne, Function.update_self, if_pos (by omega), if_pos hi, hpc]
    exact Nat.add_lt_add_right (Nat.lt_succ_self 6) _

theorem Inv.left_step (h : Inv n s) (hstep : Step n i s t) : t.leftAll n < s.leftAll n := by
  obtain ⟨hi, hact⟩ := hstep
  have hf := h.filled
  have hg := h.good i hi
  unfold act at hact
  cases hpc : (s.proc i).pc with
  | pipe =>
    simp only [hpc, Option.some.injEq] at hact
    exact hact ▸ h.left_openPipe hi (by rw [hpc, Pc.rank, Pc.rank]; omega)
  | fill j =>
    simp only [Good, hpc] at hg
    obtain ⟨rfl, -⟩ := hg
    rw [hpc] at hf
    obtain ⟨-, hj, -⟩ := hf
    simp only [hpc] at hact
    split at hact
    · cases hact
      exact h.left_send hi (by rw [hpc, Pc.rank, Pc.rank]; omega)
    · cases hact
      exact h.left_setProc hi (by rw [hpc, Pc.rank, Pc.rank]; omega)
  | close0 child =>
    simp only [hpc, Option.some.injEq] at hact
    exact hact ▸ h.left_setProc hi (by rw [hpc]; exact Nat.lt_succ_self _)
  | dup child =>
    simp only [hpc, Option.some.injEq] at hact
    exact hact ▸ h.left_dup hi (by rw [hpc]; exact Nat.lt_succ_self _)
  | closeRd child =>
    simp only [hpc, Option.some.injEq] at hact
    exact hact ▸ h.left_setProc hi (by rw [hpc]; exact Nat.lt_succ_self _)
  | closeWr child =>
    simp only [hpc, Option.some.injEq] at hact
    exact hact ▸ h.left_setProc hi (by rw [hpc]; exact Nat.lt_succ_self _)
  | print child =>
    simp only [hpc, Option.some.injEq] at hact
    subst hact
    refine h.left_lt hi rfl (fun k hk => s.setProc_ne i _ hk) (fun _ _ => rfl) ?_
    dsimp only
    rw [State.setProc_self, State.setProc_pipe, hpc]
    refine Nat.add_lt_add_right ?_ _
    cases child
    · exact Nat.lt_succ_of_lt (Nat.lt_succ_self 4)
    · exact Nat.lt_succ_self 5
  | read =>
    simp only [hpc] at hact
    exact h.left_receive hi hpc hact
  | pipeNext =>
    simp only [hpc, Option.some.injEq] at hact
    exact hact ▸ h.left_openPipe hi (by rw [hpc]; exact Nat.lt_succ_self _)
  | fork =>
    simp only [hpc, Option.some.injEq] at hact
    exact hact ▸ h.left_fork hi hpc
  | closeRead =>
    simp only [hpc, Option.some.injEq] at hact
    exact hact ▸ h.left_setProc hi (by rw [hpc]; exact Nat.lt_succ_self _)
  | write =>
    simp only [hpc, Option.some.injEq] at hact
    exact hact ▸ h.left_send hi (by rw [hpc]; exact Nat.lt_succ_self _)
  | closeWrite =>
    simp only [hpc, Option.some.injEq] at hact
    exact hact ▸ h.left_setProc hi (by rw [hpc]; exact Nat.lt_succ_self _)
  | wait =>
    simp only [hpc] at hact
    split at hact
    · cases hact
      exact h.left_setProc hi (by rw [hpc]; exact Nat.lt_succ_self _)
    · cases hact
  | exit =>
    simp only [hpc, Option.some.injEq] at hact
    exact hact ▸ h.left_setProc hi (by rw [hpc]; exact Nat.lt_succ_self _)
  | exited => simp [hpc] at hact

theorem Run.length_le {is : List ℕ} (hrun : Run n s is t) (h : Inv n s) :
    is.length + t.leftAll n ≤ s.leftAll n := by
  induction hrun with
  | nil => simp
  | @snoc t u is i hrun hstep ih =>
    have hlt := (hrun.inv h).left_step hstep
    rw [List.length_cons]
    omega

theorem Inv.exists_run (h : Inv n s) :
    ∃ js t, Run n s js t ∧ ∀ k < t.nproc, (t.proc k).pc = .exited := by
  induction hm : s.leftAll n using Nat.strong_induction_on generalizing s with
  | _ m ih =>
    by_cases hstuck : ∀ i t, ¬ Step n i s t
    · exact ⟨[], s, .nil s, h.stuck hstuck⟩
    · push Not at hstuck
      obtain ⟨i, u, hstep⟩ := hstuck
      obtain ⟨js, t, hrun, ht⟩ := ih _ (hm ▸ h.left_step hstep) (h.step hstep) rfl
      exact ⟨js ++ [i], t, (Run.snoc (.nil s) hstep).append hrun, ht⟩

/-- Every schedule of the processes has a bounded number of steps, and from every state it reaches
they can go on until all have exited. -/
theorem pipeline_ends (n : ℕ) (s₀ s : State) (is : List ℕ) (hn : 2 ≤ n) (h₀ : Start s₀)
    (hrun : Run n s₀ is s) :
    is.length ≤ 6 * n + 11 + (n - 1) * (5 * n + 10) ∧
      ∃ js t, Run n s js t ∧ ∀ k < t.nproc, (t.proc k).pc = .exited := by
  have h := h₀.inv hn
  refine ⟨?_, (hrun.inv h).exists_run⟩
  have hle := hrun.length_le h
  have hall : s₀.leftAll n = 6 * n + 11 + (n - 1) * (5 * n + 10) := by
    obtain ⟨m, rfl⟩ : ∃ m, n = m + 1 := ⟨n - 1, by omega⟩
    have hrest : ∀ k ∈ Finset.range m, s₀.left (m + 1) (k + 1) = 5 * (m + 1) + 10 := fun k _ => by
      rw [State.left, if_neg (by rw [h₀.nproc]; omega), Nat.add_comm]
    rw [State.leftAll, Finset.sum_range_succ', Finset.sum_congr rfl hrest, Finset.sum_const,
      Finset.card_range, State.left, if_pos (by rw [h₀.nproc]; decide), h₀.pc, h₀.pipe, Pc.rank,
      Nat.add_sub_cancel, Nat.sub_zero, smul_eq_mul]
    omega
  omega

theorem pipeline_ends_small : ∃ js t, Run 3 small js t ∧ ∀ k < t.nproc, (t.proc k).pc = .exited :=
  (pipeline_ends 3 small small [] (by decide)
    ⟨rfl, rfl, rfl, rfl, rfl, fun _ => rfl, rfl, rfl⟩ (.nil small)).2

end Xv6Sheet.Primes
