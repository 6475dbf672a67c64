import Mathlib.Algebra.BigOperators.Ring.Finset
import Mathlib.Algebra.Order.BigOperators.Group.Finset
import Xv6Sheet.Hash.Locked
import Xv6Sheet.Lib.Count

/-! # Every schedule ends

The threads of the hash table never wait for each other in a circle, and no schedule goes on
forever. A thread waits for a lock only, and the thread that has it can go on. What a thread has
still to do is bounded by the lengths of the chains, and a chain is no longer than there are
entries.
-/

namespace Xv6Sheet.Hash

variable {ι : Type} [DecidableEq ι] {locked : Bool} {s t s₀ : State ι} {i j : ι}

def Finished (x : Thread) : Prop := x.pc = .idle ∧ x.todo = []

/-- What the locks say: a lock is held by a thread in its critical section, and without locks no
thread waits for one. -/
structure Held (locked : Bool) (s : State ι) : Prop where
  holder : ∀ b j, s.locks b = some j → locked = true ∧
    ∃ key, (s.thread j).pc.critical = some key ∧ bucket key = b
  waits : ∀ j key value, (s.thread j).pc = .lock key value → locked = true

omit [DecidableEq ι] in
theorem Start.held {program : ι → List Op} (h : Start program s) : Held locked s :=
  ⟨fun b j hb => by simp [h.locks] at hb, fun j key value hj => by simp [h.thread] at hj⟩

/-- A step that leaves the locks and stays in the critical section, or was in none. -/
theorem Held.of_goto (h : Held locked s) (hlocks : t.locks = s.locks) (hm : Move locked i s t)
    (hcrit : ∀ key, locked = true → (s.thread i).pc.critical = some key →
      (t.thread i).pc.critical = some key)
    (hwaits : ∀ key value, (t.thread i).pc = .lock key value → locked = true) : Held locked t := by
  refine ⟨fun b j hb => ?_, fun j key value hj => ?_⟩
  · rw [hlocks] at hb
    obtain ⟨hl, key, hkey, hbucket⟩ := h.holder b j hb
    refine ⟨hl, key, ?_, hbucket⟩
    rcases eq_or_ne j i with rfl | hji
    · exact hcrit key hl hkey
    · rwa [hm.frame hji]
  · rcases eq_or_ne j i with rfl | hji
    · exact hwaits key value hj
    · rw [hm.frame hji] at hj
      exact h.waits j key value hj

theorem Move.held (h : Held locked s) (hm : Move locked i s t) : Held locked t := by
  have hm' := hm
  cases hm with
  | @start op todo hpc htodo =>
    refine h.of_goto rfl hm' (fun key _ hk => by simp [hpc, Pc.critical] at hk)
      fun key value hk => ?_
    simp only [thread_setThread, if_true] at hk
    cases op with
    | put key' value' =>
      dsimp only at hk
      split at hk
      · assumption
      · cases hk
    | get key' => cases hk
  | @lock key value hpc hfree =>
    refine ⟨fun b j hb => ?_, fun j key' value' hj => ?_⟩
    · dsimp only at hb
      rw [Function.update_apply] at hb
      split at hb
      · rename_i hb'
        obtain rfl := Option.some.inj hb
        exact ⟨h.waits _ _ _ hpc, key, by simp [State.goto, Pc.critical], hb'.symm⟩
      · obtain ⟨hl, key', hkey, hbucket⟩ := h.holder b j hb
        have hji : j ≠ i := by
          rintro rfl
          simp [hpc, Pc.critical] at hkey
        exact ⟨hl, key', by simpa [State.goto, hji] using hkey, hbucket⟩
    · exact h.waits _ _ _ hpc
  | @first op hpc =>
    refine h.of_goto rfl hm' (fun key _ hk => ?_) fun key value hk => by simp [State.goto] at hk
    cases op with
    | put key' value => simpa [hpc, State.goto, Pc.critical] using hk
    | get key' => simp [hpc, Pc.critical] at hk
  | absent hpc =>
    exact h.of_goto rfl hm' (fun key _ hk => by simpa [hpc, State.goto, Pc.critical] using hk)
      fun key value hk => by simp [State.goto] at hk
  | missing hpc =>
    exact h.of_goto rfl hm' (fun key _ hk => by simp [hpc, Pc.critical] at hk)
      fun key value hk => by simp at hk
  | found hpc he hkey =>
    exact h.of_goto rfl hm' (fun key _ hk => by simpa [hpc, State.goto, Pc.critical] using hk)
      fun key value hk => by simp [State.goto] at hk
  | got hpc =>
    exact h.of_goto rfl hm' (fun key _ hk => by simp [hpc, Pc.critical] at hk)
      fun key value hk => by simp [State.goto] at hk
  | @other op a e hpc =>
    refine h.of_goto rfl hm' (fun key _ hk => ?_) fun key value hk => by simp [State.goto] at hk
    cases op with
    | put key' value => simpa [hpc, State.goto, Pc.critical] using hk
    | get key' => simp [hpc, Pc.critical] at hk
  | @next op a e hpc =>
    refine h.of_goto rfl hm' (fun key _ hk => ?_) fun key value hk => by simp [State.goto] at hk
    cases op with
    | put key' value => simpa [hpc, State.goto, Pc.critical] using hk
    | get key' => simp [hpc, Pc.critical] at hk
  | update hpc =>
    refine h.of_goto rfl hm' (fun key hl hk => ?_) fun key value hk => ?_
    · simpa [hpc, State.goto, State.setEntry, Pc.critical, afterPut, hl] using hk
    · cases locked <;> simp [State.goto, State.setEntry, afterPut] at hk
  | insert hpc =>
    exact h.of_goto rfl hm' (fun key _ hk => by simpa [hpc, State.goto, Pc.critical] using hk)
      fun key value hk => by simp [State.goto] at hk
  | malloc hpc =>
    exact h.of_goto rfl hm' (fun key _ hk => by simpa [hpc, State.goto, Pc.critical] using hk)
      fun key value hk => by simp [State.goto] at hk
  | setKey hpc =>
    exact h.of_goto rfl hm' (fun key _ hk => by simpa [hpc, State.goto, Pc.critical] using hk)
      fun key value hk => by simp [State.goto] at hk
  | setValue hpc =>
    exact h.of_goto rfl hm' (fun key _ hk => by simpa [hpc, State.goto, Pc.critical] using hk)
      fun key value hk => by simp [State.goto] at hk
  | setNext hpc =>
    exact h.of_goto rfl hm' (fun key _ hk => by simpa [hpc, State.goto, Pc.critical] using hk)
      fun key value hk => by simp [State.goto] at hk
  | link hpc =>
    refine h.of_goto rfl hm' (fun key hl hk => ?_) fun key value hk => ?_
    · simpa [hpc, State.goto, Pc.critical, afterPut, hl] using hk
    · cases locked <;> simp [State.goto, afterPut] at hk
  | @unlock key hpc =>
    refine ⟨fun b j hb => ?_, fun j key' value' hj => ?_⟩
    · dsimp only at hb
      rw [Function.update_apply] at hb
      split at hb
      · cases hb
      · rename_i hne
        obtain ⟨hl, key', hkey, hbucket⟩ := h.holder b j hb
        have hji : j ≠ i := by
          rintro rfl
          rw [hpc] at hkey
          obtain rfl := Option.some.inj hkey
          exact hne hbucket.symm
        exact ⟨hl, key', by simpa [State.goto, hji] using hkey, hbucket⟩
    · rcases eq_or_ne j i with rfl | hji
      · simp [State.goto] at hj
      · exact h.waits j key' value' (by simpa [State.goto, hji] using hj)

section Progress

/-- A thread that is not idle and waits for no lock can go on, as `malloc` finds memory. -/
theorem Inv.step_of_busy (h : Inv s) (hfree : ∃ a, s.heap a = none)
    (hidle : (s.thread i).pc ≠ .idle)
    (hlock : ∀ key value, (s.thread i).pc ≠ .lock key value) : ∃ t, Step locked i s t := by
  have hholds := h.holds i
  cases hpc : (s.thread i).pc with
  | idle => exact absurd hpc hidle
  | lock key value => exact absurd hpc (hlock key value)
  | first op => exact ⟨_, 0, default, by simp [act, hpc]; rfl⟩
  | test op e => exact h.search_step (by rw [hpc]; rfl)
  | next op a => exact h.search_step (by rw [hpc]; rfl)
  | update key value a =>
    rw [hpc] at hholds
    obtain ⟨e, he, -⟩ := hholds
    exact ⟨_, 0, default, by simp [act, hpc, he]; rfl⟩
  | insert key value => exact ⟨_, 0, default, by simp [act, hpc]; rfl⟩
  | malloc key value n =>
    obtain ⟨a, ha⟩ := hfree
    exact ⟨_, a, default, by simp [act, hpc, ha]; rfl⟩
  | setKey key value n a =>
    rw [hpc] at hholds
    obtain ⟨-, e, he, -⟩ := hholds
    exact ⟨_, 0, default, by simp [act, hpc, he]; rfl⟩
  | setValue key value n a =>
    rw [hpc] at hholds
    obtain ⟨-, e, he, -⟩ := hholds
    exact ⟨_, 0, default, by simp [act, hpc, he]; rfl⟩
  | setNext key value n a =>
    rw [hpc] at hholds
    obtain ⟨-, e, he, -⟩ := hholds
    exact ⟨_, 0, default, by simp [act, hpc, he]; rfl⟩
  | link key value n a => exact ⟨_, 0, default, by simp [act, hpc]; rfl⟩
  | unlock key => exact ⟨_, 0, default, by simp [act, hpc]; rfl⟩

/-- A thread that has not finished can go on, or it waits for a lock that another thread holds, and
that one can go on. -/
theorem Held.progress (hl : Held locked s) (h : Inv s) (hfree : ∃ a, s.heap a = none)
    (hi : ¬ Finished (s.thread i)) : (∃ t, Step locked i s t) ∨
      ∃ key value j t, (s.thread i).pc = .lock key value ∧ s.locks (bucket key) = some j ∧
        Step locked j s t := by
  by_cases hidle : (s.thread i).pc = .idle
  · refine Or.inl ?_
    cases htodo : (s.thread i).todo with
    | nil => exact absurd ⟨hidle, htodo⟩ hi
    | cons op todo => exact ⟨_, 0, default, by simp [act, hidle, htodo]; rfl⟩
  · by_cases hlock : ∃ key value, (s.thread i).pc = .lock key value
    · obtain ⟨key, value, hpc⟩ := hlock
      cases hj : s.locks (bucket key) with
      | none => exact Or.inl ⟨_, 0, default, by simp [act, hpc, hj]; rfl⟩
      | some j =>
        obtain ⟨-, key', hkey, -⟩ := hl.holder _ j hj
        obtain ⟨t, ht⟩ := h.step_of_busy (i := j) hfree
          (fun hpc => by simp [hpc, Pc.critical] at hkey)
          fun key value hpc => by simp [hpc, Pc.critical] at hkey
        exact Or.inr ⟨key, value, j, t, hpc, hj, ht⟩
    · exact Or.inl (h.step_of_busy hfree hidle fun key value hpc => hlock ⟨key, value, hpc⟩)

end Progress

section Bound

/-- At most `n` steps are left to the end of the operation, where chains have at most `m`
entries. -/
def Pc.Within (heap : ℕ → Option Entry) (m n : ℕ) : Pc → Prop
  | idle => True
  | lock _ _ => 2 * m + 10 ≤ n
  | first _ => 2 * m + 9 ≤ n
  | test op e => ∃ l, Chain (nexts heap (bucket op.key)) e l ∧ 2 * l.length + 8 ≤ n
  | next op a => ∃ l, Chain (nexts heap (bucket op.key)) (some a) l ∧ 2 * l.length + 7 ≤ n
  | insert _ _ => 7 ≤ n
  | malloc _ _ _ => 6 ≤ n
  | setKey _ _ _ _ => 5 ≤ n
  | setValue _ _ _ _ => 4 ≤ n
  | setNext _ _ _ _ => 3 ≤ n
  | update _ _ _ | link _ _ _ _ => 2 ≤ n
  | unlock _ => 1 ≤ n

theorem Pc.Within.mono {heap heap' : ℕ → Option Entry} {m n : ℕ} {pc : Pc} (h : pc.Within heap m n)
    (hk : Keeps heap heap') : pc.Within heap' m n := by
  cases pc with
  | test op e =>
    obtain ⟨l, hl, hn⟩ := h
    exact ⟨l, hk.chain hl, hn⟩
  | next op a =>
    obtain ⟨l, hl, hn⟩ := h
    exact ⟨l, hk.chain hl, hn⟩
  | _ => exact h

theorem Pc.within_afterPut (locked : Bool) (key m : ℕ) (heap : ℕ → Option Entry) :
    (afterPut locked key).Within heap m 1 := by
  cases locked
  · trivial
  · exact Nat.le_refl 1

def perOp (m : ℕ) : ℕ := 2 * m + 11

theorem Move.within {m n : ℕ} (hm : Move locked i s t) (h : Inv s)
    (hlen : ∀ b l, Chain (nexts s.heap b) (s.table b) l → l.length ≤ m)
    (hn : (s.thread i).pc.Within s.heap m n) : ∃ k, (t.thread i).pc.Within t.heap m k ∧
      k + perOp m * (t.thread i).todo.length + 1 ≤ n + perOp m * (s.thread i).todo.length := by
  -- all steps but the first one of an operation leave what is to be done
  have hsame : ∀ k, (t.thread i).pc.Within t.heap m k → (t.thread i).todo = (s.thread i).todo →
    k + 1 ≤ n →
      ∃ k, (t.thread i).pc.Within t.heap m k ∧
        k + perOp m * (t.thread i).todo.length + 1 ≤ n + perOp m * (s.thread i).todo.length :=
    fun k hk htodo hlt => ⟨k, hk, by rw [htodo]; omega⟩
  cases hm with
  | @start op todo hpc htodo =>
    refine ⟨2 * m + 10, ?_, ?_⟩
    · simp only [thread_setThread, if_true]
      cases op with
      | put key value =>
        cases locked
        · exact Nat.le_succ _
        · exact Nat.le_refl _
      | get key => exact Nat.le_succ _
    · simp only [thread_setThread, if_true, htodo, List.length_cons, perOp, Nat.mul_succ]
      omega
  | lock hpc =>
    rw [hpc] at hn
    exact hsame (2 * m + 9) (by simp [State.goto, Pc.Within]) (by simp [State.goto]) hn
  | @first op hpc =>
    rw [hpc] at hn
    obtain ⟨l, hl⟩ := h.table (bucket op.key)
    have hle := hlen _ l hl
    refine hsame (2 * l.length + 8) ?_ (by simp [State.goto]) (Nat.le_trans (by omega) hn)
    simp only [State.goto, thread_setThread, if_true]
    exact ⟨l, hl, Nat.le_refl _⟩
  | absent hpc =>
    rw [hpc] at hn
    obtain ⟨l, -, hn⟩ := hn
    exact hsame 7 (by simp [State.goto, Pc.Within]) (by simp [State.goto]) (by omega)
  | missing hpc =>
    rw [hpc] at hn
    obtain ⟨l, -, hn⟩ := hn
    exact hsame 0 (by simp [Pc.Within]) (by simp) (by omega)
  | found hpc =>
    rw [hpc] at hn
    obtain ⟨l, -, hn⟩ := hn
    exact hsame 2 (by simp [State.goto, Pc.Within]) (by simp [State.goto]) (by omega)
  | got hpc =>
    rw [hpc] at hn
    obtain ⟨l, -, hn⟩ := hn
    exact hsame 0 (by simp [State.goto, Pc.Within]) (by simp [State.goto]) (by omega)
  | other hpc =>
    rw [hpc] at hn
    obtain ⟨l, hl, hn⟩ := hn
    refine hsame (2 * l.length + 7) ?_ (by simp [State.goto]) hn
    simp only [State.goto, thread_setThread, if_true]
    exact ⟨l, hl, Nat.le_refl _⟩
  | @next op a e hpc he =>
    rw [hpc] at hn
    obtain ⟨l, hl, hn⟩ := hn
    cases hl with
    | @cons _ _ l hq hl =>
      obtain ⟨x, hx, -, -, rfl⟩ := nexts_eq_some.mp hq
      obtain rfl := Option.some.inj (he.symm.trans hx)
      rw [List.length_cons] at hn
      refine hsame (2 * l.length + 8) ?_ (by simp [State.goto]) (by omega)
      simp only [State.goto, thread_setThread, if_true]
      exact ⟨l, hl, Nat.le_refl _⟩
  | @update key _ _ _ hpc =>
    rw [hpc] at hn
    exact hsame 1 (by simp [State.goto, State.setEntry, Pc.within_afterPut])
      (by simp [State.goto, State.setEntry]) hn
  | insert hpc =>
    rw [hpc] at hn
    exact hsame 6 (by simp [State.goto, Pc.Within]) (by simp [State.goto]) hn
  | malloc hpc =>
    rw [hpc] at hn
    exact hsame 5 (by simp [State.goto, Pc.Within]) (by simp [State.goto, State.setEntry]) hn
  | setKey hpc =>
    rw [hpc] at hn
    exact hsame 4 (by simp [State.goto, Pc.Within]) (by simp [State.goto, State.setEntry]) hn
  | setValue hpc =>
    rw [hpc] at hn
    exact hsame 3 (by simp [State.goto, Pc.Within]) (by simp [State.goto, State.setEntry]) hn
  | setNext hpc =>
    rw [hpc] at hn
    exact hsame 2 (by simp [State.goto, Pc.Within]) (by simp [State.goto, State.setEntry]) hn
  | link hpc =>
    rw [hpc] at hn
    exact hsame 1 (by simp [State.goto, Pc.within_afterPut]) (by simp [State.goto]) hn
  | unlock hpc =>
    rw [hpc] at hn
    exact hsame 0 (by simp [State.goto, Pc.Within]) (by simp [State.goto]) hn

/-- An operation that has begun and has not called `malloc`. -/
def Pc.unspent : Pc → Bool
  | lock _ _ | first _ | test _ _ | next _ _ | insert _ _ | malloc _ _ _ => true
  | _ => false

/-- The operations of a thread that may have called `malloc`. -/
def Thread.spent (x : Thread) : ℕ := x.started.length - x.pc.unspent.toNat

theorem Move.spent (hm : Move locked i s t) (h : Inv s) {A : Finset ℕ}
    (hA : ∀ a, s.heap a ≠ none → a ∈ A) :
    ∃ B : Finset ℕ, (∀ a, t.heap a ≠ none → a ∈ B) ∧
      B.card + (s.thread i).spent ≤ A.card + (t.thread i).spent := by
  have hset : ∀ {a : ℕ} {e : Entry}, s.heap a ≠ none →
      ∀ b, Function.update s.heap a (some e) b ≠ none → b ∈ A := by
    intro a e ha b hb
    rw [Function.update_apply] at hb
    split at hb
    · rename_i hab
      exact hA b (hab ▸ ha)
    · exact hA b hb
  cases hm with
  | @malloc key value n a e hpc ha =>
    have hpos := List.length_pos_of_mem (h.started i (.put key value) (by rw [hpc]; rfl))
    refine ⟨Insert.insert a A, fun b hb => ?_, ?_⟩
    · simp only [State.goto, State.setThread, State.setEntry, Function.update_apply] at hb
      split at hb
      · rename_i hab
        exact hab ▸ Finset.mem_insert_self a A
      · exact Finset.mem_insert_of_mem (hA b hb)
    · have hcard := Finset.card_insert_le a A
      simp only [State.goto, State.setEntry, thread_setThread, if_true, Thread.spent, hpc,
        Pc.unspent,
        Bool.toNat_true, Bool.toNat_false]
      omega
  | @start op todo hpc =>
    refine ⟨A, hA, Nat.add_le_add_left ?_ _⟩
    cases op with
    | put key value => cases locked <;> simp [Thread.spent, Pc.unspent, hpc]
    | get key => simp [Thread.spent, Pc.unspent, hpc]
  | update hpc he =>
    refine ⟨A, hset (by simp [he]), Nat.add_le_add_left ?_ _⟩
    cases locked <;> simp [State.goto, State.setEntry, Thread.spent, Pc.unspent, hpc, afterPut]
  | setKey hpc he =>
    exact ⟨A, hset (by simp [he]), by simp [State.goto, State.setEntry, Thread.spent,
      Pc.unspent, hpc]⟩
  | setValue hpc he =>
    exact ⟨A, hset (by simp [he]), by simp [State.goto, State.setEntry, Thread.spent,
      Pc.unspent, hpc]⟩
  | setNext hpc he =>
    exact ⟨A, hset (by simp [he]), by simp [State.goto, State.setEntry, Thread.spent,
      Pc.unspent, hpc]⟩
  | link hpc =>
    refine ⟨A, hA, Nat.add_le_add_left ?_ _⟩
    cases locked <;> simp [State.goto, Thread.spent, Pc.unspent, hpc, afterPut]
  | lock hpc => exact ⟨A, hA, by simp [State.goto, Thread.spent, Pc.unspent, hpc]⟩
  | first hpc => exact ⟨A, hA, by simp [State.goto, Thread.spent, Pc.unspent, hpc]⟩
  | absent hpc => exact ⟨A, hA, by simp [State.goto, Thread.spent, Pc.unspent, hpc]⟩
  | missing hpc => exact ⟨A, hA, by simp [Thread.spent, Pc.unspent, hpc]⟩
  | found hpc => exact ⟨A, hA, by simp [State.goto, Thread.spent, Pc.unspent, hpc]⟩
  | got hpc => exact ⟨A, hA, by simp [State.goto, Thread.spent, Pc.unspent, hpc]⟩
  | other hpc => exact ⟨A, hA, by simp [State.goto, Thread.spent, Pc.unspent, hpc]⟩
  | next hpc => exact ⟨A, hA, by simp [State.goto, Thread.spent, Pc.unspent, hpc]⟩
  | insert hpc => exact ⟨A, hA, by simp [State.goto, Thread.spent, Pc.unspent, hpc]⟩
  | unlock hpc => exact ⟨A, hA, by simp [State.goto, Thread.spent, Pc.unspent, hpc]⟩

end Bound

section Run

variable [Fintype ι] {is : List ι} {A : Finset ℕ}

theorem Run.allocated (hr : Run locked s₀ is s) (h : Inv s₀) (hA : ∀ a, s₀.heap a ≠ none → a ∈ A) :
    ∃ B : Finset ℕ, (∀ a, s.heap a ≠ none → a ∈ B) ∧
      B.card + ∑ j, (s₀.thread j).spent ≤ A.card + ∑ j, (s.thread j).spent := by
  induction hr with
  | nil => exact ⟨A, hA, Nat.le_refl _⟩
  | @snoc t u is i hr hs ih =>
    obtain ⟨B, hB, hle⟩ := ih
    obtain ⟨C, hC, hle'⟩ := hs.move.spent (hr.inv h) hB
    have hsum := sum_add_of_eq (i := i) (f := fun j => (t.thread j).spent)
      (g := fun j => (u.thread j).spent) fun j hj => by rw [hs.move.frame hj]
    exact ⟨C, hC, by omega⟩

def work (s : State ι) : ℕ := ∑ j, (s.thread j).todo.length

theorem Run.entries (hr : Run locked s₀ is s) (h : Inv s₀) (hidle : ∀ j, (s₀.thread j).pc = .idle)
    (hA : ∀ a, s₀.heap a ≠ none → a ∈ A) :
    ∃ B : Finset ℕ, (∀ a, s.heap a ≠ none → a ∈ B) ∧ B.card ≤ A.card + work s₀ := by
  obtain ⟨B, hB, hle⟩ := hr.allocated h hA
  refine ⟨B, hB, ?_⟩
  have hspent : ∑ j, (s.thread j).spent ≤
    ∑ j, ((s₀.thread j).spent + (s₀.thread j).todo.length) := by
    refine Finset.sum_le_sum fun j _ => ?_
    have hprog := congrArg List.length (hr.program j)
    simp only [List.length_append, List.length_reverse] at hprog
    simp only [Thread.spent, hidle j, Pc.unspent, Bool.toNat_false, Nat.sub_zero]
    omega
  rw [Finset.sum_add_distrib] at hspent
  unfold work
  omega

omit [DecidableEq ι] [Fintype ι] in
theorem chain_length_le {b : Fin NBUCKET} {p : Option ℕ} {l : List ℕ}
    (h : Chain (nexts s.heap b) p l)
    (hA : ∀ a, s.heap a ≠ none → a ∈ A) : l.length ≤ A.card := by
  rw [← List.toFinset_card_of_nodup h.nodup]
  refine Finset.card_le_card fun a ha => hA a ?_
  obtain ⟨q, hq⟩ := h.next_of_mem (List.mem_toFinset.mp ha)
  obtain ⟨e, he, -⟩ := nexts_eq_some.mp hq
  simp [he]

theorem Run.length_le (hr : Run locked s₀ is s) (h : Inv s₀) (hidle : ∀ j, (s₀.thread j).pc = .idle)
    (hA : ∀ a, s₀.heap a ≠ none → a ∈ A) : ∃ r : ι → ℕ,
      (∀ j, (s.thread j).pc.Within s.heap (A.card + work s₀) (r j)) ∧
      is.length + ∑ j, (r j + perOp (A.card + work s₀) * (s.thread j).todo.length) ≤
        perOp (A.card + work s₀) * work s₀ := by
  obtain ⟨m, hm⟩ : ∃ m, m = A.card + work s₀ := ⟨_, rfl⟩
  rw [← hm]
  induction hr with
  | nil =>
    refine ⟨fun _ => 0, fun j => ?_, ?_⟩
    · rw [hidle j]
      trivial
    · simp only [List.length_nil, Nat.zero_add, work, Finset.mul_sum, Nat.le_refl]
  | @snoc t u is i hr hs ih =>
    obtain ⟨r, hr', hle⟩ := ih
    have hlen : ∀ b l, Chain (nexts t.heap b) (t.table b) l → l.length ≤ m := fun b l hl => by
      obtain ⟨B, hB, hcard⟩ := hr.entries h hidle hA
      exact hm ▸ (chain_length_le hl hB).trans hcard
    obtain ⟨k, hk, hlt⟩ := hs.move.within (hr.inv h) hlen (hr' i)
    refine ⟨Function.update r i k, fun j => ?_, ?_⟩
    · rcases eq_or_ne j i with rfl | hji
      · rwa [Function.update_self]
      · rw [Function.update_of_ne hji, hs.move.frame hji]
        exact (hr' j).mono (hs.move.keeps (hr.inv h))
    · have hsum := sum_add_of_eq (i := i) (f := fun j => r j + perOp m * (t.thread j).todo.length)
        (g := fun j => Function.update r i k j + perOp m * (u.thread j).todo.length) fun j hj => by
          rw [Function.update_of_ne hj, hs.move.frame hj]
      simp only [Function.update_self] at hsum
      rw [List.length_cons]
      omega

omit [Fintype ι] in
theorem Run.held (hr : Run locked s₀ is s) (h : Held locked s₀) : Held locked s := by
  induction hr with
  | nil => exact h
  | snoc _ hs ih => exact hs.move.held ih

/-- From a state in which the threads are idle: the schedule is bounded, and a thread that has not
finished can go on, or waits for one that can. -/
theorem Run.progress (hr : Run locked s₀ is s) (h : Inv s₀) (hl : Held locked s₀)
    (hidle : ∀ j, (s₀.thread j).pc = .idle) (hA : ∀ a, s₀.heap a ≠ none → a ∈ A) :
    is.length ≤ perOp (A.card + work s₀) * work s₀ ∧
      ∀ i, ¬ Finished (s.thread i) → (∃ t, Step locked i s t) ∨
        ∃ key value j t, (s.thread i).pc = .lock key value ∧ s.locks (bucket key) = some j ∧
          Step locked j s t := by
  constructor
  · obtain ⟨r, -, hle⟩ := hr.length_le h hidle hA
    omega
  · intro i hi
    obtain ⟨B, hB, -⟩ := hr.entries h hidle hA
    obtain ⟨a, ha⟩ := Infinite.exists_notMem_finset B
    have hfree : s.heap a = none := by
      by_contra hne
      exact ha (hB a hne)
    exact (hr.held hl).progress (hr.inv h) ⟨a, hfree⟩ hi

/-- With or without locks, whatever the threads put and get: no schedule goes on forever, and as
long as a thread has not finished it can go on, or it waits for a lock whose holder can go on. -/
theorem schedule_ends (locked : Bool) (program : ι → List Op) (s₀ s : State ι) (is : List ι)
    (hstart : Start program s₀) (hrun : Run locked s₀ is s) :
    is.length ≤ (2 * (∑ j, (program j).length) + 11) * ∑ j, (program j).length ∧
      ∀ i, ¬ Finished (s.thread i) → (∃ t, Step locked i s t) ∨
        ∃ key value j t, (s.thread i).pc = .lock key value ∧ s.locks (bucket key) = some j ∧
          Step locked j s t := by
  have hwork : work s₀ = ∑ j, (program j).length := by
    unfold work
    exact Finset.sum_congr rfl fun j _ => by rw [hstart.thread]
  have h := hrun.progress (A := ∅) hstart.inv hstart.held (fun j => by rw [hstart.thread])
    (fun a ha => absurd (hstart.heap a) ha)
  rwa [hwork, Finset.card_empty, Nat.zero_add] at h

end Run

/-- The schedule of two threads that put the same key, while the second one waits for the lock. -/
theorem schedule_ends_small : ∃ s, runAll true ((pair 0 1).take 8) pairStart = some s ∧
    ((∃ t, Step true 1 s t) ∨ ∃ key value j t, (s.thread 1).pc = .lock key value ∧
      s.locks (bucket key) = some j ∧ Step true j s t) := by
  have hbusy : (runAll true ((pair 0 1).take 8) pairStart).any
      (fun s => (s.thread 1).pc ≠ .idle) = true := by decide +kernel
  cases hs : runAll true ((pair 0 1).take 8) pairStart with
  | none => simp [hs] at hbusy
  | some s =>
    rw [hs, Option.any_some, decide_eq_true_eq] at hbusy
    obtain ⟨is, hrun⟩ := Run.of_runAll hs
    have hstart : Start (putThread [3, 3] 2) pairStart :=
      ⟨fun _ => rfl, fun _ => rfl, fun _ => rfl, fun _ => rfl, rfl⟩
    exact ⟨s, rfl, (schedule_ends true _ pairStart s is hstart hrun).2 1 fun h => hbusy h.1⟩

end Xv6Sheet.Hash
