import Xv6Sheet.Hash.Progress

/-! # What the threads report

The second phase of `main`. When all threads have put their keys, threads that get every key are
created, and each prints how many it has missed. They only read, so all of them report the same
number, which is 0 with the locks.
-/

namespace Xv6Sheet.Hash

variable {ι : Type} {locked : Bool} {s t u : State ι} {i j : ι}

def enter (program : ι → List Op) (s : State ι) : State ι :=
  { s with thread := fun i => { s.thread i with pc := .idle, todo := program i, missing := 0 } }

/-- The gets of `get_thread`: every key. -/
def getThread (keys : List ℕ) : List Op := keys.map .get

def Finds (heap : ℕ → Option Entry) (key : ℕ) (p : Option ℕ) : Prop :=
  ∃ fuel a, search heap key fuel p = some (some a)

def Found (s : State ι) (key : ℕ) : Prop := ∃ fuel a, get s key fuel = some (some a)

section Search

variable {heap : ℕ → Option Entry} {key a : ℕ} {e : Entry}

theorem not_finds_none : ¬ Finds heap key none := by
  rintro ⟨fuel, a, h⟩
  cases fuel with
  | zero => simp [search] at h
  | succ n => simp [search] at h

theorem finds_self (he : heap a = some e) (hkey : e.key = key) : Finds heap key (some a) :=
  ⟨1, a, by simp [search, he, hkey]⟩

theorem finds_next (he : heap a = some e) (hkey : e.key ≠ key) :
    Finds heap key (some a) ↔ Finds heap key e.next := by
  constructor
  · rintro ⟨fuel, b, h⟩
    cases fuel with
    | zero => simp [search] at h
    | succ n => exact ⟨n, b, by simpa [search, he, hkey] using h⟩
  · rintro ⟨n, b, h⟩
    exact ⟨n + 1, b, by simpa [search, he, hkey] using h⟩

end Search

open scoped Classical in
noncomputable def absent (s : State ι) (ops : List Op) : ℕ := ops.countP fun op => ¬ Found s op.key

theorem absent_cons_of_found {op : Op} {ops : List Op} (h : Found s op.key) :
    absent s (op :: ops) = absent s ops := by
  rw [absent, absent, List.countP_cons_of_neg (by simpa using h)]

theorem absent_cons_of_not_found {op : Op} {ops : List Op} (h : ¬ Found s op.key) :
    absent s (op :: ops) = absent s ops + 1 := by
  rw [absent, absent, List.countP_cons_of_pos (by simpa using h)]

theorem absent_eq_zero {ops : List Op} : absent s ops = 0 ↔ ∀ op ∈ ops, Found s op.key := by
  simp [absent, List.countP_eq_zero]

/-- Where a thread that only gets is, with what it has missed so far and will miss. -/
def Reading (s : State ι) (c : ℕ) (x : Thread) : Prop :=
  (∀ op ∈ x.todo, ∃ key, op = .get key) ∧
    match x.pc with
    | .idle => x.missing + absent s x.todo = c
    | .first (.get key) => x.missing + absent s (.get key :: x.todo) = c
    | .test (.get key) p => (Finds s.heap key p ↔ Found s key) ∧
        x.missing + absent s (.get key :: x.todo) = c
    | .next (.get key) a => (∀ e, s.heap a = some e → (Finds s.heap key e.next ↔ Found s key)) ∧
        x.missing + absent s (.get key :: x.todo) = c
    | _ => False

variable [DecidableEq ι]

theorem Move.reads {c : ℕ} (hm : Move locked i t u) (htable : t.table = s.table)
    (hheap : t.heap = s.heap)
    (h : Reading s c (t.thread i)) :
    u.table = s.table ∧ u.heap = s.heap ∧ Reading s c (u.thread i) := by
  obtain ⟨htodo, hat⟩ := h
  cases hm with
  | @start op todo hpc hop =>
    obtain ⟨key, rfl⟩ := htodo op (by rw [hop]; exact List.mem_cons_self)
    rw [hpc] at hat
    simp only [hop] at hat
    refine ⟨htable, hheap, ?_⟩
    simp only [thread_setThread, if_true]
    exact ⟨fun op' hop' => htodo op' (by rw [hop]; exact List.mem_cons_of_mem _ hop'), hat⟩
  | @first op hpc =>
    rw [hpc] at hat
    cases op with
    | put key value => exact hat.elim
    | get key =>
      refine ⟨htable, hheap, ?_⟩
      simp only [State.goto, thread_setThread, if_true]
      refine ⟨htodo, ?_, hat⟩
      rw [htable]
      exact Iff.rfl
  | @missing key hpc =>
    rw [hpc] at hat
    obtain ⟨hiff, hat⟩ := hat
    have hnot : ¬ Found s (Op.key (.get key)) := fun hf => not_finds_none (hiff.mpr hf)
    rw [absent_cons_of_not_found hnot] at hat
    refine ⟨htable, hheap, ?_⟩
    simp only [thread_setThread, if_true]
    refine ⟨htodo, ?_⟩
    dsimp only
    omega
  | @got key a e hpc he hkey =>
    rw [hpc] at hat
    obtain ⟨hiff, hat⟩ := hat
    have hfound : Found s (Op.key (.get key)) := hiff.mp (finds_self (hheap ▸ he) hkey)
    rw [absent_cons_of_found hfound] at hat
    refine ⟨htable, hheap, ?_⟩
    simp only [State.goto, thread_setThread, if_true]
    exact ⟨htodo, hat⟩
  | @other op a e hpc he hkey =>
    rw [hpc] at hat
    cases op with
    | put key value => exact hat.elim
    | get key =>
      obtain ⟨hiff, hat⟩ := hat
      refine ⟨htable, hheap, ?_⟩
      simp only [State.goto, thread_setThread, if_true]
      refine ⟨htodo, fun e' he' => ?_, hat⟩
      rw [← hheap, he] at he'
      obtain rfl := Option.some.inj he'
      exact (finds_next (hheap ▸ he) hkey).symm.trans hiff
  | @next op a e hpc he =>
    rw [hpc] at hat
    cases op with
    | put key value => exact hat.elim
    | get key =>
      obtain ⟨hiff, hat⟩ := hat
      refine ⟨htable, hheap, ?_⟩
      simp only [State.goto, thread_setThread, if_true]
      exact ⟨htodo, hiff e (hheap ▸ he), hat⟩
  | lock hpc => simp [hpc] at hat
  | absent hpc => simp [hpc] at hat
  | found hpc => simp [hpc] at hat
  | update hpc => simp [hpc] at hat
  | insert hpc => simp [hpc] at hat
  | malloc hpc => simp [hpc] at hat
  | setKey hpc => simp [hpc] at hat
  | setValue hpc => simp [hpc] at hat
  | setNext hpc => simp [hpc] at hat
  | link hpc => simp [hpc] at hat
  | unlock hpc => simp [hpc] at hat

theorem Run.reads {c : ℕ} {js : List ι} (hr : Run locked t js u) (htable : t.table = s.table)
    (hheap : t.heap = s.heap) (h : ∀ n, Reading s c (t.thread n)) :
    u.table = s.table ∧ u.heap = s.heap ∧ ∀ n, Reading s c (u.thread n) := by
  induction hr with
  | nil => exact ⟨htable, hheap, h⟩
  | @snoc t' u js i hr hs ih =>
    obtain ⟨htable', hheap', h'⟩ := ih
    obtain ⟨htable'', hheap'', hi⟩ := hs.move.reads htable' hheap' (h' i)
    refine ⟨htable'', hheap'', fun n => ?_⟩
    rcases eq_or_ne n i with rfl | hn
    · exact hi
    · rw [hs.move.frame hn]
      exact h' n

section Enter

variable {program : ι → List Op}

omit [DecidableEq ι] in
theorem Inv.enter (h : Inv s) : Inv (enter program s) where
  table := h.table
  holds _ := trivial
  owner i j a ha := by simp [Hash.enter, Pc.owned] at ha
  puts := h.puts
  started i op ho := by simp [Hash.enter, Pc.op] at ho

omit [DecidableEq ι] in
theorem Held.enter (h : Held locked s) (hidle : ∀ i, (s.thread i).pc = .idle) :
    Held locked (enter program s) where
  holder b j hb := by
    obtain ⟨-, key, hkey, -⟩ := h.holder b j hb
    simp [hidle j, Pc.critical] at hkey
  waits j key value hj := by simp [Hash.enter] at hj

omit [DecidableEq ι] in
theorem reading_enter (keys : List ℕ) (n : ι) :
    Reading s (absent s (getThread keys)) ((enter (fun _ => getThread keys) s).thread n) := by
  refine ⟨fun op hop => ?_, Nat.zero_add _⟩
  obtain ⟨key, -, rfl⟩ := List.mem_map.mp hop
  exact ⟨key, rfl⟩

end Enter

omit [DecidableEq ι] in
theorem Excl.found (hl : Excl s) (h : Inv s) (hidle : ∀ i, (s.thread i).pc = .idle) {key : ℕ}
    {value : ℤ}
    {n : ι} (hput : .put key value ∈ (s.thread n).started) : Found s key := by
  obtain ⟨l, hchain⟩ := h.table (bucket key)
  obtain ⟨c, hc, -⟩ := Cells.of_chain hchain
  have hmem : (n, key, value) ∈ s.granted := by
    rcases hl.granted n key value hput with hp | hmem
    · simp [hidle n] at hp
    · exact hmem
  have hvalue := hl.value key c hc fun i value hi => by simp [hidle i, Pc.pending] at hi
  obtain ⟨g, hg⟩ := Option.isSome_iff_exists.mp
    (List.find?_isSome (p := fun x => x.2.1 = key).mpr ⟨_, hmem, by simp⟩)
  rw [show lastGrant s.granted key = some g from hg] at hvalue
  obtain ⟨x, hx, -⟩ := Option.map_eq_some_iff.mp hvalue
  refine ⟨c.length + 1, x.addr, ?_⟩
  rw [get, hc.search key (Nat.lt_succ_self _), hx]
  rfl

omit [DecidableEq ι] in
theorem Reading.not_lock {c : ℕ} {x : Thread} (h : Reading s c x) (key : ℕ) (value : ℤ) :
    x.pc ≠ .lock key value := fun hpc => by
  obtain ⟨-, hat⟩ := h
  simp [hpc] at hat

omit [DecidableEq ι] in
theorem Reading.missing_eq {c : ℕ} {x : Thread} (h : Reading s c x) (hx : Finished x) :
    x.missing = c := by
  obtain ⟨-, hat⟩ := h
  rw [hx.1, hx.2] at hat
  exact hat

theorem sum_putThread_le (keys : List ℕ) (nthread : ℕ) :
    ∑ n : Fin nthread, (putThread keys nthread n).length ≤ keys.length := by
  simp only [putThread, List.length_map, List.length_range, Finset.sum_const, Finset.card_univ,
    Fintype.card_fin, smul_eq_mul]
  exact Nat.mul_div_le _ _

theorem sum_getThread (keys : List ℕ) (nthread : ℕ) :
    ∑ _n : Fin nthread, (getThread keys).length = nthread * keys.length := by
  simp [getThread]

/-- The second phase of `main`, after a first one with or without the locks. It does not go on
forever, and no thread gets stuck. The table stays as it is, and all threads report the same number
of missing keys, which is the number of those that `get` does not find after the first phase. With
the locks they report none. -/
theorem report_exact (locked : Bool) (keys : List ℕ) (nthread : ℕ) (s₀ s u : State (Fin nthread))
    (is js : List (Fin nthread)) (hdvd : nthread ∣ keys.length)
    (hstart : Start (putThread keys nthread) s₀) (hputs : Run locked s₀ is s)
    (hdone : ∀ n, Finished (s.thread n))
    (hgets : Run locked (enter (fun _ => getThread keys) s) js u) :
    js.length ≤ (2 * (keys.length + nthread * keys.length) + 11) * (nthread * keys.length) ∧
      (∀ n, ¬ Finished (u.thread n) → ∃ t, Step locked n u t) ∧
      u.table = s.table ∧ u.heap = s.heap ∧
      (∀ n, Finished (u.thread n) → (u.thread n).missing = absent s (getThread keys)) ∧
      (locked = true → absent s (getThread keys) = 0) := by
  have hidle : ∀ n, (s.thread n).pc = .idle := fun n => (hdone n).1
  have hinv := hputs.inv hstart.inv
  have hheld : Held locked s := hputs.held hstart.held
  obtain ⟨htable, hheap, hreading⟩ := hgets.reads (s := s) rfl rfl (reading_enter keys)
  obtain ⟨A, hA, hcard⟩ := hputs.entries (A := ∅) hstart.inv (fun n => by rw [hstart.thread])
    fun a ha => absurd (hstart.heap a) ha
  have hwork : work s₀ ≤ keys.length := by
    have hsum := sum_putThread_le keys nthread
    unfold work
    rwa [Finset.sum_congr rfl fun n _ => by rw [hstart.thread]]
  have hwork' : work (enter (fun _ => getThread keys) s) = nthread * keys.length :=
    sum_getThread keys nthread
  obtain ⟨hlen, hgo⟩ := hgets.progress hinv.enter (hheld.enter hidle) (fun _ => rfl) hA
  refine ⟨?_, fun n hn => ?_, htable, hheap,
    fun n hn => (hreading n).missing_eq hn, fun hlocked => ?_⟩
  · rw [hwork', perOp] at hlen
    rw [Finset.card_empty, Nat.zero_add] at hcard
    refine hlen.trans (Nat.mul_le_mul_right _ ?_)
    omega
  · rcases hgo n hn with hstep | ⟨key, value, -, -, hpc, -⟩
    · exact hstep
    · exact absurd hpc ((hreading n).not_lock key value)
  · subst hlocked
    refine absent_eq_zero.mpr fun op hop => ?_
    obtain ⟨key, hkey, rfl⟩ := List.mem_map.mp hop
    obtain ⟨n, hput⟩ := mem_putThread hdvd hkey
    have hprog := hputs.program n
    rw [(hdone n).2, hstart.thread, List.append_nil] at hprog
    have hstarted : .put key (n : ℤ) ∈ (s.thread n).started := by
      rw [← List.mem_reverse, hprog]
      exact hput
    exact (hputs.excl hstart.inv hstart.excl).found hinv hidle hstarted

/-- Two threads put the same key, and then each of them gets it twice. -/
theorem report_exact_small : ∃ s u js, runAll true (pair 0 1) pairStart = some s ∧
    Run true (enter (fun _ => getThread [3, 3]) s) js u ∧ ∀ n, (u.thread n).missing = 0 := by
  have hdone : (runAll true (pair 0 1) pairStart).any (fun s => (∀ n, (s.thread n).pc = .idle ∧
      (s.thread n).todo = []) ∧
      (runAll true (List.replicate 6 (0, 0) ++ List.replicate 6 (1, 0))
        (enter (fun _ => getThread [3, 3]) s)).any fun u =>
          ∀ n, (u.thread n).pc = .idle ∧ (u.thread n).todo = []) = true := by decide +kernel
  cases hs : runAll true (pair 0 1) pairStart with
  | none => simp [hs] at hdone
  | some s =>
    rw [hs, Option.any_some, decide_eq_true_eq] at hdone
    obtain ⟨hfin, hdone⟩ := hdone
    cases hu : runAll true (List.replicate 6 (0, 0) ++ List.replicate 6 (1, 0))
        (enter (fun _ => getThread [3, 3]) s) with
    | none =>
      rw [hu] at hdone
      cases hdone
    | some u =>
      rw [hu, Option.any_some, decide_eq_true_eq] at hdone
      obtain ⟨is, hputs⟩ := Run.of_runAll hs
      obtain ⟨js, hgets⟩ := Run.of_runAll hu
      have hstart : Start (putThread [3, 3] 2) pairStart :=
        ⟨fun _ => rfl, fun _ => rfl, fun _ => rfl, fun _ => rfl, rfl⟩
      obtain ⟨-, -, -, -, hmissing, hzero⟩ :=
        report_exact true [3, 3] 2 pairStart s u is js (by decide) hstart hputs hfin hgets
      exact ⟨s, u, js, rfl, hgets, fun n => (hmissing n (hdone n)).trans (hzero rfl)⟩

end Xv6Sheet.Hash
