import Mathlib.Data.Finset.Basic
import Mathlib.Logic.Function.Basic
import Xv6Sheet.Lib.Chain

/-! # The shared hash table

The hash table of `ph-with-mutex-locks.c` and `ph-without-locks.c`, which differ in the
locks only. Any number of threads take turns, one load or store of shared memory at a time.
-/

namespace Xv6Sheet.Hash

def NBUCKET : ℕ := 5

def bucket (key : ℕ) : Fin NBUCKET := ⟨key % NBUCKET, Nat.mod_lt _ (by decide)⟩

/-- `struct entry`, with a mark for every field that has been stored since the entry was
allocated. -/
structure Entry where
  key : ℕ
  value : ℤ
  next : Option ℕ
  keySet : Bool
  valueSet : Bool
  nextSet : Bool
  deriving Inhabited

def Entry.Complete (e : Entry) : Prop :=
  e.keySet = true ∧ e.valueSet = true ∧ e.nextSet = true

instance (e : Entry) : Decidable e.Complete := inferInstanceAs (Decidable (_ ∧ _))

inductive Op
  | put (key : ℕ) (value : ℤ)
  | get (key : ℕ)
  deriving DecidableEq

def Op.key : Op → ℕ
  | put key _ => key
  | get key => key

/-- Where a thread is, and the local variables it needs from there on. -/
inductive Pc
  | idle
  | lock (key : ℕ) (value : ℤ)
  | first (op : Op)
  | test (op : Op) (e : Option ℕ)
  | next (op : Op) (e : ℕ)
  | update (key : ℕ) (value : ℤ) (e : ℕ)
  | insert (key : ℕ) (value : ℤ)
  | malloc (key : ℕ) (value : ℤ) (n : Option ℕ)
  | setKey (key : ℕ) (value : ℤ) (n : Option ℕ) (e : ℕ)
  | setValue (key : ℕ) (value : ℤ) (n : Option ℕ) (e : ℕ)
  | setNext (key : ℕ) (value : ℤ) (n : Option ℕ) (e : ℕ)
  | link (key : ℕ) (value : ℤ) (n : Option ℕ) (e : ℕ)
  | unlock (key : ℕ)
  deriving DecidableEq

/-- A thread: where it is, what it has still to do and what it has started, and the counter
of `get_thread`. -/
structure Thread where
  pc : Pc
  todo : List Op
  started : List Op
  missing : ℕ

/-- The shared memory and the threads. The puts that got a lock are kept, the last one
first. -/
structure State (ι : Type) where
  table : Fin NBUCKET → Option ℕ
  heap : ℕ → Option Entry
  locks : Fin NBUCKET → Option ι
  thread : ι → Thread
  granted : List (ι × ℕ × ℤ)

variable {ι : Type} [DecidableEq ι]

namespace State

def setThread (s : State ι) (i : ι) (t : Thread) : State ι :=
  { s with thread := Function.update s.thread i t }

/-- Thread `i` goes on at another place. -/
def goto (s : State ι) (i : ι) (pc : Pc) : State ι := s.setThread i { s.thread i with pc := pc }

def setEntry (s : State ι) (a : ℕ) (e : Entry) : State ι :=
  { s with heap := Function.update s.heap a (some e) }

end State

/-- Where `put` goes on once the table is changed. -/
def afterPut (locked : Bool) (key : ℕ) : Pc := if locked then .unlock key else .idle

/-- The next step of thread `i`, which gets the address `fresh` with the contents `junk` from
`malloc`. There is none when the thread has finished, waits for a lock, or follows a pointer
to nowhere. -/
def act (locked : Bool) (i : ι) (fresh : ℕ) (junk : Entry) (s : State ι) : Option (State ι) :=
  let t := s.thread i
  match t.pc with
  | .idle =>
    match t.todo with
    | [] => none
    | op :: todo =>
      let pc := match op with
        | .put key value => if locked then .lock key value else .first op
        | .get _ => .first op
      some (s.setThread i { t with pc := pc, todo := todo, started := op :: t.started })
  | .lock key value =>
    if s.locks (bucket key) = none then
      some { s.goto i (.first (.put key value)) with
        locks := Function.update s.locks (bucket key) (some i)
        granted := (i, key, value) :: s.granted }
    else none
  | .first op => some (s.goto i (.test op (s.table (bucket op.key))))
  | .test op none =>
    match op with
    | .put key value => some (s.goto i (.insert key value))
    | .get _ => some (s.setThread i { t with pc := .idle, missing := t.missing + 1 })
  | .test op (some a) => do
    let e ← s.heap a
    if e.key = op.key then
      match op with
      | .put key value => some (s.goto i (.update key value a))
      | .get _ => some (s.goto i .idle)
    else some (s.goto i (.next op a))
  | .next op a => do
    let e ← s.heap a
    some (s.goto i (.test op e.next))
  | .update key value a => do
    let e ← s.heap a
    some ((s.setEntry a { e with value := value, valueSet := true }).goto i (afterPut locked key))
  | .insert key value => some (s.goto i (.malloc key value (s.table (bucket key))))
  | .malloc key value n =>
    if s.heap fresh = none then
      some ((s.setEntry fresh
        { junk with keySet := false, valueSet := false, nextSet := false }).goto
        i (.setKey key value n fresh))
    else none
  | .setKey key value n a => do
    let e ← s.heap a
    some ((s.setEntry a { e with key := key, keySet := true }).goto i (.setValue key value n a))
  | .setValue key value n a => do
    let e ← s.heap a
    some ((s.setEntry a { e with value := value, valueSet := true }).goto i
      (.setNext key value n a))
  | .setNext key value n a => do
    let e ← s.heap a
    some ((s.setEntry a { e with next := n, nextSet := true }).goto i (.link key value n a))
  | .link key _ _ a =>
    some ({ s with table := Function.update s.table (bucket key) (some a) }.goto i
      (afterPut locked key))
  | .unlock key =>
    some { s.goto i .idle with locks := Function.update s.locks (bucket key) none }

def Step (locked : Bool) (i : ι) (s t : State ι) : Prop :=
  ∃ fresh junk, act locked i fresh junk s = some t

/-- What a step does, by the place the thread is at. -/
inductive Move (locked : Bool) (i : ι) (s : State ι) : State ι → Prop
  | start {op : Op} {todo : List Op} : (s.thread i).pc = .idle → (s.thread i).todo = op :: todo →
      Move locked i s (s.setThread i { s.thread i with
        pc := match op with
          | .put key value => if locked then .lock key value else .first op
          | .get _ => .first op
        todo := todo
        started := op :: (s.thread i).started })
  | lock {key : ℕ} {value : ℤ} : (s.thread i).pc = .lock key value →
      s.locks (bucket key) = none →
      Move locked i s { s.goto i (.first (.put key value)) with
        locks := Function.update s.locks (bucket key) (some i)
        granted := (i, key, value) :: s.granted }
  | first {op : Op} : (s.thread i).pc = .first op →
      Move locked i s (s.goto i (.test op (s.table (bucket op.key))))
  | absent {key : ℕ} {value : ℤ} : (s.thread i).pc = .test (.put key value) none →
      Move locked i s (s.goto i (.insert key value))
  | missing {key : ℕ} : (s.thread i).pc = .test (.get key) none →
      Move locked i s (s.setThread i { s.thread i with
        pc := .idle
        missing := (s.thread i).missing + 1 })
  | found {key : ℕ} {value : ℤ} {a : ℕ} {e : Entry} :
      (s.thread i).pc = .test (.put key value) (some a) → s.heap a = some e → e.key = key →
      Move locked i s (s.goto i (.update key value a))
  | got {key a : ℕ} {e : Entry} : (s.thread i).pc = .test (.get key) (some a) →
      s.heap a = some e → e.key = key → Move locked i s (s.goto i .idle)
  | other {op : Op} {a : ℕ} {e : Entry} : (s.thread i).pc = .test op (some a) →
      s.heap a = some e → e.key ≠ op.key → Move locked i s (s.goto i (.next op a))
  | next {op : Op} {a : ℕ} {e : Entry} : (s.thread i).pc = .next op a → s.heap a = some e →
      Move locked i s (s.goto i (.test op e.next))
  | update {key : ℕ} {value : ℤ} {a : ℕ} {e : Entry} : (s.thread i).pc = .update key value a →
      s.heap a = some e → Move locked i s
        ((s.setEntry a { e with value := value, valueSet := true }).goto i (afterPut locked key))
  | insert {key : ℕ} {value : ℤ} : (s.thread i).pc = .insert key value →
      Move locked i s (s.goto i (.malloc key value (s.table (bucket key))))
  | malloc {key : ℕ} {value : ℤ} {n : Option ℕ} {a : ℕ} {e : Entry} :
      (s.thread i).pc = .malloc key value n → s.heap a = none → Move locked i s
        ((s.setEntry a { e with keySet := false, valueSet := false, nextSet := false }).goto i
          (.setKey key value n a))
  | setKey {key : ℕ} {value : ℤ} {n : Option ℕ} {a : ℕ} {e : Entry} :
      (s.thread i).pc = .setKey key value n a → s.heap a = some e → Move locked i s
        ((s.setEntry a { e with key := key, keySet := true }).goto i (.setValue key value n a))
  | setValue {key : ℕ} {value : ℤ} {n : Option ℕ} {a : ℕ} {e : Entry} :
      (s.thread i).pc = .setValue key value n a → s.heap a = some e → Move locked i s
        ((s.setEntry a { e with value := value, valueSet := true }).goto i
          (.setNext key value n a))
  | setNext {key : ℕ} {value : ℤ} {n : Option ℕ} {a : ℕ} {e : Entry} :
      (s.thread i).pc = .setNext key value n a → s.heap a = some e → Move locked i s
        ((s.setEntry a { e with next := n, nextSet := true }).goto i (.link key value n a))
  | link {key : ℕ} {value : ℤ} {n : Option ℕ} {a : ℕ} :
      (s.thread i).pc = .link key value n a → Move locked i s
        ({ s with table := Function.update s.table (bucket key) (some a) }.goto i
          (afterPut locked key))
  | unlock {key : ℕ} : (s.thread i).pc = .unlock key → Move locked i s
        { s.goto i .idle with locks := Function.update s.locks (bucket key) none }

theorem Step.move {locked : Bool} {i : ι} {s t : State ι} (h : Step locked i s t) :
    Move locked i s t := by
  obtain ⟨fresh, junk, h⟩ := h
  unfold act at h
  cases hpc : (s.thread i).pc with
  | idle =>
    cases htodo : (s.thread i).todo with
    | nil => simp [hpc, htodo] at h
    | cons op todo =>
      simp only [hpc, htodo, Option.some.injEq] at h
      exact h ▸ .start hpc htodo
  | lock key value =>
    simp only [hpc] at h
    split at h
    · rename_i hfree
      exact Option.some.inj h ▸ .lock hpc hfree
    · simp at h
  | first op =>
    simp only [hpc, Option.some.injEq] at h
    exact h ▸ .first hpc
  | test op e =>
    cases e with
    | none =>
      cases op with
      | put key value =>
        simp only [hpc, Option.some.injEq] at h
        exact h ▸ .absent hpc
      | get key =>
        simp only [hpc, Option.some.injEq] at h
        exact h ▸ .missing hpc
    | some a =>
      simp only [hpc] at h
      obtain ⟨e, he, h⟩ := Option.bind_eq_some_iff.mp h
      split at h
      · rename_i hkey
        cases op with
        | put key value => exact Option.some.inj h ▸ .found hpc he hkey
        | get key => exact Option.some.inj h ▸ .got hpc he hkey
      · rename_i hkey
        exact Option.some.inj h ▸ .other hpc he hkey
  | next op a =>
    simp only [hpc] at h
    obtain ⟨e, he, h⟩ := Option.bind_eq_some_iff.mp h
    exact Option.some.inj h ▸ .next hpc he
  | update key value a =>
    simp only [hpc] at h
    obtain ⟨e, he, h⟩ := Option.bind_eq_some_iff.mp h
    exact Option.some.inj h ▸ .update hpc he
  | insert key value =>
    simp only [hpc, Option.some.injEq] at h
    exact h ▸ .insert hpc
  | malloc key value n =>
    simp only [hpc] at h
    split at h
    · rename_i hfree
      exact Option.some.inj h ▸ .malloc hpc hfree
    · simp at h
  | setKey key value n a =>
    simp only [hpc] at h
    obtain ⟨e, he, h⟩ := Option.bind_eq_some_iff.mp h
    exact Option.some.inj h ▸ .setKey hpc he
  | setValue key value n a =>
    simp only [hpc] at h
    obtain ⟨e, he, h⟩ := Option.bind_eq_some_iff.mp h
    exact Option.some.inj h ▸ .setValue hpc he
  | setNext key value n a =>
    simp only [hpc] at h
    obtain ⟨e, he, h⟩ := Option.bind_eq_some_iff.mp h
    exact Option.some.inj h ▸ .setNext hpc he
  | link key value n a =>
    simp only [hpc, Option.some.injEq] at h
    exact h ▸ .link hpc
  | unlock key =>
    simp only [hpc, Option.some.injEq] at h
    exact h ▸ .unlock hpc

/-- The table is empty, and the threads have not begun what they have to do. -/
structure Start (program : ι → List Op) (s : State ι) : Prop where
  table : ∀ b, s.table b = none
  heap : ∀ a, s.heap a = none
  locks : ∀ b, s.locks b = none
  thread : ∀ i, s.thread i = ⟨.idle, program i, [], 0⟩
  granted : s.granted = []

/-- A run in which the threads of a list take a step each. -/
inductive Run (locked : Bool) : State ι → List ι → State ι → Prop
  | nil (s : State ι) : Run locked s [] s
  | snoc {s t u : State ι} {is : List ι} {i : ι} : Run locked s is t → Step locked i t u →
      Run locked s (i :: is) u

/-- The threads of a list take a step each, with the addresses `malloc` gives. -/
def runAll (locked : Bool) : List (ι × ℕ) → State ι → Option (State ι)
  | [], s => some s
  | (i, fresh) :: is, s => (act locked i fresh default s).bind (runAll locked is)

theorem Run.append {locked : Bool} {s t u : State ι} {is js : List ι} (h : Run locked s is t)
    (h' : Run locked t js u) : Run locked s (js ++ is) u := by
  induction h' with
  | nil => exact h
  | snoc _ hs ih => exact .snoc ih hs

theorem Run.of_runAll {locked : Bool} {s t : State ι} {is : List (ι × ℕ)}
    (h : runAll locked is s = some t) : ∃ js, Run locked s js t := by
  induction is generalizing s with
  | nil =>
    obtain rfl := Option.some.inj h
    exact ⟨[], .nil s⟩
  | cons p is ih =>
    obtain ⟨u, hu, h⟩ := Option.bind_eq_some_iff.mp h
    obtain ⟨js, hr⟩ := ih h
    exact ⟨js ++ [p.1], (Run.snoc (.nil s) ⟨p.2, default, hu⟩).append hr⟩

end Xv6Sheet.Hash
