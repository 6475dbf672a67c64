import Mathlib.Data.List.Infix
import Mathlib.Data.Option.Basic
import Mathlib.Logic.Function.Basic
import Mathlib.Tactic.Common

/-! # pingpong

The parent and the child of `pingpong.c` after `fork`. Both write to one pipe and read from it, so
the parent can take its own ping.
-/

namespace Xv6Sheet.Pingpong

inductive Who | parent | child
  deriving DecidableEq, Repr

/-- What a process does next. The lines of `main` are printed in `received` and `failed`. -/
inductive Pc | read | received | write | failed | exit | exited
  deriving DecidableEq, Repr

structure Proc where
  pc : Pc
  pid : ℕ
  buf : UInt8

inductive Line
  /-- `"%d: received ping\n"` of the child, `"%d: received pong\n"` of the parent -/
  | received (w : Who) (pid : ℕ)
  /-- `"error: child write failed\n"` or `"error: parent write failed\n"` -/
  | failed (w : Who)
  deriving DecidableEq, Repr

inductive Call
  | read (w : Who) (b : UInt8)
  | write (w : Who) (b : UInt8)
  deriving DecidableEq, Repr

/-- The processes, the bytes in the pipe, the calls that were made and the lines that were
printed. -/
structure State where
  proc : Who → Proc
  queue : List UInt8
  calls : List Call
  out : List Line

namespace State

def setProc (s : State) (w : Who) (p : Proc) : State :=
  { s with proc := Function.update s.proc w p }

/-- Some process holds both ends of the pipe, as each does until it exits. -/
def Open (s : State) : Prop := (s.proc .parent).pc ≠ .exited ∨ (s.proc .child).pc ≠ .exited

instance (s : State) : Decidable s.Open := inferInstanceAs (Decidable (_ ∨ _))

theorem open_of_pc {s : State} {w : Who} (h : (s.proc w).pc ≠ .exited) : s.Open := by
  cases w with
  | parent => exact .inl h
  | child => exact .inr h

end State

def afterRead : Who → Pc
  | .parent => .exit
  | .child => .write

def afterWrite : Who → Pc
  | .parent => .read
  | .child => .exit

/-- The next step of a process, if it can take one. A read blocks while the pipe is empty and may
still be written to. -/
def step (s : State) (w : Who) : Option State :=
  let p := s.proc w
  match p.pc with
  | .read =>
    match s.queue with
    | b :: queue =>
      some { s.setProc w { p with pc := .received, buf := b } with
        queue := queue
        calls := s.calls ++ [.read w b] }
    | [] => if s.Open then none else some (s.setProc w { p with pc := afterRead w })
  | .received =>
    some { s.setProc w { p with pc := afterRead w } with out := s.out ++ [.received w p.pid] }
  | .write =>
    if s.Open then
      some { s.setProc w { p with pc := afterWrite w } with
        queue := s.queue ++ [p.buf]
        calls := s.calls ++ [.write w p.buf] }
    else some (s.setProc w { p with pc := .failed })
  | .failed => some { s.setProc w { p with pc := afterWrite w } with out := s.out ++ [.failed w] }
  | .exit => some (s.setProc w { p with pc := .exited })
  | .exited => none

/-- The state after `fork`. The buffer of the child is a copy. -/
def start (parent child : ℕ) (b : UInt8) : State where
  proc
    | .parent => ⟨.write, parent, b⟩
    | .child => ⟨.read, child, b⟩
  queue := []
  calls := []
  out := []

/-- The state after the processes of a list took a step each, if they could. -/
def run (s : State) (ws : List Who) : Option State := ws.foldlM step s

theorem run_append (s : State) (us ws : List Who) :
    run s (us ++ ws) = (run s us).bind fun t => run t ws := List.foldlM_append

theorem run_concat {s t : State} {us : List Who} {w : Who} :
    run s (us ++ [w]) = some t ↔ ∃ u, run s us = some u ∧ step u w = some t := by
  rw [run_append, Option.bind_eq_some_iff]
  simp [run]

theorem run_one {s t : State} {w : Who} (h : step s w = some t) : run s [w] = some t := by
  simp [run, h]

/-- The process is in a `read` that does not return. -/
def Blocked (s : State) (w : Who) : Prop := (s.proc w).pc = .read ∧ step s w = none

def BlockedForever (s : State) (w : Who) : Prop := ∀ ws t, run s ws = some t → Blocked t w

/-- The parent has printed its line only after the child has read the ping and answered, and no
process is blocked forever. -/
def Exchanged (b : UInt8) (s : State) : Prop :=
  (∀ pid, .received .parent pid ∈ s.out →
    [.write .parent b, .read .child b, .write .child b] <+: s.calls) ∧
    ∀ w, ¬ BlockedForever s w

def Waits (s : State) (w : Who) : Prop :=
  w = .parent → (s.proc .parent).pc = .read → (s.proc .child).pc ≠ .read

variable {b : UInt8} {s t : State} {w : Who} {p c : Pc} {pcs : Who → Pc} {queue : List UInt8}
  {calls : List Call}

theorem step_read (hpc : (s.proc w).pc = .read) (hq : s.queue = b :: queue) :
    step s w = some { s.setProc w { s.proc w with pc := .received, buf := b } with
      queue := queue
      calls := s.calls ++ [.read w b] } := by
  simp [step, hpc, hq]

theorem step_read_empty (hpc : (s.proc w).pc = .read) (hq : s.queue = []) : step s w = none := by
  have hopen : s.Open := State.open_of_pc (w := w) (by simp [hpc])
  simp [step, hpc, hq, hopen]

theorem step_received (hpc : (s.proc w).pc = .received) :
    step s w = some { s.setProc w { s.proc w with pc := afterRead w } with
      out := s.out ++ [.received w (s.proc w).pid] } := by
  simp [step, hpc]

theorem step_write (hpc : (s.proc w).pc = .write) :
    step s w = some { s.setProc w { s.proc w with pc := afterWrite w } with
      queue := s.queue ++ [(s.proc w).buf]
      calls := s.calls ++ [.write w (s.proc w).buf] } := by
  have hopen : s.Open := State.open_of_pc (w := w) (by simp [hpc])
  simp [step, hpc, hopen]

theorem step_exit (hpc : (s.proc w).pc = .exit) :
    step s w = some (s.setProc w { s.proc w with pc := .exited }) := by
  simp [step, hpc]

theorem step_exited (hpc : (s.proc w).pc = .exited) : step s w = none := by
  simp [step, hpc]

def both (p c : Pc) : Who → Pc
  | .parent => p
  | .child => c

@[simp] theorem both_parent : both p c .parent = p := rfl

@[simp] theorem both_child : both p c .child = c := rfl

@[simp] theorem update_both_parent (x : Pc) : Function.update (both p c) .parent x = both x c := by
  ext w
  cases w <;> rfl

@[simp] theorem update_both_child (x : Pc) : Function.update (both p c) .child x = both p x := by
  ext w
  cases w <;> rfl

/-- What the processes and the pipe are like. All bytes are the one of the ping, and the line of the
parent is the last that it does. -/
structure At (b : UInt8) (pcs : Who → Pc) (queue : List UInt8) (calls : List Call) (s : State) :
    Prop where
  pc : ∀ w, (s.proc w).pc = pcs w
  buf : ∀ w, (s.proc w).buf = b
  queue : s.queue = queue
  calls : s.calls = calls
  pong : ∀ pid, .received .parent pid ∈ s.out → pcs .parent = .exit ∨ pcs .parent = .exited

namespace At

theorem moves {q : Proc} {queue' : List UInt8} {calls' : List Call} {out : List Line}
    (h : At b pcs queue calls s) (hbuf : q.buf = b) (hnot : pcs w ≠ .exited)
    (hexit : pcs w = .exit → q.pc = .exited)
    (hout : ∀ pid, .received .parent pid ∈ out →
      .received .parent pid ∈ s.out ∨ w = .parent ∧ q.pc = .exit) :
    At b (Function.update pcs w q.pc) queue' calls'
      ⟨Function.update s.proc w q, queue', calls', out⟩ := by
  refine ⟨fun u => ?_, fun u => ?_, rfl, rfl, fun pid hpid => ?_⟩
  · rcases eq_or_ne u w with rfl | hu
    · simp
    · simp [hu, h.pc u]
  · rcases eq_or_ne u w with rfl | hu
    · simpa using hbuf
    · simpa [hu] using h.buf u
  · rcases hout pid hpid with hold | ⟨rfl, hx⟩
    · cases w with
      | parent =>
        rcases h.pong pid hold with hx | hx
        · exact .inr (by simpa using hexit hx)
        · exact absurd hx hnot
      | child => simpa using h.pong pid hold
    · exact .inl (by simpa using hx)

theorem read (h : At b pcs (b :: queue) calls s) (hpc : pcs w = .read) (ht : step s w = some t) :
    At b (Function.update pcs w .received) queue (calls ++ [.read w b]) t := by
  obtain rfl := Option.some.inj ((step_read ((h.pc w).trans hpc) h.queue).symm.trans ht)
  rw [← h.calls]
  exact h.moves (w := w) (q := { s.proc w with pc := .received, buf := b }) rfl (by simp [hpc])
    (by simp [hpc]) fun _ hpid => .inl hpid

theorem received (h : At b pcs queue calls s) (hpc : pcs w = .received) (ht : step s w = some t) :
    At b (Function.update pcs w (afterRead w)) queue calls t := by
  obtain rfl := Option.some.inj ((step_received ((h.pc w).trans hpc)).symm.trans ht)
  rw [← h.calls, ← h.queue]
  refine h.moves (w := w) (q := { s.proc w with pc := afterRead w }) (h.buf w) (by simp [hpc])
    (by simp [hpc]) fun pid hpid => ?_
  rcases List.mem_append.mp hpid with hold | hnew
  · exact .inl hold
  · rw [List.mem_singleton, Line.received.injEq] at hnew
    obtain ⟨rfl, -⟩ := hnew
    exact .inr ⟨rfl, rfl⟩

theorem write (h : At b pcs queue calls s) (hpc : pcs w = .write) (ht : step s w = some t) :
    At b (Function.update pcs w (afterWrite w)) (queue ++ [b]) (calls ++ [.write w b]) t := by
  obtain rfl := Option.some.inj ((step_write ((h.pc w).trans hpc)).symm.trans ht)
  rw [h.buf w, ← h.calls, ← h.queue]
  exact h.moves (w := w) (q := { s.proc w with pc := afterWrite w }) (h.buf w) (by simp [hpc])
    (by simp [hpc]) fun _ hpid => .inl hpid

theorem exit (h : At b pcs queue calls s) (hpc : pcs w = .exit) (ht : step s w = some t) :
    At b (Function.update pcs w .exited) queue calls t := by
  obtain rfl := Option.some.inj ((step_exit ((h.pc w).trans hpc)).symm.trans ht)
  rw [← h.calls, ← h.queue]
  exact h.moves (w := w) (q := { s.proc w with pc := .exited }) (h.buf w) (by simp [hpc])
    (fun _ => rfl) fun _ hpid => .inl hpid

theorem not_exited (h : At b pcs queue calls s) (ht : step s w = some t) : pcs w ≠ .exited := by
  intro hpc
  rw [step_exited ((h.pc w).trans hpc)] at ht
  cases ht

theorem not_blocked (h : At b pcs queue calls s) (hw : pcs w ≠ .read ∨ queue ≠ []) :
    ¬ Blocked s w := by
  rintro ⟨hpc, hnone⟩
  rcases hw with hw | hw
  · exact hw ((h.pc w).symm.trans hpc)
  · obtain ⟨x, queue, rfl⟩ := List.exists_cons_of_ne_nil hw
    rw [step_read hpc h.queue] at hnone
    cases hnone

end At

/-- The states of an exchange in which the parent waits for the child. -/
inductive Phase (b : UInt8) (s : State) : Prop
  | start : At b (both .write .read) [] [] s → Phase b s
  | sent : At b (both .read .read) [b] [.write .parent b] s → Phase b s
  | taken {c : Pc} : c = .received ∨ c = .write →
      At b (both .read c) [] [.write .parent b, .read .child b] s → Phase b s
  | answered {c : Pc} : c = .exit ∨ c = .exited →
      At b (both .read c) [b] [.write .parent b, .read .child b, .write .child b] s → Phase b s
  | ended {p c : Pc} : p = .received ∨ p = .exit ∨ p = .exited → c = .exit ∨ c = .exited →
      At b (both p c) []
        [.write .parent b, .read .child b, .write .child b, .read .parent b] s → Phase b s

theorem phase_start (parent child : ℕ) : Phase b (start parent child b) := by
  refine .start ⟨fun w => ?_, fun w => ?_, rfl, rfl, fun _ h => ?_⟩
  · cases w <;> rfl
  · cases w <;> rfl
  · cases h

theorem Phase.next (h : Phase b s) (hw : Waits s w) (ht : step s w = some t) : Phase b t := by
  cases h with
  | start h =>
    cases w with
    | parent => exact .sent (by simpa [afterWrite] using h.write rfl ht)
    | child =>
      rw [step_read_empty (h.pc .child) h.queue] at ht
      cases ht
  | sent h =>
    cases w with
    | parent => exact absurd (h.pc .child) (hw rfl (h.pc .parent))
    | child => exact .taken (.inl rfl) (by simpa using h.read rfl ht)
  | taken hc h =>
    cases w with
    | parent =>
      rw [step_read_empty (h.pc .parent) h.queue] at ht
      cases ht
    | child =>
      rcases hc with rfl | rfl
      · exact .taken (.inr rfl) (by simpa [afterRead] using h.received rfl ht)
      · exact .answered (.inl rfl) (by simpa [afterWrite] using h.write rfl ht)
  | answered hc h =>
    cases w with
    | parent => exact .ended (.inl rfl) hc (by simpa using h.read rfl ht)
    | child =>
      rcases hc with rfl | rfl
      · exact .answered (.inr rfl) (by simpa using h.exit rfl ht)
      · exact absurd rfl (h.not_exited ht)
  | ended hp hc h =>
    cases w with
    | parent =>
      rcases hp with rfl | rfl | rfl
      · exact .ended (.inr (.inl rfl)) hc (by simpa [afterRead] using h.received rfl ht)
      · exact .ended (.inr (.inr rfl)) hc (by simpa using h.exit rfl ht)
      · exact absurd rfl (h.not_exited ht)
    | child =>
      rcases hc with rfl | rfl
      · exact .ended hp (.inr rfl) (by simpa using h.exit rfl ht)
      · exact absurd rfl (h.not_exited ht)

/-- From every state of an exchange the processes come to one in which no process is blocked. -/
theorem Phase.unblocks (h : Phase b s) :
    ∃ ws t, run s ws = some t ∧ ∀ w, ¬ Blocked t w := by
  cases h with
  | start h =>
    have hwrite := step_write (h.pc .parent)
    refine ⟨[.parent], _, ?_, fun w => (h.write rfl hwrite).not_blocked (.inr (by simp))⟩
    exact run_one hwrite
  | sent h => exact ⟨[], s, rfl, fun w => h.not_blocked (.inr (by simp))⟩
  | taken hc h =>
    rcases hc with rfl | rfl
    · have hprint := step_received (h.pc .child)
      have hmid := h.received rfl hprint
      have hwrite := step_write (hmid.pc .child)
      refine ⟨[.child, .child], _, ?_, fun w => (hmid.write rfl hwrite).not_blocked
        (.inr (by simp))⟩
      exact run_concat.mpr ⟨_, run_one hprint, hwrite⟩
    · have hwrite := step_write (h.pc .child)
      refine ⟨[.child], _, ?_, fun w => (h.write rfl hwrite).not_blocked (.inr (by simp))⟩
      exact run_one hwrite
  | answered hc h => exact ⟨[], s, rfl, fun w => h.not_blocked (.inr (by simp))⟩
  | ended hp hc h =>
    refine ⟨[], s, rfl, fun w => h.not_blocked (.inl ?_)⟩
    cases w with
    | parent => rcases hp with rfl | rfl | rfl <;> simp
    | child => rcases hc with rfl | rfl <;> simp

/-- That the parent waits for the child stops nothing: some process goes on until both have
exited. -/
theorem Phase.progress (h : Phase b s) :
    (∀ w, (s.proc w).pc = .exited) ∨ ∃ w t, step s w = some t ∧ Waits s w := by
  cases h with
  | start h =>
    refine .inr ⟨.parent, _, step_write (h.pc .parent), fun _ hread => ?_⟩
    rw [h.pc .parent] at hread
    cases hread
  | sent h =>
    exact .inr ⟨.child, _, step_read (h.pc .child) h.queue, fun hw => by cases hw⟩
  | taken hc h =>
    rcases hc with rfl | rfl
    · exact .inr ⟨.child, _, step_received (h.pc .child), fun hw => by cases hw⟩
    · exact .inr ⟨.child, _, step_write (h.pc .child), fun hw => by cases hw⟩
  | answered hc h =>
    refine .inr ⟨.parent, _, step_read (h.pc .parent) h.queue, fun _ _ hread => ?_⟩
    rw [h.pc .child] at hread
    rcases hc with rfl | rfl <;> cases hread
  | ended hp hc h =>
    have hwaits : Waits s .parent := fun _ hread => by
      rw [h.pc .parent] at hread
      rcases hp with rfl | rfl | rfl <;> cases hread
    rcases hp with rfl | rfl | rfl
    · exact .inr ⟨.parent, _, step_received (h.pc .parent), hwaits⟩
    · exact .inr ⟨.parent, _, step_exit (h.pc .parent), hwaits⟩
    · rcases hc with rfl | rfl
      · exact .inr ⟨.child, _, step_exit (h.pc .child), fun hw => by cases hw⟩
      · refine .inl fun w => ?_
        cases w with
        | parent => exact h.pc .parent
        | child => exact h.pc .child

theorem Phase.exchanged (h : Phase b s) : Exchanged b s := by
  constructor
  · intro pid hpid
    cases h with
    | start h => exact absurd (h.pong pid hpid) (by simp)
    | sent h => exact absurd (h.pong pid hpid) (by simp)
    | taken _ h => exact absurd (h.pong pid hpid) (by simp)
    | answered _ h => exact absurd (h.pong pid hpid) (by simp)
    | ended _ _ h =>
      rw [h.calls]
      exact ⟨[.read .parent b], rfl⟩
  · intro w hforever
    obtain ⟨ws, t, hrun, hfree⟩ := h.unblocks
    exact hfree w (hforever ws t hrun)

/-- The parent has taken its ping, and the child waits for it. -/
structure Starved (s : State) : Prop where
  child : (s.proc .child).pc = .read
  queue : s.queue = []
  parent : (s.proc .parent).pc = .received ∨ (s.proc .parent).pc = .exit ∨
    (s.proc .parent).pc = .exited

theorem Starved.next (h : Starved s) (ht : step s w = some t) : Starved t := by
  cases w with
  | child =>
    rw [step_read_empty h.child h.queue] at ht
    cases ht
  | parent =>
    rcases h.parent with hpc | hpc | hpc
    · obtain rfl := Option.some.inj ((step_received hpc).symm.trans ht)
      exact ⟨h.child, h.queue, .inr (.inl rfl)⟩
    · obtain rfl := Option.some.inj ((step_exit hpc).symm.trans ht)
      exact ⟨h.child, h.queue, .inr (.inr rfl)⟩
    · rw [step_exited hpc] at ht
      cases ht

theorem Starved.later (h : Starved s) {ws : List Who} (ht : run s ws = some t) : Starved t := by
  induction ws using List.reverseRecOn generalizing t with
  | nil =>
    obtain rfl := Option.some.inj ht
    exact h
  | append_singleton us w ih =>
    obtain ⟨u, hu, hstep⟩ := run_concat.mp ht
    exact (ih hu).next hstep

theorem Starved.blockedForever (h : Starved s) : BlockedForever s .child := by
  intro ws t ht
  have hend := h.later ht
  exact ⟨hend.child, step_read_empty hend.child hend.queue⟩

theorem Phase.starved (h : Phase b s) (hw : ¬ Waits s w) (ht : step s w = some t) : Starved t := by
  simp only [Waits, not_forall, not_not] at hw
  obtain ⟨rfl, hp, hc⟩ := hw
  cases h with
  | sent h =>
    have hread := h.read (w := .parent) rfl ht
    exact ⟨hread.pc .child, hread.queue, .inl (hread.pc .parent)⟩
  | start h => exact absurd ((h.pc .parent).symm.trans hp) (by simp)
  | taken hcs h =>
    rw [h.pc .child] at hc
    rcases hcs with rfl | rfl <;> cases hc
  | answered hcs h =>
    rw [h.pc .child] at hc
    rcases hcs with rfl | rfl <;> cases hc
  | ended _ hcs h =>
    rw [h.pc .child] at hc
    rcases hcs with rfl | rfl <;> cases hc

/-- In a run after `fork` every state is one of an exchange exactly when the parent never reads
before the child has. -/
theorem exchanged_iff (parent child : ℕ) (b : UInt8) (ws : List Who) :
    (∀ us t, us <+: ws → run (start parent child b) us = some t → Exchanged b t) ↔
      ∀ us w s t, us ++ [w] <+: ws → run (start parent child b) us = some s →
        step s w = some t → Waits s w := by
  constructor
  · intro hgood
    have hphase : ∀ us s, us <+: ws → run (start parent child b) us = some s → Phase b s := by
      intro us
      induction us using List.reverseRecOn with
      | nil =>
        intro s _ hs
        obtain rfl := Option.some.inj hs
        exact phase_start parent child
      | append_singleton us w ih =>
        intro t hpre ht
        obtain ⟨s, hs, hstep⟩ := run_concat.mp ht
        have h := ih s ((List.prefix_append us [w]).trans hpre) hs
        by_cases hw : Waits s w
        · exact h.next hw hstep
        · exact absurd (h.starved hw hstep).blockedForever ((hgood _ t hpre ht).2 .child)
    intro us w s t hpre hs hstep
    by_contra hw
    have h := hphase us s ((List.prefix_append us [w]).trans hpre) hs
    exact (hgood _ t hpre (run_concat.mpr ⟨s, hs, hstep⟩)).2 .child
      (h.starved hw hstep).blockedForever
  · intro hwaits us t hpre ht
    suffices h : Phase b t from h.exchanged
    induction us using List.reverseRecOn generalizing t with
    | nil =>
      obtain rfl := Option.some.inj ht
      exact phase_start parent child
    | append_singleton us w ih =>
      obtain ⟨s, hs, hstep⟩ := run_concat.mp ht
      exact (ih s ((List.prefix_append us [w]).trans hpre) hs).next (hwaits us w s t hpre hs hstep)
        hstep

/-- The parent reads its ping back at once. -/
theorem parent_first : ¬ ∀ (parent child : ℕ) (b : UInt8) (ws : List Who) (t : State),
    run (start parent child b) ws = some t → Exchanged b t := by
  intro h
  have hpong := (h 3 4 0 [.parent, .parent, .parent] _ rfl).1 3 (by simp [start, State.setProc])
  revert hpong
  decide

end Xv6Sheet.Pingpong
