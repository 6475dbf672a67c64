import Xv6Sheet.Handshake.Program

/-! # Every schedule of the handshake

In every interleaving the line of the child is printed whole before the first byte of the line of
the parent, both with the byte that was sent, and both processes come to their end. Whether the
parent exits after the child depends on the version.
-/

namespace Xv6Sheet.Handshake

open Pingpong (Who)
open State (mk')

variable {v : Version} {s t : State} {c : Who × ℕ} {parent child : ℕ} {b g : UInt8}

section Work

def Stmt.work (pid : ℕ) : Stmt → ℕ
  | .printf _ l => (l.text pid 0).length + 2
  | .put _ text => text.length + 1
  | _ => 1

def Proc.work (p : Proc) : ℕ := (p.code.map (Stmt.work p.pid)).sum

def State.work (s : State) : ℕ := (s.proc .parent).work + (s.proc .child).work

theorem text_length (pid : ℕ) (b : UInt8) (l : Line) : (l.text pid b).length =
    (l.text pid 0).length := by
  cases l with
  | received w => cases w <;> simp [Line.text]
  | forkFailed => rfl

theorem step_proc (h : step s c = some t) :
    ∃ q, t.proc = Function.update s.proc c.1 q ∧ q.work < (s.proc c.1).work := by
  unfold step at h
  dsimp only at h
  split at h
  · cases h
  · rename_i q code hcode
    split at h
    · obtain rfl := Option.some.inj h
      exact ⟨_, rfl, by simp [Proc.work, hcode, Stmt.work]⟩
    · split at h
      · cases h
      · obtain rfl := Option.some.inj h
        exact ⟨_, rfl, by simp [Proc.work, hcode, Stmt.work]⟩
  · rename_i q x code hcode
    obtain rfl := Option.some.inj h
    refine ⟨{ s.proc c.1 with code := code }, ?_, by simp [Proc.work, hcode, Stmt.work]⟩
    split <;> rfl
  · rename_i fd l code hcode
    obtain rfl := Option.some.inj h
    refine ⟨_, rfl, ?_⟩
    have hlen := text_length (s.proc c.1).pid (s.proc c.1).buf l
    simp only [Proc.work, hcode, List.map_cons, List.sum_cons, Stmt.work]
    omega
  · rename_i fd text code hcode
    obtain rfl := Option.some.inj h
    refine ⟨_, rfl, ?_⟩
    simp only [Proc.work, hcode, List.map_cons, List.sum_cons, Stmt.work]
    split
    · omega
    · simp only [List.map_cons, List.sum_cons, Stmt.work, List.length_drop]
      omega
  · rename_i code hcode
    split at h
    · split at h
      · obtain rfl := Option.some.inj h
        exact ⟨_, rfl, by simp [Proc.work, hcode, Stmt.work]⟩
      · cases h
    · obtain rfl := Option.some.inj h
      exact ⟨_, rfl, by simp [Proc.work, hcode, Stmt.work]⟩
  · rename_i status code hcode
    obtain rfl := Option.some.inj h
    refine ⟨_, rfl, ?_⟩
    simp only [Proc.work, hcode, List.map_cons, List.sum_cons, Stmt.work, List.map_nil,
      List.sum_nil]
    omega

theorem step_work (s : State) (c : Who × ℕ) (t : State) (h : step s c = some t) :
    t.work < s.work := by
  obtain ⟨q, hproc, hlt⟩ := step_proc h
  obtain ⟨w, n⟩ := c
  unfold State.work
  rw [hproc]
  cases w with
  | parent => simpa using hlt
  | child => simpa using hlt

end Work

def lineOf (pid : ℕ) (b : UInt8) (w : Who) : List UInt8 := (Line.received w).text pid b

def transcript (parent child : ℕ) (b : UInt8) : List UInt8 :=
  lineOf child b .child ++ lineOf parent b .parent

inductive Leaving (pid : ℕ) (b : UInt8) : Proc → Prop
  | exit : Leaving pid b ⟨[.exit 0], pid, b, b, none⟩
  | gone : Leaving pid b ⟨[], pid, b, b, some 0⟩

inductive Phase (v : Version) (parent child : ℕ) (b g : UInt8) : State → Prop
  | start : Phase v parent child b g
      (mk' ⟨parentMain v, parent, b, g, none⟩ ⟨childMain, child, b, g, none⟩ [] [] [] [])
  | sent : Phase v parent child b g
      (mk' ⟨(parentMain v).drop 1, parent, b, g, none⟩ ⟨childMain, child, b, g, none⟩ [b] [] [] [])
  | taken : Phase v parent child b g
      (mk' ⟨(parentMain v).drop 1, parent, b, g, none⟩ ⟨childMain.drop 1, child, b, b, none⟩ []
      [] [] [])
  | telling {out text : List UInt8} : out ++ text = lineOf child b .child → Phase v parent child b g
      (mk' ⟨(parentMain v).drop 1, parent, b, g, none⟩
        ⟨.put .stdout text :: childMain.drop 2, child, b, b, none⟩ [] [] out [])
  | told : Phase v parent child b g
      (mk' ⟨(parentMain v).drop 1, parent, b, g, none⟩ ⟨childMain.drop 2, child, b, b, none⟩ [] []
        (lineOf child b .child) [])
  | answered {c : Proc} : Leaving child b c → Phase v parent child b g
      (mk' ⟨(parentMain v).drop 1, parent, b, g, none⟩ c [] [b] (lineOf child b .child) [])
  | received {c : Proc} : Leaving child b c → Phase v parent child b g
      (mk' ⟨(parentMain v).drop 2, parent, b, b, none⟩ c [] [] (lineOf child b .child) [])
  | printing {c : Proc} {out text : List UInt8} : Leaving child b c →
      out ++ text = transcript parent child b → Phase v parent child b g
      (mk' ⟨.put .stdout text :: (parentMain v).drop 3, parent, b, b, none⟩ c [] [] out [])
  | printed {c : Proc} : Leaving child b c → Phase v parent child b g
      (mk' ⟨(parentMain v).drop 3, parent, b, b, none⟩ c [] [] (transcript parent child b) [])
  | ended {p c : Proc} : Leaving parent b p → Leaving child b c →
      (v = .cooked → c = ⟨[], child, b, b, some 0⟩) →
      Phase v parent child b g (mk' p c [] [] (transcript parent child b) [])

theorem Leaving.step_child {p c : Proc} {q₁ q₂ out : List UInt8} {n : ℕ} (hc : Leaving child b c)
    (ht : step (mk' p c q₁ q₂ out []) (.child, n) = some t) :
    c ≠ ⟨[], child, b, b, some 0⟩ ∧ t = mk' p ⟨[], child, b, b, some 0⟩ q₁ q₂ out [] := by
  cases hc with
  | exit =>
    obtain rfl := Option.some.inj ((step_exit rfl).symm.trans ht)
    exact ⟨by simp, setProc_child⟩
  | gone =>
    rw [step_nil rfl] at ht
    cases ht

theorem Leaving.code_nil {p : Proc} (hp : Leaving child b p) (h : p.code = []) :
    p = ⟨[], child, b, b, some 0⟩ := by
  cases hp with
  | exit => cases h
  | gone => rfl

theorem split_text {out text line : List UInt8} {k : ℕ} (h : out ++ text = line) :
    (out ++ text.take k) ++ text.drop k = line := by
  rw [List.append_assoc, List.take_append_drop, h]

theorem Phase.next (h : Phase v parent child b g s) (ht : step s c = some t) :
    Phase v parent child b g t := by
  obtain ⟨w, n⟩ := c
  cases h with
  | start =>
    cases w with
    | parent =>
      obtain rfl := Option.some.inj ((step_write rfl).symm.trans ht)
      rw [setProc_parent, setPipe_p1]
      exact .sent
    | child =>
      rw [step_read_empty rfl rfl] at ht
      cases ht
  | sent =>
    cases w with
    | parent =>
      rw [step_read_empty rfl rfl] at ht
      cases ht
    | child =>
      obtain rfl := Option.some.inj ((step_read rfl rfl).symm.trans ht)
      rw [setProc_child, setPipe_p1]
      exact .taken
  | taken =>
    cases w with
    | parent =>
      rw [step_read_empty rfl rfl] at ht
      cases ht
    | child =>
      obtain rfl := Option.some.inj ((step_printf rfl).symm.trans ht)
      rw [setProc_child]
      exact .telling (List.nil_append _)
  | telling htext =>
    cases w with
    | parent =>
      rw [step_read_empty rfl rfl] at ht
      cases ht
    | child =>
      obtain rfl := Option.some.inj ((step_put rfl).symm.trans ht)
      rw [setProc_child, print_stdout]
      split
      · rename_i hlast
        rw [List.take_of_length_le hlast, htext]
        exact .told
      · exact .telling (split_text htext)
  | told =>
    cases w with
    | parent =>
      rw [step_read_empty rfl rfl] at ht
      cases ht
    | child =>
      obtain rfl := Option.some.inj ((step_write rfl).symm.trans ht)
      rw [setProc_child, setPipe_p2]
      exact .answered .exit
  | answered hc =>
    cases w with
    | parent =>
      obtain rfl := Option.some.inj ((step_read rfl rfl).symm.trans ht)
      rw [setProc_parent, setPipe_p2]
      exact .received hc
    | child =>
      obtain ⟨-, rfl⟩ := hc.step_child ht
      exact .answered .gone
  | received hc =>
    cases w with
    | parent =>
      obtain rfl := Option.some.inj ((step_printf rfl).symm.trans ht)
      rw [setProc_parent]
      exact .printing hc rfl
    | child =>
      obtain ⟨-, rfl⟩ := hc.step_child ht
      exact .received .gone
  | printing hc htext =>
    cases w with
    | parent =>
      obtain rfl := Option.some.inj ((step_put rfl).symm.trans ht)
      rw [setProc_parent, print_stdout]
      split
      · rename_i hlast
        rw [List.take_of_length_le hlast, htext]
        exact .printed hc
      · exact .printing hc (split_text htext)
    | child =>
      obtain ⟨-, rfl⟩ := hc.step_child ht
      exact .printing .gone htext
  | printed hc =>
    cases w with
    | parent =>
      cases v with
      | lab3 =>
        obtain rfl := Option.some.inj ((step_exit rfl).symm.trans ht)
        rw [setProc_parent]
        exact .ended .gone hc (by simp)
      | cooked =>
        rw [step_wait rfl] at ht
        split at ht
        · rename_i hexit
          obtain rfl := Option.some.inj ht
          rw [setProc_parent]
          exact .ended .exit hc fun _ => hc.code_nil hexit
        · cases ht
    | child =>
      obtain ⟨-, rfl⟩ := hc.step_child ht
      exact .printed .gone
  | ended hp hc hafter =>
    cases w with
    | parent =>
      cases hp with
      | exit =>
        obtain rfl := Option.some.inj ((step_exit rfl).symm.trans ht)
        rw [setProc_parent]
        exact .ended .gone hc hafter
      | gone =>
        rw [step_nil rfl] at ht
        cases ht
    | child =>
      obtain ⟨-, rfl⟩ := hc.step_child ht
      exact .ended hp .gone fun _ => rfl

theorem phase_start (v : Version) (parent child : ℕ) (b g : UInt8) :
    Phase v parent child b g (start v parent (some child) b g) := by
  rw [eq_parts (start v parent (some child) b g)]
  exact .start

theorem Phase.last (h : Phase v parent child b g s) (hhalt : Halted step s) :
    s = mk' ⟨[], parent, b, b, some 0⟩ ⟨[], child, b, b, some 0⟩ [] []
    (transcript parent child b) [] := by
  have hleft : ∀ {p c : Proc} {q₁ q₂ out : List UInt8}, Leaving child b c →
      Halted step (mk' p c q₁ q₂ out []) → c = ⟨[], child, b, b, some 0⟩ := by
    intro p c q₁ q₂ out hc hhalt
    cases hc with
    | exit => exact absurd (hhalt (.child, 0)) (by rw [step_exit rfl]; simp)
    | gone => rfl
  cases h with
  | start => exact absurd (hhalt (.parent, 0)) (by rw [step_write rfl]; simp)
  | sent => exact absurd (hhalt (.child, 0)) (by rw [step_read rfl rfl]; simp)
  | taken => exact absurd (hhalt (.child, 0)) (by rw [step_printf rfl]; simp)
  | telling _ => exact absurd (hhalt (.child, 0)) (by rw [step_put rfl]; simp)
  | told => exact absurd (hhalt (.child, 0)) (by rw [step_write rfl]; simp)
  | answered hc => exact absurd (hhalt (.parent, 0)) (by rw [step_read rfl rfl]; simp)
  | received hc => exact absurd (hhalt (.parent, 0)) (by rw [step_printf rfl]; simp)
  | printing hc _ => exact absurd (hhalt (.parent, 0)) (by rw [step_put rfl]; simp)
  | printed hc =>
    obtain rfl := hleft hc hhalt
    cases v with
    | lab3 => exact absurd (hhalt (.parent, 0)) (by rw [step_exit rfl]; simp)
    | cooked => exact absurd (hhalt (.parent, 0)) (by rw [step_wait rfl]; simp)
  | ended hp hc _ =>
    obtain rfl := hleft hc hhalt
    cases hp with
    | exit => exact absurd (hhalt (.parent, 0)) (by rw [step_exit rfl]; simp)
    | gone => rfl

theorem Phase.printed_prefix (h : Phase v parent child b g s) :
    s.out .stdout <+: transcript parent child b ∧ s.out .stderr = [] := by
  cases h with
  | start => exact ⟨List.nil_prefix, rfl⟩
  | sent => exact ⟨List.nil_prefix, rfl⟩
  | taken => exact ⟨List.nil_prefix, rfl⟩
  | telling htext => exact ⟨⟨_, by rw [← List.append_assoc]; exact congrArg (· ++ _) htext⟩, rfl⟩
  | told => exact ⟨List.prefix_append _ _, rfl⟩
  | answered _ => exact ⟨List.prefix_append _ _, rfl⟩
  | received _ => exact ⟨List.prefix_append _ _, rfl⟩
  | printing _ htext => exact ⟨⟨_, htext⟩, rfl⟩
  | printed _ => exact ⟨List.prefix_refl _, rfl⟩
  | ended _ _ _ => exact ⟨List.prefix_refl _, rfl⟩

theorem Phase.exited (h : Phase .cooked parent child b g s) (hexit : (s.proc .parent).code = []) :
    (s.proc .child).code = [] := by
  cases h with
  | ended _ _ hafter =>
    obtain rfl := hafter rfl
    rfl
  | _ => cases hexit

section Runs

variable {cs : List (Who × ℕ)}

theorem phase_of_run (h : interleave step (start v parent (some child) b g) cs = some t) :
    Phase v parent child b g t :=
  interleave_invariant (fun _ _ _ hs ht => Phase.next hs ht) (phase_start v parent child b g) h

/-- In every interleaving the child's line comes out before the parent's, byte for byte, with the
byte that was sent. No schedule goes on forever, none gets stuck, and at the end both lines are out,
the pipes are empty and both processes have exited with 0. -/
theorem handshake_exchange (h : interleave step (start v parent (some child) b g) cs = some t) :
    t.out .stdout <+: lineOf child b .child ++ lineOf parent b .parent ∧ t.out .stderr = [] ∧
      cs.length ≤ (start v parent (some child) b g).work ∧
      (Halted step t → t.out .stdout = lineOf child b .child ++ lineOf parent b .parent ∧
        (∀ q, t.pipe q = []) ∧ ∀ w, (t.proc w).code = [] ∧ (t.proc w).status = some 0) ∧
      ∃ ds u, interleave step t ds = some u ∧ Halted step u := by
  have hphase := phase_of_run h
  have hlen := interleave_length step_work h
  refine ⟨hphase.printed_prefix.1, hphase.printed_prefix.2, by omega, fun hhalt => ?_,
    exists_halted step_work t⟩
  rw [hphase.last hhalt]
  refine ⟨rfl, fun q => ?_, fun w => ?_⟩
  · cases q <;> rfl
  · cases w <;> exact ⟨rfl, rfl⟩

/-- Two processes and the byte `A`. -/
theorem handshake_exchange_small : ∃ cs t,
    interleave step (start .cooked 3 (some 4) 65 0) cs = some t ∧
    t.out .stdout = ascii "4: received A from parent\n3: received A from child\n" := by
  obtain ⟨cs, t, ht, hhalt⟩ := exists_halted step_work (start .cooked 3 (some 4) 65 0)
  exact ⟨cs, t, ht, ((handshake_exchange ht).2.2.2.1 hhalt).1.trans (by decide +kernel)⟩

theorem parent_leaves_first (parent child : ℕ) (b g : UInt8) :
    ∃ cs t, interleave step (start .lab3 parent (some child) b g) cs = some t ∧
      (t.proc .parent).code = [] ∧ (t.proc .child).code ≠ [] := by
  rw [eq_parts (start .lab3 parent (some child) b g)]
  refine ⟨[(.parent, 0), (.child, 0), (.child, 0), (.child, (lineOf child b .child).length),
    (.child, 0),
    (.parent, 0), (.parent, 0), (.parent, (lineOf parent b .parent).length), (.parent, 0)],
    mk' ⟨[], parent, b, b, some 0⟩ ⟨[.exit 0], child, b, b, none⟩ [] []
    (transcript parent child b) [],
    ?_, rfl, by simp⟩
  -- the ping, up to the answer of the child
  refine interleave_cons.mpr ⟨_, step_write rfl, ?_⟩
  rw [setProc_parent, setPipe_p1]
  refine interleave_cons.mpr ⟨_, step_read rfl rfl, ?_⟩
  rw [setProc_child, setPipe_p1]
  refine interleave_cons.mpr ⟨_, step_printf rfl, ?_⟩
  rw [setProc_child]
  refine interleave_cons.mpr ⟨_, step_put_all rfl (Nat.le_succ _), ?_⟩
  rw [setProc_child, print_stdout]
  refine interleave_cons.mpr ⟨_, step_write rfl, ?_⟩
  rw [setProc_child, setPipe_p2]
  -- the parent goes on alone
  refine interleave_cons.mpr ⟨_, step_read rfl rfl, ?_⟩
  rw [setProc_parent, setPipe_p2]
  refine interleave_cons.mpr ⟨_, step_printf rfl, ?_⟩
  rw [setProc_parent]
  refine interleave_cons.mpr ⟨_, step_put_all rfl (Nat.le_succ _), ?_⟩
  rw [setProc_parent, print_stdout]
  refine interleave_cons.mpr ⟨_, step_exit rfl, ?_⟩
  rw [setProc_parent]
  rfl

/-- The parent exits after the child in every interleaving of the version that waits, and only
there. -/
theorem exits_after_child_iff (v : Version) (parent child : ℕ) (b g : UInt8) :
    (∀ cs t, interleave step (start v parent (some child) b g) cs = some t →
      (t.proc .parent).code = [] → (t.proc .child).code = []) ↔ v = .cooked := by
  constructor
  · intro hall
    cases v with
    | lab3 =>
      obtain ⟨cs, t, ht, hp, hc⟩ := parent_leaves_first parent child b g
      exact absurd (hall cs t ht hp) hc
    | cooked => rfl
  · rintro rfl cs t ht hexit
    exact (phase_of_run ht).exited hexit

/-- The states of the parent when there is no child. -/
inductive Alone (parent : ℕ) (b g : UInt8) : Version → State → Prop
  | start (x : Proc) : x.code = [] → Alone parent b g .lab3
      (mk' ⟨parentMain .lab3, parent, b, g, none⟩ x [] [] [] [])
  | sent (x : Proc) : x.code = [] → Alone parent b g .lab3
      (mk' ⟨(parentMain .lab3).drop 1, parent, b, g, none⟩ x [b] [] [] [])
  | failed (x : Proc) : x.code = [] → Alone parent b g .cooked
      (mk' ⟨Version.noChild .cooked, parent, b, g, none⟩ x [] [] [] [])
  | telling (x : Proc) {err text : List UInt8} : x.code = [] → err ++ text = ascii "fork failed\n" →
      Alone parent b g .cooked (mk' ⟨[.put .stderr text, .exit 1], parent, b, g, none⟩ x []
      [] [] err)
  | told (x : Proc) : x.code = [] → Alone parent b g .cooked
      (mk' ⟨[.exit 1], parent, b, g, none⟩ x [] [] [] (ascii "fork failed\n"))
  | gone (x : Proc) : x.code = [] → Alone parent b g .cooked
      (mk' ⟨[], parent, b, g, some 1⟩ x [] [] [] (ascii "fork failed\n"))

theorem Alone.no_child (h : Alone parent b g v s) : (s.proc .child).code = [] := by
  cases h <;> assumption

theorem Alone.next (h : Alone parent b g v s) (ht : step s c = some t) : Alone parent b g v t := by
  obtain ⟨w, n⟩ := c
  cases w with
  | child =>
    rw [step_nil h.no_child] at ht
    cases ht
  | parent =>
    cases h with
    | start x hx =>
      obtain rfl := Option.some.inj ((step_write rfl).symm.trans ht)
      rw [setProc_parent, setPipe_p1]
      exact .sent x hx
    | sent x hx =>
      rw [step_read_empty rfl rfl] at ht
      cases ht
    | failed x hx =>
      obtain rfl := Option.some.inj ((step_printf rfl).symm.trans ht)
      rw [setProc_parent]
      exact .telling x hx rfl
    | telling x hx htext =>
      obtain rfl := Option.some.inj ((step_put rfl).symm.trans ht)
      rw [setProc_parent, print_stderr]
      split
      · rename_i hlast
        rw [List.take_of_length_le hlast, htext]
        exact .told x hx
      · exact .telling x hx (split_text htext)
    | told x hx =>
      obtain rfl := Option.some.inj ((step_exit rfl).symm.trans ht)
      rw [setProc_parent]
      exact .gone x hx
    | gone x hx =>
      rw [step_nil rfl] at ht
      cases ht

theorem alone_start (v : Version) (parent : ℕ) (b g : UInt8) :
    Alone parent b g v (start v parent none b g) := by
  rw [eq_parts (start v parent none b g)]
  cases v with
  | lab3 => exact .start _ rfl
  | cooked => exact .failed _ rfl

/-- When `fork` fails, nothing is printed on the console. In every schedule, and each has an end,
the program of lab 3 sends the byte, which stays in its pipe, and is then blocked in a read; the
other one says so and exits with 1. -/
theorem fork_fails (h : interleave step (start v parent none b g) cs = some t) :
    t.out .stdout = [] ∧ t.out .stderr <+: ascii "fork failed\n" ∧
      cs.length ≤ (start v parent none b g).work ∧
      (Halted step t → match v with
        | .lab3 => (∃ code, (t.proc .parent).code = .read .p2 :: code) ∧ t.pipe .p1 = [b] ∧
            t.pipe .p2 = [] ∧ t.out .stderr = []
        | .cooked => (t.proc .parent).code = [] ∧ (t.proc .parent).status = some 1 ∧
            t.out .stderr = ascii "fork failed\n") ∧
      ∃ ds u, interleave step t ds = some u ∧ Halted step u := by
  have halone : Alone parent b g v t :=
    interleave_invariant (fun _ _ _ hs ht => Alone.next hs ht) (alone_start v parent b g) h
  have hlen := interleave_length step_work h
  refine ⟨?_, ?_, by omega, fun hhalt => ?_, exists_halted step_work t⟩
  · cases halone <;> rfl
  · cases halone with
    | telling _ _ htext => exact ⟨_, htext⟩
    | told _ _ => exact List.prefix_refl _
    | gone _ _ => exact List.prefix_refl _
    | _ => exact List.nil_prefix
  · cases halone with
    | start x hx => exact absurd (hhalt (.parent, 0)) (by rw [step_write rfl]; simp)
    | sent x hx => exact ⟨⟨_, rfl⟩, rfl, rfl, rfl⟩
    | failed x hx => exact absurd (hhalt (.parent, 0)) (by rw [step_printf rfl]; simp)
    | telling x hx _ => exact absurd (hhalt (.parent, 0)) (by rw [step_put rfl]; simp)
    | told x hx => exact absurd (hhalt (.parent, 0)) (by rw [step_exit rfl]; simp)
    | gone x hx => exact ⟨rfl, rfl, rfl⟩

theorem fork_fails_small : ∃ cs t, interleave step (start .cooked 3 none 65 0) cs = some t ∧
    (t.proc .parent).status = some 1 := by
  obtain ⟨cs, t, ht, hhalt⟩ := exists_halted step_work (start .cooked 3 none 65 0)
  exact ⟨cs, t, ht, ((fork_fails ht).2.2.2.1 hhalt).2.1⟩

end Runs

end Xv6Sheet.Handshake
