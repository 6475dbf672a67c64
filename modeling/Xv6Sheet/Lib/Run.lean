import Xv6Sheet.Lib.Exec

/-! # Runs of a system

A system takes one call after the other; each call ends with an answer or faults. The
states reached from a set of initial states are those after finitely many calls that
ended. What the initial states have and every call keeps, every reached state has.
-/

namespace Xv6Sheet

open Exec

variable {σ ε κ α : Type}

/-- The states that calls made one after the other can reach. A call may be made when the
guard allows it in the current state. -/
inductive Reached (step : κ → Exec σ ε α) (guard : σ → κ → Prop) (init : σ → Prop) : σ → Prop
  | init {s : σ} : init s → Reached step guard init s
  | call {s t : σ} {c : κ} {a : α} : Reached step guard init s → guard s c →
      Ends (step c) s a t → Reached step guard init t

theorem Reached.invariant {step : κ → Exec σ ε α} {guard : σ → κ → Prop} {init I : σ → Prop}
    (hinit : ∀ s, init s → I s)
    (hstep : ∀ s t c a, I s → guard s c → Ends (step c) s a t → I t)
    {s : σ} (h : Reached step guard init s) : I s := by
  induction h with
  | init hs => exact hinit _ hs
  | call _ hg he ih => exact hstep _ _ _ _ ih hg he

structure Taken (σ κ : Type) where
  before : σ
  call : κ
  after : σ

/-- The states that calls made one after the other can reach, with the steps that lead
there, the last one first. -/
inductive Traced (step : κ → Exec σ ε α) (guard : σ → κ → Prop) (init : σ → Prop) :
    List (Taken σ κ) → σ → Prop
  | init {s : σ} : init s → Traced step guard init [] s
  | call {s t : σ} {c : κ} {a : α} {tr : List (Taken σ κ)} : Traced step guard init tr s →
      guard s c → Ends (step c) s a t → Traced step guard init (⟨s, c, t⟩ :: tr) t

theorem Traced.reached {step : κ → Exec σ ε α} {guard : σ → κ → Prop} {init : σ → Prop}
    {tr : List (Taken σ κ)} {s : σ} (h : Traced step guard init tr s) :
    Reached step guard init s := by
  induction h with
  | init hs => exact .init hs
  | call _ hg he ih => exact .call ih hg he

theorem Traced.suffix {step : κ → Exec σ ε α} {guard : σ → κ → Prop} {init : σ → Prop}
    {later tr : List (Taken σ κ)} {s : σ} (h : Traced step guard init (later ++ tr) s) :
    ∃ t, Traced step guard init tr t := by
  induction later generalizing s with
  | nil => exact ⟨s, h⟩
  | cons p later ih =>
    cases h with
    | call h _ _ => exact ih h

theorem Traced.cons {step : κ → Exec σ ε α} {guard : σ → κ → Prop} {init : σ → Prop}
    {p : Taken σ κ} {tr : List (Taken σ κ)} {t : σ} (h : Traced step guard init (p :: tr) t) :
    p.after = t ∧ Traced step guard init tr p.before ∧ guard p.before p.call ∧
      ∃ a, Ends (step p.call) p.before a t := by
  cases h with
  | call h hg he => exact ⟨rfl, h, hg, _, he⟩

def afterAll (step : κ → Exec σ ε α) : List κ → σ → σ
  | [], s => s
  | c :: cs, s => afterAll step cs (after (step c) s)

def allEnd (step : κ → Exec σ ε α) : List κ → σ → Bool
  | [], _ => true
  | c :: cs, s => ((step c).run s).isOk && allEnd step cs (after (step c) s)

theorem Reached.calls {step : κ → Exec σ ε α} {init : σ → Prop} {s : σ} {cs : List κ}
    (hs : Reached step (fun _ _ => True) init s) (h : allEnd step cs s = true) :
    Reached step (fun _ _ => True) init (afterAll step cs s) := by
  induction cs generalizing s with
  | nil => exact hs
  | cons c cs ih =>
    obtain ⟨hc, hcs⟩ := Bool.and_eq_true_iff.mp h
    obtain ⟨a, ha⟩ := ends_after hc
    exact ih (.call hs trivial ha) hcs

def stepsAll (step : κ → Exec σ ε α) : List κ → σ → List (Taken σ κ)
  | [], _ => []
  | c :: cs, s => stepsAll step cs (after (step c) s) ++ [⟨s, c, after (step c) s⟩]

def allRun (step : κ → Exec σ ε α) (guard : σ → κ → Prop) [∀ s c, Decidable (guard s c)] :
    List κ → σ → Bool
  | [], _ => true
  | c :: cs, s => decide (guard s c) && ((step c).run s).isOk &&
      allRun step guard cs (after (step c) s)

theorem Traced.calls {step : κ → Exec σ ε α} {guard : σ → κ → Prop}
    [∀ s c, Decidable (guard s c)] {init : σ → Prop} {s : σ} {cs : List κ}
    {tr : List (Taken σ κ)} (hs : Traced step guard init tr s)
    (h : allRun step guard cs s = true) :
    Traced step guard init (stepsAll step cs s ++ tr) (afterAll step cs s) := by
  induction cs generalizing s tr with
  | nil => exact hs
  | cons c cs ih =>
    rw [allRun, Bool.and_eq_true, Bool.and_eq_true] at h
    obtain ⟨⟨hg, hc⟩, hcs⟩ := h
    obtain ⟨a, ha⟩ := ends_after hc
    have hall := ih (.call hs (of_decide_eq_true hg) ha) hcs
    rwa [stepsAll, List.append_assoc]

/-- A run from one state to another with the calls it makes. -/
inductive Runs (step : κ → Exec σ ε α) : σ → List κ → σ → Prop
  | nil (s : σ) : Runs step s [] s
  | cons {s t u : σ} {c : κ} {a : α} {cs : List κ} : Ends (step c) s a t → Runs step t cs u →
      Runs step s (c :: cs) u

theorem Runs.invariant {step : κ → Exec σ ε α} {I : σ → Prop} {P : κ → Prop}
    (hstep : ∀ s t c a, I s → P c → Ends (step c) s a t → I t) {s t : σ} {cs : List κ}
    (h : Runs step s cs t) (hP : ∀ c ∈ cs, P c) (hs : I s) : I t := by
  induction h with
  | nil => exact hs
  | cons he _ ih =>
    exact ih (fun c hc => hP c (List.mem_cons_of_mem _ hc))
      (hstep _ _ _ _ hs (hP _ List.mem_cons_self) he)

/-- When every call ends and keeps the invariant, every sequence of calls has a run. -/
theorem Runs.exists_run {step : κ → Exec σ ε α} {I : σ → Prop}
    (hstep : ∀ s c, I s → ∃ a t, Ends (step c) s a t ∧ I t) {s : σ} (hs : I s) (cs : List κ) :
    ∃ t, Runs step s cs t ∧ I t := by
  induction cs generalizing s with
  | nil => exact ⟨s, .nil s, hs⟩
  | cons c cs ih =>
    obtain ⟨a, u, he, hu⟩ := hstep s c hs
    obtain ⟨t, ht, hI⟩ := ih hu
    exact ⟨t, .cons he ht, hI⟩

theorem Runs.of_allEnd {step : κ → Exec σ ε α} {s : σ} {cs : List κ}
    (h : allEnd step cs s = true) : Runs step s cs (afterAll step cs s) := by
  induction cs generalizing s with
  | nil => exact .nil s
  | cons c cs ih =>
    obtain ⟨hc, hcs⟩ := Bool.and_eq_true_iff.mp h
    obtain ⟨a, ha⟩ := ends_after hc
    exact .cons ha (ih hcs)

end Xv6Sheet
