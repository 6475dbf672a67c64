import Mathlib.Data.List.Infix
import Mathlib.Data.Option.Basic

/-! # Interleavings

Processes that share a state take their steps one at a time, in any order. What each step keeps,
every interleaving keeps. Where each step makes a measure smaller, no interleaving goes on forever,
and each leads on to a state in which no process can take a step.
-/

namespace Xv6Sheet

variable {σ κ : Type} {step : σ → κ → Option σ} {s t u : σ} {I : σ → Prop} {m : σ → ℕ}

def interleave (step : σ → κ → Option σ) (s : σ) (cs : List κ) : Option σ := cs.foldlM step s

def Halted (step : σ → κ → Option σ) (s : σ) : Prop := ∀ c, step s c = none

@[simp] theorem interleave_nil : interleave step s [] = some t ↔ s = t := by
  simp [interleave]

theorem interleave_cons {c : κ} {cs : List κ} :
    interleave step s (c :: cs) = some u ↔
    ∃ t, step s c = some t ∧ interleave step t cs = some u := by
  rw [interleave, List.foldlM_cons]
  exact Option.bind_eq_some_iff

theorem interleave_invariant (hstep : ∀ s c t, I s → step s c = some t → I t) {cs : List κ}
    (hs : I s)
    (h : interleave step s cs = some t) : I t := by
  induction cs generalizing s with
  | nil =>
    obtain rfl := interleave_nil.mp h
    exact hs
  | cons c cs ih =>
    obtain ⟨u, hu, h⟩ := interleave_cons.mp h
    exact ih (hstep s c u hs hu) h

theorem interleave_length (hm : ∀ s c t, step s c = some t → m t < m s) {cs : List κ}
    (h : interleave step s cs = some t) : cs.length + m t ≤ m s := by
  induction cs generalizing s with
  | nil =>
    obtain rfl := interleave_nil.mp h
    simp
  | cons c cs ih =>
    obtain ⟨u, hu, h⟩ := interleave_cons.mp h
    have hlt := hm s c u hu
    have hle := ih h
    rw [List.length_cons]
    omega

theorem exists_halted (hm : ∀ s c t, step s c = some t → m t < m s) (s : σ) :
    ∃ cs t, interleave step s cs = some t ∧ Halted step t := by
  induction hs : m s using Nat.strong_induction_on generalizing s with
  | _ n ih =>
    by_cases hhalt : Halted step s
    · exact ⟨[], s, interleave_nil.mpr rfl, hhalt⟩
    · simp only [Halted, not_forall, ← ne_eq, Option.ne_none_iff_exists'] at hhalt
      obtain ⟨c, t, ht⟩ := hhalt
      obtain ⟨cs, u, hu, hhalt⟩ := ih (m t) (hs ▸ hm s c t ht) t rfl
      exact ⟨c :: cs, u, interleave_cons.mpr ⟨t, ht, hu⟩, hhalt⟩

end Xv6Sheet
