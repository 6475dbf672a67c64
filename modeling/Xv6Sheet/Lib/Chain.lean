import Mathlib.Data.List.Nodup
import Mathlib.Tactic.Common

/-! # Chains of nodes

Linked lists in a memory that gives for some addresses the pointer to the next one. The
chain from a pointer, when there is one, is finite, has no address twice, and is the only
one.
-/

namespace Xv6Sheet

variable {α : Type}

/-- The nodes met from a pointer on, to the null pointer. -/
inductive Chain (next : α → Option (Option α)) : Option α → List α → Prop
  | nil : Chain next none []
  | cons {a : α} {p : Option α} {l : List α} : next a = some p → Chain next p l →
      Chain next (some a) (a :: l)

namespace Chain

variable {next next' : α → Option (Option α)} {p : Option α} {a : α} {l l' : List α}

theorem unique (h : Chain next p l) (h' : Chain next p l') : l = l' := by
  induction h generalizing l' with
  | nil => cases h'; rfl
  | cons hp _ ih =>
    cases h' with
    | cons hp' hl' =>
      obtain rfl := Option.some.inj (hp.symm.trans hp')
      rw [ih hl']

theorem mono (h : Chain next p l) (hle : ∀ a q, next a = some q → next' a = some q) :
    Chain next' p l := by
  induction h with
  | nil => exact .nil
  | cons hp _ ih => exact .cons (hle _ _ hp) ih

theorem congr (h : Chain next p l) (hl : ∀ a ∈ l, next' a = next a) : Chain next' p l := by
  induction h with
  | nil => exact .nil
  | cons hp _ ih =>
    refine .cons ((hl _ List.mem_cons_self).trans hp) (ih fun a ha => hl a ?_)
    exact List.mem_cons_of_mem _ ha

theorem from_mem (h : Chain next p l) (ha : a ∈ l) :
    ∃ l₁ l₂, l = l₁ ++ a :: l₂ ∧ Chain next (some a) (a :: l₂) := by
  induction h with
  | nil => simp at ha
  | @cons b q m hq hm ih =>
    rcases List.mem_cons.mp ha with rfl | ha
    · exact ⟨[], m, rfl, .cons hq hm⟩
    · obtain ⟨l₁, l₂, rfl, h⟩ := ih ha
      exact ⟨b :: l₁, l₂, rfl, h⟩

theorem next_of_mem (h : Chain next p l) (ha : a ∈ l) : ∃ q, next a = some q := by
  obtain ⟨_, _, -, h⟩ := h.from_mem ha
  cases h with
  | cons hq _ => exact ⟨_, hq⟩

theorem nodup (h : Chain next p l) : l.Nodup := by
  induction h with
  | nil => exact List.nodup_nil
  | @cons a q m hq hm ih =>
    refine List.nodup_cons.mpr ⟨fun ha => ?_, ih⟩
    obtain ⟨l₁, l₂, rfl, h⟩ := hm.from_mem ha
    have hl := congrArg List.length (h.unique (.cons hq hm))
    simp only [List.length_cons, List.length_append] at hl
    omega

end Chain

end Xv6Sheet
