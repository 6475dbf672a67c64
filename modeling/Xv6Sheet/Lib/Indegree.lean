import Xv6Sheet.Lib.Count

/-! # Edges into the nodes of a graph

A finite graph with a list of targets for each node. How many edges lead to a node, and what
a change of the targets of one node does to that number.
-/

namespace Xv6Sheet

variable {N d i : ℕ} {out out' : ℕ → List ℕ}

/-- The number of edges from nodes below `N` to the node `i`. -/
def indegree (N : ℕ) (out : ℕ → List ℕ) (i : ℕ) : ℕ := ∑ d : Fin N, (out d).count i

theorem indegree_eq_zero : indegree N out i = 0 ↔ ∀ d < N, i ∉ out d := by
  rw [indegree, Finset.sum_eq_zero_iff]
  simp only [Finset.mem_univ, true_imp_iff, List.count_eq_zero]
  exact ⟨fun h d hd => h ⟨d, hd⟩, fun h d => h d d.isLt⟩

theorem indegree_pos : 0 < indegree N out i ↔ ∃ d < N, i ∈ out d := by
  rw [Nat.pos_iff_ne_zero, Ne, indegree_eq_zero]
  push Not
  rfl

theorem indegree_congr (h : ∀ d < N, (out' d).count i = (out d).count i) :
    indegree N out' i = indegree N out i :=
  Finset.sum_congr rfl fun d _ => h d d.isLt

theorem indegree_update (hd : d < N) (l : List ℕ) :
    indegree N (Function.update out d l) i + (out d).count i = indegree N out i + l.count i := by
  have hfin : ∀ k : Fin N, Function.update out d l k =
      Function.update (fun k : Fin N => out k) ⟨d, hd⟩ l k := by
    intro k
    by_cases hk : k = ⟨d, hd⟩
    · subst hk
      rw [Function.update_self, Function.update_self]
    · rw [Function.update_of_ne hk, Function.update_of_ne fun he => hk (Fin.ext he)]
  simp only [indegree, hfin]
  exact sum_update (fun l => l.count i) (fun k : Fin N => out k) ⟨d, hd⟩ l

section Entries

variable {α : Type} {f : α → Option ℕ} {l : List α} {k : ℕ} {a b : α}

theorem count_filterMap_set_some (hk : l[k]? = some a) (ha : f a = none) {j : ℕ}
    (hb : f b = some j) :
    ((l.set k b).filterMap f).count i = (l.filterMap f).count i + if j = i then 1 else 0 := by
  induction l generalizing k with
  | nil => simp at hk
  | cons c l ih =>
    cases k with
    | zero =>
      obtain rfl := Option.some.inj hk
      rw [List.set_cons_zero, List.filterMap_cons_some hb, List.filterMap_cons_none ha,
        List.count_cons]
      simp
    | succ k =>
      rw [List.set_cons_succ, List.filterMap_cons, List.filterMap_cons]
      have hrest := ih (k := k) (by simpa using hk)
      cases f c with
      | none => exact hrest
      | some m =>
        rw [List.count_cons, List.count_cons, hrest]
        omega

theorem count_filterMap_set_none (hk : l[k]? = some a) {j : ℕ} (ha : f a = some j)
    (hb : f b = none) :
    ((l.set k b).filterMap f).count i + (if j = i then 1 else 0) = (l.filterMap f).count i := by
  have hlt := (List.getElem?_eq_some_iff.mp hk).1
  have hget : (l.set k b)[k]? = some b := by rw [List.getElem?_set_self hlt]
  have hback := count_filterMap_set_some (i := i) hget hb ha
  have hself : l.set k a = l := by
    obtain ⟨hlt, rfl⟩ := List.getElem?_eq_some_iff.mp hk
    exact List.set_getElem_self hlt
  rw [List.set_set, hself] at hback
  exact hback.symm

end Entries

end Xv6Sheet
