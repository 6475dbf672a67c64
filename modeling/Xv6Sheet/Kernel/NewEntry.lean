import Xv6Sheet.Kernel.DirMap
import Xv6Sheet.Kernel.PathText
import Xv6Sheet.Kernel.Settled

/-! # The path of a new node

A path whose parent was found leads to the node that is then entered under its last element. A new
entry leaves the other names of the directory as they were.
-/

namespace Xv6Sheet.Kernel

section Lookup

variable {n n' : Node} {e : Entry} {name : List UInt8} {k : ℕ}

theorem Node.lookup_first {i j : ℕ} (h : n.lookup name = some (k, j)) (hi : i < k)
    (he : n.entries[i]? = some e) : ¬ Node.Matches name e := by
  unfold Node.lookup at h
  obtain ⟨k', hk', h⟩ := Option.bind_eq_some_iff.mp h
  obtain ⟨e', -, hke⟩ := Option.map_eq_some_iff.mp h
  obtain ⟨rfl, -⟩ := Prod.mk.inj hke
  obtain ⟨hlen, -, hfirst⟩ := List.findIdx?_eq_some_iff_getElem.mp hk'
  obtain ⟨hlt, rfl⟩ := List.getElem?_eq_some_iff.mp he
  simpa using hfirst i hi

theorem Adds.getElem? (h : Adds n n' e) : ∃ k ≤ n.entries.length,
    (∀ e', n.entries[k]? = some e' → e'.inum = 0) ∧
      ∀ j, n'.entries[j]? = if j = k then some e else n.entries[j]? := by
  obtain ⟨k, hk, hempty, hentries⟩ := h.entries
  refine ⟨k, hk, hempty, fun j => ?_⟩
  rw [hentries]
  exact place_getElem? hk j

theorem Adds.mem_entries (h : Adds n n' e) {e' : Entry} (he' : e' ∈ n'.entries) :
    e' = e ∨ e' ∈ n.entries := by
  obtain ⟨k, -, -, hget⟩ := h.getElem?
  obtain ⟨j, hj⟩ := List.mem_iff_getElem?.mp he'
  rw [hget] at hj
  split at hj
  · exact .inl (Option.some.inj hj).symm
  · exact .inr (List.mem_of_getElem? hj)

theorem Adds.lookup_self (h : Adds n n' e) (hnone : n.lookup e.name = none) (h0 : e.inum ≠ 0) :
    ∃ k, n'.lookup e.name = some (k, e.inum) := by
  obtain ⟨k, -, -, hget⟩ := h.getElem?
  refine ⟨k, Node.lookup_eq_of_first (by rw [hget, if_pos rfl]) ⟨h0, rfl⟩ fun j hj e' he' => ?_⟩
  rw [hget, if_neg (Nat.ne_of_lt hj)] at he'
  exact Node.lookup_eq_none.mp hnone e' (List.mem_of_getElem? he')

theorem Adds.lookup_of_ne (h : Adds n n' e) (hne : name ≠ e.name) :
    n'.lookup name = n.lookup name := by
  obtain ⟨k, hk, hempty, hget⟩ := h.getElem?
  cases hl : n.lookup name with
  | none =>
    refine Node.lookup_eq_none.mpr fun x hx hm => ?_
    obtain ⟨j, hj⟩ := List.mem_iff_getElem?.mp hx
    rw [hget] at hj
    split at hj
    · obtain rfl := Option.some.inj hj
      exact hne hm.2.symm
    · exact Node.lookup_eq_none.mp hl x (List.mem_of_getElem? hj) hm
  | some found =>
    obtain ⟨j, i⟩ := found
    obtain ⟨x, hx, rfl, h0, rfl⟩ := Node.lookup_eq_some hl
    have hjk : j ≠ k := by
      rintro rfl
      exact h0 (hempty x hx)
    refine Node.lookup_eq_of_first (by rw [hget, if_neg hjk, hx]) ⟨h0, rfl⟩ fun q hq y hy hm => ?_
    rw [hget] at hy
    split at hy
    · obtain rfl := Option.some.inj hy
      exact hne hm.2.symm
    · exact Node.lookup_first hl hq hy hm

end Lookup

section Walk

variable [pm : Param] {T T' : Tree} {path path' name name' : Bytes} {d i fuel p q k c : ℕ}

theorem skipelem_nul (hp : p < Param.MAXPATH) (h0 : path p = 0) (name : Bytes) :
    skipelem path p name = some .last := by
  have hskip : skipSlashes path (Param.MAXPATH - p) p = some p := by
    obtain ⟨m, hm⟩ : ∃ m, Param.MAXPATH - p = m + 1 := ⟨Param.MAXPATH - p - 1, by omega⟩
    rw [hm, skipSlashes, if_neg (by rw [h0]; decide)]
  unfold skipelem
  rw [hskip]
  exact if_pos h0

theorem Tree.walk_child (hkeep : ∀ j n x o r, T j = some n → n.type = T_DIR →
      n.lookup x = some (o, r) → ∃ n' o', T' j = some n' ∧ n'.type = T_DIR ∧
        n'.lookup x = some (o', r))
    (hnew : ∃ n' o, T' d = some n' ∧ n'.type = T_DIR ∧
      n'.lookup (Bytes.str name DIRSIZ) = some (o, i))
    {name₀ : Bytes} (hfuel : Param.MAXPATH ≤ fuel + p)
    (h : T.walk path true fuel k p name₀ = some (d, name)) :
    ∃ name', T'.walk path false fuel k p name₀ = some (i, name') := by
  induction fuel generalizing k p name₀ with
  | zero => simp [walk] at h
  | succ fuel ih =>
    unfold walk at h ⊢
    cases hskip : skipelem path p name₀ with
    | none =>
      rw [hskip] at h
      cases h
    | some e =>
    rw [hskip] at h
    cases e with
    | last => cases h
    | elem q name₁ =>
      obtain ⟨hpq, hq⟩ := skipelem_lt hskip
      dsimp only at h ⊢
      cases hn : T k with
      | none =>
        rw [hn] at h
        cases h
      | some n =>
      rw [hn] at h
      dsimp only at h
      split at h
      · cases h
      rename_i hdir
      split at h
      · -- the parent: its entry is the last step
        rename_i hend
        obtain ⟨rfl, rfl⟩ := Prod.mk.inj (Option.some.inj h)
        obtain ⟨n', o, hn', hdir', hlookup⟩ := hnew
        rw [hn']
        dsimp only
        rw [if_neg (not_not.mpr hdir'), if_neg (by simp), hlookup]
        obtain ⟨m, rfl⟩ : ∃ m, fuel = m + 1 := ⟨fuel - 1, by omega⟩
        unfold walk
        rw [skipelem_nul hq hend.2]
        exact ⟨name₁, by simp⟩
      · cases hlookup : n.lookup (Bytes.str name₁ DIRSIZ) with
        | none =>
          rw [hlookup] at h
          cases h
        | some found =>
        obtain ⟨o, j⟩ := found
        rw [hlookup] at h
        obtain ⟨n', o', hn', hdir', hlookup'⟩ := hkeep k n _ o j hn (not_not.mp hdir) hlookup
        rw [hn']
        dsimp only
        rw [if_neg (not_not.mpr hdir'), if_neg (by simp), hlookup']
        exact ih (by omega) h

end Walk

end Xv6Sheet.Kernel
