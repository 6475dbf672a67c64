import Xv6Sheet.Lib.Bytes

/-! # Stretches of bytes

A partial array holds bytes at some indices. A stretch of bytes written over it from an index on
replaces what was there and keeps the rest. The lists of bytes that the array shows from 0 on
follow.
-/

namespace Xv6Sheet.Bytes

variable {f g h : ℕ → Option UInt8} {src dst : Bytes} {off a b c k m : ℕ} {l : List UInt8}

/-- The bytes `src a` up to `src (b - 1)` are there in `g`, at the indices from `off + a` on, and
beside them what was there in `f`. -/
structure Overwrites (off : ℕ) (src : Bytes) (a b : ℕ) (f g : ℕ → Option UInt8) : Prop where
  new : ∀ k, off + a ≤ k → k < off + b → g k = some (src (k - off))
  old : ∀ k x, ¬ (off + a ≤ k ∧ k < off + b) → f k = some x → g k = some x

namespace Overwrites

theorem of_keeps (h : ∀ k x, f k = some x → g k = some x) : Overwrites off src a a f g where
  new k hk hk' := absurd hk' (by omega)
  old k x _ := h k x

theorem trans (hfg : Overwrites off src a b f g) (hgh : Overwrites off src b c g h) (hab : a ≤ b)
    (hbc : b ≤ c) : Overwrites off src a c f h where
  new k hk hk' := by
    by_cases hlate : off + b ≤ k
    · exact hgh.new k hlate hk'
    · exact hgh.old k _ (by omega) (hfg.new k hk (by omega))
  old k x hk hx := hgh.old k x (by omega) (hfg.old k x (by omega) hx)

theorem ne_none (hfg : Overwrites off src a b f g) (hk : f k ≠ none) : g k ≠ none := by
  obtain ⟨x, hx⟩ := Option.ne_none_iff_exists'.mp hk
  by_cases hin : off + a ≤ k ∧ k < off + b
  · rw [hfg.new k hin.1 hin.2]
    simp
  · rw [hfg.old k x hin hx]
    simp

end Overwrites

def Shows (f : ℕ → Option UInt8) (l : List UInt8) : Prop := ∀ k < l.length, f k = l[k]?

theorem shows_nil : Shows f [] := by simp [Shows]

theorem Shows.keeps (hl : Shows f l) (h : ∀ k x, f k = some x → g k = some x) : Shows g l := by
  intro k hk
  rw [List.getElem?_eq_getElem hk]
  exact h k _ ((hl k hk).trans (List.getElem?_eq_getElem hk))

theorem Shows.ne_none (hl : Shows f l) (hk : k < l.length) : f k ≠ none := by
  rw [hl k hk, List.getElem?_eq_getElem hk]
  simp

theorem Shows.overlay (hl : Shows f l) (hw : Overwrites off src 0 m f g) (hoff : off ≤ l.length) :
    Shows g (Bytes.overlay l off (src.toList m)) := by
  intro k hk
  rw [length_overlay hoff, length_toList] at hk
  rw [overlay_getElem? hoff, length_toList]
  split
  · rename_i hin
    rw [hw.new k (by omega) (by omega), toList_getElem?, if_pos (by omega)]
  · rename_i hout
    have hlt : k < l.length := by omega
    rw [List.getElem?_eq_getElem hlt]
    exact hw.old k _ (by omega) ((hl k hlt).trans (List.getElem?_eq_getElem hlt))

theorem Shows.copy_eq (hl : Shows f l) {o n i : ℕ}
    (hblock : ∀ j < n, f (k + j) = some (src (o + j)))
    (hn : k + n ≤ l.length) : dst.copy i src o n = dst.copy i (ofList l) k n := by
  funext x
  unfold copy
  split
  · rename_i hx
    have hsrc := hblock (x - i) (by omega)
    rw [hl _ (by omega)] at hsrc
    rw [ofList, List.getD_eq_getElem?_getD, hsrc, Option.getD_some]
  · rfl

end Xv6Sheet.Bytes
