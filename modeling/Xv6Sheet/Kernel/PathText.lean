import Xv6Sheet.Kernel.Tree

/-! # Paths as strings

What a path leads to depends on its bytes up to the first NUL only, of which at most `MAXPATH` are
read.
-/

namespace Xv6Sheet.Kernel

variable [pm : Param] {path path' name : Bytes} {n p q : ℕ}

/-- The buffers hold the same string, as far as `MAXPATH` bytes show. -/
def SameText (path path' : Bytes) : Prop :=
  ∀ j < Param.MAXPATH, (∀ k < j, path k ≠ 0) → path j = path' j

section Skip

omit pm

variable {f : UInt8 → Bool}

/-- The first of `n` positions from `p` on whose byte fails the test. -/
def skipWhile (f : UInt8 → Bool) (path : Bytes) : ℕ → ℕ → Option ℕ
  | 0, _ => none
  | n + 1, p => if f (path p) then skipWhile f path n (p + 1) else some p

def isSlash (b : UInt8) : Bool := b == 47

def isNameByte (b : UInt8) : Bool := b != 47 && b != 0

theorem skipSlashes_eq (path : Bytes) (n p : ℕ) :
    skipSlashes path n p = skipWhile isSlash path n p := by
  induction n generalizing p with
  | zero => rfl
  | succ n ih => simp [skipSlashes, skipWhile, isSlash, ih]

theorem skipName_eq (path : Bytes) (n p : ℕ) :
    skipName path n p = skipWhile isNameByte path n p := by
  induction n generalizing p with
  | zero => rfl
  | succ n ih => simp [skipName, skipWhile, isNameByte, ih]

theorem skipWhile_spec (h : skipWhile f path n p = some q) :
    p ≤ q ∧ q < p + n ∧ (∀ k, p ≤ k → k < q → f (path k) = true) ∧ f (path q) = false := by
  induction n generalizing p with
  | zero => cases h
  | succ n ih =>
    unfold skipWhile at h
    split at h
    · rename_i hp
      obtain ⟨hle, hlt, hall, hstop⟩ := ih h
      refine ⟨by omega, by omega, fun k hk hkq => ?_, hstop⟩
      rcases Nat.eq_or_lt_of_le hk with rfl | hk
      · exact hp
      · exact hall k hk hkq
    · rename_i hp
      obtain rfl := Option.some.inj h
      exact ⟨le_rfl, by omega, fun k hk hkq => absurd hkq (by omega), by simpa using hp⟩

theorem skipSlashes_spec (h : skipSlashes path n p = some q) :
    p ≤ q ∧ q < p + n ∧ (∀ k, p ≤ k → k < q → path k = 47) ∧ path q ≠ 47 := by
  rw [skipSlashes_eq] at h
  simpa [isSlash] using skipWhile_spec h

theorem skipName_spec (h : skipName path n p = some q) :
    p ≤ q ∧ q < p + n ∧ (∀ k, p ≤ k → k < q → path k ≠ 47 ∧ path k ≠ 0) ∧
      (path q ≠ 47 → path q = 0) := by
  rw [skipName_eq] at h
  simpa [isNameByte] using skipWhile_spec h

end Skip

def Inside (path : Bytes) (p : ℕ) : Prop := ∀ k < p, path k ≠ 0

omit pm in
theorem Inside.slashes (h : Inside path p) (hs : skipSlashes path n p = some q) : Inside path q :=
  fun k hk => by
    rcases Nat.lt_or_ge k p with hlt | hge
    · exact h k hlt
    · rw [(skipSlashes_spec hs).2.2.1 k hge hk]
      decide

omit pm in
theorem Inside.element (h : Inside path p) (hs : skipName path n p = some q) : Inside path q :=
  fun k hk => by
    rcases Nat.lt_or_ge k p with hlt | hge
    · exact h k hlt
    · exact ((skipName_spec hs).2.2.1 k hge hk).2

omit pm in
theorem Inside.succ (h : Inside path p) (hp : path p ≠ 0) : Inside path (p + 1) := fun k hk => by
  rcases Nat.lt_succ_iff_lt_or_eq.mp hk with hk | rfl
  · exact h k hk
  · exact hp

theorem SameText.skipWhile {f : UInt8 → Bool} (h0 : f 0 = false) (h : SameText path path')
    (hp : Inside path p) (hn : p + n ≤ Param.MAXPATH) :
    skipWhile f path n p = skipWhile f path' n p := by
  induction n generalizing p with
  | zero => rfl
  | succ n ih =>
    have hbyte := h p (by omega) hp
    unfold Kernel.skipWhile
    rw [← hbyte]
    split
    · rename_i hpass
      refine ih (hp.succ fun hnul => ?_) (by omega)
      rw [hnul, h0] at hpass
      cases hpass
    · rfl

theorem SameText.skipSlashes (h : SameText path path') (hp : Inside path p)
    (hn : p + n ≤ Param.MAXPATH) : skipSlashes path n p = skipSlashes path' n p := by
  rw [skipSlashes_eq, skipSlashes_eq]
  exact h.skipWhile rfl hp hn

theorem SameText.skipName (h : SameText path path') (hp : Inside path p)
    (hn : p + n ≤ Param.MAXPATH) : skipName path n p = skipName path' n p := by
  rw [skipName_eq, skipName_eq]
  exact h.skipWhile rfl hp hn

theorem SameText.skipelem (h : SameText path path') (hp : Inside path p) (name : Bytes) :
    skipelem path p name = skipelem path' p name := by
  unfold Kernel.skipelem
  by_cases hend : p < Param.MAXPATH
  swap
  · have hfuel : Param.MAXPATH - p = 0 := by omega
    rw [hfuel]
    rfl
  rw [← h.skipSlashes hp (by omega)]
  cases hs : Kernel.skipSlashes path (Param.MAXPATH - p) p with
  | none => rfl
  | some s =>
    obtain ⟨hps, hslt, -⟩ := skipSlashes_spec hs
    have hin := hp.slashes hs
    show (if path s = 0 then _ else _) = if path' s = 0 then _ else _
    rw [← h s (by omega) hin, ← h.skipName hin (by omega)]
    cases he : Kernel.skipName path (Param.MAXPATH - s) s with
    | none => rfl
    | some e =>
      obtain ⟨hse, helt, -⟩ := skipName_spec he
      have hin' := hin.element he
      have hcopy : ∀ m ≤ e - s, name.copy 0 path s m = name.copy 0 path' s m := by
        intro m hm
        funext k
        unfold Bytes.copy
        split
        · exact h _ (by omega) fun j hj => hin' j (by omega)
        · rfl
      show (if path s = 0 then _ else (Kernel.skipSlashes path _ e >>= _)) =
        if path s = 0 then _ else (Kernel.skipSlashes path' _ e >>= _)
      rw [← h.skipSlashes hin' (by omega), ← hcopy _ le_rfl]
      split
      · rfl
      · split
        · rename_i hlong
          rw [hcopy _ hlong]
        · rfl

theorem skipelem_elem {name' : Bytes} (h : skipelem path p name = some (.elem q name')) :
    ∃ s e, skipSlashes path (Param.MAXPATH - p) p = some s ∧ path s ≠ 0 ∧
      skipName path (Param.MAXPATH - s) s = some e ∧
      skipSlashes path (Param.MAXPATH - e) e = some q := by
  unfold skipelem at h
  obtain ⟨s, hs, h⟩ := Option.bind_eq_some_iff.mp h
  split at h
  · cases h
  rename_i hnul
  obtain ⟨e, he, h⟩ := Option.bind_eq_some_iff.mp h
  obtain ⟨next, hnext, h⟩ := Option.bind_eq_some_iff.mp h
  obtain ⟨rfl, -⟩ := Elem.elem.inj (Option.some.inj h)
  exact ⟨s, e, hs, hnul, he, hnext⟩

theorem skipelem_lt {name' : Bytes} (h : skipelem path p name = some (.elem q name')) :
    p < q ∧ q < Param.MAXPATH := by
  obtain ⟨s, e, hs, hnul, he, hnext⟩ := skipelem_elem h
  have hse : s ≠ e := by
    rintro rfl
    exact hnul ((skipName_spec he).2.2.2 (skipSlashes_spec hs).2.2.2)
  have hs' := skipSlashes_spec hs
  have he' := skipName_spec he
  have hnext' := skipSlashes_spec hnext
  omega

theorem Inside.next (hp : Inside path p) {name' : Bytes}
    (h : skipelem path p name = some (.elem q name')) : Inside path q := by
  obtain ⟨s, e, hs, -, he, hnext⟩ := skipelem_elem h
  exact ((hp.slashes hs).element he).slashes hnext

theorem SameText.walk (h : SameText path path') (T : Tree) {parent : Bool} {fuel i : ℕ}
    (hp : Inside path p) (name : Bytes) :
    T.walk path parent fuel i p name = T.walk path' parent fuel i p name := by
  induction fuel generalizing i p name with
  | zero => rfl
  | succ fuel ih =>
    unfold Tree.walk
    rw [← h.skipelem hp name]
    cases hskip : Kernel.skipelem path p name with
    | none => rfl
    | some e =>
      cases e with
      | last => rfl
      | elem next name' =>
        have hin := hp.next hskip
        dsimp only
        rw [← h next (skipelem_lt hskip).2 hin]
        cases T i with
        | none => rfl
        | some n =>
          dsimp only
          cases n.lookup (Bytes.str name' DIRSIZ) with
          | none => rfl
          | some found =>
            dsimp only
            rw [ih hin name']

theorem SameText.namex (h : SameText path path') (T : Tree) (c : ℕ) (parent : Bool) :
    T.namex c path parent = T.namex c path' parent := by
  unfold Tree.namex
  by_cases hpos : 0 < Param.MAXPATH
  · have hstart : startOf c path = startOf c path' := by
      unfold startOf
      rw [h 0 hpos (by simp)]
    rw [h.walk T (fun _ hk => absurd hk (by omega)), hstart]
  · have hfuel : Param.MAXPATH = 0 := by omega
    rw [hfuel]
    rfl

end Xv6Sheet.Kernel
