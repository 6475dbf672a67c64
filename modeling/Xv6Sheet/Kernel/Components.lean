import Xv6Sheet.Kernel.PathText
import Xv6Sheet.Lib.Words

/-! # Paths as lists of names

A path is read as the list of its components, the runs of bytes between slashes, each cut to what a
directory entry holds. The walk of `namex` goes down this list from directory to directory.
-/

namespace Xv6Sheet.Kernel

def names (l : List UInt8) : List (List UInt8) := (words (· == 47) l).map (List.take DIRSIZ)

def Tree.child (T : Tree) (d : ℕ) (name : List UInt8) : Option ℕ := do
  let n ← T d
  guard (n.type = T_DIR)
  let (_, j) ← n.lookup name
  return j

def Tree.resolve (T : Tree) (i : ℕ) (cs : List (List UInt8)) : Option ℕ := cs.foldlM T.child i

def Tree.IsDir (T : Tree) (i : ℕ) : Prop := ∃ n, T i = some n ∧ n.type = T_DIR

/-- The string in a buffer that has room for its NUL. -/
structure Spells (path : Bytes) (l : List UInt8) : Prop where
  byte : ∀ k (h : k < l.length), path k = l[k]
  nul : path l.length = 0
  noNul : 0 ∉ l

theorem spells_str {b : Bytes} {n : ℕ} (h : (Bytes.str b n).length < n) :
    Spells b (Bytes.str b n) := by
  have hnul := Bytes.zero_not_mem_str b n
  obtain ⟨hbyte, hend⟩ := (Bytes.str_eq_iff hnul h.le).mp rfl
  exact ⟨hbyte, hend h, hnul⟩

section Tree

variable {T : Tree} {d i j : ℕ} {n : Node} {name : List UInt8} {cs : List (List UInt8)}

theorem Tree.child_of_dir (hn : T d = some n) (hdir : n.type = T_DIR) :
    T.child d name = (n.lookup name).map (·.2) := by
  unfold child
  rw [hn]
  simp only [Option.bind_eq_bind, Option.bind_some, guard, hdir, if_true]
  cases n.lookup name <;> rfl

theorem Tree.child_of_not_dir (h : ¬ T.IsDir d) : T.child d name = none := by
  unfold child
  cases hn : T d with
  | none => rfl
  | some n =>
    have hdir : n.type ≠ T_DIR := fun hdir => h ⟨n, hn, hdir⟩
    simp [guard, hdir]

@[simp] theorem Tree.resolve_nil (T : Tree) (i : ℕ) : T.resolve i [] = some i := rfl

theorem Tree.resolve_cons (T : Tree) (i : ℕ) (name : List UInt8) (cs : List (List UInt8)) :
    T.resolve i (name :: cs) = (T.child i name).bind fun j => T.resolve j cs := List.foldlM_cons

theorem Tree.resolve_concat (T : Tree) (i : ℕ) (cs : List (List UInt8)) (name : List UInt8) :
    T.resolve i (cs ++ [name]) = (T.resolve i cs).bind fun d => T.child d name := by
  unfold resolve
  rw [List.foldlM_append]
  simp

end Tree

theorem names_concat {l name : List UInt8} (hne : name ≠ []) (hslash : 47 ∉ name)
    (hlen : name.length ≤ DIRSIZ) : names (l ++ 47 :: name) = names l ++ [name] := by
  have hw : ∀ y ∈ name, (y == 47) = false := fun y hy => by
    have hne : y ≠ 47 := fun he => hslash (he ▸ hy)
    simpa using hne
  unfold names
  rw [words_append (by rfl), words_of_forall hw, if_neg hne, List.map_append, List.map_singleton,
    List.take_of_length_le hlen]

theorem spells_ofList {l : List UInt8} (h : 0 ∉ l) : Spells (Bytes.ofList l) l where
  byte k hk := by simp [Bytes.ofList, hk]
  nul := by simp [Bytes.ofList]
  noNul := h

/-- An element was copied to a buffer: its first bytes, and a NUL if there is room for it. -/
structure Copied (name name' : Bytes) (w : List UInt8) : Prop where
  byte : ∀ k (h : k < w.length), k < DIRSIZ → name' k = w[k]
  nul : w.length < DIRSIZ → name' w.length = 0
  rest : ∀ k, DIRSIZ ≤ k ∨ w.length < k → name' k = name k

theorem Copied.str {name name' : Bytes} {w : List UInt8} (h : Copied name name' w) (h0 : 0 ∉ w) :
    Bytes.str name' DIRSIZ = w.take DIRSIZ := by
  refine (Bytes.str_eq_iff (fun hmem => h0 (List.mem_of_mem_take hmem))
    (List.length_take_le _ _)).mpr ⟨fun k hk => ?_, fun hshort => ?_⟩
  · rw [List.length_take] at hk
    rw [List.getElem_take]
    exact h.byte k (by omega) (by omega)
  · rw [List.length_take] at hshort ⊢
    rw [Nat.min_eq_right (by omega)]
    exact h.nul (by omega)

namespace Spells

variable {path name : Bytes} {l : List UInt8} {n p : ℕ}

theorem eq_zero_iff (h : Spells path l) (hp : p ≤ l.length) : path p = 0 ↔ p = l.length := by
  constructor
  · intro h0
    by_contra hne
    refine h.noNul ?_
    rw [← h0, h.byte p (by omega)]
    exact List.getElem_mem _
  · rintro rfl
    exact h.nul

theorem skipWhile {f g : UInt8 → Bool} (h0 : f 0 = false) (hfg : ∀ b ≠ 0, f b = g b)
    (h : Spells path l) (hp : p ≤ l.length) (hn : l.length < p + n) :
    ∃ q, q = p + ((l.drop p).takeWhile g).length ∧ q ≤ l.length ∧
      skipWhile f path n p = some q ∧ l.drop q = (l.drop p).dropWhile g := by
  induction n generalizing p with
  | zero => omega
  | succ n ih =>
    unfold Kernel.skipWhile
    rcases Nat.eq_or_lt_of_le hp with rfl | hlt
    · refine ⟨l.length, by simp, le_rfl, ?_, by simp⟩
      rw [h.nul, h0, if_neg Bool.false_ne_true]
    have hne : l[p] ≠ 0 := fun h0 => h.noNul (h0 ▸ List.getElem_mem hlt)
    rw [List.drop_eq_getElem_cons hlt, List.dropWhile_cons, List.takeWhile_cons, h.byte p hlt,
      hfg _ hne]
    cases hpass : g l[p] with
    | false => exact ⟨p, by simp, hp, rfl, List.drop_eq_getElem_cons hlt⟩
    | true =>
      obtain ⟨q, hpq, hq, hs, hd⟩ := ih (p := p + 1) (by omega) (by omega)
      refine ⟨q, ?_, hq, hs, hd⟩
      rw [if_pos rfl, List.length_cons]
      omega

theorem skipSlashes (h : Spells path l) (hp : p ≤ l.length) (hn : l.length < p + n) :
    ∃ q, p ≤ q ∧ q ≤ l.length ∧ skipSlashes path n p = some q ∧
      l.drop q = (l.drop p).dropWhile (· == 47) := by
  obtain ⟨q, hpq, hq, hs, hd⟩ := h.skipWhile (f := isSlash) (g := (· == 47)) rfl
    (fun _ _ => rfl) hp hn
  exact ⟨q, by omega, hq, by rw [skipSlashes_eq, hs], hd⟩

theorem skipName (h : Spells path l) (hp : p ≤ l.length) (hn : l.length < p + n) :
    ∃ q, q = p + ((l.drop p).takeWhile (!· == 47)).length ∧ q ≤ l.length ∧
      skipName path n p = some q ∧ l.drop q = (l.drop p).dropWhile (!· == 47) := by
  rw [skipName_eq]
  exact h.skipWhile rfl (fun b hb => by simp [isNameByte, hb, bne]) hp hn

theorem copied_element (h : Spells path l) (hp : p ≤ l.length) {w : List UInt8}
    (hw : w <+: l.drop p) (name : Bytes) :
    Copied name (if w.length ≥ DIRSIZ then name.copy 0 path p DIRSIZ
      else Function.update (name.copy 0 path p w.length) w.length 0) w := by
  have hlen := hw.length_le
  rw [List.length_drop] at hlen
  constructor
  · intro k hk hsize
    have hbyte : path (p + k) = w[k] := by
      rw [h.byte (p + k) (by omega), hw.getElem hk, List.getElem_drop]
    split
    · rw [Bytes.copy_of_mem (by omega), Nat.sub_zero, hbyte]
    · rw [Function.update_of_ne (by omega), Bytes.copy_of_mem (by omega), Nat.sub_zero, hbyte]
  · intro hshort
    rw [if_neg (by omega), Function.update_self]
  · intro k hk
    split
    · exact Bytes.copy_of_not_mem (by omega)
    · rw [Function.update_of_ne (by omega), Bytes.copy_of_not_mem (by omega)]

theorem str_element (h : Spells path l) (hp : p ≤ l.length) {w : List UInt8}
    (hw : w <+: l.drop p) (name : Bytes) :
    Bytes.str (if w.length ≥ DIRSIZ then name.copy 0 path p DIRSIZ
      else Function.update (name.copy 0 path p w.length) w.length 0) DIRSIZ = w.take DIRSIZ :=
  (h.copied_element hp hw name).str fun hmem => h.noNul (List.mem_of_mem_drop (hw.subset hmem))

theorem takeWhile_ne_nil (h : Spells path l) (hp : p < l.length) (hslash : path p ≠ 47) :
    (l.drop p).takeWhile (!· == 47) ≠ [] := by
  rw [h.byte p hp] at hslash
  rw [List.drop_eq_getElem_cons hp, List.takeWhile_cons, if_pos (by simpa using hslash)]
  simp

variable [pm : Param]

theorem skipelem_run (h : Spells path l) (hmax : l.length < Param.MAXPATH) (hp : p ≤ l.length)
    (name : Bytes) :
    (words (· == 47) (l.drop p) = [] ∧ skipelem path p name = some .last) ∨
      ∃ q s w, skipelem path p name = some (.elem q
          (if w.length ≥ DIRSIZ then name.copy 0 path s DIRSIZ
            else Function.update (name.copy 0 path s w.length) w.length 0)) ∧
        p < q ∧ q ≤ l.length ∧ s ≤ l.length ∧ w <+: l.drop s ∧
        words (· == 47) (l.drop p) = w :: words (· == 47) (l.drop q) ∧
        path q ≠ 47 ∧ (path q = 0 ↔ words (· == 47) (l.drop q) = []) := by
  obtain ⟨s, hps, hs, hskip, hdrop⟩ := h.skipSlashes hp (n := Param.MAXPATH - p) (by omega)
  unfold Kernel.skipelem
  rw [hskip, ← words_dropWhile, ← hdrop]
  simp only [Option.bind_eq_bind, Option.bind_some]
  rcases Nat.eq_or_lt_of_le hs with rfl | hlt
  · refine .inl ⟨by simp [words], ?_⟩
    rw [if_pos h.nul]
    rfl
  have hnul : path s ≠ 0 := fun h0 => hlt.ne ((h.eq_zero_iff hs).mp h0)
  obtain ⟨e, he, hle, hskip', hdrop'⟩ := h.skipName hs (n := Param.MAXPATH - s) (by omega)
  obtain ⟨q, heq, hq, hskip'', hdrop''⟩ := h.skipSlashes hle (n := Param.MAXPATH - e) (by omega)
  have hw := h.takeWhile_ne_nil hlt (skipSlashes_spec hskip).2.2.2
  have hpos := List.length_pos_iff.mpr hw
  have hlen : e - s = ((l.drop s).takeWhile (!· == 47)).length := by omega
  refine .inr ⟨q, s, (l.drop s).takeWhile (!· == 47), ?_, by omega, hq, hs,
    List.takeWhile_prefix _, ?_, (skipSlashes_spec hskip'').2.2.2, ?_⟩
  · rw [if_neg hnul, hskip', Option.bind_some, hskip'', Option.bind_some, hlen]
    rfl
  · rw [words_takeWhile hw, ← hdrop', ← words_dropWhile (· == 47) (l.drop e), hdrop'']
  · rw [h.eq_zero_iff hq]
    constructor
    · rintro rfl
      simp [words]
    · intro hnil
      by_contra hne
      rw [words_takeWhile (h.takeWhile_ne_nil (by omega) (skipSlashes_spec hskip'').2.2.2)] at hnil
      cases hnil

theorem skipelem (h : Spells path l) (hmax : l.length < Param.MAXPATH) (hp : p ≤ l.length)
    (name : Bytes) :
    (names (l.drop p) = [] ∧ skipelem path p name = some .last) ∨
      ∃ q w name', skipelem path p name = some (.elem q name') ∧ p < q ∧ q ≤ l.length ∧
        names (l.drop p) = w :: names (l.drop q) ∧ Bytes.str name' DIRSIZ = w ∧
        (path q = 0 ↔ names (l.drop q) = []) := by
  unfold names
  simp only [List.map_eq_nil_iff]
  rcases h.skipelem_run hmax hp name with hlast | ⟨q, s, w, hskip, hpq, hq, hs, hw, hcons, -, hend⟩
  · exact .inl hlast
  · refine .inr ⟨q, w.take DIRSIZ, _, hskip, hpq, hq, ?_, h.str_element hs hw name, hend⟩
    rw [hcons, List.map_cons]

theorem skipelem_ne_none (h : Spells path l) (hmax : l.length < Param.MAXPATH) (hp : p ≤ l.length)
    (name : Bytes) : Kernel.skipelem path p name ≠ none := by
  rcases h.skipelem hmax hp name with ⟨-, hskip⟩ | ⟨q, w, name', hskip, -⟩
  all_goals rw [hskip]; simp

omit pm in
theorem inside (h : Spells path l) : Inside path p ↔ p ≤ l.length := by
  constructor
  · intro hin
    by_contra hlt
    exact hin l.length (by omega) h.nul
  · exact fun hp k hk h0 => by have := (h.eq_zero_iff (by omega)).mp h0; omega

theorem next_le (h : Spells path l) (hp : p ≤ l.length) {q : ℕ} {name' : Bytes}
    (hskip : Kernel.skipelem path p name = some (.elem q name')) : q ≤ l.length :=
  h.inside.mp ((h.inside.mpr hp).next hskip)

theorem walk (h : Spells path l) (hmax : l.length < Param.MAXPATH) (T : Tree) {fuel i : ℕ}
    (hp : p ≤ l.length) (hfuel : l.length < p + fuel) (name : Bytes) :
    (T.walk path false fuel i p name).map (·.1) = T.resolve i (names (l.drop p)) := by
  induction fuel generalizing i p name with
  | zero => omega
  | succ fuel ih =>
    unfold Tree.walk
    rcases h.skipelem hmax hp name with ⟨hnil, hskip⟩ | ⟨q, w, name', hskip, hpq, hq, hcons, rfl, -⟩
    · rw [hskip, hnil]
      rfl
    rw [hskip, hcons, Tree.resolve_cons]
    simp only [Bool.false_eq_true, false_and, if_false]
    by_cases hdir : T.IsDir i
    · obtain ⟨n, hn, hdir⟩ := hdir
      rw [Tree.child_of_dir hn hdir, hn]
      simp only [hdir, not_true_eq_false, if_false, ne_eq]
      cases n.lookup (Bytes.str name' DIRSIZ) with
      | none => rfl
      | some found => exact ih hq (by omega) name'
    · rw [Tree.child_of_not_dir hdir]
      cases hn : T i with
      | none => rfl
      | some n =>
        dsimp only
        rw [if_pos fun ht => hdir ⟨n, hn, ht⟩]
        rfl

theorem walk_parent (h : Spells path l) (hmax : l.length < Param.MAXPATH) (T : Tree) {fuel i d : ℕ}
    (hp : p ≤ l.length) (hfuel : l.length < p + fuel) (name : Bytes) {last : List UInt8} :
    (T.walk path true fuel i p name).map (fun r => (r.1, Bytes.str r.2 DIRSIZ)) = some (d, last) ↔
      ∃ cs, names (l.drop p) = cs ++ [last] ∧ T.resolve i cs = some d ∧ T.IsDir d := by
  induction fuel generalizing i p name with
  | zero => omega
  | succ fuel ih =>
    unfold Tree.walk
    rcases h.skipelem hmax hp name with
      ⟨hnil, hskip⟩ | ⟨q, w, name', hskip, hpq, hq, hcons, rfl, hend⟩
    · rw [hskip, hnil]
      simp
    have hsplit : (∃ cs, Bytes.str name' DIRSIZ :: names (l.drop q) = cs ++ [last] ∧
        T.resolve i cs = some d ∧ T.IsDir d) ↔
        (path q = 0 ∧ last = Bytes.str name' DIRSIZ ∧ i = d ∧ T.IsDir d) ∨
          ∃ cs, names (l.drop q) = cs ++ [last] ∧
            ((T.child i (Bytes.str name' DIRSIZ)).bind fun j => T.resolve j cs) = some d ∧
            T.IsDir d := by
      rw [hend]
      constructor
      · rintro ⟨cs, heq, hres, hdir⟩
        rcases List.cons_eq_append_iff.mp heq with ⟨rfl, hlast⟩ | ⟨cs, rfl, htail⟩
        · obtain ⟨rfl, hnil⟩ := List.cons.inj hlast
          exact .inl ⟨hnil.symm, rfl, Option.some.inj hres, hdir⟩
        · exact .inr ⟨cs, htail, by rwa [← Tree.resolve_cons], hdir⟩
      · rintro (⟨hnil, rfl, rfl, hdir⟩ | ⟨cs, htail, hres, hdir⟩)
        · exact ⟨[], by rw [hnil]; rfl, rfl, hdir⟩
        · exact ⟨_ :: cs, by rw [htail]; rfl, by rwa [Tree.resolve_cons], hdir⟩
    rw [hskip, hcons, hsplit]
    by_cases hdir : T.IsDir i
    · obtain ⟨n, hn, htype⟩ := hdir
      rw [Tree.child_of_dir hn htype]
      simp only [hn, htype, not_true_eq_false, if_false, ne_eq, true_and]
      by_cases h0 : path q = 0
      · rw [if_pos h0, hend.mp h0]
        simp only [Option.map_some, Option.some.injEq, Prod.mk.injEq, h0, true_and,
          List.nil_eq, List.append_eq_nil_iff, List.cons_ne_nil, and_false, false_and,
          exists_false, or_false]
        constructor
        · rintro ⟨rfl, rfl⟩
          exact ⟨rfl, rfl, n, hn, htype⟩
        · rintro ⟨rfl, rfl, -⟩
          exact ⟨rfl, rfl⟩
      · rw [if_neg h0]
        simp only [h0, false_and, false_or]
        cases n.lookup (Bytes.str name' DIRSIZ) with
        | none => simp
        | some found => exact ih hq (by omega) name'
    · rw [Tree.child_of_not_dir hdir]
      have hnone : ¬ (i = d ∧ T.IsDir d) := fun ⟨hid, hd⟩ => hdir (hid ▸ hd)
      simp only [hnone, and_false, Option.bind_none, reduceCtorEq, false_and, exists_false,
        or_false,
        iff_false]
      cases hn : T i with
      | none => simp
      | some n =>
        dsimp only
        rw [if_pos fun ht => hdir ⟨n, hn, ht⟩]
        simp

end Spells

end Xv6Sheet.Kernel
