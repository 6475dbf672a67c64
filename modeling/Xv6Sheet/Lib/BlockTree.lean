import Mathlib.Data.List.Induction
import Mathlib.Data.List.Nodup
import Mathlib.Data.List.Lattice
import Mathlib.Data.List.Pairwise
import Xv6Sheet.Lib.Ownership

/-! # Trees of pointer blocks

A block holds pointers to further blocks, and an owner has a few root pointers, each
the top of a tree of bounded depth. A position in such a forest is an owner, a root
and a path of entries. Attaching a fresh block at an empty position changes the
pointer at that position alone.
-/

namespace Xv6Sheet

variable {ι ρ κ β : Type*} [Zero β] [DecidableEq β]

/-- Follow a path of entries down from the block `b`; a null pointer leads nowhere. -/
def walk (w : β → κ → β) : β → List κ → β
  | b, [] => b
  | b, k :: p => if b = 0 then 0 else walk w (w b k) p

section Walk

variable {w : β → κ → β}

@[simp] theorem walk_nil (b : β) : walk w b [] = b := rfl

@[simp] theorem walk_zero (p : List κ) : walk w 0 p = 0 := by
  cases p <;> simp [walk]

theorem walk_cons {b : β} (hb : b ≠ 0) (k : κ) (p : List κ) :
    walk w b (k :: p) = walk w (w b k) p := if_neg hb

theorem walk_append (b : β) (p q : List κ) : walk w b (p ++ q) = walk w (walk w b p) q := by
  induction p generalizing b with
  | nil => rfl
  | cons j p ih =>
    by_cases hb : b = 0
    · simp [hb]
    · rw [List.cons_append, walk_cons hb, walk_cons hb, ih]

theorem walk_snoc (b : β) (p : List κ) (k : κ) :
    walk w b (p ++ [k]) = if walk w b p = 0 then 0 else w (walk w b p) k :=
  walk_append b p [k]

/-- The blocks of the tree of depth `n` below `b`, children before their parent. -/
def subtree (w : β → κ → β) (ks : List κ) : ℕ → β → List β
  | 0, b => if b = 0 then [] else [b]
  | n + 1, b => if b = 0 then [] else ks.flatMap (fun k => subtree w ks n (w b k)) ++ [b]

theorem mem_subtree {ks : List κ} {n : ℕ} {b c : β} :
    c ∈ subtree w ks n b ↔
      c ≠ 0 ∧ ∃ p : List κ, p.length ≤ n ∧ (∀ k ∈ p, k ∈ ks) ∧ walk w b p = c := by
  induction n generalizing b with
  | zero =>
    unfold subtree
    split
    · rename_i hb
      subst hb
      simp only [List.not_mem_nil, walk_zero, false_iff]
      rintro ⟨hc, p, -, -, rfl⟩
      exact hc rfl
    · rename_i hb
      rw [List.mem_singleton]
      constructor
      · rintro rfl; exact ⟨hb, [], by simp⟩
      · rintro ⟨-, p, hp, -, rfl⟩
        rw [List.length_eq_zero_iff.mp (Nat.le_zero.mp hp), walk_nil]
  | succ n ih =>
    unfold subtree
    split
    · rename_i hb
      subst hb
      simp only [List.not_mem_nil, walk_zero, false_iff]
      rintro ⟨hc, p, -, -, rfl⟩
      exact hc rfl
    · rename_i hb
      simp only [List.mem_append, List.mem_flatMap, List.mem_singleton, ih]
      constructor
      · rintro (⟨k, hk, hc, p, hp, hks, rfl⟩ | rfl)
        · refine ⟨hc, k :: p, by simpa using hp, ?_, walk_cons hb k p⟩
          simpa [hk] using hks
        · exact ⟨hb, [], by simp⟩
      · rintro ⟨hc, p, hp, hks, rfl⟩
        cases p with
        | nil => exact Or.inr rfl
        | cons k p =>
          refine Or.inl ⟨k, hks k List.mem_cons_self, hc, p, by simpa using hp, ?_, ?_⟩
          · exact fun j hj => hks j (List.mem_cons_of_mem _ hj)
          · rw [walk_cons hb]

theorem nodup_subtree {ks : List κ} (hks : ks.Nodup) {n : ℕ} {b : β}
    (hinj : ∀ p q : List κ, p.length ≤ n → (∀ k ∈ p, k ∈ ks) → q.length ≤ n →
      (∀ k ∈ q, k ∈ ks) → walk w b p ≠ 0 → walk w b p = walk w b q → p = q) :
    (subtree w ks n b).Nodup := by
  induction n generalizing b with
  | zero => unfold subtree; split <;> simp
  | succ n ih =>
    unfold subtree
    split
    · simp
    · rename_i hb
      -- a path below entry `k` of `b` is a path of `b` that starts with `k`
      have hstep : ∀ k ∈ ks, ∀ j ∈ ks, ∀ p q : List κ, p.length ≤ n → (∀ k ∈ p, k ∈ ks) →
          q.length ≤ n → (∀ k ∈ q, k ∈ ks) → walk w (w b k) p ≠ 0 →
          walk w (w b k) p = walk w (w b j) q → k :: p = j :: q := by
        intro k hk j hj p q hp hpk hq hqk h0 he
        refine hinj (k :: p) (j :: q) (by simpa using hp) (by simpa [hk] using hpk)
          (by simpa using hq) (by simpa [hj] using hqk) ?_ ?_
        · rwa [walk_cons hb]
        · rwa [walk_cons hb, walk_cons hb]
      refine List.nodup_append.mpr ⟨?_, List.nodup_singleton b, ?_⟩
      · refine List.nodup_flatMap.mpr ⟨fun k hk => ih fun p q hp hpk hq hqk h0 he => ?_, ?_⟩
        · exact (List.cons.inj (hstep k hk k hk p q hp hpk hq hqk h0 he)).2
        · refine List.Nodup.pairwise_of_forall_ne hks fun k hk j hj hkj c hc hc' => ?_
          obtain ⟨h0, p, hp, hpk, rfl⟩ := mem_subtree.mp hc
          obtain ⟨-, q, hq, hqk, he⟩ := mem_subtree.mp hc'
          exact hkj (List.cons.inj (hstep k hk j hj p q hp hpk hq hqk h0 he.symm)).1
      · rintro c hc d hd rfl
        obtain rfl := List.mem_singleton.mp hd
        obtain ⟨k, hk, hc⟩ := List.mem_flatMap.mp hc
        obtain ⟨h0, p, hp, hpk, he⟩ := mem_subtree.mp hc
        have := hinj [] (k :: p) (by simp) (by simp) (by simpa using hp)
          (by simpa [hk] using hpk) h0 (by rw [walk_cons hb, he]; rfl)
        simp at this

end Walk

/-- The shape of an owner's forest: its roots, the entries of a block and how deep the
tree under each root goes. -/
structure Shape (ρ κ : Type*) where
  roots : List ρ
  entries : List κ
  depth : ρ → ℕ
  roots_nodup : roots.Nodup
  entries_nodup : entries.Nodup

namespace Shape

variable (S : Shape ρ κ)

def Ok (r : ρ) (p : List κ) : Prop :=
  r ∈ S.roots ∧ p.length ≤ S.depth r ∧ ∀ k ∈ p, k ∈ S.entries

def Valid (x : ι × ρ × List κ) : Prop := S.Ok x.2.1 x.2.2

def ptr (w : β → κ → β) (a : ι → ρ → β) (x : ι × ρ × List κ) : β :=
  walk w (a x.1 x.2.1) x.2.2

abbrev Owned (base used : Set β) (w : β → κ → β) (a : ι → ρ → β) : Prop :=
  Owns (S.Valid (ι := ι)) base used (ptr w a)

def blocks (w : β → κ → β) (a : ρ → β) : List β :=
  S.roots.flatMap fun r => subtree w S.entries (S.depth r) (a r)

variable {S} {base used : Set β} {w w' : β → κ → β} {a a' : ι → ρ → β}

theorem Ok.of_snoc {r : ρ} {p : List κ} {k : κ} (h : S.Ok r (p ++ [k])) : S.Ok r p := by
  obtain ⟨hr, hp, hk⟩ := h
  simp only [List.length_append, List.length_singleton] at hp
  exact ⟨hr, by omega, fun j hj => hk j (List.mem_append_left _ hj)⟩

@[simp] theorem ptr_root (i : ι) (r : ρ) : ptr w a (i, r, ([] : List κ)) = a i r := rfl

theorem ptr_snoc (i : ι) (r : ρ) (p : List κ) (k : κ) :
    ptr w a (i, r, p ++ [k]) =
      if ptr w a (i, r, p) = 0 then 0 else w (ptr w a (i, r, p)) k :=
  walk_snoc _ _ _

theorem ptr_congr (h : ∀ i r p k, S.Ok r (p ++ [k]) → ptr w a (i, r, p) ≠ 0 →
      w' (ptr w a (i, r, p)) k = w (ptr w a (i, r, p)) k)
    {x : ι × ρ × List κ} (hx : S.Valid x) : ptr w' a x = ptr w a x := by
  obtain ⟨i, r, p⟩ := x
  induction p using List.reverseRecOn with
  | nil => rfl
  | append_singleton p k ih =>
    have hp : S.Ok r p := Ok.of_snoc hx
    rw [ptr_snoc, ptr_snoc, ih hp]
    split
    · rfl
    · rename_i h0
      exact h i r p k hx h0

/-- A fresh, cleared block `b` put at the position `x` changes the pointer there and
nowhere else. -/
theorem ptr_attach {x : ι × ρ × List κ} {b : β} (hx : ptr w a x = 0) (hb : b ≠ 0)
    (hclear : ∀ k, w' b k = 0)
    (hroot : ∀ i r, (i, r, []) = x → a' i r = b)
    (hroots : ∀ i r, (i, r, []) ≠ x → a' i r = a i r)
    (hentry : ∀ i r p k, (i, r, p ++ [k]) = x →
      ptr w a (i, r, p) ≠ 0 ∧ w' (ptr w a (i, r, p)) k = b)
    (hentries : ∀ i r p k, S.Ok r (p ++ [k]) → ptr w a (i, r, p) ≠ 0 →
      (i, r, p ++ [k]) ≠ x → w' (ptr w a (i, r, p)) k = w (ptr w a (i, r, p)) k) :
    ∀ i r p, S.Ok r p → (((i, r, p) = x → ptr w' a' (i, r, p) = b) ∧
      ((i, r, p) ≠ x → ptr w' a' (i, r, p) = ptr w a (i, r, p))) := by
  intro i r p
  induction p using List.reverseRecOn with
  | nil => exact fun _ => ⟨hroot i r, hroots i r⟩
  | append_singleton p k ih =>
    intro hok
    obtain ⟨ihx, ihn⟩ := ih hok.of_snoc
    by_cases hp : (i, r, p) = x
    · -- below the fresh block every entry is null, before and after
      have hne : (i, r, p ++ [k]) ≠ x := by rw [← hp]; simp
      refine ⟨fun h => absurd h hne, fun _ => ?_⟩
      rw [ptr_snoc, ptr_snoc, ihx hp, if_neg hb, hclear, if_pos (hp ▸ hx)]
    · rw [ptr_snoc, ihn hp]
      constructor
      · intro h
        obtain ⟨h0, he⟩ := hentry i r p k h
        rw [if_neg h0, he]
      · intro h
        rw [ptr_snoc]
        split
        · rfl
        · rename_i h0
          exact hentries i r p k hok h0 h

theorem Owned.grow_root (h : S.Owned base used w a) {i : ι} {r : ρ} {b : β}
    (hr : r ∈ S.roots) (h0 : a i r = 0) (hb : b ≠ 0) (hu : b ∉ used)
    (hclear : ∀ k, w' b k = 0)
    (hw : ∀ x, S.Valid x → ptr w a x ≠ 0 → ∀ k, w' (ptr w a x) k = w (ptr w a x) k)
    (hir : a' i r = b) (hne : ∀ j s, (j, s) ≠ (i, r) → a' j s = a j s) :
    S.Owned base (insert b used) w' a' ∧
      ∀ x, S.Valid x → x ≠ (i, r, []) → ptr w' a' x = ptr w a x := by
  have hat := ptr_attach (S := S) (x := (i, r, [])) h0 hb hclear
    (by rintro j s ⟨rfl, rfl⟩; exact hir)
    (fun j s hjs => hne j s (by simpa using hjs))
    (by intro j s p k hx; simp at hx)
    (fun j s p k hok hp _ => hw (j, s, p) hok.of_snoc hp k)
  refine ⟨h.insert (x := (i, r, [])) ⟨hr, by simp, by simp⟩ h0 hb hu
    hir fun y hy hyx => ?_, fun y hy hyx => ?_⟩
  all_goals exact (hat y.1 y.2.1 y.2.2 hy).2 hyx

theorem Owned.grow_entry (h : S.Owned base used w a) {i : ι} {r : ρ} {p : List κ} {k : κ}
    {b : β} (hok : S.Ok r (p ++ [k])) (hp : ptr w a (i, r, p) ≠ 0)
    (h0 : w (ptr w a (i, r, p)) k = 0) (hb : b ≠ 0) (hu : b ∉ used)
    (hclear : ∀ k, w' b k = 0) (hk : w' (ptr w a (i, r, p)) k = b)
    (hw : ∀ x, S.Valid x → ptr w a x ≠ 0 → ∀ j,
      (ptr w a x, j) ≠ (ptr w a (i, r, p), k) → w' (ptr w a x) j = w (ptr w a x) j) :
    S.Owned base (insert b used) w' a ∧
      ∀ x, S.Valid x → x ≠ (i, r, p ++ [k]) → ptr w' a x = ptr w a x := by
  have hx : ptr w a (i, r, p ++ [k]) = 0 := by rw [ptr_snoc, if_neg hp, h0]
  -- a position with the same parent block and entry is the same position
  have hsame : ∀ j s q l, S.Ok s (q ++ [l]) → ptr w a (j, s, q) ≠ 0 →
      (j, s, q ++ [l]) ≠ (i, r, p ++ [k]) →
      (ptr w a (j, s, q), l) ≠ (ptr w a (i, r, p), k) := by
    intro j s q l hq hq0 hne he
    obtain ⟨hp', rfl⟩ := Prod.mk.inj he
    have heq := h.inj (j, s, q) (i, r, p) hq.of_snoc hok.of_snoc hq0 hp'
    simp only [Prod.mk.injEq] at heq
    obtain ⟨rfl, rfl, rfl⟩ := heq
    exact hne rfl
  have hat := ptr_attach (S := S) (x := (i, r, p ++ [k])) hx hb hclear
    (by intro j s he; simp at he) (fun _ _ _ => rfl)
    (by
      intro j s q l he
      simp only [Prod.mk.injEq, List.append_singleton_inj] at he
      obtain ⟨rfl, rfl, rfl, rfl⟩ := he
      exact ⟨hp, hk⟩)
    (fun j s q l hq hq0 hne =>
      hw (j, s, q) hq.of_snoc hq0 l (hsame j s q l hq hq0 hne))
  refine ⟨h.insert (x := (i, r, p ++ [k])) hok hx hb hu
    ((hat i r _ hok).1 rfl) fun y hy hyx => ?_, fun y hy hyx => ?_⟩
  all_goals exact (hat y.1 y.2.1 y.2.2 hy).2 hyx

theorem mem_blocks {a : ρ → β} {c : β} :
    c ∈ S.blocks w a ↔ c ≠ 0 ∧ ∃ r p, S.Ok r p ∧ walk w (a r) p = c := by
  simp only [blocks, List.mem_flatMap, mem_subtree]
  constructor
  · rintro ⟨r, hr, hc, p, hp, hk, he⟩; exact ⟨hc, r, p, ⟨hr, hp, hk⟩, he⟩
  · rintro ⟨hc, r, p, ⟨hr, hp, hk⟩, he⟩; exact ⟨r, hr, hc, p, hp, hk, he⟩

theorem Owned.nodup_blocks (h : S.Owned base used w a) (i : ι) :
    (S.blocks w (a i)).Nodup := by
  refine List.nodup_flatMap.mpr ⟨fun r hr => nodup_subtree S.entries_nodup ?_, ?_⟩
  · intro p q hp hpk hq hqk h0 he
    have := h.inj (i, r, p) (i, r, q) ⟨hr, hp, hpk⟩ ⟨hr, hq, hqk⟩ h0 he
    simpa using this
  · refine List.Nodup.pairwise_of_forall_ne S.roots_nodup fun r hr s hs hrs c hc hc' => ?_
    obtain ⟨h0, p, hp, hpk, he⟩ := mem_subtree.mp hc
    obtain ⟨-, q, hq, hqk, he'⟩ := mem_subtree.mp hc'
    have := h.inj (i, r, p) (i, s, q) ⟨hr, hp, hpk⟩ ⟨hs, hq, hqk⟩ (fun hz => h0 (he.symm.trans hz))
      (he.trans he'.symm)
    simp only [Prod.mk.injEq] at this
    exact hrs this.2.1

theorem Owned.drop (h : S.Owned base used w a) {i : ι}
    (hz : ∀ r ∈ S.roots, a' i r = 0) (hne : ∀ j, j ≠ i → a' j = a j) :
    S.Owned base {b ∈ used | b ∉ S.blocks w (a i)} w a' := by
  have hrel : Owns S.Valid base _ (ptr w a') := h.release {x | x.1 = i}
    (by
      rintro ⟨j, r, p⟩ hok rfl
      show walk w (a' j r) p = 0
      rw [hz r hok.1, walk_zero])
    (by
      rintro ⟨j, r, p⟩ _ hj
      show walk w (a' j r) p = walk w (a j r) p
      rw [hne j hj])
  convert hrel using 1
  ext b
  simp only [Set.mem_ofPred_eq, and_congr_right_iff]
  intro hb
  rw [mem_blocks]
  constructor
  · rintro hn ⟨j, r, p⟩ hok rfl h0 rfl
    exact hn ⟨h0, r, p, hok, rfl⟩
  · rintro hn ⟨h0, r, p, hok, rfl⟩
    exact hn (i, r, p) hok rfl h0 rfl

end Shape

end Xv6Sheet
