import Mathlib.Data.List.Infix
import Mathlib.Data.List.TakeWhile
import Mathlib.Order.Basic
import Mathlib.Tactic.Common

/-! # Words and groups of words

The words of a list are its maximal runs of elements that are no separators. A scanner takes
the list element by element, collects the words in groups of a given length, and forgets a
word that no separator ends.
-/

namespace Xv6Sheet

variable {α β : Type}

def words (p : α → Bool) (l : List α) : List (List α) := (l.splitOnP p).filter fun w => !w.isEmpty

section Words

variable {p : α → Bool} {w l : List α} {x : α}

theorem words_append_cons (hw : ∀ y ∈ w, p y = false) (hx : p x = true) (l : List α) :
    words p (w ++ x :: l) = if w = [] then words p l else w :: words p l := by
  unfold words
  rw [List.splitOnP_append_cons_of_forall_mem hw x hx]
  cases w <;> simp

theorem words_of_forall (hw : ∀ y ∈ w, p y = false) : words p w = if w = [] then [] else [w] := by
  unfold words
  rw [List.splitOnP_eq_singleton hw]
  cases w <;> simp

theorem words_append (hx : p x = true) (l m : List α) :
    words p (l ++ x :: m) = words p l ++ words p m := by
  unfold words
  rw [List.splitOnP_append_cons l m hx, List.filter_append]

theorem words_cons_of_pos (hx : p x = true) (l : List α) : words p (x :: l) = words p l :=
  words_append_cons (w := []) (by simp) hx l

theorem words_dropWhile (p : α → Bool) (l : List α) : words p (l.dropWhile p) = words p l := by
  induction l with
  | nil => rfl
  | cons x l ih =>
    rw [List.dropWhile_cons]
    split
    · rename_i hx
      rw [ih, words_cons_of_pos hx]
    · rfl

theorem words_takeWhile (h : l.takeWhile (!p ·) ≠ []) :
    words p l = l.takeWhile (!p ·) :: words p (l.dropWhile (!p ·)) := by
  have hw : ∀ y ∈ l.takeWhile (!p ·), p y = false := fun y hy => by
    simpa using List.mem_takeWhile_imp hy
  have hl := List.takeWhile_append_dropWhile (p := (!p ·)) (l := l)
  cases hrest : l.dropWhile (!p ·) with
  | nil =>
    rw [hrest, List.append_nil] at hl
    rw [hl] at h hw ⊢
    rw [words_of_forall hw, if_neg h]
    rfl
  | cons x r =>
    have hx : p x = true := by
      have hne : l.dropWhile (!p ·) ≠ [] := by rw [hrest]; simp
      have hhead := List.head_dropWhile_not (!p ·) hne
      simpa [hrest] using hhead
    rw [hrest] at hl
    conv_lhs => rw [← hl]
    rw [words_append_cons hw hx, if_neg h, words_cons_of_pos hx]

theorem forall_concat (hw : ∀ y ∈ w, p y = false) (hx : p x = false) :
    ∀ y ∈ w ++ [x], p y = false := fun y hy => by
  rcases List.mem_append.mp hy with hy | hy
  · exact hw y hy
  · obtain rfl := List.mem_singleton.mp hy
    exact hx

theorem mem_of_mem_words {v : List α} {y : α} (hw : ∀ z ∈ w, p z = false)
    (hv : v ∈ words p (w ++ l)) (hy : y ∈ v) : y ∈ w ++ l := by
  induction l generalizing w with
  | nil =>
    rw [List.append_nil, words_of_forall hw] at hv
    split at hv
    · cases hv
    · obtain rfl := List.mem_singleton.mp hv
      exact List.mem_append_left _ hy
  | cons x l ih =>
    cases hx : p x with
    | true =>
      rw [words_append_cons hw hx] at hv
      have hlater : v ∈ words p l → y ∈ w ++ x :: l := fun hv =>
        List.mem_append_right _ (List.mem_cons_of_mem _ (ih (w := []) (by simp) hv))
      split at hv
      · exact hlater hv
      · rcases List.mem_cons.mp hv with rfl | hv
        · exact List.mem_append_left _ hy
        · exact hlater hv
    | false =>
      have hin := ih (forall_concat hw hx) (by rwa [List.append_assoc])
      rwa [List.append_assoc] at hin

theorem word_spec {v : List α} (hw : ∀ z ∈ w, p z = false) (hv : v ∈ words p (w ++ l)) :
    v ≠ [] ∧ (∀ y ∈ v, p y = false) ∧ v.length ≤ (w ++ l).length := by
  induction l generalizing w with
  | nil =>
    rw [List.append_nil] at hv ⊢
    rw [words_of_forall hw] at hv
    split at hv
    · cases hv
    · rename_i hne
      obtain rfl := List.mem_singleton.mp hv
      exact ⟨hne, hw, le_rfl⟩
  | cons x l ih =>
    cases hx : p x with
    | true =>
      rw [words_append_cons hw hx] at hv
      have hlater : v ∈ words p l → v ≠ [] ∧ (∀ y ∈ v, p y = false) ∧
        v.length ≤ (w ++ x :: l).length :=
        fun hv => by
          obtain ⟨hne, hsep, hlen⟩ := ih (w := []) (by simp) hv
          refine ⟨hne, hsep, hlen.trans ?_⟩
          simp only [List.nil_append, List.length_append, List.length_cons]
          omega
      split at hv
      · exact hlater hv
      · rename_i hne
        rcases List.mem_cons.mp hv with rfl | hv
        · exact ⟨hne, hw, by simp⟩
        · exact hlater hv
    | false =>
      rw [List.append_cons] at hv ⊢
      exact ih (forall_concat hw hx) hv

theorem words_lines (hx : p x = true) (ls : List (List α)) :
    words p (ls.flatMap (· ++ [x])) = ls.flatMap (words p) := by
  induction ls with
  | nil => rfl
  | cons l ls ih =>
    rw [List.flatMap_cons, List.flatMap_cons, List.append_assoc, List.singleton_append,
      words_append hx, ih]

theorem words_lines_eq_iff (ls : List (List α)) :
    ls.flatMap (words p) = ls ↔ ∀ l ∈ ls, l ≠ [] ∧ ∀ y ∈ l, p y = false := by
  constructor
  · rintro h l hl
    rw [← h] at hl
    obtain ⟨k, -, hk⟩ := List.mem_flatMap.mp hl
    obtain ⟨hne, hsep, -⟩ := word_spec (w := []) (by simp) hk
    exact ⟨hne, hsep⟩
  · intro h
    induction ls with
    | nil => rfl
    | cons l ls ih =>
      obtain ⟨hne, hsep⟩ := h l List.mem_cons_self
      rw [List.flatMap_cons, words_of_forall hsep, if_neg hne,
        ih fun k hk => h k (List.mem_cons_of_mem _ hk)]
      rfl

def endedWords (p : α → Bool) (l : List α) : List (List α) :=
  (l.splitOnP p).dropLast.filter fun w => !w.isEmpty

def lastRun (p : α → Bool) (l : List α) : List α := (l.splitOnP p).getLast?.getD []

theorem endedWords_append_cons (hw : ∀ y ∈ w, p y = false) (hx : p x = true) (l : List α) :
    endedWords p (w ++ x :: l) = if w = [] then endedWords p l else w :: endedWords p l := by
  unfold endedWords
  rw [List.splitOnP_append_cons_of_forall_mem hw x hx,
    List.dropLast_cons_of_ne_nil (List.splitOnP_ne_nil p l)]
  cases w <;> simp

theorem endedWords_of_forall (hw : ∀ y ∈ w, p y = false) : endedWords p w = [] := by
  unfold endedWords
  rw [List.splitOnP_eq_singleton hw]
  rfl

theorem lastRun_append_cons (hw : ∀ y ∈ w, p y = false) (hx : p x = true) (l : List α) :
    lastRun p (w ++ x :: l) = lastRun p l := by
  unfold lastRun
  rw [List.splitOnP_append_cons_of_forall_mem hw x hx, List.getLast?_cons,
    List.getLast?_eq_some_getLast (List.splitOnP_ne_nil p l)]
  rfl

theorem lastRun_of_forall (hw : ∀ y ∈ w, p y = false) : lastRun p w = w := by
  unfold lastRun
  rw [List.splitOnP_eq_singleton hw]
  rfl

theorem endedWords_append (hw : ∀ y ∈ w, p y = false) (l m : List α) :
    endedWords p (w ++ l ++ m) =
      endedWords p (w ++ l) ++ endedWords p (lastRun p (w ++ l) ++ m) := by
  induction l generalizing w with
  | nil => rw [List.append_nil, lastRun_of_forall hw, endedWords_of_forall hw, List.nil_append]
  | cons x l ih =>
    cases hx : p x with
    | false => simpa using ih (forall_concat hw hx)
    | true =>
      have hrest := ih (w := []) (by simp)
      rw [List.nil_append] at hrest
      rw [List.append_assoc, List.cons_append, endedWords_append_cons hw hx,
        endedWords_append_cons hw hx, lastRun_append_cons hw hx, hrest]
      split <;> rfl

theorem words_eq_endedWords (hw : ∀ y ∈ w, p y = false) (l : List α) :
    words p (w ++ l) = endedWords p (w ++ l) ++
      if lastRun p (w ++ l) = [] then [] else [lastRun p (w ++ l)] := by
  induction l generalizing w with
  | nil => simp only [List.append_nil, words_of_forall hw, endedWords_of_forall hw,
      lastRun_of_forall hw, List.nil_append]
  | cons x l ih =>
    cases hx : p x with
    | true =>
      have hrest := ih (w := []) (by simp)
      simp only [List.nil_append] at hrest
      rw [words_append_cons hw hx, endedWords_append_cons hw hx, lastRun_append_cons hw hx, hrest]
      split <;> rfl
    | false => simpa using ih (forall_concat hw hx)

/-- A run that is scanned is the beginning of a word that ends, or of what is left. -/
theorem prefix_run (hw : ∀ y ∈ w, p y = false) (hne : w ≠ []) (l : List α) :
    (∃ v ∈ endedWords p (w ++ l), w <+: v) ∨ w <+: lastRun p (w ++ l) := by
  induction l generalizing w with
  | nil =>
    right
    rw [List.append_nil, lastRun_of_forall hw]
  | cons x l ih =>
    cases hx : p x with
    | true =>
      left
      rw [endedWords_append_cons hw hx, if_neg hne]
      exact ⟨w, List.mem_cons_self, List.prefix_rfl⟩
    | false =>
      have hlater := ih (forall_concat hw hx) (by simp)
      rw [List.append_assoc, List.singleton_append] at hlater
      rcases hlater with ⟨v, hv, hle⟩ | hle
      · exact .inl ⟨v, hv, (List.prefix_append w [x]).trans hle⟩
      · exact .inr ((List.prefix_append w [x]).trans hle)

theorem exists_word (hw : ∀ y ∈ w, p y = false) (hne : w ≠ []) :
    ∃ v ∈ words p (w ++ l), w <+: v := by
  rw [words_eq_endedWords hw]
  rcases prefix_run hw hne l with ⟨v, hv, hle⟩ | hle
  · exact ⟨v, List.mem_append_left _ hv, hle⟩
  · have hlast : lastRun p (w ++ l) ≠ [] := fun hnil => hne (List.prefix_nil.mp (hnil ▸ hle))
    rw [if_neg hlast]
    exact ⟨_, List.mem_append_right _ (List.mem_singleton_self _), hle⟩

theorem mem_words_of_imp {q : α → Bool} (hpq : ∀ x, p x = true → q x = true)
    (hw : ∀ y ∈ w, p y = false) {v : List α} (hv : v ∈ words p (w ++ l))
    (hq : ∀ y ∈ v, q y = false) : v ∈ words q (w ++ l) := by
  induction l generalizing w with
  | nil =>
    rw [List.append_nil, words_of_forall hw] at hv
    split at hv
    · cases hv
    · rename_i hne
      obtain rfl := List.mem_singleton.mp hv
      rwa [List.append_nil, words_of_forall hq, if_neg hne]
  | cons x l ih =>
    cases hx : p x with
    | false =>
      rw [List.append_cons] at hv ⊢
      exact ih (forall_concat hw hx) hv
    | true =>
      have hlater : v ∈ words p l → v ∈ words q (w ++ x :: l) := fun hv => by
        rw [words_append (hpq x hx)]
        exact List.mem_append_right _ (ih (w := []) (by simp) hv)
      rw [words_append_cons hw hx] at hv
      split at hv
      · exact hlater hv
      rename_i hne
      rcases List.mem_cons.mp hv with rfl | hv
      · rw [words_append_cons hq (hpq x hx), if_neg hne]
        exact List.mem_cons_self
      · exact hlater hv

theorem lastRun_spec (hw : ∀ y ∈ w, p y = false) (l : List α) :
    (∀ y ∈ lastRun p (w ++ l), p y = false) ∧
      ∃ q, w ++ l = q ++ lastRun p (w ++ l) ∧ ∀ x ∈ q.getLast?, p x = true := by
  induction l generalizing w with
  | nil =>
    rw [List.append_nil, lastRun_of_forall hw]
    exact ⟨hw, [], rfl, by simp⟩
  | cons x l ih =>
    cases hx : p x with
    | false => simpa using ih (forall_concat hw hx)
    | true =>
      obtain ⟨hrun, q, hq, hlast⟩ := ih (w := []) (by simp)
      rw [List.nil_append] at hrun hq
      rw [lastRun_append_cons hw hx]
      refine ⟨hrun, w ++ x :: q, ?_, fun y hy => ?_⟩
      · rw [List.append_assoc, List.cons_append, ← hq]
      · rw [List.getLast?_append, List.getLast?_cons] at hy
        cases hend : q.getLast? with
        | none =>
          simp only [hend, Option.getD_none, Option.some_or, Option.mem_some_iff] at hy
          exact hy ▸ hx
        | some z =>
          simp only [hend, Option.getD_some, Option.some_or, Option.mem_some_iff] at hy
          exact hlast y (hy ▸ hend)

end Words

/-- The groups hold `n` elements each, but for the last one, which may hold fewer. Without a
number there is at most one group. -/
structure Grouped (limit : Option ℕ) (gs : List (List β)) : Prop where
  nonempty : ∀ g ∈ gs, g ≠ []
  full : ∀ n, limit = some n → (∀ g ∈ gs.dropLast, g.length = n) ∧ ∀ g ∈ gs, g.length ≤ n
  one : limit = none → gs.length ≤ 1

/-- A scanner: the groups that are complete, and the group and the word that it is at. -/
structure Scan (α : Type) where
  done : List (List (List α))
  group : List (List α)
  word : List α

namespace Scan

variable {p : α → Bool} {limit : Option ℕ} {s : Scan α} {l : List α} {x : α}

def step (p : α → Bool) (limit : Option ℕ) (s : Scan α) (x : α) : Scan α :=
  if p x then
    if s.word = [] then s
    else if limit = some (s.group.length + 1) then ⟨s.done ++ [s.group ++ [s.word]], [], []⟩
    else ⟨s.done, s.group ++ [s.word], []⟩
  else { s with word := s.word ++ [x] }

def groups (s : Scan α) : List (List (List α)) :=
  if s.group = [] then s.done else s.done ++ [s.group]

/-- What every scanner that started with nothing has. -/
structure Sound (p : α → Bool) (limit : Option ℕ) (s : Scan α) : Prop where
  word : ∀ y ∈ s.word, p y = false
  full : ∀ g ∈ s.done, limit = some g.length
  nonempty : ∀ g ∈ s.done, g ≠ []
  group : ∀ n, limit = some n → s.group.length < n

theorem sound_nil (h : limit ≠ some 0) : Sound p limit ⟨[], [], []⟩ where
  word := by simp
  full := by simp
  nonempty := by simp
  group n hn := Nat.pos_of_ne_zero fun h0 => h (h0 ▸ hn)

theorem Sound.step (h : Sound p limit s) (hlimit : limit ≠ some 0) (x : α) :
    Sound p limit (s.step p limit x) := by
  unfold Scan.step
  split
  · split
    · exact h
    split
    · rename_i hfull
      refine ⟨by simp, fun g hg => ?_, fun g hg => ?_, (sound_nil (p := p) hlimit).group⟩
      · rcases List.mem_append.mp hg with hg | hg
        · exact h.full g hg
        · obtain rfl := List.mem_singleton.mp hg
          rw [hfull, List.length_append, List.length_singleton]
      · rcases List.mem_append.mp hg with hg | hg
        · exact h.nonempty g hg
        · obtain rfl := List.mem_singleton.mp hg
          simp
    · rename_i hfull
      refine ⟨by simp, h.full, h.nonempty, fun n hn => ?_⟩
      have hlt := h.group n hn
      have hne : s.group.length + 1 ≠ n := fun he => hfull (by rw [hn, he])
      rw [List.length_append, List.length_singleton]
      omega
  · rename_i hx
    exact ⟨forall_concat h.word (by simpa using hx), h.full, h.nonempty, h.group⟩

theorem Sound.words_step (h : Sound p limit s) (x : α) (l : List α) :
    (s.step p limit x).done.flatten ++ (s.step p limit x).group ++
        words p ((s.step p limit x).word ++ l) =
      s.done.flatten ++ s.group ++ words p (s.word ++ x :: l) := by
  unfold Scan.step
  split
  · rename_i hx
    rw [words_append_cons h.word hx]
    split
    · rename_i hnil
      rw [hnil, List.nil_append]
    split <;> simp
  · simp

theorem Sound.foldl (h : Sound p limit s) (hlimit : limit ≠ some 0) (l : List α) :
    Sound p limit (l.foldl (Scan.step p limit) s) := by
  induction l generalizing s with
  | nil => exact h
  | cons x l ih => exact ih (h.step hlimit x)

theorem Sound.words_foldl (h : Sound p limit s) (hlimit : limit ≠ some 0) (l : List α) :
    (l.foldl (Scan.step p limit) s).done.flatten ++ (l.foldl (Scan.step p limit) s).group ++
        words p (l.foldl (Scan.step p limit) s).word =
      s.done.flatten ++ s.group ++ words p (s.word ++ l) := by
  induction l generalizing s with
  | nil => simp
  | cons x l ih => rw [List.foldl_cons, ih (h.step hlimit x), h.words_step]

theorem word_foldl_eq_nil (p : α → Bool) (limit : Option ℕ) (l : List α) :
    (l.foldl (Scan.step p limit) ⟨[], [], []⟩).word = [] ↔ ∀ x ∈ l.getLast?, p x = true := by
  rcases List.eq_nil_or_concat l with rfl | ⟨l, x, rfl⟩
  · simp
  rw [List.concat_eq_append, List.foldl_append, List.getLast?_append]
  simp only [List.foldl_cons, List.foldl_nil, List.getLast?_singleton, Option.some_or,
    Option.mem_some_iff, forall_eq']
  unfold Scan.step
  split
  · rename_i hx
    refine iff_of_true ?_ hx
    split
    · assumption
    split <;> rfl
  · rename_i hx
    exact iff_of_false (by simp) hx

theorem flatten_groups (s : Scan α) : s.groups.flatten = s.done.flatten ++ s.group := by
  unfold groups
  split
  · rename_i h
    rw [h, List.append_nil]
  · simp

theorem map_flatten_of_length_one {gs : List (List β)} (h : ∀ g ∈ gs, g.length = 1) :
    gs.flatten.map ([·]) = gs := by
  induction gs with
  | nil => rfl
  | cons g gs ih =>
    obtain ⟨y, rfl⟩ := List.length_eq_one_iff.mp (h g List.mem_cons_self)
    rw [List.flatten_cons, List.map_append, ih fun k hk => h k (List.mem_cons_of_mem _ hk)]
    rfl

theorem groups_one (hl : ∀ x ∈ l.getLast?, p x = true) :
    (l.foldl (Scan.step p (some 1)) ⟨[], [], []⟩).groups = (words p l).map ([·]) := by
  have hzero : (⟨[], [], []⟩ : Scan α).Sound p (some 1) := sound_nil (by simp)
  have hsound := hzero.foldl (by simp) l
  have hws := hzero.words_foldl (by simp) l
  have hgroup := List.length_eq_zero_iff.mp (Nat.lt_one_iff.mp (hsound.group 1 rfl))
  have hdone : ∀ g ∈ (l.foldl (Scan.step p (some 1)) ⟨[], [], []⟩).done, g.length = 1 := fun g hg =>
    (Option.some.inj (hsound.full g hg)).symm
  rw [(word_foldl_eq_nil p (some 1) l).mpr hl, hgroup, words_of_forall (by simp), if_pos rfl] at hws
  simp only [List.append_nil, List.flatten_nil, List.nil_append] at hws
  rw [groups, if_pos hgroup, ← hws, map_flatten_of_length_one hdone]

theorem Sound.grouped (h : Sound p limit s) : Grouped limit s.groups where
  nonempty g hg := by
    unfold groups at hg
    split at hg
    · exact h.nonempty g hg
    · rename_i hgroup
      rcases List.mem_append.mp hg with hg | hg
      · exact h.nonempty g hg
      · obtain rfl := List.mem_singleton.mp hg
        exact hgroup
  full n hn := by
    have hdone : ∀ g ∈ s.done, g.length = n := fun g hg =>
      (Option.some.inj (hn.symm.trans (h.full g hg))).symm
    have hgroup := h.group n hn
    unfold groups
    split
    · exact ⟨fun g hg => hdone g (List.mem_of_mem_dropLast hg), fun g hg => (hdone g hg).le⟩
    · refine ⟨fun g hg => ?_, fun g hg => ?_⟩
      · rw [List.dropLast_concat] at hg
        exact hdone g hg
      · rcases List.mem_append.mp hg with hg | hg
        · exact (hdone g hg).le
        · obtain rfl := List.mem_singleton.mp hg
          exact hgroup.le
  one hn := by
    have hdone : s.done = [] := List.eq_nil_iff_forall_not_mem.mpr fun g hg => by
      have hfull := h.full g hg
      rw [hn] at hfull
      cases hfull
    unfold groups
    rw [hdone]
    split <;> simp

end Scan

end Xv6Sheet
