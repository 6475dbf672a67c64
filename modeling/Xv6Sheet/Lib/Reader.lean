import Xv6Sheet.Lib.Words

/-! # Programs that read words

A program that looks at one element after the other says something about a word at the separator
after it. When its state depends on the word that it is at, what it says about a list is what it
says about the words of the list.
-/

namespace Xv6Sheet

variable {α β σ : Type}

/-- Read a list from a state on. The answer is the last state and all that was said. -/
def readAll (turn : σ → α → σ × List β) : σ → List α → σ × List β
  | s, [] => (s, [])
  | s, x :: l =>
    let (s, said) := turn s x
    let (s, later) := readAll turn s l
    (s, said ++ later)

theorem readAll_cons (turn : σ → α → σ × List β) (s : σ) (x : α) (l : List α) :
    readAll turn s (x :: l) = ((readAll turn (turn s x).1 l).1,
      (turn s x).2 ++ (readAll turn (turn s x).1 l).2) := rfl

theorem readAll_append (turn : σ → α → σ × List β) (s : σ) (l m : List α) :
    readAll turn s (l ++ m) = ((readAll turn (readAll turn s l).1 m).1,
      (readAll turn s l).2 ++ (readAll turn (readAll turn s l).1 m).2) := by
  induction l generalizing s with
  | nil => rfl
  | cons x l ih =>
    rw [List.cons_append, readAll_cons, readAll_cons, ih]
    simp

theorem readAll_flatten (turn : σ → α → σ × List β) (s : σ) (ls : List (List α)) :
    readAll (readAll turn) s ls = readAll turn s ls.flatten := by
  induction ls generalizing s with
  | nil => rfl
  | cons l ls ih => rw [readAll_cons, ih, List.flatten_cons, readAll_append]

/-- The program is in a state that goes with the word that it has read, and says the verdict on a
word at the separator after it. -/
structure ByWords (p : α → Bool) (verdict : List α → List β) (turn : σ → α → σ × List β)
    (At : List α → σ → Prop) : Prop where
  nil : verdict [] = []
  read : ∀ {w s x}, p x = false → At w s → At (w ++ [x]) (turn s x).1 ∧ (turn s x).2 = []
  stop : ∀ {w s x}, p x = true → At w s → At [] (turn s x).1 ∧ (turn s x).2 = verdict w

namespace ByWords

variable {p : α → Bool} {verdict : List α → List β} {turn : σ → α → σ × List β}
  {At : List α → σ → Prop} {w : List α} {s : σ}

/-- What is said are the verdicts on the words that a separator ends. The induction is over what is
still to come, with the word that the program is at before it. -/
theorem readAll (h : ByWords p verdict turn At) (hw : ∀ y ∈ w, p y = false) (hs : At w s)
    (l : List α) : At (lastRun p (w ++ l)) (readAll turn s l).1 ∧
      (readAll turn s l).2 = (endedWords p (w ++ l)).flatMap verdict := by
  induction l generalizing w s with
  | nil =>
    rw [List.append_nil, lastRun_of_forall hw, endedWords_of_forall hw]
    exact ⟨hs, rfl⟩
  | cons x l ih =>
    rw [readAll_cons]
    cases hx : p x with
    | false =>
      obtain ⟨hat, hsaid⟩ := h.read hx hs
      have hrest := ih (forall_concat hw hx) hat
      rw [List.append_assoc, List.singleton_append] at hrest
      simp only [hsaid, List.nil_append]
      exact hrest
    | true =>
      obtain ⟨hat, hsaid⟩ := h.stop hx hs
      obtain ⟨hlast, hlater⟩ := ih (w := []) (by simp) hat
      rw [List.nil_append] at hlast hlater
      rw [lastRun_append_cons hw hx, endedWords_append_cons hw hx]
      refine ⟨hlast, ?_⟩
      simp only [hsaid, hlater]
      split
      · rename_i hnil
        rw [hnil, h.nil, List.nil_append]
      · rfl

theorem readAll_nil (h : ByWords p verdict turn At) (hs : At [] s) (l : List α) :
    At (lastRun p l) (Xv6Sheet.readAll turn s l).1 ∧
      (Xv6Sheet.readAll turn s l).2 = (endedWords p l).flatMap verdict := by
  have hall := h.readAll (w := []) (by simp) hs l
  rwa [List.nil_append] at hall

/-- A program that judges what is left at the end has said the verdicts on all words. -/
theorem words (h : ByWords p verdict turn At) (hs : At [] s) {last : σ → List β}
    (hlast : ∀ {w t}, At w t → last t = verdict w) (l : List α) :
    (Xv6Sheet.readAll turn s l).2 ++ last (Xv6Sheet.readAll turn s l).1 =
      (words p l).flatMap verdict := by
  obtain ⟨hat, hsaid⟩ := h.readAll_nil hs l
  rw [hlast hat]
  have hall := words_eq_endedWords (p := p) (w := []) (by simp) l
  rw [List.nil_append] at hall
  rw [hsaid, hall, List.flatMap_append]
  congr 1
  split
  · rename_i hnil
    rw [hnil, h.nil]
    rfl
  · simp

end ByWords

section Verdicts

variable {p : α → Bool} {u v l : List α} {f g : List α → List β}

theorem flatMap_endedWords_cons (hu : ∀ y ∈ u, p y = false) {x : α} (hx : p x = true)
    (hf : f [] = []) (l : List α) :
    (endedWords p (u ++ x :: l)).flatMap f = f u ++ (endedWords p l).flatMap f := by
  rw [endedWords_append_cons hu hx]
  split
  · rename_i hnil
    rw [hnil, hf, List.nil_append]
  · rfl

/-- The first word ends with the word of another program, and the same is said about it; the same is
said about all later words that a separator ends. -/
def SameVerdicts (p : α → Bool) (f g : List α → List β) (u v l : List α) : Prop :=
  ∀ w x m, l = w ++ x :: m → (∀ y ∈ w, p y = false) → p x = true →
    f (u ++ w) = g (v ++ w) ∧ ∀ z ∈ endedWords p m, f z = g z

theorem sameVerdicts_cons_of_neg {x : α} (hx : p x = false) :
    SameVerdicts p f g u v (x :: l) ↔ SameVerdicts p f g (u ++ [x]) (v ++ [x]) l := by
  constructor
  · rintro h w y m rfl hw hy
    simpa using h (x :: w) y m rfl (by simpa [hx] using hw) hy
  · rintro h w y m heq hw hy
    cases w with
    | nil =>
      obtain ⟨rfl, rfl⟩ := List.cons.inj heq
      rw [hx] at hy
      cases hy
    | cons z w =>
      obtain ⟨rfl, rfl⟩ := List.cons.inj heq
      simpa using h w y m rfl (fun y hy => hw y (List.mem_cons_of_mem _ hy)) hy

theorem sameVerdicts_cons_of_pos {x : α} (hx : p x = true) :
    SameVerdicts p f g u v (x :: l) ↔ f u = g v ∧ ∀ z ∈ endedWords p l, f z = g z := by
  constructor
  · intro h
    simpa using h [] x l rfl (by simp) hx
  · rintro h w y m heq hw hy
    cases w with
    | nil =>
      obtain ⟨rfl, rfl⟩ := List.cons.inj heq
      simpa using h
    | cons z w =>
      obtain ⟨rfl, rfl⟩ := List.cons.inj heq
      rw [hw x List.mem_cons_self] at hx
      cases hx

theorem sameVerdicts_self_iff (hu : ∀ y ∈ u, p y = false) (hnil : f [] = g []) :
    SameVerdicts p f g u u l ↔ ∀ z ∈ endedWords p (u ++ l), f z = g z := by
  induction l generalizing u with
  | nil =>
    rw [List.append_nil, endedWords_of_forall hu]
    exact iff_of_true (fun w x m heq => by simp at heq) (by simp)
  | cons x l ih =>
    cases hx : p x with
    | false =>
      rw [sameVerdicts_cons_of_neg hx, ih (forall_concat hu hx), ← List.append_cons]
    | true =>
      rw [sameVerdicts_cons_of_pos hx, endedWords_append_cons hu hx]
      split
      · rename_i h
        simp [h, hnil]
      · simp

/-- The same is said at each point exactly when the verdicts on the words are the same. -/
theorem forall_prefix_iff (hu : ∀ y ∈ u, p y = false) (hv : ∀ y ∈ v, p y = false)
    (hf : f [] = []) (hg : g [] = []) :
    (∀ m, m <+: l → (endedWords p (u ++ m)).flatMap f = (endedWords p (v ++ m)).flatMap g) ↔
      SameVerdicts p f g u v l := by
  induction l generalizing u v with
  | nil =>
    refine iff_of_true (fun m hm => ?_) fun w x m heq => by simp at heq
    obtain rfl := List.prefix_nil.mp hm
    rw [List.append_nil, List.append_nil, endedWords_of_forall hu, endedWords_of_forall hv]
    rfl
  | cons x l ih =>
    have hcons : ∀ {P : List α → Prop}, P [] → ((∀ m, m <+: x :: l → P m) ↔
        ∀ m, m <+: l → P (x :: m)) := by
      intro P h0
      constructor
      · exact fun h m hm => h _ (List.cons_prefix_cons.mpr ⟨rfl, hm⟩)
      · rintro h m hm
        rcases List.prefix_cons_iff.mp hm with rfl | ⟨m', rfl, hm'⟩
        · exact h0
        · exact h m' hm'
    rw [hcons (by
      rw [List.append_nil, List.append_nil, endedWords_of_forall hu, endedWords_of_forall hv]
      rfl)]
    cases hx : p x with
    | false =>
      have hrest := ih (forall_concat hu hx) (forall_concat hv hx)
      simp only [List.append_assoc, List.singleton_append] at hrest
      rw [hrest, sameVerdicts_cons_of_neg hx]
    | true =>
      have hrest := ih (u := []) (v := []) (by simp) (by simp)
      simp only [List.nil_append] at hrest
      have hself := sameVerdicts_self_iff (p := p) (u := []) (l := l) (by simp) (hf.trans hg.symm)
      rw [List.nil_append] at hself
      simp only [flatMap_endedWords_cons hu hx hf, flatMap_endedWords_cons hv hx hg]
      rw [sameVerdicts_cons_of_pos hx, ← hself, ← hrest]
      constructor
      · intro h
        have hhead : f u = g v := by
          simpa [endedWords, List.splitOnP_nil] using h [] List.nil_prefix
        refine ⟨hhead, fun m hm => ?_⟩
        have hall := h m hm
        rwa [hhead, List.append_cancel_left_eq] at hall
      · rintro ⟨hhead, h⟩ m hm
        rw [hhead, h m hm]

end Verdicts

end Xv6Sheet
