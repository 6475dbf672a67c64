import Xv6Sheet.Lib.Exec

/-! # Weakest preconditions

What must hold before a program so that it ends as wanted or stops with a permitted fault.
The rules for the basic programs are equivalences: rewriting with them runs a program
symbolically. Calls and loops are stepped over by their own specifications.
-/

namespace Xv6Sheet.Exec

variable {σ τ ε α β : Type} {E : ε → Prop} {s : σ}

/-- From `s` the program ends with a value and a state that satisfy `Q`, or stops with a
fault in `E`. -/
def Wp (E : ε → Prop) (m : Exec σ ε α) (Q : α → σ → Prop) (s : σ) : Prop :=
  (∀ a t, Ends m s a t → Q a t) ∧ ∀ e, Faults m s e → E e

theorem Wp.mono {m : Exec σ ε α} {P Q : α → σ → Prop} (h : Wp E m P s)
    (hPQ : ∀ a t, P a t → Q a t) : Wp E m Q s :=
  ⟨fun a t he => hPQ a t (h.1 a t he), h.2⟩

theorem Wp.post {m : Exec σ ε α} {Q : α → σ → Prop} {a : α} {t : σ} (h : Wp E m Q s)
    (he : Ends m s a t) : Q a t :=
  h.1 a t he

theorem Wp.and {m : Exec σ ε α} {P Q : α → σ → Prop} (h : Wp E m P s) (h' : Wp E m Q s) :
    Wp E m (fun a t => P a t ∧ Q a t) s :=
  ⟨fun a t he => ⟨h.1 a t he, h'.1 a t he⟩, h.2⟩

theorem Wp.leaves {m : Exec σ ε α} {Q : α → σ → Prop} {f : σ → τ} (h : Wp E m Q s)
    (hf : Leaves f m) : Wp E m (fun a t => Q a t ∧ f t = f s) s :=
  ⟨fun a t he => ⟨h.1 a t he, hf s a t he⟩, h.2⟩

theorem wp_trivial {m : Exec σ ε α} : Wp (fun _ => True) m (fun _ _ => True) s :=
  ⟨fun _ _ _ => trivial, fun _ _ => trivial⟩

theorem Wp.of_ends {m : Exec σ ε α} {Q : α → σ → Prop} {a : α} {t : σ} (h : Ends m s a t)
    (hQ : Q a t) : Wp E m Q s := by
  refine ⟨fun b u hb => ?_, fun e he => absurd he h.not_faults⟩
  obtain ⟨rfl, rfl⟩ := h.unique hb
  exact hQ

theorem Wp.ends {m : Exec σ ε α} {Q : α → σ → Prop} (h : Wp (fun _ => False) m Q s) :
    ∃ a t, Ends m s a t ∧ Q a t := by
  rcases ends_or_faults m s with ⟨a, t, he⟩ | ⟨e, he⟩
  · exact ⟨a, t, he, h.1 a t he⟩
  · exact (h.2 e he).elim

@[simp] theorem wp_bind {x : Exec σ ε α} {f : α → Exec σ ε β} {Q : β → σ → Prop} :
    Wp E (x >>= f) Q s ↔ Wp E x (fun a t => Wp E (f a) Q t) s := by
  unfold Wp
  simp only [ends_bind, faults_bind]
  constructor
  · rintro ⟨hq, he⟩
    exact ⟨fun a t ha => ⟨fun b u hb => hq b u ⟨a, t, ha, hb⟩,
      fun e hf => he e (Or.inr ⟨a, t, ha, hf⟩)⟩, fun e hf => he e (Or.inl hf)⟩
  · rintro ⟨hq, he⟩
    refine ⟨?_, ?_⟩
    · rintro b u ⟨a, t, ha, hb⟩
      exact (hq a t ha).1 b u hb
    · rintro e (hf | ⟨a, t, ha, hf⟩)
      · exact he e hf
      · exact (hq a t ha).2 e hf

theorem Wp.bind {x : Exec σ ε α} {f : α → Exec σ ε β} {P : α → σ → Prop} {Q : β → σ → Prop}
    (hx : Wp E x P s) (hf : ∀ a t, P a t → Wp E (f a) Q t) : Wp E (x >>= f) Q s :=
  wp_bind.mpr (hx.mono hf)

/-- Programs that go on in the same way after all that a first one may leave run alike. -/
theorem Wp.run_congr {m : Exec σ ε α} {P : α → σ → Prop} {f g : α → Exec σ ε β}
    (h : Wp E m P s) (hfg : ∀ a t, P a t → (f a).run t = (g a).run t) :
    (m >>= f).run s = (m >>= g).run s := by
  rw [StateT.run_bind, StateT.run_bind]
  cases hm : m.run s with
  | error e => rfl
  | ok r => exact hfg r.1 r.2 (h.1 r.1 r.2 hm)

theorem Wp.seq {γ : Type} {x : Exec σ ε α} {y : Exec σ ε β} {f : β → Exec σ ε γ}
    {P : β → σ → Prop} {Q : γ → σ → Prop} (hxy : Wp E (x >>= fun _ => y) P s)
    (hf : ∀ b t, P b t → Wp E (f b) Q t) : Wp E (x >>= fun _ => y >>= f) Q s :=
  wp_bind.mpr ((wp_bind.mp hxy).mono fun _ _ h => h.bind hf)

@[simp] theorem wp_pure {a : α} {Q : α → σ → Prop} :
    Wp E (pure a : Exec σ ε α) Q s ↔ Q a s := by
  simp [Wp]

@[simp] theorem wp_get {Q : σ → σ → Prop} : Wp E (get : Exec σ ε σ) Q s ↔ Q s s := by
  simp [Wp]

@[simp] theorem wp_set {u : σ} {Q : PUnit → σ → Prop} :
    Wp E (set u : Exec σ ε PUnit) Q s ↔ Q ⟨⟩ u := by
  simp only [Wp, ends_set, faults_set, false_imp_iff, implies_true, and_true]
  exact ⟨fun h => h ⟨⟩ u rfl, fun h a t ht => ht ▸ h⟩

@[simp] theorem wp_modify {f : σ → σ} {Q : PUnit → σ → Prop} :
    Wp E (modify f : Exec σ ε PUnit) Q s ↔ Q ⟨⟩ (f s) := by
  simp only [Wp, ends_modify, faults_modify, false_imp_iff, implies_true, and_true]
  exact ⟨fun h => h ⟨⟩ (f s) rfl, fun h a t ht => ht ▸ h⟩

@[simp] theorem wp_throw {e : ε} {Q : α → σ → Prop} :
    Wp E (throw e : Exec σ ε α) Q s ↔ E e := by
  simp [Wp]

@[simp] theorem wp_map {x : Exec σ ε α} {f : α → β} {Q : β → σ → Prop} :
    Wp E (f <$> x) Q s ↔ Wp E x (fun a t => Q (f a) t) s := by
  rw [map_eq_pure_bind]
  simp only [wp_bind, wp_pure]

@[simp] theorem wp_zoom {get : σ → τ} {put : τ → σ → σ} {m : Exec τ ε α} {Q : α → σ → Prop} :
    Wp E (zoom get put m) Q s ↔ Wp E m (fun a u => Q a (put u s)) (get s) := by
  unfold Wp
  simp only [ends_zoom, faults_zoom]
  constructor
  · rintro ⟨hq, he⟩
    exact ⟨fun a u hu => hq a _ ⟨u, hu, rfl⟩, he⟩
  · rintro ⟨hq, he⟩
    refine ⟨?_, he⟩
    rintro a _ ⟨u, hu, rfl⟩
    exact hq a u hu

theorem Wp.search {f : ℕ → Exec σ ε (Option β)} {I : ℕ → σ → Prop} {Q : Option β → σ → Prop}
    {k n : ℕ} (hI : I k s)
    (hstep : ∀ i s, k ≤ i → i < k + n → I i s → Wp E (f i) (fun r t => match r with
      | none => I (i + 1) t
      | some b => Q (some b) t) s)
    (hend : ∀ t, I (k + n) t → Q none t) : Wp E (Exec.search f k n) Q s := by
  induction n generalizing k s with
  | zero => exact wp_pure.mpr (hend s hI)
  | succ n ih =>
    rw [search_succ, wp_bind]
    refine (hstep k s (Nat.le_refl k) (by omega) hI).mono fun r t hr => ?_
    cases r with
    | some b => exact wp_pure.mpr hr
    | none =>
      refine ih hr (fun i s hi hi' => hstep i s (by omega) (by omega)) fun t ht => hend t ?_
      rwa [show k + (n + 1) = k + 1 + n by omega]

end Xv6Sheet.Exec
