import Mathlib.Data.Nat.Basic
import Mathlib.Tactic.Common

/-! # Running stateful programs

Programs over a state that may stop with a fault. A run either ends with a value
and a state or faults. The rules below take a run apart along its binds, and carry
an invariant through a bounded search loop.
-/

namespace Xv6Sheet

variable {σ ε α β γ : Type}

/-- Programs over the state `σ` that may stop with a fault in `ε`. -/
abbrev Exec (σ ε α : Type) := StateT σ (Except ε) α

namespace Exec

/-- The program started in `s` ends with the value `a` in the state `t`. -/
def Ends (m : Exec σ ε α) (s : σ) (a : α) (t : σ) : Prop :=
  m.run s = .ok (a, t)

/-- The program started in `s` stops with the fault `e`. -/
def Faults (m : Exec σ ε α) (s : σ) (e : ε) : Prop :=
  m.run s = .error e

theorem Ends.unique {m : Exec σ ε α} {s t t' : σ} {a a' : α}
    (h : Ends m s a t) (h' : Ends m s a' t') : a = a' ∧ t = t' := by
  have he : (Except.ok (a, t) : Except ε _) = .ok (a', t') := h.symm.trans h'
  simpa using he

theorem Ends.not_faults {m : Exec σ ε α} {s t : σ} {a : α} {e : ε}
    (h : Ends m s a t) : ¬ Faults m s e := by
  intro hf
  have he : (Except.ok (a, t) : Except ε _) = .error e := h.symm.trans hf
  simp at he

theorem Faults.unique {m : Exec σ ε α} {s : σ} {e e' : ε}
    (h : Faults m s e) (h' : Faults m s e') : e = e' := by
  have he : (Except.error e : Except ε (α × σ)) = .error e' := h.symm.trans h'
  simpa using he

theorem ends_or_faults (m : Exec σ ε α) (s : σ) :
    (∃ a t, Ends m s a t) ∨ ∃ e, Faults m s e := by
  unfold Ends Faults
  cases m.run s with
  | ok r => exact Or.inl ⟨r.1, r.2, rfl⟩
  | error e => exact Or.inr ⟨e, rfl⟩

@[simp] theorem ends_bind {x : Exec σ ε α} {f : α → Exec σ ε β} {s u : σ} {b : β} :
    Ends (x >>= f) s b u ↔ ∃ a t, Ends x s a t ∧ Ends (f a) t b u := by
  unfold Ends
  rw [StateT.run_bind]
  cases x.run s with
  | ok r => simp [bind, Except.bind, Prod.ext_iff]
  | error e => simp [bind, Except.bind]

theorem Ends.bind {x : Exec σ ε α} {f : α → Exec σ ε β} {s t u : σ} {a : α} {b : β}
    (h : Ends x s a t) (h' : Ends (f a) t b u) : Ends (x >>= f) s b u :=
  ends_bind.mpr ⟨a, t, h, h'⟩

theorem Ends.run_bind {x : Exec σ ε α} {s t : σ} {a : α} (h : Ends x s a t)
    (f : α → Exec σ ε β) : (x >>= f).run s = (f a).run t := by
  rw [StateT.run_bind, h]
  rfl

@[simp] theorem faults_bind {x : Exec σ ε α} {f : α → Exec σ ε β} {s : σ} {e : ε} :
    Faults (x >>= f) s e ↔ Faults x s e ∨ ∃ a t, Ends x s a t ∧ Faults (f a) t e := by
  unfold Ends Faults
  rw [StateT.run_bind]
  cases x.run s with
  | ok r => simp [bind, Except.bind, Prod.ext_iff]
  | error e => simp [bind, Except.bind]

theorem Ends.faults_iff {x : Exec σ ε α} {s t : σ} {a : α} (h : Ends x s a t)
    (f : α → Exec σ ε β) (e : ε) : Faults (x >>= f) s e ↔ Faults (f a) t e := by
  unfold Faults
  rw [h.run_bind]

@[simp] theorem ends_pure {a b : α} {s t : σ} :
    Ends (pure a : Exec σ ε α) s b t ↔ b = a ∧ t = s := by
  unfold Ends
  rw [StateT.run_pure]
  simp [pure, Except.pure, eq_comm]

@[simp] theorem faults_pure {a : α} {s : σ} {e : ε} :
    ¬ Faults (pure a : Exec σ ε α) s e := by
  unfold Faults
  rw [StateT.run_pure]
  simp [pure, Except.pure]

@[simp] theorem ends_get {s t a : σ} :
    Ends (get : Exec σ ε σ) s a t ↔ a = s ∧ t = s := by
  simp [Ends, pure, Except.pure, eq_comm]

theorem ends_get_bind {f : σ → Exec σ ε β} {s u : σ} {b : β} :
    Ends (get >>= f) s b u ↔ Ends (f s) s b u := by
  simp [and_assoc]

@[simp] theorem faults_get {s : σ} {e : ε} : ¬ Faults (get : Exec σ ε σ) s e := by
  simp [Faults, pure, Except.pure]

theorem faults_get_bind {f : σ → Exec σ ε β} {s : σ} {e : ε} :
    Faults (get >>= f) s e ↔ Faults (f s) s e := by
  simp

@[simp] theorem ends_set {s t u : σ} {a : PUnit} :
    Ends (set u : Exec σ ε PUnit) s a t ↔ t = u := by
  simp [Ends, pure, Except.pure, eq_comm]

@[simp] theorem faults_set {s u : σ} {e : ε} : ¬ Faults (set u : Exec σ ε PUnit) s e := by
  simp [Faults, pure, Except.pure]

@[simp] theorem ends_modify {f : σ → σ} {s t : σ} {a : PUnit} :
    Ends (modify f : Exec σ ε PUnit) s a t ↔ t = f s := by
  simp [Ends, pure, Except.pure, eq_comm]

@[simp] theorem faults_modify {f : σ → σ} {s : σ} {e : ε} :
    ¬ Faults (modify f : Exec σ ε PUnit) s e := by
  simp [Faults, pure, Except.pure]

@[simp] theorem ends_throw {e : ε} {s t : σ} {a : α} :
    ¬ Ends (throw e : Exec σ ε α) s a t := by
  simp [Ends, throw, throwThe, MonadExceptOf.throw, StateT.lift, StateT.run, bind, Except.bind]

@[simp] theorem faults_throw {e e' : ε} {s : σ} :
    Faults (throw e : Exec σ ε α) s e' ↔ e' = e := by
  simp [Faults, throw, throwThe, MonadExceptOf.throw, StateT.lift, StateT.run, bind,
    Except.bind, eq_comm]

@[simp] theorem ends_map {x : Exec σ ε α} {f : α → β} {s t : σ} {b : β} :
    Ends (f <$> x) s b t ↔ ∃ a, Ends x s a t ∧ b = f a := by
  rw [map_eq_pure_bind]
  simp only [ends_bind, ends_pure]
  constructor
  · rintro ⟨a, u, h, rfl, rfl⟩; exact ⟨a, h, rfl⟩
  · rintro ⟨a, h, rfl⟩; exact ⟨a, t, h, rfl, rfl⟩

@[simp] theorem faults_map {x : Exec σ ε α} {f : α → β} {s : σ} {e : ε} :
    Faults (f <$> x) s e ↔ Faults x s e := by
  rw [map_eq_pure_bind]
  simp only [faults_bind, faults_pure, and_false, exists_false, or_false]

def after (m : Exec σ ε α) (s : σ) : σ :=
  match m.run s with
  | .ok r => r.2
  | .error _ => s

theorem ends_after {m : Exec σ ε α} {s : σ} (h : (m.run s).isOk = true) :
    ∃ a, Ends m s a (after m s) := by
  rcases ends_or_faults m s with ⟨a, t, he⟩ | ⟨e, he⟩
  · have ht : after m s = t := by
      unfold after
      rw [show m.run s = .ok (a, t) from he]
    exact ⟨a, ht ▸ he⟩
  · rw [show m.run s = .error e from he] at h
    simp [Except.isOk, Except.toBool] at h

def answer (m : Exec σ ε α) (s : σ) : Option α :=
  match m.run s with
  | .ok r => some r.1
  | .error _ => none

theorem ends_answer {m : Exec σ ε α} {s : σ} {a : α} (h : answer m s = some a) :
    Ends m s a (after m s) := by
  rcases ends_or_faults m s with ⟨b, t, he⟩ | ⟨e, he⟩
  · unfold answer at h
    rw [show m.run s = .ok (b, t) from he] at h
    obtain rfl := Option.some.inj h
    unfold after
    rw [show m.run s = .ok (b, t) from he]
    exact he
  · unfold answer at h
    rw [show m.run s = .error e from he] at h
    cases h

def fault (m : Exec σ ε α) (s : σ) : Option ε :=
  match m.run s with
  | .ok _ => none
  | .error e => some e

theorem faults_of_fault {m : Exec σ ε α} {s : σ} {e : ε} (h : fault m s = some e) :
    Faults m s e := by
  rcases ends_or_faults m s with ⟨a, t, he⟩ | ⟨e', he⟩
  · unfold fault at h
    rw [show m.run s = .ok (a, t) from he] at h
    cases h
  · unfold fault at h
    rw [show m.run s = .error e' from he] at h
    obtain rfl := Option.some.inj h
    exact he

def zoom {τ : Type} (get : σ → τ) (put : τ → σ → σ) (m : Exec τ ε α) : Exec σ ε α :=
  StateT.mk fun s => (m.run (get s)).map fun r => (r.1, put r.2 s)

@[simp] theorem ends_zoom {τ : Type} {get : σ → τ} {put : τ → σ → σ} {m : Exec τ ε α}
    {s t : σ} {a : α} :
    Ends (zoom get put m) s a t ↔ ∃ u, Ends m (get s) a u ∧ t = put u s := by
  unfold Ends
  rw [zoom, StateT.run_mk]
  cases m.run (get s) with
  | ok r => simp [Except.map, Prod.ext_iff, eq_comm]
  | error e => simp [Except.map]

@[simp] theorem faults_zoom {τ : Type} {get : σ → τ} {put : τ → σ → σ} {m : Exec τ ε α}
    {s : σ} {e : ε} : Faults (zoom get put m) s e ↔ Faults m (get s) e := by
  unfold Faults
  rw [zoom, StateT.run_mk]
  cases m.run (get s) with
  | ok r => simp [Except.map]
  | error e => simp [Except.map]

theorem zoom_bind {τ : Type} (get : σ → τ) (put : τ → σ → σ) (hget : ∀ u s, get (put u s) = u)
    (hput : ∀ u v s, put v (put u s) = put v s) (x : Exec τ ε α) (f : α → Exec τ ε β) :
    zoom get put (x >>= f) = zoom get put x >>= fun a => zoom get put (f a) := by
  refine StateT.ext fun s => ?_
  rw [StateT.run_bind, zoom, zoom, StateT.run_mk, StateT.run_mk, StateT.run_bind]
  cases x.run (get s) with
  | error e => rfl
  | ok r =>
    show ((f r.1).run r.2).map _ = (zoom get put (f r.1)).run (put r.2 s)
    rw [zoom, StateT.run_mk, hget]
    refine congrArg (((f r.1).run r.2).map ·) (funext fun q => ?_)
    rw [hput]

theorem zoom_pure {τ : Type} (get : σ → τ) (put : τ → σ → σ) (hput : ∀ s, put (get s) s = s)
    (a : α) : zoom get put (pure a : Exec τ ε α) = pure a := by
  refine StateT.ext fun s => ?_
  show Except.ok (a, put (get s) s) = Except.ok (a, s)
  rw [hput]

/-- The loop `for (i = k; i < k + n; i++)`, left at the first `some` its body gives. -/
def search (f : ℕ → Exec σ ε (Option β)) : ℕ → ℕ → Exec σ ε (Option β)
  | _, 0 => pure none
  | k, n + 1 => do
    match ← f k with
    | some b => pure (some b)
    | none => search f (k + 1) n

@[simp] theorem search_zero (f : ℕ → Exec σ ε (Option β)) (k : ℕ) :
    search f k 0 = pure none := rfl

theorem search_succ (f : ℕ → Exec σ ε (Option β)) (k n : ℕ) :
    search f k (n + 1) = (f k >>= fun r => match r with
      | some b => pure (some b)
      | none => search f (k + 1) n) := rfl

/-- The loop `for (i = k; i < k + n; i++)` run to its end. -/
def each (f : ℕ → Exec σ ε Unit) : ℕ → ℕ → Exec σ ε Unit
  | _, 0 => pure ()
  | k, n + 1 => do
    f k
    each f (k + 1) n

theorem search_ends {f : ℕ → Exec σ ε (Option β)} {I : ℕ → σ → Prop}
    {Q : β → σ → Prop} {k n : ℕ} {s : σ} (hI : I k s)
    (hstep : ∀ i s, k ≤ i → i < k + n → I i s → ∃ r t, Ends (f i) s r t ∧
      ((r = none ∧ I (i + 1) t) ∨ ∃ b, r = some b ∧ Q b t)) :
    ∃ r t, Ends (search f k n) s r t ∧
      ((r = none ∧ I (k + n) t) ∨ ∃ b, r = some b ∧ Q b t) := by
  induction n generalizing k s with
  | zero => exact ⟨none, s, by simp, Or.inl ⟨rfl, hI⟩⟩
  | succ n ih =>
    obtain ⟨r, u, hr, ⟨rfl, hu⟩ | ⟨b, rfl, hq⟩⟩ := hstep k s (Nat.le_refl _) (by omega) hI
    · obtain ⟨r', t, ht, hres⟩ := ih hu
        (fun i s hi hi' => hstep i s (by omega) (by omega))
      refine ⟨r', t, ?_, ?_⟩
      · rw [search_succ]; exact hr.bind ht
      · rwa [show k + (n + 1) = k + 1 + n by omega]
    · refine ⟨some b, u, ?_, Or.inr ⟨b, rfl, hq⟩⟩
      rw [search_succ]; exact hr.bind (by simp)

theorem each_ends {f : ℕ → Exec σ ε Unit} {I : ℕ → σ → Prop} {k n : ℕ} {s : σ} (hI : I k s)
    (hstep : ∀ i s, k ≤ i → i < k + n → I i s → ∃ t, Ends (f i) s () t ∧ I (i + 1) t) :
    ∃ t, Ends (each f k n) s () t ∧ I (k + n) t := by
  induction n generalizing k s with
  | zero => exact ⟨s, ends_pure.mpr ⟨rfl, rfl⟩, hI⟩
  | succ n ih =>
    obtain ⟨u, hu, hI⟩ := hstep k s (Nat.le_refl _) (by omega) hI
    obtain ⟨t, ht, hI⟩ := ih hI fun i s hi hi' => hstep i s (by omega) (by omega)
    refine ⟨t, hu.bind ht, ?_⟩
    rwa [show k + (n + 1) = k + 1 + n by omega]

def Leaves {τ : Type} (f : σ → τ) (m : Exec σ ε α) : Prop := ∀ s a t, Ends m s a t → f t = f s

namespace Leaves

variable {τ υ : Type} {f : σ → τ}

theorem pure (a : α) : Leaves f (Pure.pure a : Exec σ ε α) := fun _ _ _ h => by
  rw [(ends_pure.mp h).2]

theorem throw (e : ε) : Leaves f (MonadExcept.throw e : Exec σ ε α) := fun _ _ _ h =>
  absurd h ends_throw

theorem bind {x : Exec σ ε α} {g : α → Exec σ ε β} (hx : Leaves f x) (hg : ∀ a, Leaves f (g a)) :
    Leaves f (x >>= g) := fun s b u h => by
  obtain ⟨a, t, ha, hb⟩ := ends_bind.mp h
  exact (hg a t b u hb).trans (hx s a t ha)

theorem get : Leaves f (MonadState.get : Exec σ ε σ) := fun _ _ _ h => by
  rw [(ends_get.mp h).2]

theorem set_of {u : σ} {g : PUnit → Exec σ ε β} (hg : Leaves f (g ⟨⟩)) {s t : σ} {b : β}
    (h : Ends (set u >>= g) s b t) (hu : f u = f s) : f t = f s := by
  obtain ⟨_, v, hv, hb⟩ := ends_bind.mp h
  obtain rfl := ends_set.mp hv
  exact (hg _ b t hb).trans hu

theorem of_modify {g : σ → σ} (h : ∀ s, f (g s) = f s) :
    Leaves f (modify g : Exec σ ε PUnit) := fun s _ t ht => by
  rw [ends_modify.mp ht, h]

theorem search {g : ℕ → Exec σ ε (Option β)} (hg : ∀ i, Leaves f (g i)) (k n : ℕ) :
    Leaves f (Exec.search g k n) := by
  induction n generalizing k with
  | zero => exact .pure none
  | succ n ih =>
    refine (hg k).bind fun r => ?_
    cases r with
    | none => exact ih (k + 1)
    | some b => exact .pure (some b)

theorem zoom {get : σ → υ} {put : υ → σ → σ} (h : ∀ u s, f (put u s) = f s) (m : Exec υ ε α) :
    Leaves f (Exec.zoom get put m) := fun s _ t ht => by
  obtain ⟨u, -, rfl⟩ := ends_zoom.mp ht
  exact h u s

end Leaves

end Exec

end Xv6Sheet
