import Xv6Sheet.Lib.Exec

/-! # Programs in lockstep

Two programs are in lockstep when, from related states, they end with related answers in
related states or stop with the same fault. Lockstep goes through binds and sequences of
calls.
-/

namespace Xv6Sheet

open Exec

variable {σ τ ε α β γ δ κ κ' : Type}

/-- From states in `R`, the programs end with answers in `Q` and states in `R`, or stop with
the same fault. -/
def Lockstep (R : σ → τ → Prop) (Q : α → β → Prop) (x : Exec σ ε α) (y : Exec τ ε β) : Prop :=
  ∀ s t, R s t →
    (∀ a s', Ends x s a s' → ∃ b t', Ends y t b t' ∧ Q a b ∧ R s' t') ∧
      ∀ e, Faults x s e → Faults y t e

namespace Lockstep

variable {R : σ → τ → Prop} {Q Q' : α → β → Prop} {P : γ → δ → Prop}
  {x : Exec σ ε α} {y : Exec τ ε β}

theorem refl (x : Exec σ ε α) : Lockstep Eq Eq x x := by
  rintro s _ rfl
  exact ⟨fun a s' h => ⟨a, s', h, rfl, rfl⟩, fun _ h => h⟩

theorem pure {a : α} {b : β} (h : Q a b) :
    Lockstep R Q (Pure.pure a : Exec σ ε α) (Pure.pure b) := by
  intro s t hst
  refine ⟨fun a' s' h' => ?_, fun e h' => absurd h' faults_pure⟩
  obtain ⟨rfl, rfl⟩ := ends_pure.mp h'
  exact ⟨b, t, ends_pure.mpr ⟨rfl, rfl⟩, h, hst⟩

theorem throw (e : ε) : Lockstep R Q (MonadExcept.throw e : Exec σ ε α) (MonadExcept.throw e) := by
  intro s t _
  refine ⟨fun a s' h => absurd h ends_throw, fun e' h => ?_⟩
  obtain rfl := faults_throw.mp h
  exact faults_throw.mpr rfl

theorem bind (hxy : Lockstep R Q x y) {f : α → Exec σ ε γ} {g : β → Exec τ ε δ}
    (hfg : ∀ a b, Q a b → Lockstep R P (f a) (g b)) : Lockstep R P (x >>= f) (y >>= g) := by
  intro s t hst
  obtain ⟨hend, hfault⟩ := hxy s t hst
  constructor
  · intro c s'' h
    obtain ⟨a, s', hx, hf⟩ := ends_bind.mp h
    obtain ⟨b, t', hy, hab, hst'⟩ := hend a s' hx
    obtain ⟨d, t'', hg, hcd, hst''⟩ := (hfg a b hab s' t' hst').1 c s'' hf
    exact ⟨d, t'', hy.bind hg, hcd, hst''⟩
  · intro e h
    rw [faults_bind] at h ⊢
    rcases h with hx | ⟨a, s', hx, hf⟩
    · exact .inl (hfault e hx)
    · obtain ⟨b, t', hy, hab, hst'⟩ := hend a s' hx
      exact .inr ⟨b, t', hy, (hfg a b hab s' t' hst').2 e hf⟩

theorem mono (h : Lockstep R Q x y) (hQ : ∀ a b, Q a b → Q' a b) : Lockstep R Q' x y := by
  intro s t hst
  refine ⟨fun a s' hx => ?_, (h s t hst).2⟩
  obtain ⟨b, t', hy, hab, hst'⟩ := (h s t hst).1 a s' hx
  exact ⟨b, t', hy, hQ a b hab, hst'⟩

theorem ite {p q : Prop} [Decidable p] [Decidable q] (hpq : p ↔ q) {x' : Exec σ ε α}
    {y' : Exec τ ε β} (hthen : p → Lockstep R Q x y) (helse : ¬ p → Lockstep R Q x' y') :
    Lockstep R Q (if p then x else x') (if q then y else y') := by
  by_cases hp : p
  · rw [if_pos hp, if_pos (hpq.mp hp)]
    exact hthen hp
  · rw [if_neg hp, if_neg (mt hpq.mpr hp)]
    exact helse hp

theorem mapM {f : κ → Exec σ ε α} {g : κ → Exec τ ε α} {cs : List κ}
    (h : ∀ c ∈ cs, Lockstep R Eq (f c) (g c)) : Lockstep R Eq (cs.mapM f) (cs.mapM g) := by
  induction cs with
  | nil => exact pure rfl
  | cons c cs ih =>
    rw [List.mapM_cons, List.mapM_cons]
    refine (h c List.mem_cons_self).bind ?_
    rintro a _ rfl
    refine (ih fun c hc => h c (List.mem_cons_of_mem _ hc)).bind ?_
    rintro as _ rfl
    exact pure rfl

theorem foldlM {V : γ → δ → Prop} {f : γ → κ → Exec σ ε γ} {g : δ → κ → Exec τ ε δ}
    (h : ∀ v w c, V v w → Lockstep R V (f v c) (g w c)) (cs : List κ) {v : γ} {w : δ}
    (hvw : V v w) : Lockstep R V (cs.foldlM f v) (cs.foldlM g w) := by
  induction cs generalizing v w with
  | nil => exact pure hvw
  | cons c cs ih =>
    rw [List.foldlM_cons, List.foldlM_cons]
    exact (h v w c hvw).bind fun _ _ => ih

theorem eq {x y : Exec σ ε α} (h : Lockstep Eq Eq x y) : x = y := by
  refine StateT.ext fun s => ?_
  obtain ⟨hend, hfault⟩ := h s s rfl
  rcases ends_or_faults x s with ⟨a, t, hx⟩ | ⟨e, hx⟩
  · obtain ⟨_, _, hy, rfl, rfl⟩ := hend a t hx
    exact Eq.trans hx hy.symm
  · exact Eq.trans hx (hfault e hx).symm

theorem back (h : Lockstep R Q x y) {s : σ} {t : τ} (hst : R s t) :
    (∀ b t', Ends y t b t' → ∃ a s', Ends x s a s' ∧ Q a b ∧ R s' t') ∧
      ∀ e, Faults y t e → Faults x s e := by
  obtain ⟨hend, hfault⟩ := h s t hst
  rcases ends_or_faults x s with ⟨a, s', hx⟩ | ⟨e, hx⟩
  · obtain ⟨b, t', hy, hab, hst'⟩ := hend a s' hx
    refine ⟨fun b₁ t₁ hy₁ => ?_, fun e he => absurd he hy.not_faults⟩
    obtain ⟨rfl, rfl⟩ := hy₁.unique hy
    exact ⟨a, s', hx, hab, hst'⟩
  · have hy := hfault e hx
    refine ⟨fun b t' hy' => absurd hy hy'.not_faults, fun e' hy' => ?_⟩
    have he : (Except.error e : Except ε (β × τ)) = .error e' := hy.symm.trans hy'
    obtain rfl := Except.error.inj he
    exact hx

end Lockstep

end Xv6Sheet
