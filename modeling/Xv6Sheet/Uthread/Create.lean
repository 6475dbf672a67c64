import Xv6Sheet.Uthread.Schedule

/-! # Creating threads

The search of `thread_create` ends at the first free slot, or past the array, and the call
writes in the slot where the search has ended.
-/

namespace Xv6Sheet.Uthread

open Exec

variable [lay : Layout] {s t : Machine} {func : BitVec 64} {k : ℕ}

def HasFree (s : Machine) : Prop := ∃ k < Layout.MAX_THREAD, state s.mem k = FREE

theorem HasFree.find (h : HasFree s) : ∃ k < Layout.MAX_THREAD, freeSlot s.mem = k ∧
    state s.mem k = FREE := by
  obtain ⟨k, hk, hfree⟩ := h
  obtain ⟨j, hj⟩ : ∃ j, (List.range Layout.MAX_THREAD).find? (fun k => state s.mem k = FREE) =
      some j := Option.isSome_iff_exists.mp (List.find?_isSome.mpr ⟨k, by simpa using hk, by simpa⟩)
  refine ⟨j, List.mem_range.mp (List.mem_of_find?_eq_some hj),
    ?_, by simpa using List.find?_some hj⟩
  rw [freeSlot, hj, Option.getD_some]

/-- The search stays in the array exactly when there is a free slot, and then ends at one. -/
theorem freeSlot_lt_iff : freeSlot s.mem < Layout.MAX_THREAD ↔ HasFree s := by
  constructor
  · intro hlt
    refine ⟨freeSlot s.mem, hlt, ?_⟩
    unfold freeSlot at hlt ⊢
    cases h : (List.range Layout.MAX_THREAD).find? fun k => state s.mem k = FREE with
    | none =>
      rw [h] at hlt
      exact absurd hlt (Nat.lt_irrefl _)
    | some k => simpa using List.find?_some h
  · intro h
    obtain ⟨k, hk, hslot, -⟩ := h.find
    rwa [hslot]

theorem state_freeSlot (h : HasFree s) : state s.mem (freeSlot s.mem) = FREE := by
  obtain ⟨k, -, hslot, hfree⟩ := h.find
  rwa [hslot]

/-- The call writes in one slot only, which is the one after the array when none is free. -/
theorem ends_threadCreate_frame (s : Machine) (func : BitVec 64) :
    ∃ t, Ends (threadCreate func) s () t ∧ t.current = s.current ∧
      (∀ a, ¬ (thread (freeSlot s.mem) ≤ a ∧ a < thread (freeSlot s.mem) + threadSize) →
        t.mem a = s.mem a) ∧ state t.mem (freeSlot s.mem) = RUNNABLE := by
  obtain ⟨k, hk⟩ : ∃ k, k = freeSlot s.mem := ⟨_, rfl⟩
  obtain ⟨m₁, hm₁⟩ : ∃ m, m = setState s.mem k RUNNABLE := ⟨_, rfl⟩
  obtain ⟨m₂, hm₂⟩ : ∃ m, m = m₁.copy (context k) (fun _ => 0) 0 contextSize := ⟨_, rfl⟩
  obtain ⟨m₃, hm₃⟩ : ∃ m, m = m₂.putLe (context k + Saved.ra.offset) 8 func.toNat := ⟨_, rfl⟩
  obtain ⟨m₄, hm₄⟩ : ∃ m, m = m₃.putLe (context k + Saved.sp.offset) 8
    ((thread k + STACK_SIZE) % 2 ^ 64) := ⟨_, rfl⟩
  -- all but the state is written in the context
  have hctx : ∀ a, ¬ (context k ≤ a ∧ a < context k + contextSize) → m₄ a = m₁ a := fun a ha => by
    have hra := Saved.ra.offset_lt
    have hsp := Saved.sp.offset_lt
    rw [hm₄, Bytes.putLe_of_not_mem (by omega), hm₃, Bytes.putLe_of_not_mem (by omega), hm₂,
      Bytes.copy_of_not_mem ha]
  refine ⟨{ s with mem := m₄ }, ?_, rfl, fun a ha => ?_, ?_⟩
  · rw [threadCreate, ends_get_bind, ← hk]
    simp only [modifyMem, ends_bind, ends_modify]
    exact ⟨(), _, rfl, (), _, rfl, (), _, rfl, by rw [hm₄, hm₃, hm₂, hm₁]⟩
  · rw [← hk] at ha
    have hout : ¬ (context k ≤ a ∧ a < context k + contextSize) := by
      simp only [context, contextOffset, contextSize, threadSize] at *
      omega
    dsimp only
    rw [hctx a hout, hm₁]
    refine Bytes.putLe_of_not_mem ?_
    simp only [STACK_SIZE, threadSize] at *
    omega
  · rw [← hk]
    dsimp only
    rw [state_of_context hctx, hm₁, state_setState (by decide), if_pos rfl]

/-- The call uses a slot of the array. It writes only there, and the slot was free; without a free
slot it writes nothing. The current thread stays the same. -/
def CreatesSafely (s : Machine) (func : BitVec 64) : Prop :=
  freeSlot s.mem < Layout.MAX_THREAD ∧ ∃ t, Ends (threadCreate func) s () t ∧
  t.current = s.current ∧
    (HasFree s → state s.mem (freeSlot s.mem) = FREE ∧
      ∀ a, ¬ (thread (freeSlot s.mem) ≤ a ∧ a < thread (freeSlot s.mem) + threadSize) →
        t.mem a = s.mem a) ∧
    (¬ HasFree s → t.mem = s.mem)

theorem createsSafely_iff : CreatesSafely s func ↔ HasFree s := by
  constructor
  · rintro ⟨hlt, -⟩
    exact freeSlot_lt_iff.mp hlt
  · intro h
    obtain ⟨t, ht, hcur, hframe, -⟩ := ends_threadCreate_frame s func
    exact ⟨freeSlot_lt_iff.mpr h, t, ht, hcur,
      fun _ => ⟨state_freeSlot h, hframe⟩, fun hno => absurd h hno⟩

/-- In a run that creates threads while there are free slots no call disturbs another thread. From
each state of such a run the next call is safe exactly when there is a free slot. -/
theorem create_disturbs_none (tr : List (Taken Machine Call)) (s : Machine)
    (h : Traced step guard Start tr s) :
    (∀ p ∈ tr, ∀ func, p.call = .create func → CreatesSafely p.before func) ∧
      ∀ func, CreatesSafely s func ↔ HasFree s := by
  refine ⟨?_, fun func => createsSafely_iff⟩
  induction h with
  | init => simp
  | @call s t c a tr htr hg he ih =>
    intro p hp func hcall
    rcases List.mem_cons.mp hp with rfl | hp
    · dsimp only at hcall ⊢
      subst hcall
      exact createsSafely_iff.mpr hg
    · exact ih p hp func hcall

section Small

omit lay

abbrev four : Layout := ⟨4, 0, by decide, by decide⟩

/-- The machine after `thread_init` on the array of `four`. -/
def fourStart : Machine :=
  letI := four
  ⟨setState (fun _ => 0) 0 RUNNING, fun _ => 0, 0, 0⟩

theorem fourStart_start : letI := four; Start fourStart :=
  ⟨⟨fun _ => 0, fun _ => 0, 0, 0⟩, fun _ _ => rfl, rfl⟩

theorem create_disturbs_none_small : letI := four
    CreatesSafely (afterAll step [.create 4] fourStart) 8 := by
  let _ := four
  have htr : Traced step guard Start (stepsAll step [.create 4] fourStart ++ []) _ :=
    Traced.calls (.init fourStart_start) (by decide +kernel)
  exact ((create_disturbs_none _ _ htr).2 8).mpr ⟨2, by decide, by decide +kernel⟩

/-- After three calls no slot is free, and the fourth call writes after the array. -/
theorem create_past_array : letI := four
    ∃ s t, Reached step guard Start s ∧ Ends (threadCreate 16) s () t ∧ ¬ CreatesSafely s 16 ∧
      freeSlot s.mem = Layout.MAX_THREAD ∧ state s.mem Layout.MAX_THREAD = 0 ∧
      state t.mem Layout.MAX_THREAD = RUNNABLE := by
  let _ := four
  obtain ⟨s, hs⟩ : ∃ s, s = afterAll step [.create 4, .create 8, .create 12] fourStart := ⟨_, rfl⟩
  have htr : Traced step guard Start (stepsAll step [.create 4, .create 8, .create 12] fourStart ++
    []) s := by
    rw [hs]
    exact Traced.calls (.init fourStart_start) (by decide +kernel)
  have hslot : freeSlot s.mem = Layout.MAX_THREAD := by
    rw [hs]
    decide +kernel
  obtain ⟨t, ht, -, -, hstate⟩ := ends_threadCreate_frame s 16
  rw [hslot] at hstate
  refine ⟨s, t, htr.reached, ht, fun hsafe => ?_, hslot, ?_, hstate⟩
  · exact absurd hsafe.1 (by rw [hslot]; exact Nat.lt_irrefl _)
  · rw [hs]
    decide +kernel

end Small

end Xv6Sheet.Uthread
