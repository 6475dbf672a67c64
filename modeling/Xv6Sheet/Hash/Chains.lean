import Xv6Sheet.Hash.Table

/-! # The chains of the buckets

With or without locks, whatever the schedule: every pointer a thread can follow leads into a
chain of complete entries of one bucket. An entry is written only by the thread that
allocated it until it is complete, and then no step changes its key or its next pointer, so
that a chain once built stays.
-/

namespace Xv6Sheet.Hash

def nexts (heap : ℕ → Option Entry) (b : Fin NBUCKET) (a : ℕ) : Option (Option ℕ) :=
  (heap a).bind fun e => if e.Complete ∧ bucket e.key = b then some e.next else none

theorem nexts_eq_some {heap : ℕ → Option Entry} {b : Fin NBUCKET} {a : ℕ} {q : Option ℕ} :
    nexts heap b a = some q ↔
      ∃ e, heap a = some e ∧ e.Complete ∧ bucket e.key = b ∧ e.next = q := by
  simp [nexts, Option.bind_eq_some_iff, and_assoc]

namespace Pc

def op : Pc → Option Op
  | idle | unlock _ => none
  | first op | test op _ | next op _ => some op
  | lock key value | update key value _ | insert key value | malloc key value _ |
    setKey key value _ _ | setValue key value _ _ | setNext key value _ _ |
    link key value _ _ => some (.put key value)

def owned : Pc → Option ℕ
  | setKey _ _ _ a | setValue _ _ _ a | setNext _ _ _ a => some a
  | _ => none

def Holds (heap : ℕ → Option Entry) : Pc → Prop
  | test op e => ∃ l, Chain (nexts heap (bucket op.key)) e l
  | next op a => ∃ l, Chain (nexts heap (bucket op.key)) (some a) l
  | update key _ a => ∃ e, heap a = some e ∧ e.Complete ∧ e.key = key
  | malloc key _ n => ∃ l, Chain (nexts heap (bucket key)) n l
  | setKey key _ n a => (∃ l, Chain (nexts heap (bucket key)) n l) ∧
      ∃ e, heap a = some e ∧ e.nextSet = false
  | setValue key _ n a => (∃ l, Chain (nexts heap (bucket key)) n l) ∧
      ∃ e, heap a = some e ∧ e.nextSet = false ∧ e.keySet = true ∧ e.key = key
  | setNext key value n a => (∃ l, Chain (nexts heap (bucket key)) n l) ∧
      ∃ e, heap a = some e ∧ e.nextSet = false ∧ e.keySet = true ∧ e.key = key ∧
        e.valueSet = true ∧ e.value = value
  | link key _ n a => (∃ l, Chain (nexts heap (bucket key)) n l) ∧
      ∃ e, heap a = some e ∧ e.Complete ∧ e.key = key ∧ e.next = n
  | _ => True

end Pc

def Keeps (heap heap' : ℕ → Option Entry) : Prop :=
  ∀ a e, heap a = some e → e.Complete →
    ∃ e', heap' a = some e' ∧ e'.Complete ∧ e'.key = e.key ∧ e'.next = e.next

section Heap

variable {heap heap' : ℕ → Option Entry} {b : Fin NBUCKET} {p : Option ℕ} {l : List ℕ} {a : ℕ}

theorem Keeps.refl (heap : ℕ → Option Entry) : Keeps heap heap :=
  fun _ e he hc => ⟨e, he, hc, rfl, rfl⟩

theorem Keeps.chain (hk : Keeps heap heap') (h : Chain (nexts heap b) p l) :
    Chain (nexts heap' b) p l :=
  h.mono fun a q hq => by
    obtain ⟨e, he, hc, hb, hn⟩ := nexts_eq_some.mp hq
    obtain ⟨e', he', hc', hkey, hnext⟩ := hk a e he hc
    exact nexts_eq_some.mpr ⟨e', he', hc', hkey ▸ hb, hnext.trans hn⟩

theorem Keeps.write {e' : Entry} (ha : ∀ e, heap a = some e → ¬ e.Complete) :
    Keeps heap (Function.update heap a (some e')) := by
  intro j e he hc
  have hja : j ≠ a := by
    rintro rfl
    exact ha e he hc
  exact ⟨e, by rwa [Function.update_of_ne hja], hc, rfl, rfl⟩

theorem Keeps.setValue {e : Entry} (ha : heap a = some e) (value : ℤ) :
    Keeps heap (Function.update heap a (some { e with value := value, valueSet := true })) := by
  intro j e' he hc
  rcases eq_or_ne j a with rfl | hja
  · obtain rfl := Option.some.inj (ha.symm.trans he)
    exact ⟨_, Function.update_self .., ⟨hc.1, rfl, hc.2.2⟩, rfl, rfl⟩
  · exact ⟨e', by rwa [Function.update_of_ne hja], hc, rfl, rfl⟩

theorem Pc.Holds.mono {pc : Pc} (hk : Keeps heap heap')
    (hown : ∀ a, pc.owned = some a → heap' a = heap a) (h : pc.Holds heap) : pc.Holds heap' := by
  cases pc with
  | idle => trivial
  | lock => trivial
  | first => trivial
  | insert => trivial
  | unlock => trivial
  | test op e =>
    obtain ⟨l, hl⟩ := h
    exact ⟨l, hk.chain hl⟩
  | next op a =>
    obtain ⟨l, hl⟩ := h
    exact ⟨l, hk.chain hl⟩
  | update key value a =>
    obtain ⟨e, he, hc, hkey⟩ := h
    obtain ⟨e', he', hc', hkey', -⟩ := hk a e he hc
    exact ⟨e', he', hc', hkey'.trans hkey⟩
  | malloc key value n =>
    obtain ⟨l, hl⟩ := h
    exact ⟨l, hk.chain hl⟩
  | setKey key value n a =>
    obtain ⟨⟨l, hl⟩, he⟩ := h
    exact ⟨⟨l, hk.chain hl⟩, by rwa [hown a rfl]⟩
  | setValue key value n a =>
    obtain ⟨⟨l, hl⟩, he⟩ := h
    exact ⟨⟨l, hk.chain hl⟩, by rwa [hown a rfl]⟩
  | setNext key value n a =>
    obtain ⟨⟨l, hl⟩, he⟩ := h
    exact ⟨⟨l, hk.chain hl⟩, by rwa [hown a rfl]⟩
  | link key value n a =>
    obtain ⟨⟨l, hl⟩, e, he, hc, hkey, hnext⟩ := h
    obtain ⟨e', he', hc', hkey', hnext'⟩ := hk a e he hc
    exact ⟨⟨l, hk.chain hl⟩, e', he', hc', hkey'.trans hkey, hnext'.trans hnext⟩

end Heap

variable {ι : Type} [DecidableEq ι] {locked : Bool} {s t : State ι} {i j : ι}

def Put (s : State ι) (key : ℕ) (value : ℤ) : Prop :=
  ∃ i, Op.put key value ∈ (s.thread i).started

structure Inv (s : State ι) : Prop where
  table : ∀ b, ∃ l, Chain (nexts s.heap b) (s.table b) l
  holds : ∀ i, (s.thread i).pc.Holds s.heap
  owner : ∀ i j a, (s.thread i).pc.owned = some a → (s.thread j).pc.owned = some a → i = j
  puts : ∀ a e, s.heap a = some e → e.Complete → Put s e.key e.value
  started : ∀ i op, (s.thread i).pc.op = some op → op ∈ (s.thread i).started

omit [DecidableEq ι] in
theorem Start.inv {program : ι → List Op} (h : Start program s) : Inv s := by
  refine ⟨fun b => ⟨[], ?_⟩, fun i => ?_, fun i j a ha => ?_, fun a e he => ?_, fun i op ho => ?_⟩
  · rw [h.table]
    exact .nil
  · rw [h.thread]
    trivial
  · rw [h.thread] at ha
    simp [Pc.owned] at ha
  · rw [h.heap] at he
    simp at he
  · rw [h.thread] at ho
    simp [Pc.op] at ho

@[simp] theorem thread_setThread (s : State ι) (i j : ι) (x : Thread) :
    (s.setThread i x).thread j = if j = i then x else s.thread j := by
  simp [State.setThread, Function.update_apply]

theorem Inv.of_step (h : Inv s) (hother : ∀ j, j ≠ i → t.thread j = s.thread j)
    (hkeep : Keeps s.heap t.heap)
    (hown : ∀ j a, j ≠ i → (s.thread j).pc.owned = some a → t.heap a = s.heap a ∧
      (t.thread i).pc.owned ≠ some a)
    (htable : ∀ b, t.table b = s.table b ∨ ∃ l, Chain (nexts t.heap b) (t.table b) l)
    (hholds : (t.thread i).pc.Holds t.heap)
    (hstarted : ∀ op ∈ (s.thread i).started, op ∈ (t.thread i).started)
    (hop : ∀ op, (t.thread i).pc.op = some op → op ∈ (t.thread i).started)
    (hputs : ∀ a e, t.heap a = some e → e.Complete →
      s.heap a = some e ∨ Op.put e.key e.value ∈ (t.thread i).started) : Inv t := by
  refine ⟨fun b => ?_, fun j => ?_, fun j k a hj hk => ?_, fun a e he hc => ?_, fun j op ho => ?_⟩
  · rcases htable b with hb | hb
    · obtain ⟨l, hl⟩ := h.table b
      exact ⟨l, hb ▸ hkeep.chain hl⟩
    · exact hb
  · rcases eq_or_ne j i with rfl | hji
    · exact hholds
    · rw [hother j hji]
      exact (h.holds j).mono hkeep fun a ha => (hown j a hji ha).1
  · rcases eq_or_ne j i with rfl | hji
    · by_contra hkj
      rw [hother k (Ne.symm hkj)] at hk
      exact (hown k a (Ne.symm hkj) hk).2 hj
    · rw [hother j hji] at hj
      rcases eq_or_ne k i with rfl | hki
      · exact absurd hk (hown j a hji hj).2
      · rw [hother k hki] at hk
        exact h.owner j k a hj hk
  · rcases hputs a e he hc with he' | hput
    · obtain ⟨j, hj⟩ := h.puts a e he' hc
      rcases eq_or_ne j i with rfl | hji
      · exact ⟨j, hstarted _ hj⟩
      · exact ⟨j, by rwa [hother j hji]⟩
    · exact ⟨i, hput⟩
  · rcases eq_or_ne j i with rfl | hji
    · exact hop op ho
    · rw [hother j hji] at ho ⊢
      exact h.started j op ho

theorem Inv.of_local (h : Inv s) {x : Thread} (hheap : t.heap = s.heap) (htable : t.table = s.table)
    (hthread : t.thread = Function.update s.thread i x) (hown : x.pc.owned = none)
    (hholds : x.pc.Holds s.heap) (hstarted : ∀ op ∈ (s.thread i).started, op ∈ x.started)
    (hop : ∀ op, x.pc.op = some op → op ∈ x.started) : Inv t := by
  have hi : t.thread i = x := by rw [hthread, Function.update_self]
  apply h.of_step (i := i)
  · intro j hj
    rw [hthread, Function.update_of_ne hj]
  · rw [hheap]
    exact .refl _
  · intro j a _ _
    rw [hheap, hi, hown]
    exact ⟨rfl, by simp⟩
  · exact fun b => Or.inl (by rw [htable])
  · rw [hi, hheap]
    exact hholds
  · rwa [hi]
  · rwa [hi]
  · intro a e he _
    rw [hheap] at he
    exact Or.inl he

theorem Inv.of_write (h : Inv s) {a : ℕ} {e : Entry} {pc : Pc}
    (hkeep : Keeps s.heap (Function.update s.heap a (some e)))
    (hfree : ∀ j, j ≠ i → (s.thread j).pc.owned ≠ some a)
    (hown : ∀ b, pc.owned = some b → b = a)
    (hholds : pc.Holds (Function.update s.heap a (some e)))
    (hop : ∀ op, pc.op = some op → op ∈ (s.thread i).started)
    (hput : e.Complete → Op.put e.key e.value ∈ (s.thread i).started) :
    Inv ((s.setEntry a e).goto i pc) := by
  have hi : ((s.setEntry a e).goto i pc).thread i = { s.thread i with pc := pc } := by
    simp [State.goto, State.setEntry]
  apply h.of_step (i := i)
  · intro j hj
    simp [State.goto, State.setEntry, hj]
  · exact hkeep
  · intro j b hj hb
    have hba : b ≠ a := by
      rintro rfl
      exact hfree j hj hb
    rw [hi]
    exact ⟨Function.update_of_ne hba _ _, fun hb' => hba (hown b hb')⟩
  · exact fun b => Or.inl rfl
  · rw [hi]
    exact hholds
  · rw [hi]
    exact fun op hop => hop
  · rw [hi]
    exact hop
  · intro b x hx hc
    have hx' : Function.update s.heap a (some e) b = some x := hx
    rw [hi]
    rcases eq_or_ne b a with rfl | hba
    · rw [Function.update_self, Option.some.injEq] at hx'
      exact Or.inr (hx' ▸ hput (hx' ▸ hc))
    · rw [Function.update_of_ne hba] at hx'
      exact Or.inl hx'

theorem Pc.Holds.owned {heap : ℕ → Option Entry} {pc : Pc} {a : ℕ} (h : pc.Holds heap)
    (ha : pc.owned = some a) : ∃ e, heap a = some e ∧ e.nextSet = false := by
  cases pc with
  | setKey key value n a' =>
    obtain rfl := Option.some.inj ha
    exact h.2
  | setValue key value n a' =>
    obtain rfl := Option.some.inj ha
    obtain ⟨-, e, he, hn, -⟩ := h
    exact ⟨e, he, hn⟩
  | setNext key value n a' =>
    obtain rfl := Option.some.inj ha
    obtain ⟨-, e, he, hn, -⟩ := h
    exact ⟨e, he, hn⟩
  | _ => simp [Pc.owned] at ha

omit [DecidableEq ι] in
theorem Inv.own (h : Inv s) {a : ℕ} (ha : (s.thread i).pc.owned = some a) :
    ∀ j, j ≠ i → (s.thread j).pc.owned ≠ some a :=
  fun j hj hja => hj (h.owner j i a hja ha)

theorem not_complete {e : Entry} (h : e.nextSet = false) : ¬ e.Complete := by
  rintro ⟨-, -, hn⟩
  simp [h] at hn

theorem keeps_of_incomplete {heap : ℕ → Option Entry} {a : ℕ} {e : Entry} (e' : Entry)
    (he : heap a = some e) (hn : e.nextSet = false) :
    Keeps heap (Function.update heap a (some e')) :=
  .write fun _ hx => Option.some.inj (he.symm.trans hx) ▸ not_complete hn

theorem op_afterPut (locked : Bool) (key : ℕ) : (afterPut locked key).op = none := by
  cases locked <;> rfl

theorem owned_afterPut (locked : Bool) (key : ℕ) : (afterPut locked key).owned = none := by
  cases locked <;> rfl

theorem holds_afterPut (locked : Bool) (key : ℕ) (heap : ℕ → Option Entry) :
    (afterPut locked key).Holds heap := by
  cases locked <;> trivial

theorem Move.keeps (h : Inv s) (hm : Move locked i s t) : Keeps s.heap t.heap := by
  have hholds := h.holds i
  cases hm with
  | update hpc he => exact .setValue he _
  | malloc hpc ha => exact .write fun x hx => by simp [ha] at hx
  | setKey hpc he =>
    obtain ⟨x, hx, hn⟩ := hholds.owned (by rw [hpc]; rfl)
    exact keeps_of_incomplete _ he (Option.some.inj (he.symm.trans hx) ▸ hn)
  | setValue hpc he =>
    obtain ⟨x, hx, hn⟩ := hholds.owned (by rw [hpc]; rfl)
    exact keeps_of_incomplete _ he (Option.some.inj (he.symm.trans hx) ▸ hn)
  | setNext hpc he =>
    obtain ⟨x, hx, hn⟩ := hholds.owned (by rw [hpc]; rfl)
    exact keeps_of_incomplete _ he (Option.some.inj (he.symm.trans hx) ▸ hn)
  | _ => exact .refl _

/-- A complete entry that points to the chain of its bucket becomes the first one there. -/
theorem Inv.of_link (h : Inv s) {key a : ℕ} {n : Option ℕ} {l : List ℕ} {e : Entry} {pc : Pc}
    (hl : Chain (nexts s.heap (bucket key)) n l) (he : s.heap a = some e) (hc : e.Complete)
    (hkey : e.key = key) (hnext : e.next = n) (hown : pc.owned = none) (hop : pc.op = none)
    (hholds : pc.Holds s.heap) :
    Inv (({ s with table := Function.update s.table (bucket key) (some a) } : State ι).goto i
    pc) := by
  have hi : (({ s with table := Function.update s.table (bucket key) (some a) } : State ι).goto i
      pc).thread i = { s.thread i with pc := pc } := by
    simp [State.goto]
  apply h.of_step (i := i)
  · intro j hj
    simp [State.goto, hj]
  · exact .refl _
  · intro j b hj hb
    rw [hi, hown]
    exact ⟨rfl, by simp⟩
  · intro b
    rcases eq_or_ne b (bucket key) with rfl | hb
    · refine Or.inr ⟨a :: l, ?_⟩
      have htop : Chain (nexts s.heap (bucket key)) (some a) (a :: l) :=
        .cons (nexts_eq_some.mpr ⟨e, he, hc, by rw [hkey], hnext⟩) hl
      simpa [State.goto, State.setThread] using htop
    · exact Or.inl (Function.update_of_ne hb _ _)
  · rw [hi]
    exact hholds
  · rw [hi]
    exact fun op ho => ho
  · rw [hi]
    simp [hop]
  · exact fun b x hx _ => Or.inl hx

theorem Move.inv (h : Inv s) (hm : Move locked i s t) : Inv t := by
  have hstarted := h.started i
  have hholds := h.holds i
  have hkeep := hm.keeps h
  cases hm with
  | @start op todo hpc htodo =>
    refine h.of_local rfl rfl rfl ?_ ?_ (fun o ho => List.mem_cons_of_mem _ ho) ?_
    · cases op <;> cases locked <;> rfl
    · cases op <;> cases locked <;> trivial
    · cases op <;> cases locked <;> simp [Pc.op]
  | lock hpc hfree =>
    rw [hpc] at hstarted
    exact h.of_local rfl rfl rfl rfl trivial (fun _ ho => ho) hstarted
  | @first op hpc =>
    rw [hpc] at hstarted
    exact h.of_local rfl rfl rfl rfl (h.table _) (fun _ ho => ho) hstarted
  | absent hpc =>
    rw [hpc] at hstarted
    exact h.of_local rfl rfl rfl rfl trivial (fun _ ho => ho) hstarted
  | missing hpc => exact h.of_local rfl rfl rfl rfl trivial (fun _ ho => ho) (by simp [Pc.op])
  | @found key value a e hpc he hkey =>
    rw [hpc] at hstarted hholds
    obtain ⟨l, hl⟩ := hholds
    obtain ⟨q, hq⟩ := hl.next_of_mem (a := a) (by cases hl; simp)
    obtain ⟨x, hx, hc, -⟩ := nexts_eq_some.mp hq
    exact h.of_local rfl rfl rfl rfl ⟨x, hx, hc, Option.some.inj (he.symm.trans hx) ▸ hkey⟩
      (fun _ ho => ho) hstarted
  | got hpc => exact h.of_local rfl rfl rfl rfl trivial (fun _ ho => ho) (by simp [Pc.op])
  | other hpc =>
    rw [hpc] at hstarted hholds
    exact h.of_local rfl rfl rfl rfl hholds (fun _ ho => ho) hstarted
  | @next op a e hpc he =>
    rw [hpc] at hstarted hholds
    obtain ⟨l, hl⟩ := hholds
    cases hl with
    | cons hq hl =>
      obtain ⟨x, hx, -, -, rfl⟩ := nexts_eq_some.mp hq
      obtain rfl := Option.some.inj (he.symm.trans hx)
      exact h.of_local rfl rfl rfl rfl ⟨_, hl⟩ (fun _ ho => ho) hstarted
  | @update key value a e hpc he =>
    rw [hpc] at hstarted hholds
    obtain ⟨x, hx, hc, hkey⟩ := hholds
    obtain rfl := Option.some.inj (he.symm.trans hx)
    apply h.of_write hkeep
    · intro j hj hja
      obtain ⟨x, hx, hn⟩ := (h.holds j).owned hja
      obtain rfl := Option.some.inj (he.symm.trans hx)
      exact not_complete hn hc
    · simp [owned_afterPut]
    · exact holds_afterPut ..
    · simp [op_afterPut]
    · intro _
      rw [hkey]
      exact hstarted _ rfl
  | insert hpc =>
    rw [hpc] at hstarted
    exact h.of_local rfl rfl rfl rfl (h.table _) (fun _ ho => ho) hstarted
  | @malloc key value n a e hpc ha =>
    rw [hpc] at hstarted hholds
    obtain ⟨l, hl⟩ := hholds
    apply h.of_write hkeep
    · intro j hj hja
      obtain ⟨x, hx, -⟩ := (h.holds j).owned hja
      simp [ha] at hx
    · intro b hb
      exact (Option.some.inj hb).symm
    · exact ⟨⟨l, hkeep.chain hl⟩, _, Function.update_self .., rfl⟩
    · exact hstarted
    · exact fun hc => absurd hc (not_complete rfl)
  | @setKey key value n a e hpc he =>
    have hown := h.own (i := i) (a := a) (by rw [hpc]; rfl)
    rw [hpc] at hstarted hholds
    obtain ⟨⟨l, hl⟩, x, hx, hn⟩ := hholds
    obtain rfl := Option.some.inj (he.symm.trans hx)
    apply h.of_write hkeep hown
    · intro b hb
      exact (Option.some.inj hb).symm
    · exact ⟨⟨l, hkeep.chain hl⟩, _, Function.update_self .., hn, rfl, rfl⟩
    · exact hstarted
    · exact fun hc => absurd hc (not_complete hn)
  | @setValue key value n a e hpc he =>
    have hown := h.own (i := i) (a := a) (by rw [hpc]; rfl)
    rw [hpc] at hstarted hholds
    obtain ⟨⟨l, hl⟩, x, hx, hn, hks, hk⟩ := hholds
    obtain rfl := Option.some.inj (he.symm.trans hx)
    apply h.of_write hkeep hown
    · intro b hb
      exact (Option.some.inj hb).symm
    · exact ⟨⟨l, hkeep.chain hl⟩, _, Function.update_self .., hn, hks, hk, rfl, rfl⟩
    · exact hstarted
    · exact fun hc => absurd hc (not_complete hn)
  | @setNext key value n a e hpc he =>
    have hown := h.own (i := i) (a := a) (by rw [hpc]; rfl)
    rw [hpc] at hstarted hholds
    obtain ⟨⟨l, hl⟩, x, hx, hn, hks, hk, hvs, hv⟩ := hholds
    obtain rfl := Option.some.inj (he.symm.trans hx)
    apply h.of_write hkeep hown
    · intro b hb
      simp [Pc.owned] at hb
    · exact ⟨⟨l, hkeep.chain hl⟩, _, Function.update_self .., ⟨hks, hvs, rfl⟩, hk, rfl⟩
    · exact hstarted
    · intro _
      simp only [hk, hv]
      exact hstarted _ rfl
  | @link key value n a hpc =>
    rw [hpc] at hstarted hholds
    obtain ⟨⟨l, hl⟩, e, he, hc, hkey, hnext⟩ := hholds
    exact h.of_link hl he hc hkey hnext (owned_afterPut ..) (op_afterPut ..) (holds_afterPut ..)
  | unlock hpc => exact h.of_local rfl rfl rfl rfl trivial (fun _ ho => ho) (by simp [Pc.op])

theorem Run.inv {is : List ι} (hr : Run locked s is t) (h : Inv s) : Inv t := by
  induction hr with
  | nil => exact h
  | snoc _ hs ih => exact hs.move.inv ih

theorem Move.frame (hm : Move locked i s t) (hj : j ≠ i) : t.thread j = s.thread j := by
  cases hm <;> simp [State.goto, State.setThread, State.setEntry, hj]

section Traversal

/-- The thread is in the search loop of `put` or `get`. -/
def Pc.searching : Pc → Bool
  | .test _ _ | .next _ _ => true
  | _ => false

/-- A run through which thread `i` stays in its search loop. -/
inductive Searches (locked : Bool) (i : ι) : State ι → List ι → State ι → Prop
  | nil (s : State ι) : Searches locked i s [] s
  | snoc {s t u : State ι} {js : List ι} {j : ι} : Searches locked i s js t →
      (t.thread i).pc.searching = true → Step locked j t u → Searches locked i s (j :: js) u

/-- At most `n` more steps are left in the search loop. -/
def Pc.Left (heap : ℕ → Option Entry) (n : ℕ) : Pc → Prop
  | test op e => ∃ l, Chain (nexts heap (bucket op.key)) e l ∧ 2 * l.length + 1 ≤ n
  | next op a => ∃ l, Chain (nexts heap (bucket op.key)) (some a) l ∧ 2 * l.length ≤ n
  | _ => True

theorem Pc.Left.mono {heap heap' : ℕ → Option Entry} {n : ℕ} {pc : Pc} (h : pc.Left heap n)
    (hk : Keeps heap heap') : pc.Left heap' n := by
  cases pc with
  | test op e =>
    obtain ⟨l, hl, hn⟩ := h
    exact ⟨l, hk.chain hl, hn⟩
  | next op a =>
    obtain ⟨l, hl, hn⟩ := h
    exact ⟨l, hk.chain hl, hn⟩
  | _ => trivial

theorem Pc.Holds.left {heap : ℕ → Option Entry} {pc : Pc} (h : pc.Holds heap) :
    ∃ n, pc.Left heap n := by
  cases pc with
  | test op e =>
    obtain ⟨l, hl⟩ := h
    exact ⟨_, l, hl, Nat.le_refl _⟩
  | next op a =>
    obtain ⟨l, hl⟩ := h
    exact ⟨_, l, hl, Nat.le_refl _⟩
  | _ => exact ⟨0, trivial⟩

theorem Move.left {n : ℕ} (hm : Move locked i s t) (hsearch : (s.thread i).pc.searching = true)
    (h : (s.thread i).pc.Left s.heap n) : ∃ m, (t.thread i).pc.Left t.heap m ∧ m + 1 ≤ n := by
  cases hm with
  | absent hpc =>
    rw [hpc] at h
    obtain ⟨l, -, hn⟩ := h
    exact ⟨0, by simp [State.goto, Pc.Left], by omega⟩
  | missing hpc =>
    rw [hpc] at h
    obtain ⟨l, -, hn⟩ := h
    exact ⟨0, by simp [Pc.Left], by omega⟩
  | found hpc =>
    rw [hpc] at h
    obtain ⟨l, -, hn⟩ := h
    exact ⟨0, by simp [State.goto, Pc.Left], by omega⟩
  | got hpc =>
    rw [hpc] at h
    obtain ⟨l, -, hn⟩ := h
    exact ⟨0, by simp [State.goto, Pc.Left], by omega⟩
  | other hpc =>
    rw [hpc] at h
    obtain ⟨l, hl, hn⟩ := h
    refine ⟨2 * l.length, ?_, hn⟩
    simp only [State.goto, thread_setThread, if_true]
    exact ⟨l, hl, Nat.le_refl _⟩
  | @next op a e hpc he =>
    rw [hpc] at h
    obtain ⟨l, hl, hn⟩ := h
    cases hl with
    | @cons _ _ l hq hl =>
      obtain ⟨x, hx, -, -, rfl⟩ := nexts_eq_some.mp hq
      obtain rfl := Option.some.inj (he.symm.trans hx)
      have hlen : (a :: l).length = l.length + 1 := List.length_cons
      refine ⟨2 * l.length + 1, ?_, by omega⟩
      simp only [State.goto, thread_setThread, if_true]
      exact ⟨l, hl, Nat.le_refl _⟩
  | start hpc => simp [hpc, Pc.searching] at hsearch
  | lock hpc => simp [hpc, Pc.searching] at hsearch
  | first hpc => simp [hpc, Pc.searching] at hsearch
  | update hpc => simp [hpc, Pc.searching] at hsearch
  | insert hpc => simp [hpc, Pc.searching] at hsearch
  | malloc hpc => simp [hpc, Pc.searching] at hsearch
  | setKey hpc => simp [hpc, Pc.searching] at hsearch
  | setValue hpc => simp [hpc, Pc.searching] at hsearch
  | setNext hpc => simp [hpc, Pc.searching] at hsearch
  | link hpc => simp [hpc, Pc.searching] at hsearch
  | unlock hpc => simp [hpc, Pc.searching] at hsearch

theorem Searches.count_le {n : ℕ} {js : List ι} (h : Searches locked i s js t) (hs : Inv s)
    (hn : (s.thread i).pc.Left s.heap n) :
    Inv t ∧ ∃ m, (t.thread i).pc.Left t.heap m ∧ js.count i + m ≤ n := by
  induction h with
  | nil => exact ⟨hs, n, hn, by simp⟩
  | @snoc t u js j _ hsearch hstep ih =>
    obtain ⟨ht, m, hm, hle⟩ := ih
    have hmove := hstep.move
    refine ⟨hmove.inv ht, ?_⟩
    rcases eq_or_ne j i with rfl | hji
    · obtain ⟨m', hm', hlt⟩ := hmove.left hsearch hm
      exact ⟨m', hm', by rw [List.count_cons_self]; omega⟩
    · refine ⟨m, ?_, by rwa [List.count_cons_of_ne hji]⟩
      rw [hmove.frame (Ne.symm hji)]
      exact hm.mono (hmove.keeps ht)

theorem Inv.search_step (h : Inv s) (hsearch : (s.thread i).pc.searching = true) :
    ∃ t, Step locked i s t := by
  have hholds := h.holds i
  cases hpc : (s.thread i).pc with
  | test op e =>
    rw [hpc] at hholds
    obtain ⟨l, hl⟩ := hholds
    cases hl with
    | nil =>
      cases op with
      | put key value => exact ⟨_, 0, default, by simp [act, hpc]; rfl⟩
      | get key => exact ⟨_, 0, default, by simp [act, hpc]; rfl⟩
    | @cons a q l hq hl =>
      obtain ⟨x, hx, -⟩ := nexts_eq_some.mp hq
      by_cases hkey : x.key = op.key
      · cases op with
        | put key value => exact ⟨_, 0, default, by simp [act, hpc, hx, hkey]; rfl⟩
        | get key => exact ⟨_, 0, default, by simp [act, hpc, hx, hkey]; rfl⟩
      · exact ⟨_, 0, default, by simp [act, hpc, hx, hkey]; rfl⟩
  | next op a =>
    rw [hpc] at hholds
    obtain ⟨l, hl⟩ := hholds
    cases hl with
    | cons hq hl =>
      obtain ⟨x, hx, -⟩ := nexts_eq_some.mp hq
      exact ⟨_, 0, default, by simp [act, hpc, hx]; rfl⟩
  | _ => simp [hpc, Pc.searching] at hsearch

end Traversal

/-- Without locks, whatever the schedule: the chain of a bucket ends and has no entry twice.
Its entries are complete and belong there, with a key and a value that a started put
brought. A search through it can always go on, and takes a bounded number of steps. -/
theorem chains_sound (program : ι → List Op) (s₀ s : State ι) (is : List ι)
    (hstart : Start program s₀) (hrun : Run false s₀ is s) :
    (∀ b, ∃ l, Chain (fun a => (s.heap a).map Entry.next) (s.table b) l ∧ l.Nodup ∧
      ∀ a ∈ l, ∃ e, s.heap a = some e ∧ e.Complete ∧ bucket e.key = b ∧ Put s e.key e.value) ∧
    ∀ i, (s.thread i).pc.searching = true → (∃ t, Step false i s t) ∧
      ∃ n, ∀ js t, Searches false i s js t → js.count i ≤ n := by
  have h := hrun.inv hstart.inv
  refine ⟨fun b => ?_, fun i hi => ⟨h.search_step hi, ?_⟩⟩
  · obtain ⟨l, hl⟩ := h.table b
    refine ⟨l, hl.mono fun a q hq => ?_, hl.nodup, fun a ha => ?_⟩
    · obtain ⟨e, he, -, -, hn⟩ := nexts_eq_some.mp hq
      rw [he, Option.map_some, hn]
    · obtain ⟨q, hq⟩ := hl.next_of_mem ha
      obtain ⟨e, he, hc, hb, -⟩ := nexts_eq_some.mp hq
      exact ⟨e, he, hc, hb, h.puts a e he hc⟩
  · obtain ⟨n, hn⟩ := (h.holds i).left
    refine ⟨n, fun js t hs => ?_⟩
    obtain ⟨-, m, -, hle⟩ := hs.count_le h hn
    omega

section Small

def raceStart : State (Fin 2) where
  table _ := none
  heap _ := none
  locks _ := none
  thread i := ⟨.idle, [if i = 0 then .put 1 10 else .put 6 20], [], 0⟩
  granted := []

/-- Both find the bucket empty before either changes it, so that one entry is lost. -/
def race : List (Fin 2 × ℕ) :=
  List.replicate 4 (0, 0) ++ List.replicate 4 (1, 0) ++ List.replicate 5 (0, 100) ++
    List.replicate 5 (1, 200)

theorem chains_sound_small : ∃ s, runAll false race raceStart = some s ∧
    ∃ l, Chain (fun a => (s.heap a).map Entry.next) (s.table (bucket 1)) l ∧ l.Nodup := by
  obtain ⟨s, hs⟩ := Option.isSome_iff_exists.mp
    (show (runAll false race raceStart).isSome = true by decide +kernel)
  obtain ⟨is, hrun⟩ := Run.of_runAll hs
  obtain ⟨l, hl, hnodup, -⟩ := (chains_sound (fun i => [if i = 0 then .put 1 10 else .put 6 20])
    raceStart s is ⟨fun _ => rfl, fun _ => rfl, fun _ => rfl, fun _ => rfl, rfl⟩ hrun).1 (bucket 1)
  exact ⟨s, hs, l, hl, hnodup⟩

end Small

end Xv6Sheet.Hash
