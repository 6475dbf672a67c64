import Xv6Sheet.Hash.Chains

/-! # The table under the locks

With a mutex for every bucket, a put searches its bucket and changes it while no other thread
can. What the bucket holds is a list of cells, and the thread that holds the lock knows where
in it it is.
-/

namespace Xv6Sheet.Hash

/-- An entry of a chain: its address and what it holds. -/
structure Cell where
  addr : ℕ
  key : ℕ
  value : ℤ

def Cells (heap : ℕ → Option Entry) (b : Fin NBUCKET) (p : Option ℕ) (c : List Cell) : Prop :=
  Chain (nexts heap b) p (c.map Cell.addr) ∧
    ∀ x ∈ c, ∃ e, heap x.addr = some e ∧ e.key = x.key ∧ e.value = x.value

namespace Cells

variable {heap heap' : ℕ → Option Entry} {b : Fin NBUCKET} {p : Option ℕ} {c c' : List Cell}
  {x : Cell} {a : ℕ} {e : Entry}

theorem nil (heap : ℕ → Option Entry) (b : Fin NBUCKET) : Cells heap b none [] :=
  ⟨.nil, by simp⟩

theorem cons (he : heap a = some e) (hc : e.Complete) (hb : bucket e.key = b)
    (h : Cells heap b e.next c) : Cells heap b (some a) (⟨a, e.key, e.value⟩ :: c) := by
  refine ⟨.cons (nexts_eq_some.mpr ⟨e, he, hc, hb, rfl⟩) h.1, fun x hx => ?_⟩
  rcases List.mem_cons.mp hx with rfl | hx
  · exact ⟨e, he, rfl, rfl⟩
  · exact h.2 x hx

theorem eq_nil (h : Cells heap b none c) : c = [] := by
  cases c with
  | nil => rfl
  | cons x c => cases h.1

theorem head (h : Cells heap b (some a) c) (he : heap a = some e) : ∃ c',
    c = ⟨a, e.key, e.value⟩ :: c' ∧ e.Complete ∧ bucket e.key = b ∧ Cells heap b e.next c' := by
  cases c with
  | nil => cases h.1
  | cons x c =>
    obtain ⟨hchain, hdata⟩ := h
    cases hchain with
    | cons hq hl =>
      obtain ⟨e', he', hc, hb, rfl⟩ := nexts_eq_some.mp hq
      obtain rfl := Option.some.inj (he.symm.trans he')
      obtain ⟨e', hx, hkey, hvalue⟩ := hdata x List.mem_cons_self
      obtain rfl := Option.some.inj (he.symm.trans hx)
      exact ⟨c, by rw [hkey, hvalue], hc, hb, hl,
        fun y hy => hdata y (List.mem_cons_of_mem _ hy)⟩

theorem unique (h : Cells heap b p c) (h' : Cells heap b p c') : c = c' := by
  induction c generalizing p c' with
  | nil =>
    obtain ⟨hn, -⟩ := h
    cases hn
    exact (h'.eq_nil).symm
  | cons x c ih =>
    obtain ⟨e, he, -⟩ := h.2 x List.mem_cons_self
    have hp : p = some x.addr := by
      cases h.1 with
      | cons => rfl
    subst hp
    obtain ⟨d, hd, -, -, hd'⟩ := h.head he
    obtain ⟨d', rfl, -, -, hd''⟩ := h'.head he
    obtain ⟨-, rfl⟩ := List.cons.inj hd
    rw [hd, ih hd' hd'']

theorem of_chain {l : List ℕ} (h : Chain (nexts heap b) p l) :
    ∃ c, Cells heap b p c ∧ c.map Cell.addr = l := by
  induction h with
  | nil => exact ⟨[], .nil heap b, rfl⟩
  | cons hq _ ih =>
    obtain ⟨e, he, hc, hb, rfl⟩ := nexts_eq_some.mp hq
    obtain ⟨c, hcells, rfl⟩ := ih
    exact ⟨_, hcells.cons he hc hb, rfl⟩

theorem of_mem (h : Cells heap b p c) (hx : x ∈ c) : ∃ e, heap x.addr = some e ∧ e.Complete ∧
    bucket e.key = b ∧ e.key = x.key ∧ e.value = x.value := by
  obtain ⟨q, hq⟩ := h.1.next_of_mem (List.mem_map_of_mem hx)
  obtain ⟨e, he, hc, hb, -⟩ := nexts_eq_some.mp hq
  obtain ⟨e', he', hk, hv⟩ := h.2 x hx
  obtain rfl := Option.some.inj (he.symm.trans he')
  exact ⟨e, he, hc, hb, hk, hv⟩

theorem mono (h : Cells heap b p c) (hk : Keeps heap heap')
    (hv : ∀ a e, heap a = some e → e.Complete → bucket e.key = b → heap' a = heap a) :
    Cells heap' b p c := by
  refine ⟨hk.chain h.1, fun x hx => ?_⟩
  obtain ⟨e, he, hc, hb, hkey, hvalue⟩ := h.of_mem hx
  exact ⟨e, by rw [hv _ e he hc hb, he], hkey, hvalue⟩

end Cells

def setCell (c : List Cell) (a : ℕ) (value : ℤ) : List Cell :=
  c.map fun x => if x.addr = a then { x with value := value } else x

theorem Cells.setValue {heap : ℕ → Option Entry} {b : Fin NBUCKET} {p : Option ℕ} {c : List Cell}
    {a : ℕ} {e : Entry} (h : Cells heap b p c) (he : heap a = some e) (value : ℤ) :
    Cells (Function.update heap a (some { e with value := value, valueSet := true })) b p
      (setCell c a value) := by
  have haddr : (setCell c a value).map Cell.addr = c.map Cell.addr := by
    rw [setCell, List.map_map]
    refine List.map_congr_left fun x _ => ?_
    simp only [Function.comp_apply]
    split <;> rfl
  refine ⟨haddr ▸ (Keeps.setValue he value).chain h.1, fun x hx => ?_⟩
  obtain ⟨y, hy, rfl⟩ := List.mem_map.mp hx
  obtain ⟨e', he', hkey, hvalue⟩ := h.2 y hy
  split
  · rename_i ha
    rw [ha] at he' ⊢
    obtain rfl := Option.some.inj (he.symm.trans he')
    exact ⟨_, Function.update_self .., hkey, rfl⟩
  · rename_i ha
    exact ⟨e', by rwa [Function.update_of_ne ha], hkey, hvalue⟩

def valueAt (c : List Cell) (key : ℕ) : Option ℤ :=
  (c.find? fun x => x.key = key).map Cell.value

theorem map_key_setCell (c : List Cell) (a : ℕ) (value : ℤ) :
    (setCell c a value).map Cell.key = c.map Cell.key := by
  rw [setCell, List.map_map]
  refine List.map_congr_left fun x _ => ?_
  simp only [Function.comp_apply]
  split <;> rfl

theorem valueAt_of_mem {c : List Cell} {x : Cell} (hc : (c.map Cell.key).Nodup) (hx : x ∈ c) :
    valueAt c x.key = some x.value := by
  induction c with
  | nil => simp at hx
  | cons y c ih =>
    rw [List.map_cons, List.nodup_cons] at hc
    rcases List.mem_cons.mp hx with rfl | hx
    · simp [valueAt]
    · have hne : y.key ≠ x.key := fun h => hc.1 (h ▸ List.mem_map_of_mem hx)
      rw [← ih hc.2 hx]
      simp [valueAt, hne]

theorem valueAt_setCell {c : List Cell} {a key : ℕ} {value : ℤ}
    (ha : ∀ x ∈ c, x.addr = a → x.key ≠ key) : valueAt (setCell c a value) key = valueAt c key := by
  induction c with
  | nil => rfl
  | cons x c ih =>
    have hx := ha x List.mem_cons_self
    have hrest := ih fun y hy => ha y (List.mem_cons_of_mem _ hy)
    by_cases hkey : x.key = key
    · have hne : x.addr ≠ a := fun h => hx h hkey
      simp [valueAt, setCell, hkey, hne]
    · unfold valueAt setCell at *
      rw [List.map_cons, List.find?_cons_of_neg, List.find?_cons_of_neg, hrest]
      · simpa using hkey
      · split <;> simpa using hkey

theorem Cells.setValue_values {heap : ℕ → Option Entry} {b : Fin NBUCKET} {p : Option ℕ}
    {c : List Cell} {x : Cell} (h : Cells heap b p c) (hc : (c.map Cell.key).Nodup) (hx : x ∈ c)
    (value : ℤ) : valueAt (setCell c x.addr value) x.key = some value ∧
      ∀ k, k ≠ x.key → valueAt (setCell c x.addr value) k = valueAt c k := by
  constructor
  · have hnew : ⟨x.addr, x.key, value⟩ ∈ setCell c x.addr value :=
      List.mem_map.mpr ⟨x, hx, if_pos rfl⟩
    have hval := valueAt_of_mem (by rwa [map_key_setCell]) hnew
    exact hval
  · intro k hk
    refine valueAt_setCell fun y hy haddr => ?_
    obtain ⟨e₁, he₁, hk₁, -⟩ := h.2 x hx
    obtain ⟨e₂, he₂, hk₂, -⟩ := h.2 y hy
    rw [haddr] at he₂
    obtain rfl := Option.some.inj (he₁.symm.trans he₂)
    rw [← hk₂, hk₁]
    exact Ne.symm hk

theorem cons_values {c : List Cell} {x : Cell} (hc : (c.map Cell.key).Nodup)
    (hx : ∀ y ∈ c, y.key ≠ x.key) : ((x :: c).map Cell.key).Nodup ∧
      valueAt (x :: c) x.key = some x.value ∧
      ∀ k, k ≠ x.key → valueAt (x :: c) k = valueAt c k := by
  refine ⟨List.nodup_cons.mpr ⟨fun hmem => ?_, hc⟩, by simp [valueAt], fun k hk => ?_⟩
  · obtain ⟨y, hy, hkey⟩ := List.mem_map.mp hmem
    exact hx y hy hkey
  · simp [valueAt, Ne.symm hk]

namespace Pc

def critical : Pc → Option ℕ
  | first (.put key _) | test (.put key _) _ | next (.put key _) _ | update key _ _ |
    insert key _ | malloc key _ _ | setKey key _ _ _ | setValue key _ _ _ | setNext key _ _ _ |
    link key _ _ _ | unlock key => some key
  | _ => none

def pending : Pc → Option (ℕ × ℤ)
  | first (.put key value) | test (.put key value) _ | next (.put key value) _ |
    update key value _ | insert key value | malloc key value _ | setKey key value _ _ |
    setValue key value _ _ | setNext key value _ _ | link key value _ _ => some (key, value)
  | _ => none

def At (heap : ℕ → Option Entry) (c : List Cell) : Pc → Prop
  | test (.put key _) p => ∃ c₁ c₂, c = c₁ ++ c₂ ∧ Cells heap (bucket key) p c₂ ∧
      ∀ x ∈ c₁, x.key ≠ key
  | next (.put key _) a => ∃ c₁ x c₂, c = c₁ ++ x :: c₂ ∧
      Cells heap (bucket key) (some a) (x :: c₂) ∧ (∀ y ∈ c₁, y.key ≠ key) ∧ x.key ≠ key
  | update key _ a => ∃ x ∈ c, x.addr = a ∧ x.key = key
  | insert key _ => ∀ x ∈ c, x.key ≠ key
  | malloc key _ n | setKey key _ n _ | setValue key _ n _ | setNext key _ n _ =>
      Cells heap (bucket key) n c ∧ ∀ x ∈ c, x.key ≠ key
  | link key value _ a => Cells heap (bucket key) (some a) (⟨a, key, value⟩ :: c) ∧
      ∀ x ∈ c, x.key ≠ key
  | _ => True

theorem critical_of_pending {pc : Pc} {key : ℕ} {value : ℤ} (h : pc.pending = some (key, value)) :
    pc.critical = some key := by
  unfold pending at h
  unfold critical
  split at h <;> simp_all

theorem At.mono {heap heap' : ℕ → Option Entry} {c : List Cell} {pc : Pc} {key : ℕ}
    (hcrit : pc.critical = some key)
    (hcells : ∀ p c, Cells heap (bucket key) p c → Cells heap' (bucket key) p c)
    (h : pc.At heap c) : pc.At heap' c := by
  unfold At at *
  unfold critical at hcrit
  split at h
  · obtain rfl := Option.some.inj hcrit
    obtain ⟨c₁, c₂, hc, h₂, h₁⟩ := h
    exact ⟨c₁, c₂, hc, hcells _ _ h₂, h₁⟩
  · obtain rfl := Option.some.inj hcrit
    obtain ⟨c₁, x, c₂, hc, h₂, h₁⟩ := h
    exact ⟨c₁, x, c₂, hc, hcells _ _ h₂, h₁⟩
  · exact h
  · exact h
  all_goals first
    | (obtain rfl := Option.some.inj hcrit; exact ⟨hcells _ _ h.1, h.2⟩)
    | trivial

end Pc

variable {ι : Type} [DecidableEq ι] {s t : State ι} {i j : ι}

def lastGrant (g : List (ι × ℕ × ℤ)) (key : ℕ) : Option (ι × ℕ × ℤ) :=
  g.find? fun x => x.2.1 = key

def Pc.changing : Pc → Option ℕ
  | .update key _ _ | .link key _ _ _ => some key
  | _ => none

/-- Thread `i` is about to change the bucket. -/
def Changes (s : State ι) (i : ι) (b : Fin NBUCKET) : Prop :=
  ∃ key, (s.thread i).pc.changing = some key ∧ bucket key = b

omit [DecidableEq ι] in
theorem not_changes (h : (s.thread i).pc.changing = none) (b : Fin NBUCKET) : ¬ Changes s i b := by
  rintro ⟨key, hkey, -⟩
  simp [h] at hkey

omit [DecidableEq ι] in
theorem not_changes_of_ne {key : ℕ} (h : (s.thread i).pc.changing = some key) {b : Fin NBUCKET}
    (hb : b ≠ bucket key) : ¬ Changes s i b := by
  rintro ⟨k, hk, rfl⟩
  exact hb (congrArg bucket (Option.some.inj (hk.symm.trans h)))

/-- A step leaves the cells of every bucket as they are that the thread is not about to
change. -/
theorem Move.cells {locked : Bool} (h : Inv s) (hm : Move locked i s t) (b : Fin NBUCKET)
    (hb : ¬ Changes s i b) : t.table b = s.table b ∧
      ∀ p c, Cells s.heap b p c → Cells t.heap b p c := by
  have hholds := h.holds i
  have hkeep := hm.keeps h
  -- an entry that is not complete is in no chain
  have hwrite : ∀ {a : ℕ} {e : Entry}, (∀ x, s.heap a = some x → ¬ x.Complete) →
      t.heap = Function.update s.heap a (some e) →
      ∀ p c, Cells s.heap b p c → Cells t.heap b p c := by
    intro a e ha ht p c hc
    refine hc.mono hkeep fun y x hx hxc _ => ?_
    have hya : y ≠ a := by
      rintro rfl
      exact ha x hx hxc
    rw [ht, Function.update_of_ne hya]
  have howned : ∀ {a : ℕ} {e : Entry}, s.heap a = some e → (s.thread i).pc.owned = some a →
      ∀ x, s.heap a = some x → ¬ x.Complete := by
    intro a e he ha x hx
    obtain ⟨y, hy, hn⟩ := hholds.owned ha
    exact Option.some.inj (hy.symm.trans hx) ▸ not_complete hn
  cases hm with
  | @update key value a e hpc he =>
    refine ⟨rfl, fun p c hc => hc.mono hkeep fun y x hx hxc hxb => ?_⟩
    rw [hpc] at hholds
    obtain ⟨e', he', -, hkey⟩ := hholds
    have hya : y ≠ a := by
      rintro rfl
      obtain rfl := Option.some.inj (he'.symm.trans hx)
      exact hb ⟨key, by rw [hpc]; rfl, hkey ▸ hxb⟩
    simp [State.goto, State.setThread, State.setEntry, hya]
  | @link key value n a hpc =>
    have hne : b ≠ bucket key := by
      rintro rfl
      exact hb ⟨key, by rw [hpc]; rfl, rfl⟩
    exact ⟨Function.update_of_ne hne _ _, fun _ _ hc => hc⟩
  | malloc hpc ha => exact ⟨rfl, hwrite (fun x hx => by simp [ha] at hx) rfl⟩
  | setKey hpc he => exact ⟨rfl, hwrite (howned he (by rw [hpc]; rfl)) rfl⟩
  | setValue hpc he => exact ⟨rfl, hwrite (howned he (by rw [hpc]; rfl)) rfl⟩
  | setNext hpc he => exact ⟨rfl, hwrite (howned he (by rw [hpc]; rfl)) rfl⟩
  | _ => exact ⟨rfl, fun _ _ hc => hc⟩

theorem Move.cells_back {locked : Bool} (h : Inv s) (hm : Move locked i s t) {b : Fin NBUCKET}
    (hb : ¬ Changes s i b) {c : List Cell} (hc : Cells t.heap b (t.table b) c) :
    Cells s.heap b (s.table b) c := by
  obtain ⟨htable, hcells⟩ := hm.cells h b hb
  obtain ⟨l, hchain⟩ := h.table b
  obtain ⟨c', hc', -⟩ := Cells.of_chain hchain
  rw [htable] at hc
  rw [hc.unique (hcells _ _ hc')]
  exact hc'

structure Excl (s : State ι) : Prop where
  mutex : ∀ i key, (s.thread i).pc.critical = some key → s.locks (bucket key) = some i
  latest : ∀ i key value, (s.thread i).pc.pending = some (key, value) →
    lastGrant s.granted key = some (i, key, value)
  keys : ∀ b c, Cells s.heap b (s.table b) c → (c.map Cell.key).Nodup
  value : ∀ key c, Cells s.heap (bucket key) (s.table (bucket key)) c →
    (∀ i value, (s.thread i).pc.pending ≠ some (key, value)) →
    valueAt c key = (lastGrant s.granted key).map fun x => x.2.2
  place : ∀ i key c, (s.thread i).pc.critical = some key →
    Cells s.heap (bucket key) (s.table (bucket key)) c → (s.thread i).pc.At s.heap c
  granted : ∀ i key value, Op.put key value ∈ (s.thread i).started →
    (s.thread i).pc = .lock key value ∨ (i, key, value) ∈ s.granted
  started : ∀ i key value, (i, key, value) ∈ s.granted → Op.put key value ∈ (s.thread i).started

omit [DecidableEq ι] in
theorem Start.excl {program : ι → List Op} (h : Start program s) : Excl s := by
  have hpc : ∀ i, (s.thread i).pc = .idle := fun i => by rw [h.thread]
  refine ⟨fun i key hk => ?_, fun i key value hk => ?_, fun b c hc => ?_, fun key c hc _ => ?_,
    fun i key c hk => ?_, fun i key value hk => ?_, fun i key value hk => ?_⟩
  · simp [hpc, Pc.critical] at hk
  · simp [hpc, Pc.pending] at hk
  · rw [h.table] at hc
    simp [hc.eq_nil]
  · rw [h.table] at hc
    simp [hc.eq_nil, valueAt, lastGrant, h.granted]
  · simp [hpc, Pc.critical] at hk
  · simp [h.thread] at hk
  · simp [h.granted] at hk

omit [DecidableEq ι] in
theorem Excl.exclusive (h : Excl s) {key key' : ℕ} (hi : (s.thread i).pc.critical = some key)
    (hj : (s.thread j).pc.critical = some key') (hb : bucket key = bucket key') : i = j := by
  have h₁ := h.mutex i key hi
  rw [hb, h.mutex j key' hj] at h₁
  exact (Option.some.inj h₁).symm

theorem Excl.of_quiet (hl : Excl s) (h : Inv s) (hm : Move true i s t)
    (hchange : ∀ b, ¬ Changes s i b) (hlocks : t.locks = s.locks) (hgranted : t.granted = s.granted)
    (hcrit : (t.thread i).pc.critical = (s.thread i).pc.critical)
    (hpend : (t.thread i).pc.pending = (s.thread i).pc.pending)
    (hplace : ∀ key c, (s.thread i).pc.critical = some key →
      Cells t.heap (bucket key) (t.table (bucket key)) c → (t.thread i).pc.At t.heap c)
    (hstarted : ∀ op ∈ (s.thread i).started, op ∈ (t.thread i).started)
    (hput : ∀ key value, Op.put key value ∈ (t.thread i).started →
      (t.thread i).pc = .lock key value ∨ (i, key, value) ∈ s.granted) : Excl t := by
  have hcrit' : ∀ j, (t.thread j).pc.critical = (s.thread j).pc.critical := fun j => by
    rcases eq_or_ne j i with rfl | hj
    · exact hcrit
    · rw [hm.frame hj]
  have hpend' : ∀ j, (t.thread j).pc.pending = (s.thread j).pc.pending := fun j => by
    rcases eq_or_ne j i with rfl | hj
    · exact hpend
    · rw [hm.frame hj]
  have hback : ∀ b c, Cells t.heap b (t.table b) c → Cells s.heap b (s.table b) c :=
    fun b _ => hm.cells_back h (hchange b)
  refine ⟨fun j key hj => ?_, fun j key value hj => ?_, fun b c hc => ?_, fun key c hc hno => ?_,
    fun j key c hj hc => ?_, fun j key value hj => ?_, fun j key value hj => ?_⟩
  · rw [hlocks]
    exact hl.mutex j key (hcrit' j ▸ hj)
  · rw [hgranted]
    exact hl.latest j key value (hpend' j ▸ hj)
  · exact hl.keys b c (hback b c hc)
  · rw [hgranted]
    exact hl.value key c (hback _ c hc) fun j value => hpend' j ▸ hno j value
  · rcases eq_or_ne j i with rfl | hji
    · exact hplace key c (hcrit ▸ hj) hc
    · rw [hcrit'] at hj
      rw [hm.frame hji]
      exact (hl.place j key c hj (hback _ c hc)).mono hj (hm.cells h _ (hchange _)).2
  · rcases eq_or_ne j i with rfl | hji
    · rw [hgranted]
      exact hput key value hj
    · rw [hm.frame hji] at hj ⊢
      rw [hgranted]
      exact hl.granted j key value hj
  · rw [hgranted] at hj
    have hold := hl.started j key value hj
    rcases eq_or_ne j i with rfl | hji
    · exact hstarted _ hold
    · rwa [hm.frame hji]

theorem Excl.of_change (hl : Excl s) (h : Inv s) (hm : Move true i s t) {key : ℕ} {value : ℤ}
    (hchange : ∀ b, b ≠ bucket key → ¬ Changes s i b)
    (hpend : (s.thread i).pc.pending = some (key, value))
    (hthread : t.thread i = { s.thread i with pc := .unlock key })
    (hlocks : t.locks = s.locks) (hgranted : t.granted = s.granted)
    (hcells : ∀ c, Cells s.heap (bucket key) (s.table (bucket key)) c →
      ∃ c', Cells t.heap (bucket key) (t.table (bucket key)) c' ∧ (c'.map Cell.key).Nodup ∧
        valueAt c' key = some value ∧ ∀ k, k ≠ key → valueAt c' k = valueAt c k) : Excl t := by
  have hcrit := Pc.critical_of_pending hpend
  have hcrit' : ∀ j, (t.thread j).pc.critical = (s.thread j).pc.critical := fun j => by
    rcases eq_or_ne j i with rfl | hj
    · rw [hthread, hcrit]
      rfl
    · rw [hm.frame hj]
  have hback : ∀ b c, b ≠ bucket key → Cells t.heap b (t.table b) c →
      Cells s.heap b (s.table b) c := fun b _ hb => hm.cells_back h (hchange b hb)
  obtain ⟨l, hchain⟩ := h.table (bucket key)
  obtain ⟨c₀, hc₀, -⟩ := Cells.of_chain hchain
  obtain ⟨c₁, hc₁, hnodup, hvalue, hothers⟩ := hcells c₀ hc₀
  refine ⟨fun j k hj => ?_, fun j k v hj => ?_, fun b c hc => ?_, fun k c hc hno => ?_,
    fun j k c hj hc => ?_, fun j k v hj => ?_, fun j k v hj => ?_⟩
  · rw [hlocks]
    exact hl.mutex j k (hcrit' j ▸ hj)
  · rcases eq_or_ne j i with rfl | hji
    · simp [hthread, Pc.pending] at hj
    · rw [hm.frame hji] at hj
      rw [hgranted]
      exact hl.latest j k v hj
  · rcases eq_or_ne b (bucket key) with rfl | hb
    · rwa [hc.unique hc₁]
    · exact hl.keys b c (hback b c hb hc)
  · rw [hgranted]
    have hpending : k ≠ key → ∀ j v, (s.thread j).pc.pending ≠ some (k, v) := fun hk j v hj => by
      rcases eq_or_ne j i with rfl | hji
      · exact hk (Prod.mk.inj (Option.some.inj (hj.symm.trans hpend))).1
      · exact hno j v (by rwa [hm.frame hji])
    by_cases hb : bucket k = bucket key
    · rw [hb] at hc
      rw [hc.unique hc₁]
      by_cases hk : k = key
      · rw [hk, hvalue, hl.latest i key value hpend]
        rfl
      · rw [hothers k hk]
        exact hl.value k c₀ (hb ▸ hc₀) (hpending hk)
    · exact hl.value k c (hback _ c hb hc) (hpending fun hk => hb (hk ▸ rfl))
  · rcases eq_or_ne j i with rfl | hji
    · rw [hthread]
      trivial
    · rw [hcrit'] at hj
      rw [hm.frame hji]
      have hb : bucket k ≠ bucket key := fun hb => hji (hl.exclusive hj hcrit hb)
      exact (hl.place j k c hj (hback _ c hb hc)).mono hj (hm.cells h _ (hchange _ hb)).2
  · rw [hgranted]
    rcases eq_or_ne j i with rfl | hji
    · rw [hthread] at hj
      rcases hl.granted j k v hj with hpc | hmem
      · rw [hpc] at hpend
        simp [Pc.pending] at hpend
      · exact Or.inr hmem
    · rw [hm.frame hji] at hj ⊢
      exact hl.granted j k v hj
  · rw [hgranted] at hj
    rcases eq_or_ne j i with rfl | hji
    · rw [hthread]
      exact hl.started j k v hj
    · rw [hm.frame hji]
      exact hl.started j k v hj

theorem Excl.of_lock (hl : Excl s) {key : ℕ} {value : ℤ}
    (hpc : (s.thread i).pc = .lock key value) (hfree : s.locks (bucket key) = none)
    (hput : Op.put key value ∈ (s.thread i).started) :
    Excl { s.goto i (.first (.put key value)) with
      locks := Function.update s.locks (bucket key) (some i)
      granted := (i, key, value) :: s.granted } := by
  have hthread : ∀ j, (s.goto i (.first (.put key value))).thread j =
      if j = i then { s.thread i with pc := .first (.put key value) } else s.thread j := fun j => by
    simp [State.goto]
  -- another thread's key is in another bucket
  have hbucket : ∀ j k, (s.thread j).pc.critical = some k → bucket k ≠ bucket key := by
    intro j k hj hb
    have hlock := hl.mutex j k hj
    rw [hb, hfree] at hlock
    simp at hlock
  refine ⟨fun j k hj => ?_, fun j k v hj => ?_, hl.keys, fun k c hc hno => ?_,
    fun j k c hj hc => ?_, fun j k v hj => ?_, fun j k v hj => ?_⟩
  · simp only [hthread] at hj
    split at hj
    · rename_i hji
      obtain rfl := Option.some.inj hj
      rw [hji]
      exact Function.update_self ..
    · simp only [Function.update_of_ne (hbucket j k hj)]
      exact hl.mutex j k hj
  · simp only [hthread] at hj
    split at hj
    · rename_i hji
      obtain ⟨rfl, rfl⟩ := Prod.mk.inj (Option.some.inj hj)
      rw [hji]
      simp [lastGrant]
    · have hk : key ≠ k := fun hk => hbucket j k (Pc.critical_of_pending hj) (hk ▸ rfl)
      have hlatest := hl.latest j k v hj
      simpa [lastGrant, hk] using hlatest
  · have hk : key ≠ k := by
      rintro rfl
      have hi := hno i value
      simp [hthread, Pc.pending] at hi
    have hvalue := hl.value k c hc fun j v hj => by
      rcases eq_or_ne j i with rfl | hji
      · rw [hpc] at hj
        simp [Pc.pending] at hj
      · have hno' := hno j v
        simp only [hthread, if_neg hji] at hno'
        exact hno' hj
    simpa [lastGrant, hk] using hvalue
  · simp only [hthread] at hj ⊢
    split
    · trivial
    · rename_i hji
      rw [if_neg hji] at hj
      exact hl.place j k c hj hc
  · simp only [hthread] at hj ⊢
    split at hj
    · rename_i hji
      subst hji
      rcases hl.granted j k v hj with hp | hmem
      · rw [hpc] at hp
        obtain ⟨rfl, rfl⟩ := Pc.lock.inj hp
        exact Or.inr List.mem_cons_self
      · exact Or.inr (List.mem_cons_of_mem _ hmem)
    · rename_i hji
      rw [if_neg hji]
      rcases hl.granted j k v hj with hp | hmem
      · exact Or.inl hp
      · exact Or.inr (List.mem_cons_of_mem _ hmem)
  · simp only [hthread]
    rcases List.mem_cons.mp hj with heq | hmem
    · cases heq
      rw [if_pos rfl]
      exact hput
    · have hold := hl.started j k v hmem
      split
      · rename_i hji
        rwa [hji] at hold
      · exact hold

theorem Excl.of_unlock (hl : Excl s) {key : ℕ} (hpc : (s.thread i).pc = .unlock key) :
    Excl { s.goto i .idle with locks := Function.update s.locks (bucket key) none } := by
  have hthread : ∀ j, (s.goto i .idle).thread j =
      if j = i then { s.thread i with pc := .idle } else s.thread j := fun j => by
    simp [State.goto]
  refine ⟨fun j k hj => ?_, fun j k v hj => ?_, hl.keys, fun k c hc hno => ?_,
    fun j k c hj hc => ?_, fun j k v hj => ?_, fun j k v hj => ?_⟩
  · simp only [hthread] at hj
    split at hj
    · simp [Pc.critical] at hj
    · rename_i hji
      have hb : bucket k ≠ bucket key := fun hb =>
        hji (hl.exclusive hj (by rw [hpc]; rfl) hb)
      simp only [Function.update_of_ne hb]
      exact hl.mutex j k hj
  · simp only [hthread] at hj
    split at hj
    · simp [Pc.pending] at hj
    · exact hl.latest j k v hj
  · refine hl.value k c hc fun j v hj => ?_
    rcases eq_or_ne j i with rfl | hji
    · rw [hpc] at hj
      simp [Pc.pending] at hj
    · have hno' := hno j v
      simp only [hthread, if_neg hji] at hno'
      exact hno' hj
  · simp only [hthread] at hj ⊢
    split
    · trivial
    · rename_i hji
      rw [if_neg hji] at hj
      exact hl.place j k c hj hc
  · simp only [hthread] at hj ⊢
    split at hj
    · rename_i hji
      subst hji
      rcases hl.granted j k v hj with hp | hmem
      · rw [hpc] at hp
        simp at hp
      · exact Or.inr hmem
    · rename_i hji
      rw [if_neg hji]
      exact hl.granted j k v hj
  · simp only [hthread]
    have hold := hl.started j k v hj
    split
    · rename_i hji
      rwa [hji] at hold
    · exact hold

/-- A thread goes on without changing its bucket, at a place of the same put or outside of
any. -/
theorem Excl.of_goto (hl : Excl s) (h : Inv s) (hm : Move true i s t) {pc pc' : Pc}
    (hpc : (s.thread i).pc = pc) (hthread : t.thread i = { s.thread i with pc := pc' })
    (hno : pc.changing = none) (hlocks : t.locks = s.locks) (hgranted : t.granted = s.granted)
    (hcrit : pc'.critical = pc.critical) (hpend : pc'.pending = pc.pending)
    (hlock : ∀ key value, pc ≠ .lock key value)
    (hplace : ∀ key c, pc.critical = some key →
      Cells s.heap (bucket key) (s.table (bucket key)) c →
      (∀ p c, Cells s.heap (bucket key) p c → Cells t.heap (bucket key) p c) →
      pc.At s.heap c → pc'.At t.heap c) : Excl t := by
  subst hpc
  apply hl.of_quiet h hm (not_changes hno) hlocks hgranted
  · rw [hthread, hcrit]
  · rw [hthread, hpend]
  · intro key c hkey hc
    have hno' := not_changes hno (bucket key)
    have hc' := hm.cells_back h hno' hc
    rw [hthread]
    exact hplace key c hkey hc' (hm.cells h _ hno').2 (hl.place i key c hkey hc')
  · rw [hthread]
    exact fun op ho => ho
  · rw [hthread]
    intro key value hput
    rcases hl.granted i key value hput with hp | hmem
    · exact absurd hp (hlock key value)
    · exact Or.inr hmem

theorem goto_self (s : State ι) (i : ι) (pc : Pc) :
    (s.goto i pc).thread i = { s.thread i with pc := pc } := by
  simp [State.goto]

theorem Move.excl (h : Inv s) (hl : Excl s) (hm : Move true i s t) : Excl t := by
  have hm' := hm
  have hholds := h.holds i
  cases hm with
  | @start op todo hpc htodo =>
    apply hl.of_quiet h hm' (not_changes (by rw [hpc]; rfl)) rfl rfl
    · simp only [thread_setThread, if_true, hpc]
      cases op <;> rfl
    · simp only [thread_setThread, if_true, hpc]
      cases op <;> rfl
    · intro key c hkey
      simp [hpc, Pc.critical] at hkey
    · intro o ho
      simp only [thread_setThread, if_true]
      exact List.mem_cons_of_mem _ ho
    · intro key value hput
      simp only [thread_setThread, if_true] at hput ⊢
      rcases List.mem_cons.mp hput with rfl | hput
      · exact Or.inl rfl
      · rcases hl.granted i key value hput with hp | hmem
        · simp [hpc] at hp
        · exact Or.inr hmem
  | lock hpc hfree => exact hl.of_lock hpc hfree (h.started i _ (by rw [hpc]; rfl))
  | @first op hpc =>
    cases op with
    | get key =>
      refine hl.of_goto h hm' hpc (goto_self ..) rfl rfl rfl rfl rfl (by simp) ?_
      exact fun _ _ _ _ _ _ => trivial
    | put key value =>
      refine hl.of_goto h hm' hpc (goto_self ..) rfl rfl rfl rfl rfl (by simp) ?_
      intro k c hk hc _ _
      obtain rfl := Option.some.inj hk
      exact ⟨[], c, rfl, hc, by simp⟩
  | absent hpc =>
    refine hl.of_goto h hm' hpc (goto_self ..) rfl rfl rfl rfl rfl (by simp) ?_
    rintro k c - - - ⟨c₁, c₂, rfl, h₂, h₁⟩
    rw [h₂.eq_nil, List.append_nil]
    exact h₁
  | missing hpc =>
    apply hl.of_quiet h hm' (not_changes (by rw [hpc]; rfl)) rfl rfl
    · simp only [thread_setThread, if_true, hpc]
      rfl
    · simp only [thread_setThread, if_true, hpc]
      rfl
    · intro key c hkey
      simp [hpc, Pc.critical] at hkey
    · intro o ho
      simpa using ho
    · intro key value hput
      simp only [thread_setThread, if_true] at hput
      rcases hl.granted i key value hput with hp | hmem
      · simp [hpc] at hp
      · exact Or.inr hmem
  | found hpc he hkey =>
    refine hl.of_goto h hm' hpc (goto_self ..) rfl rfl rfl rfl rfl (by simp) ?_
    rintro k c - - - ⟨c₁, c₂, rfl, h₂, h₁⟩
    obtain ⟨c₃, rfl, -⟩ := h₂.head he
    exact ⟨_, List.mem_append_right _ List.mem_cons_self, rfl, hkey⟩
  | got hpc =>
    refine hl.of_goto h hm' hpc (goto_self ..) rfl rfl rfl rfl rfl (by simp) ?_
    exact fun _ _ _ _ _ _ => trivial
  | @other op a e hpc he hkey =>
    cases op with
    | get key =>
      refine hl.of_goto h hm' hpc (goto_self ..) rfl rfl rfl rfl rfl (by simp) ?_
      exact fun _ _ _ _ _ _ => trivial
    | put key value =>
      refine hl.of_goto h hm' hpc (goto_self ..) rfl rfl rfl rfl rfl (by simp) ?_
      rintro k c - - - ⟨c₁, c₂, rfl, h₂, h₁⟩
      obtain ⟨c₃, rfl, -⟩ := h₂.head he
      exact ⟨c₁, _, c₃, rfl, h₂, h₁, hkey⟩
  | @next op a e hpc he =>
    cases op with
    | get key =>
      refine hl.of_goto h hm' hpc (goto_self ..) rfl rfl rfl rfl rfl (by simp) ?_
      exact fun _ _ _ _ _ _ => trivial
    | put key value =>
      refine hl.of_goto h hm' hpc (goto_self ..) rfl rfl rfl rfl rfl (by simp) ?_
      rintro k c - - - ⟨c₁, x, c₂, rfl, h₂, h₁, hx⟩
      obtain ⟨c₃, heq, -, -, h₃⟩ := h₂.head he
      obtain ⟨-, rfl⟩ := List.cons.inj heq
      refine ⟨c₁ ++ [x], c₂, by simp, h₃, fun y hy => ?_⟩
      rcases List.mem_append.mp hy with hy | hy
      · exact h₁ y hy
      · obtain rfl := List.mem_singleton.mp hy
        exact hx
  | @update key value a e hpc he =>
    have hpend : (s.thread i).pc.pending = some (key, value) := by rw [hpc]; rfl
    refine hl.of_change h hm' ?_ hpend (goto_self ..) rfl rfl fun c hc => ?_
    · exact fun b hb => not_changes_of_ne (by rw [hpc]; rfl) hb
    · have hat := hl.place i key c (Pc.critical_of_pending hpend) hc
      have hnodup := hl.keys _ c hc
      rw [hpc] at hat
      obtain ⟨x, hx, rfl, rfl⟩ := hat
      exact ⟨setCell c x.addr value, hc.setValue he value, by rwa [map_key_setCell],
        hc.setValue_values hnodup hx value⟩
  | insert hpc =>
    refine hl.of_goto h hm' hpc (goto_self ..) rfl rfl rfl rfl rfl (by simp) ?_
    intro k c hk hc _ hat
    obtain rfl := Option.some.inj hk
    exact ⟨hc, hat⟩
  | malloc hpc =>
    refine hl.of_goto h hm' hpc (goto_self ..) rfl rfl rfl rfl rfl (by simp) ?_
    intro k c hk _ hcells hat
    obtain rfl := Option.some.inj hk
    exact ⟨hcells _ _ hat.1, hat.2⟩
  | setKey hpc =>
    refine hl.of_goto h hm' hpc (goto_self ..) rfl rfl rfl rfl rfl (by simp) ?_
    intro k c hk _ hcells hat
    obtain rfl := Option.some.inj hk
    exact ⟨hcells _ _ hat.1, hat.2⟩
  | setValue hpc =>
    refine hl.of_goto h hm' hpc (goto_self ..) rfl rfl rfl rfl rfl (by simp) ?_
    intro k c hk _ hcells hat
    obtain rfl := Option.some.inj hk
    exact ⟨hcells _ _ hat.1, hat.2⟩
  | @setNext key value n a e hpc he =>
    refine hl.of_goto h hm' hpc (goto_self ..) rfl rfl rfl rfl rfl (by simp) ?_
    intro k c hk _ hcells hat
    obtain rfl := Option.some.inj hk
    rw [hpc] at hholds
    obtain ⟨-, x, hx, -, hks, hkey, hvs, hv⟩ := hholds
    obtain rfl := Option.some.inj (he.symm.trans hx)
    refine ⟨?_, hat.2⟩
    subst hkey hv
    exact Cells.cons (e := { e with next := n, nextSet := true }) (Function.update_self ..)
      ⟨hks, hvs, rfl⟩ rfl (hcells n c hat.1)
  | @link key value n a hpc =>
    have hpend : (s.thread i).pc.pending = some (key, value) := by rw [hpc]; rfl
    refine hl.of_change h hm' ?_ hpend (goto_self ..) rfl rfl fun c hc => ?_
    · exact fun b hb => not_changes_of_ne (by rw [hpc]; rfl) hb
    · have hat := hl.place i key c (Pc.critical_of_pending hpend) hc
      rw [hpc] at hat
      refine ⟨⟨a, key, value⟩ :: c, ?_, cons_values (hl.keys _ c hc) hat.2⟩
      simpa [State.goto, State.setThread] using hat.1
  | unlock hpc => exact hl.of_unlock hpc

theorem Run.excl {is : List ι} (hr : Run true s is t) (h : Inv s) (hl : Excl s) : Excl t := by
  induction hr with
  | nil => exact hl
  | snoc hr hs ih => exact hs.move.excl (hr.inv h) ih

/-- The loop of `get` from a pointer, for at most a number of turns. -/
def search (heap : ℕ → Option Entry) (key : ℕ) : ℕ → Option ℕ → Option (Option ℕ)
  | 0, _ => none
  | _ + 1, none => some none
  | n + 1, some a => do
    let e ← heap a
    if e.key = key then some (some a) else search heap key n e.next

/-- `get`: the entry of a key, or a null pointer. -/
def get (s : State ι) (key fuel : ℕ) : Option (Option ℕ) :=
  search s.heap key fuel (s.table (bucket key))

theorem Cells.search {heap : ℕ → Option Entry} {b : Fin NBUCKET} {p : Option ℕ} {c : List Cell}
    (h : Cells heap b p c) (key : ℕ) {fuel : ℕ} (hfuel : c.length < fuel) :
    search heap key fuel p = some ((c.find? fun x => x.key = key).map Cell.addr) := by
  induction c generalizing p fuel with
  | nil =>
    obtain ⟨hn, -⟩ := h
    cases hn
    obtain ⟨n, rfl⟩ := Nat.exists_eq_succ_of_ne_zero (Nat.ne_of_gt hfuel)
    rfl
  | cons x c ih =>
    obtain ⟨n, rfl⟩ := Nat.exists_eq_succ_of_ne_zero (Nat.ne_of_gt (Nat.zero_lt_of_lt hfuel))
    obtain ⟨e, he, hkey, hvalue⟩ := h.2 x List.mem_cons_self
    have hp : p = some x.addr := by
      cases h.1 with
      | cons => rfl
    subst hp
    obtain ⟨c', heq, -, -, hc'⟩ := h.head he
    obtain ⟨-, rfl⟩ := List.cons.inj heq
    rw [Hash.search, he]
    by_cases hk : x.key = key
    · simp [hk, hkey]
    · have hrest := ih hc' (Nat.lt_of_succ_lt_succ hfuel)
      simp [hk, hkey, hrest]

/-- The puts of `put_thread`: a share of the keys, with the number of the thread. -/
def putThread (keys : List ℕ) (nthread : ℕ) (n : Fin nthread) : List Op :=
  let b := keys.length / nthread
  (List.range b).map fun i => .put (keys.getD (b * n + i) 0) n

theorem mem_putThread {keys : List ℕ} {nthread : ℕ} (hdvd : nthread ∣ keys.length) {key : ℕ}
    (hkey : key ∈ keys) : ∃ n : Fin nthread, .put key n ∈ putThread keys nthread n := by
  obtain ⟨k, hk, rfl⟩ := List.getElem_of_mem hkey
  obtain ⟨b, hb⟩ := hdvd
  have hpos : 0 < nthread * b := hb ▸ Nat.zero_lt_of_lt hk
  have hn : 0 < nthread := Nat.pos_of_mul_pos_right hpos
  have hb0 : 0 < b := Nat.pos_of_mul_pos_left hpos
  have hlen : keys.length / nthread = b := by rw [hb, Nat.mul_div_cancel_left _ hn]
  have hlt : k / b < nthread := Nat.div_lt_of_lt_mul (by rw [Nat.mul_comm, ← hb]; exact hk)
  refine ⟨⟨k / b, hlt⟩, List.mem_map.mpr ⟨k % b, ?_, ?_⟩⟩
  · rw [hlen]
    exact List.mem_range.mpr (Nat.mod_lt _ hb0)
  · simp only [hlen, Nat.div_add_mod]
    rw [List.getD_eq_getElem?_getD, List.getElem?_eq_getElem hk, Option.getD_some]

theorem of_mem_putThread {keys : List ℕ} {nthread : ℕ} {n : Fin nthread} {key : ℕ} {value : ℤ}
    (h : .put key value ∈ putThread keys nthread n) : key ∈ keys ∧ value = n := by
  obtain ⟨i, hi, heq⟩ := List.mem_map.mp h
  obtain ⟨rfl, rfl⟩ := Op.put.inj heq
  refine ⟨?_, rfl⟩
  have hshare := Nat.mul_le_mul_left (keys.length / nthread) (Nat.succ_le_of_lt n.isLt)
  have hlen := Nat.div_mul_le_self keys.length nthread
  rw [Nat.mul_succ] at hshare
  have hlt : keys.length / nthread * n + i < keys.length := by
    have hi' := List.mem_range.mp hi
    omega
  rw [List.getD_eq_getElem?_getD, List.getElem?_eq_getElem hlt, Option.getD_some]
  exact List.getElem_mem hlt

theorem Move.program {locked : Bool} (hm : Move locked i s t) (j : ι) :
    (t.thread j).started.reverse ++ (t.thread j).todo =
      (s.thread j).started.reverse ++ (s.thread j).todo := by
  rcases eq_or_ne j i with rfl | hj
  · cases hm with
    | start hpc htodo => simp [htodo]
    | _ => simp [State.goto, State.setEntry]
  · rw [hm.frame hj]

theorem Run.program {locked : Bool} {is : List ι} (h : Run locked s is t) (j : ι) :
    (t.thread j).started.reverse ++ (t.thread j).todo =
      (s.thread j).started.reverse ++ (s.thread j).todo := by
  induction h with
  | nil => rfl
  | snoc _ hs ih => exact (hs.move.program j).trans ih

/-- Every put has finished, whatever the schedule was. Then `get` finds every key. A key that
was put is in one entry of the whole table, in its bucket, with the number of the thread
whose put of it got the lock last; and there are no other keys. -/
theorem put_threads (keys : List ℕ) (nthread : ℕ) (s₀ s : State (Fin nthread))
    (is : List (Fin nthread)) (hdvd : nthread ∣ keys.length)
    (hstart : Start (putThread keys nthread) s₀) (hrun : Run true s₀ is s)
    (hdone : ∀ n, (s.thread n).pc = .idle ∧ (s.thread n).todo = []) :
    ∃ l : Fin NBUCKET → List ℕ,
      (∀ b, Chain (fun a => (s.heap a).map Entry.next) (s.table b) (l b)) ∧
      (∀ key ∈ keys, ∃ (a : ℕ) (e : Entry) (n : Fin nthread), a ∈ l (bucket key) ∧
        s.heap a = some e ∧ e.key = key ∧
        (∃ fuel, get s key fuel = some (some a)) ∧
        lastGrant s.granted key = some (n, key, e.value) ∧ e.value = n ∧
        ∀ b a' e', a' ∈ l b → s.heap a' = some e' → e'.key = key → b = bucket key ∧ a' = a) ∧
      ∀ b a e, a ∈ l b → s.heap a = some e → e.key ∈ keys := by
  have h := hrun.inv hstart.inv
  have hl := hrun.excl hstart.inv hstart.excl
  have hcells : ∀ b, ∃ c, Cells s.heap b (s.table b) c := fun b => by
    obtain ⟨l, hl⟩ := h.table b
    obtain ⟨c, hc, -⟩ := Cells.of_chain hl
    exact ⟨c, hc⟩
  choose c hc using hcells
  have hstarted : ∀ n, (s.thread n).started.reverse = putThread keys nthread n := fun n => by
    have hprog := hrun.program n
    rw [(hdone n).2, hstart.thread] at hprog
    simpa using hprog
  have hvalue : ∀ key, valueAt (c (bucket key)) key =
      (lastGrant s.granted key).map fun x => x.2.2 := fun key =>
    hl.value key _ (hc _) fun n value hn => by simp [(hdone n).1, Pc.pending] at hn
  -- a put that got its lock is one of the thread's share
  have hgrant : ∀ {n key value}, (n, key, value) ∈ s.granted → key ∈ keys ∧ value = n :=
    fun {n key value} hg => by
      have hput := hl.started n key value hg
      rw [← List.mem_reverse, hstarted] at hput
      exact of_mem_putThread hput
  refine ⟨fun b => (c b).map Cell.addr, fun b => ?_, fun key hkey => ?_, fun b a e ha he => ?_⟩
  · refine (hc b).1.mono fun a q hq => ?_
    obtain ⟨e, he, -, -, hn⟩ := nexts_eq_some.mp hq
    rw [he, Option.map_some, hn]
  · obtain ⟨n, hput⟩ := mem_putThread hdvd hkey
    rw [← hstarted, List.mem_reverse] at hput
    have hmem : (n, key, (n : ℤ)) ∈ s.granted := by
      rcases hl.granted n key n hput with hp | hmem
      · simp [(hdone n).1] at hp
      · exact hmem
    obtain ⟨⟨m, key', value⟩, hlast⟩ := Option.isSome_iff_exists.mp
      (List.find?_isSome (p := fun x => x.2.1 = key).mpr ⟨_, hmem, by simp⟩)
    have hkey' : key' = key := by simpa using List.find?_some hlast
    subst hkey'
    obtain ⟨-, rfl⟩ := hgrant (List.mem_of_find?_eq_some hlast)
    have hval := hvalue key'
    rw [show lastGrant s.granted key' = some (m, key', (m : ℤ)) from hlast] at hval
    obtain ⟨x, hfind, hxv⟩ := Option.map_eq_some_iff.mp hval
    have hx := List.mem_of_find?_eq_some hfind
    have hxk : x.key = key' := by simpa using List.find?_some hfind
    obtain ⟨e, he, hek, hev⟩ := (hc _).2 x hx
    refine ⟨x.addr, e, m, List.mem_map_of_mem hx, he, hek.trans hxk,
      ⟨(c (bucket key')).length + 1, ?_⟩, ?_, ?_, ?_⟩
    · rw [get, (hc _).search key' (Nat.lt_succ_self _), hfind]
      rfl
    · rw [hev, hxv]
      exact hlast
    · rw [hev, hxv]
    · intro b a' e' ha' he' hek'
      obtain ⟨y, hy, rfl⟩ := List.mem_map.mp ha'
      obtain ⟨e'', he'', -, hb, hyk, -⟩ := (hc b).of_mem hy
      obtain rfl := Option.some.inj (he'.symm.trans he'')
      rw [hek'] at hb hyk
      subst hb
      rw [List.inj_on_of_nodup_map (hl.keys _ _ (hc _)) hy hx (hyk.symm.trans hxk.symm)]
      exact ⟨rfl, rfl⟩
  · obtain ⟨x, hx, rfl⟩ := List.mem_map.mp ha
    obtain ⟨e', he', -, rfl, hk, -⟩ := (hc b).of_mem hx
    obtain rfl := Option.some.inj (he.symm.trans he')
    have hval := valueAt_of_mem (hl.keys _ _ (hc _)) hx
    rw [← hk, hvalue] at hval
    obtain ⟨y, hy, -⟩ := Option.map_eq_some_iff.mp hval
    obtain ⟨n, key, value⟩ := y
    have hkey : key = e.key := by simpa using List.find?_some hy
    exact hkey ▸ (hgrant (List.mem_of_find?_eq_some hy)).1

section Small

def pairStart : State (Fin 2) where
  table _ := none
  heap _ := none
  locks _ := none
  thread i := ⟨.idle, putThread [3, 3] 2 i, [], 0⟩
  granted := []

/-- The second one waits for the lock and then finds the entry of the first. -/
def pair {ι : Type} (i j : ι) : List (ι × ℕ) :=
  [(i, 0), (j, 0)] ++ List.replicate 10 (i, 100) ++ List.replicate 5 (j, 200)

theorem put_threads_small : ∃ s, runAll true (pair 0 1) pairStart = some s ∧
    ∃ a fuel, get s 3 fuel = some (some a) := by
  have hdone : (runAll true (pair 0 1) pairStart).any (fun s =>
      ∀ n, (s.thread n).pc = .idle ∧ (s.thread n).todo = []) = true := by decide +kernel
  cases hs : runAll true (pair 0 1) pairStart with
  | none => simp [hs] at hdone
  | some s =>
    rw [hs, Option.any_some, decide_eq_true_eq] at hdone
    obtain ⟨is, hrun⟩ := Run.of_runAll hs
    obtain ⟨_, -, hget, -⟩ := put_threads [3, 3] 2 pairStart s is (by decide)
      ⟨fun _ => rfl, fun _ => rfl, fun _ => rfl, fun _ => rfl, rfl⟩ hrun hdone
    obtain ⟨a, _, _, -, -, -, ⟨fuel, ha⟩, -⟩ := hget 3 (by simp)
    exact ⟨s, rfl, a, fuel, ha⟩

end Small

end Xv6Sheet.Hash
