import Xv6Sheet.Memdump.Decode

/-! # The data that are read

`quiz1/memdump.c` reads its items without looking at the end of the buffer. It stays in the buffer
when the items of the format lie in it one after the other, a string with its NUL.
-/

namespace Xv6Sheet.Memdump

open Exec

variable {mem : Memory} {out : List Line} {ptr n : ℕ} {c : UInt8} {fmt d : List UInt8}

def width (c : UInt8) : Option ℕ :=
  if c = 105 then some 4
  else if c = 112 then some 8
  else if c = 104 then some 2
  else if c = 99 then some 1
  else if c = 115 then some 8
  else if c = 83 then none
  else if c = 113 then some 16
  else some 0

/-- The items of a format lie one after the other at the beginning of the data, as far as the
program comes: it stops at a pointer to no string. -/
inductive Fits (string : ℕ → Option Str) : Str → List UInt8 → Prop
  | nil {d : List UInt8} : Fits string [] d
  | item {c : UInt8} {fmt : Str} {d : List UInt8} {n : ℕ} : width c = some n → n ≤ d.length →
      Fits string fmt (d.drop n) → Fits string (c :: fmt) d
  | str {fmt : Str} {s e : List UInt8} : 0 ∉ s → Fits string fmt e →
      Fits string (83 :: fmt) (s ++ 0 :: e)
  | stuck {fmt : Str} {d : List UInt8} : 8 ≤ d.length → string ((Bytes.ofList d).le 0 8) = none →
      Fits string (115 :: fmt) d

section Fits

variable {string : ℕ → Option Str}

theorem fits_of_width (hw : width c = some n) (hc : c ≠ 115) :
    Fits string (c :: fmt) d ↔ n ≤ d.length ∧ Fits string fmt (d.drop n) := by
  constructor
  · intro h
    cases h with
    | item hw' hle hrest =>
      obtain rfl := Option.some.inj (hw.symm.trans hw')
      exact ⟨hle, hrest⟩
    | str _ _ => exact absurd hw (by simp [width])
    | stuck _ _ => exact absurd rfl hc
  · rintro ⟨hle, hrest⟩
    exact .item hw hle hrest

theorem fits_pointer : Fits string (115 :: fmt) d ↔
    8 ≤ d.length ∧ (string ((Bytes.ofList d).le 0 8) = none ∨ Fits string fmt (d.drop 8)) := by
  have hw : width 115 = some 8 := by decide
  constructor
  · intro h
    cases h with
    | item hw' hle hrest =>
      obtain rfl := Option.some.inj (hw.symm.trans hw')
      exact ⟨hle, .inr hrest⟩
    | stuck hle hnone => exact ⟨hle, .inl hnone⟩
  · rintro ⟨hle, hnone | hrest⟩
    · exact .stuck hle hnone
    · exact .item hw hle hrest

theorem fits_str : Fits string (83 :: fmt) d ↔
    0 ∈ d ∧ Fits string fmt (d.drop ((d.takeWhile fun c => c ≠ 0).length + 1)) := by
  have hdrop : ∀ {s e : List UInt8}, 0 ∉ s →
      (s ++ 0 :: e).drop (((s ++ 0 :: e).takeWhile fun c => c ≠ 0).length + 1) = e := by
    intro s e hs
    have hall : ∀ c ∈ s, decide (c ≠ 0) = true := fun c hc =>
      decide_eq_true fun h0 => hs (h0 ▸ hc)
    rw [List.takeWhile_append_of_pos hall, List.takeWhile_cons]
    simp [List.drop_append]
  constructor
  · intro h
    cases h with
    | item hw _ _ => exact absurd hw (by simp [width])
    | str hs hrest =>
      rw [hdrop hs]
      exact ⟨by simp, hrest⟩
  · rintro ⟨h0, hrest⟩
    obtain ⟨s, e, rfl, hs⟩ := List.eq_append_cons_of_mem h0
    rw [hdrop hs] at hrest
    exact .str hs hrest

end Fits

def ReadsInside {α : Type} (m : DumpM α) (out : List Line) : Prop := ∀ i, ¬ Faults m out (.data i)

theorem readsInside_bind {α β : Type} {m : DumpM α} {f : α → DumpM β} {a : α} {out' : List Line}
    (h : Ends m out a out') : ReadsInside (m >>= f) out ↔ ReadsInside (f a) out' :=
  forall_congr' fun _ => not_congr (h.faults_iff f _)

theorem not_readsInside_bind {α β : Type} {m : DumpM α} {i : ℕ} (h : Faults m out (.data i))
    (f : α → DumpM β) : ¬ ReadsInside (m >>= f) out :=
  fun hin => hin i (faults_bind.mpr (.inl h))

theorem faults_load (h : ¬ ptr + n ≤ mem.data.length) :
    Faults (load mem ptr n) out (.data (max ptr mem.data.length)) := by
  unfold load
  rw [if_neg h]
  exact faults_throw.mpr rfl

/-- A program that goes `n` bytes further in the data, and stops where there are less. -/
def Takes (mem : Memory) (n ptr : ℕ) (m : DumpM ℕ) : Prop := ∀ out,
  (ptr + n ≤ mem.data.length → ∃ out', Ends m out (ptr + n) out') ∧
    (¬ ptr + n ≤ mem.data.length → ∃ i, Faults m out (.data i))

theorem takes_load {f : ℕ → Line} : Takes mem n ptr (do
    let value ← load mem ptr n
    print (f value)
    return ptr + n) := by
  intro out
  constructor
  · intro h
    exact ⟨_, (ends_load h).bind (ends_print_return _ _)⟩
  · intro h
    exact ⟨_, faults_bind.mpr (.inl (faults_load h))⟩

namespace Quiz

theorem ends_printPair (hi lo : ℤ) (out : List Line) :
    ∃ out', Ends (printPair hi lo) out () out' := by
  unfold printPair
  split
  · exact ⟨out, ends_pure.mpr ⟨rfl, rfl⟩⟩
  · dsimp only
    split
    · exact ⟨_, ends_print _⟩
    · exact ⟨out, ends_pure.mpr ⟨rfl, rfl⟩⟩

theorem faults_dumpPair {j : ℕ} (h : ¬ ptr + 2 * j + 2 ≤ mem.data.length) (out : List Line) :
    ∃ i, Faults (dumpPair mem ptr j) out (.data i) := by
  by_cases hhi : ptr + 2 * j + 1 ≤ mem.data.length
  · have hlo : ¬ ptr + 2 * j + 1 + 1 ≤ mem.data.length := h
    exact ⟨_, ((ends_load hhi).faults_iff _ _).mpr (faults_bind.mpr (.inl (faults_load hlo)))⟩
  · exact ⟨_, faults_bind.mpr (.inl (faults_load hhi))⟩

theorem takes_pairs (k m : ℕ) (hle : ptr + 2 * k ≤ mem.data.length) (out : List Line) :
    (ptr + 2 * (k + m) ≤ mem.data.length →
      ∃ out', Ends (each (dumpPair mem ptr) k m) out () out') ∧
    (¬ ptr + 2 * (k + m) ≤ mem.data.length →
      ∃ i, Faults (each (dumpPair mem ptr) k m) out (.data i)) := by
  induction m generalizing k out with
  | zero => exact ⟨fun _ => ⟨out, ends_pure.mpr ⟨rfl, rfl⟩⟩, fun h => absurd hle h⟩
  | succ m ih =>
    unfold each
    by_cases hpair : ptr + 2 * k + 2 ≤ mem.data.length
    swap
    · obtain ⟨i, hi⟩ := faults_dumpPair hpair out
      exact ⟨fun h => by omega, fun _ => ⟨i, faults_bind.mpr (.inl hi)⟩⟩
    obtain ⟨out₁, hprint⟩ := ends_printPair _ _ out
    have hturn : Ends (dumpPair mem ptr k) out () out₁ :=
      (ends_load (by omega)).bind ((ends_load (by omega)).bind hprint)
    obtain ⟨hgood, hbad⟩ := ih (k + 1) (by omega) out₁
    constructor
    · intro h
      obtain ⟨out', hend⟩ := hgood (by omega)
      exact ⟨out', hturn.bind hend⟩
    · intro h
      obtain ⟨i, hi⟩ := hbad (by omega)
      exact ⟨i, (hturn.faults_iff _ _).mpr hi⟩

theorem takes_dumpText (hle : ptr ≤ mem.data.length) : Takes mem 16 ptr (dumpText mem ptr) := by
  intro out
  have hstart : ptr + 2 * 0 ≤ mem.data.length := hle
  obtain ⟨hgood, hbad⟩ := takes_pairs 0 8 hstart out
  constructor
  · intro h
    obtain ⟨out', hend⟩ := hgood (by omega)
    exact ⟨_, hend.bind (ends_print_return _ _)⟩
  · intro h
    obtain ⟨i, hi⟩ := hbad (by omega)
    exact ⟨i, faults_bind.mpr (.inl hi)⟩

theorem takes_item (hle : ptr ≤ mem.data.length) (hw : width c = some n) (hc : c ≠ 115) :
    Takes mem n ptr (item mem ptr c) := by
  unfold item
  unfold width at hw
  split_ifs at hw ⊢
  all_goals obtain rfl := Option.some.inj hw
  · exact takes_load
  · exact takes_load
  · exact takes_load
  · exact takes_load
  · exact takes_dumpText hle
  · exact fun out => ⟨fun _ => ⟨out, ends_pure.mpr ⟨rfl, rfl⟩⟩, fun h => absurd hle h⟩

theorem length_takeWhile_lt {l : List UInt8} (h : 0 ∈ l) :
    (l.takeWhile fun c => c ≠ 0).length < l.length := by
  refine lt_of_le_of_ne (List.takeWhile_prefix _).length_le fun hlen => ?_
  have heq := (List.takeWhile_prefix fun c : UInt8 => c ≠ 0).eq_of_length hlen
  have hall := List.all_eq_true.mp (List.all_takeWhile (p := fun c : UInt8 => c ≠ 0) (l := l)) 0
    (heq.symm ▸ h)
  simp at hall

theorem eq_of_width_none (hw : width c = none) : c = 83 := by
  unfold width at hw
  split_ifs at hw
  assumption

theorem ends_dumpStr (h : 0 ∈ mem.data.drop ptr) (out : List Line) : ∃ out',
    Ends (dumpStr mem ptr) out
      (ptr + (((mem.data.drop ptr).takeWhile fun c => c ≠ 0).length + 1)) out' := by
  have hload : Ends (loadStr mem ptr) out ((mem.data.drop ptr).takeWhile fun c => c ≠ 0) out := by
    unfold loadStr
    rw [if_pos h]
    exact ends_pure.mpr ⟨rfl, rfl⟩
  exact ⟨_, hload.bind (ends_print_return _ _)⟩

theorem faults_dumpStr (h : 0 ∉ mem.data.drop ptr) (out : List Line) :
    ∃ i, Faults (dumpStr mem ptr) out (.data i) := by
  unfold dumpStr loadStr
  rw [if_neg h]
  exact ⟨_, faults_bind.mpr (.inl (faults_throw.mpr rfl))⟩

theorem ofList_drop (d : List UInt8) (ptr : ℕ) :
    (Bytes.ofList (d.drop ptr)).le 0 n = (Bytes.ofList d).le ptr n := by
  rw [← Nat.add_zero ptr, ← Bytes.le_shift]
  refine Bytes.le_congr fun k _ _ => ?_
  simp [Bytes.ofList, List.getD_eq_getElem?_getD]

/-- What is read for the rest of a format lies in the data exactly when its items do. -/
theorem readsInside_iff (fmt : Str) (hle : ptr ≤ mem.data.length) (out : List Line) :
    ReadsInside (fmt.foldlM (item mem) ptr) out ↔ Fits mem.string fmt (mem.data.drop ptr) := by
  induction fmt generalizing ptr out with
  | nil => exact iff_of_true (fun _ => faults_pure) .nil
  | cons c fmt ih =>
    rw [List.foldlM_cons]
    by_cases hptr : c = 115
    · subst hptr
      rw [fits_pointer, List.length_drop, List.drop_drop, ofList_drop]
      by_cases hlen : ptr + 8 ≤ mem.data.length
      swap
      · exact iff_of_false (not_readsInside_bind (faults_bind.mpr (.inl (faults_load hlen))) _)
          fun h => hlen (by omega)
      have hload : Ends (load mem ptr 8) out _ out := ends_load hlen
      rw [and_iff_right (by omega)]
      cases hs : mem.string ((Bytes.ofList mem.data).le ptr 8) with
      | none =>
        -- the program stops, but at no read of the data
        refine iff_of_true (fun i hi => ?_) (.inl rfl)
        have hitem : Faults (item mem ptr 115) out
            (.pointer ((Bytes.ofList mem.data).le ptr 8)) := by
          refine (hload.faults_iff _ _).mpr (faults_bind.mpr (.inl ?_))
          unfold deref
          rw [hs]
          exact faults_throw.mpr rfl
        rcases faults_bind.mp hi with hi | ⟨_, _, hend, _⟩
        · cases hitem.unique hi
        · exact hend.not_faults hitem
      | some s =>
        have hderef : Ends (deref mem ((Bytes.ofList mem.data).le ptr 8)) out s out := by
          unfold deref
          rw [hs]
          exact ends_pure.mpr ⟨rfl, rfl⟩
        have hitem : Ends (item mem ptr 115) out (ptr + 8) (out ++ [.str s]) :=
          hload.bind (hderef.bind (ends_print_return _ _))
        rw [readsInside_bind hitem, ih hlen]
        simp
    cases hw : width c with
    | some n =>
      obtain ⟨hgood, hbad⟩ := takes_item hle hw hptr out
      rw [fits_of_width hw hptr, List.length_drop, List.drop_drop]
      by_cases hlen : ptr + n ≤ mem.data.length
      · obtain ⟨out', hend⟩ := hgood hlen
        rw [readsInside_bind hend, ih hlen]
        exact (and_iff_right (by omega)).symm
      · obtain ⟨i, hi⟩ := hbad hlen
        exact iff_of_false (not_readsInside_bind hi _) fun h => hlen (by omega)
    | none =>
      obtain rfl := eq_of_width_none hw
      rw [fits_str, List.drop_drop]
      by_cases h0 : 0 ∈ mem.data.drop ptr
      · obtain ⟨out', hend⟩ := ends_dumpStr h0 out
        have hin : ptr + (((mem.data.drop ptr).takeWhile fun c => c ≠ 0).length + 1) ≤
            mem.data.length := by
          have hlt := length_takeWhile_lt h0
          rw [List.length_drop] at hlt
          omega
        rw [readsInside_bind (show Ends (item mem ptr 83) out _ out' from hend), ih hin]
        exact (and_iff_right h0).symm
      · obtain ⟨i, hi⟩ := faults_dumpStr h0 out
        exact iff_of_false (not_readsInside_bind (show Faults (item mem ptr 83) out _ from hi) _)
          fun h => h0 h.1

/-- The bytes of the standard input: the pieces before the first that is empty. -/
def input (pieces : List (List UInt8)) : List UInt8 :=
  (pieces.takeWhile fun piece => piece ≠ []).flatten

/-- The first bytes of an input as they stand in the buffer, with NULs behind them. -/
def padded (l : List UInt8) : List UInt8 := (l ++ List.replicate dataSize 0).take dataSize

theorem padded_of_le {l : List UInt8} (h : dataSize ≤ l.length) (e : List UInt8) :
    padded (l ++ e) = padded l := by
  unfold padded
  rw [List.append_assoc, List.take_append_of_le_length h, List.take_append_of_le_length h]

theorem padded_take {l : List UInt8} (e : List UInt8) (h : l.length ≤ dataSize) :
    padded (l ++ e.take (dataSize - l.length)) = padded (l ++ e) := by
  rcases le_total e.length (dataSize - l.length) with he | he
  · rw [List.take_of_length_le he]
  · have hsplit : l ++ e = (l ++ e.take (dataSize - l.length)) ++ e.drop (dataSize - l.length) := by
      rw [List.append_assoc, List.take_append_drop]
    rw [hsplit]
    refine (padded_of_le ?_ _).symm
    rw [List.length_append, List.length_take, min_eq_left he]
    omega

theorem overlay_padded {l piece : List UInt8} (h : l.length + piece.length ≤ dataSize) :
    Bytes.overlay (padded l) l.length piece = padded (l ++ piece) := by
  have hl : padded l = l ++ List.replicate (dataSize - l.length) 0 := by
    unfold padded
    rw [List.take_append, List.take_of_length_le (by omega), List.take_replicate,
      min_eq_left (Nat.sub_le _ _)]
  have hlp : padded (l ++ piece) =
      l ++ piece ++ List.replicate (dataSize - (l.length + piece.length)) 0 := by
    unfold padded
    rw [List.take_append, List.take_of_length_le (by simpa using h), List.take_replicate,
      List.length_append, min_eq_left (Nat.sub_le _ _)]
  rw [hl, hlp, Bytes.overlay, List.take_left, List.drop_append, List.drop_of_length_le (by omega),
    List.nil_append, List.drop_replicate]
  congr 2
  omega

theorem fill_padded (pieces : List (List UInt8)) {l : List UInt8} (hl : l.length ≤ dataSize) :
    fill pieces (padded l) l.length = padded (l ++ input pieces) := by
  induction pieces generalizing l with
  | nil => simp [fill, input]
  | cons piece pieces ih =>
    unfold fill
    dsimp only
    split_ifs with hroom hend
    · -- nothing was read although there is room, so there is nothing
      have hpiece : piece = [] := by
        rw [List.take_eq_nil_iff] at hend
        exact hend.resolve_left (by omega)
      simp [input, hpiece]
    · have hpiece : piece ≠ [] := fun h => hend (by rw [h, List.take_nil])
      have hgot : l.length + (piece.take (dataSize - l.length)).length ≤ dataSize := by
        rw [List.length_take]
        omega
      rw [overlay_padded hgot, ← List.length_append, ih (by rwa [List.length_append])]
      have hin : input (piece :: pieces) = piece ++ input pieces := by simp [input, hpiece]
      rw [hin]
      rcases le_total piece.length (dataSize - l.length) with hle | hle
      · rw [List.take_of_length_le hle, List.append_assoc]
      · -- the buffer is full, and the rest is not read
        have hfull : dataSize ≤ (l ++ piece.take (dataSize - l.length)).length := by
          rw [List.length_append, List.length_take, min_eq_left hle]
          omega
        rw [padded_of_le hfull, padded_take _ hl, ← List.append_assoc]
        refine (padded_of_le ?_ _).symm
        rw [List.length_append]
        omega
    · rw [padded_of_le (by omega)]

theorem buffer_eq (pieces : List (List UInt8)) : buffer pieces = padded (input pieces) := by
  have hnil : padded [] = List.replicate dataSize 0 := by simp [padded]
  have hfill := fill_padded pieces (l := []) (Nat.zero_le _)
  rwa [List.nil_append, hnil] at hfill

/-- With an argument the program reads nothing outside its buffer exactly when the items of the
format lie in it. -/
theorem reads_inside_iff (string : ℕ → Option Str) (fmt : Str) (pieces : List (List UInt8)) :
    ReadsInside (main string fmt pieces) [] ↔ Fits string fmt (padded (input pieces)) := by
  rw [← buffer_eq]
  have hiff := @readsInside_iff ⟨buffer pieces, string⟩ 0 fmt (Nat.zero_le _) []
  rw [List.drop_zero] at hiff
  rw [← hiff]
  refine forall_congr' fun i => not_congr ?_
  unfold main memdump
  simp

/-- A string that fills the buffer has no NUL in it. -/
theorem full_buffer_overrun : ¬ ∀ (string : ℕ → Option Str) (fmt : Str)
    (pieces : List (List UInt8)),
    ReadsInside (main string fmt pieces) [] := fun h =>
  h (fun _ => none) [83] [List.replicate 512 97] 512 (faults_of_fault (by decide +kernel))

end Quiz

end Xv6Sheet.Memdump
