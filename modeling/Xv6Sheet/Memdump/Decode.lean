import Mathlib.Tactic.Common
import Xv6Sheet.Memdump.Command

/-! # What is decoded

Values that are packed one after the other are printed one after the other, as each item leaves the
cursor at the next value. The other versions do the same for each letter.
-/

namespace Xv6Sheet.Memdump

open Exec

/-- A value in the data. A string has no NUL inside. -/
inductive Value
  | int (x : Int32)
  | short (x : Int16)
  | char (x : UInt8)
  | long (x : UInt64)
  | str (s : Str) (h : 0 ∉ s)

/-- The `n` bytes of a number, the lowest first. -/
def leBytes (n v : ℕ) : List UInt8 := Bytes.toList (Bytes.putLe (fun _ => 0) 0 n v) n

namespace Value

def letter : Value → UInt8
  | int _ => 105
  | short _ => 104
  | char _ => 99
  | long _ => 112
  | str _ _ => 83

def encode : Value → List UInt8
  | int x => leBytes 4 x.toBitVec.toNat
  | short x => leBytes 2 x.toBitVec.toNat
  | char x => [x]
  | long x => leBytes 8 x.toNat
  | str s _ => s ++ [0]

def line : Value → Line
  | int x => .dec x.toInt
  | short x => .dec x.toInt
  | char x => .char x
  | long x => .hex x.toNat
  | str s _ => .str s

end Value

variable {mem : Memory} {out : List Line} {ptr n v : ℕ} {pre rest fmt : List UInt8}

@[simp] theorem length_leBytes (n v : ℕ) : (leBytes n v).length = n := by simp [leBytes]

theorem le_leBytes (h : v < 256 ^ n) (pre rest : List UInt8) :
    (Bytes.ofList (pre ++ leBytes n v ++ rest)).le pre.length n = v := by
  have hread : (Bytes.putLe (fun _ => 0) 0 n v).le 0 n = v := Bytes.le_putLe h
  rw [← hread, ← Nat.add_zero pre.length, ← Bytes.le_shift]
  refine Bytes.le_congr fun k _ hk => ?_
  rw [Nat.zero_add] at hk
  have hbyte : (leBytes n v)[k]? = some (Bytes.putLe (fun _ => 0) 0 n v k) := by
    rw [leBytes, Bytes.toList_getElem?, if_pos hk]
  rw [Bytes.ofList, List.getD_eq_getElem?_getD, List.append_assoc,
    List.getElem?_append_right (by omega),
    Nat.add_sub_cancel_left, List.getElem?_append_left (by rwa [length_leBytes]), hread, hbyte]
  rfl

theorem ends_print (line : Line) : Ends (print line) out () (out ++ [line]) := ends_modify.mpr rfl

theorem ends_print_return (line : Line) (next : ℕ) : Ends (do
    print line
    return next) out next (out ++ [line]) := (ends_print line).bind (ends_pure.mpr ⟨rfl, rfl⟩)

theorem ends_load (h : ptr + n ≤ mem.data.length) :
    Ends (load mem ptr n) out ((Bytes.ofList mem.data).le ptr n) out := by
  unfold load
  rw [if_pos h]
  exact ends_pure.mpr ⟨rfl, rfl⟩

theorem ends_load_leBytes (hdata : mem.data = pre ++ leBytes n v ++ rest) (h : v < 256 ^ n) :
    Ends (load mem pre.length n) out v out := by
  have hin : pre.length + n ≤ mem.data.length := by
    rw [hdata, List.length_append, List.length_append, length_leBytes]
    omega
  have hload : Ends (load mem pre.length n) out _ out := ends_load hin
  rw [hdata] at hload
  rwa [le_leBytes h pre rest] at hload

theorem ends_loadStr {s : Str} (hdata : mem.data = pre ++ (s ++ [0]) ++ rest) (hs : 0 ∉ s) :
    Ends (loadStr mem pre.length) out s out := by
  have hdrop : mem.data.drop pre.length = s ++ 0 :: rest := by
    rw [hdata, List.append_assoc, List.drop_left, List.append_assoc, List.singleton_append]
  have hall : ∀ c ∈ s, decide (c ≠ 0) = true := fun c hc =>
    decide_eq_true fun h0 => hs (h0 ▸ hc)
  unfold loadStr
  rw [hdrop, if_pos (by simp), List.takeWhile_append_of_pos hall, List.takeWhile_cons]
  exact ends_pure.mpr ⟨by simp, rfl⟩

theorem signed_toNat (x : Int32) : signed 4 x.toBitVec.toNat = x.toInt :=
  (BitVec.toInt_eq_toNat_bmod x.toBitVec).symm

theorem signed_toNat' (x : Int16) : signed 2 x.toBitVec.toNat = x.toInt :=
  (BitVec.toInt_eq_toNat_bmod x.toBitVec).symm

namespace Lab1

theorem ends_item (x : Value) (hdata : mem.data = pre ++ x.encode ++ rest) :
    Ends (item mem pre.length x.letter) out (pre ++ x.encode).length (out ++ [x.line]) := by
  rw [List.length_append]
  cases x with
  | int x =>
    have hload : Ends _ out _ out := ends_load_leBytes hdata x.toBitVec.isLt
    rw [Value.encode, length_leBytes, Value.line, ← signed_toNat]
    exact hload.bind (ends_print_return _ _)
  | short x =>
    have hload : Ends _ out _ out := ends_load_leBytes hdata x.toBitVec.isLt
    rw [Value.encode, length_leBytes, Value.line, ← signed_toNat']
    exact hload.bind (ends_print_return _ _)
  | char x =>
    have hbyte : leBytes 1 x.toNat = [x] := by
      simp [leBytes, Bytes.toList, Bytes.putLe]
    rw [Value.encode, ← hbyte] at hdata
    have hload : Ends _ out _ out := ends_load_leBytes hdata x.toNat_lt
    have hchar : UInt8.ofNat x.toNat = x := UInt8.ofNat_toNat
    rw [Value.line, ← hchar]
    exact hload.bind (ends_print_return _ _)
  | long x =>
    have hload : Ends _ out _ out := ends_load_leBytes hdata x.toNat_lt
    rw [Value.encode, length_leBytes]
    exact hload.bind (ends_print_return _ _)
  | str s hs =>
    have hload : Ends _ out _ out := ends_loadStr hdata hs
    rw [Value.encode, List.length_append, List.length_singleton]
    exact hload.bind (ends_print_return _ _)

theorem ends_items (vs : List Value) (hdata : mem.data = pre ++ vs.flatMap Value.encode ++ rest) :
    Ends ((vs.map Value.letter).foldlM (item mem) pre.length) out
      (pre ++ vs.flatMap Value.encode).length (out ++ vs.map Value.line) := by
  induction vs generalizing pre out with
  | nil => exact ends_pure.mpr ⟨by simp, by simp⟩
  | cons x vs ih =>
    rw [List.flatMap_cons, ← List.append_assoc] at hdata ⊢
    have hsplit : mem.data = pre ++ x.encode ++ (vs.flatMap Value.encode ++ rest) := by
      rw [hdata, List.append_assoc (pre ++ x.encode)]
    have hitem : Ends _ out _ _ := ends_item x hsplit
    have hrest : Ends _ (out ++ [x.line]) _ _ := ih hdata
    rw [List.map_cons, List.map_cons, List.foldlM_cons]
    rw [List.append_assoc out, List.singleton_append] at hrest
    exact hitem.bind hrest

end Lab1

theorem Cooked.item_eq (ptr : ℕ) (c : UInt8) : Cooked.item mem ptr c = Lab1.item mem ptr c := by
  unfold Cooked.item Lab1.item
  repeat' split
  all_goals simp_all

theorem Quiz.item_eq {c : UInt8} (ptr : ℕ) (hc : c ≠ 113) :
    Quiz.item mem ptr c = Cooked.item mem ptr c := by
  unfold Quiz.item Cooked.item
  rw [if_neg hc]

theorem foldlM_congr {f g : ℕ → UInt8 → DumpM ℕ} (h : ∀ c ∈ fmt, ∀ ptr, f ptr c = g ptr c)
    (ptr : ℕ) :
    fmt.foldlM f ptr = fmt.foldlM g ptr := by
  induction fmt generalizing ptr with
  | nil => rfl
  | cons c fmt ih =>
    rw [List.foldlM_cons, List.foldlM_cons, h c List.mem_cons_self]
    exact congrArg _ (funext fun ptr => ih (fun c hc => h c (List.mem_cons_of_mem _ hc)) ptr)

theorem Mrm.memdumpFrom_cons {c : UInt8} (hc : c ≠ 83) (ptr : ℕ) :
    Mrm.memdumpFrom mem (c :: fmt) ptr = Cooked.item mem ptr c >>= Mrm.memdumpFrom mem fmt := by
  unfold Mrm.memdumpFrom Cooked.item
  split
  · rfl
  split
  · rfl
  split
  · rfl
  split
  · rfl
  split
  · rfl
  rw [pure_bind]

/-- With a string as the last item at most, `mrmdump.c` ends where the format ends. -/
theorem Mrm.memdumpFrom_eq (hlast : 83 ∉ fmt.dropLast) (ptr : ℕ) : Mrm.memdumpFrom mem fmt ptr = (do
    let _ ← fmt.foldlM (Cooked.item mem) ptr
    return ()) := by
  induction fmt generalizing ptr with
  | nil => rfl
  | cons c fmt ih =>
    rw [List.foldlM_cons, bind_assoc]
    by_cases hc : c = 83
    · subst hc
      obtain rfl : fmt = [] := by
        by_contra hne
        rw [List.dropLast_cons_of_ne_nil hne] at hlast
        exact hlast List.mem_cons_self
      simp [Mrm.memdumpFrom, Cooked.item, dumpStr]
    · rw [Mrm.memdumpFrom_cons hc]
      refine congrArg _ (funext fun ptr => ih ?_ ptr)
      cases fmt with
      | nil => simp
      | cons d fmt => exact fun h => hlast (List.mem_cons_of_mem _ h)

/-- Packed values are printed one per line, and for every format without `q` all versions do the
same, `mrmdump.c` when a string is the last item at most. -/
theorem memdump_decodes (vs : List Value) (rest : List UInt8) (string : ℕ → Option Str) :
    Ends (Lab1.memdump ⟨vs.flatMap Value.encode ++ rest, string⟩ (vs.map Value.letter)) [] ()
      (vs.map Value.line) ∧
    ∀ (mem : Memory) (fmt : Str), 113 ∉ fmt → Cooked.memdump mem fmt = Lab1.memdump mem fmt ∧
      Quiz.memdump mem fmt = Lab1.memdump mem fmt ∧
      (83 ∉ fmt.dropLast → Mrm.memdump mem fmt = Lab1.memdump mem fmt) := by
  constructor
  · have hdata : vs.flatMap Value.encode ++ rest = [] ++ vs.flatMap Value.encode ++ rest := rfl
    have hitems : Ends _ [] _ _ := @Lab1.ends_items ⟨_, string⟩ [] [] rest vs hdata
    exact hitems.bind (ends_pure.mpr ⟨rfl, rfl⟩)
  intro mem fmt hq
  have hcooked : Cooked.memdump mem fmt = Lab1.memdump mem fmt :=
    congrArg (· >>= _) (foldlM_congr (fun c _ ptr => Cooked.item_eq ptr c) 0)
  refine ⟨hcooked, ?_, fun hlast => ?_⟩
  · rw [← hcooked]
    exact congrArg (· >>= _) (foldlM_congr (fun c hc ptr =>
      Quiz.item_eq ptr fun h => hq (h ▸ hc)) 0)
  · rw [← hcooked]
    exact Mrm.memdumpFrom_eq hlast 0

end Xv6Sheet.Memdump
