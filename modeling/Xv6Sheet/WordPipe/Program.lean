import Xv6Sheet.Lib.Interleaving
import Xv6Sheet.Lib.Print
import Xv6Sheet.Sixfive.Numbers

/-! # temu_pipe

The program that puts words together from the bytes of a pipe, and a program that writes into it.
The pipe has room for some bytes. A `write` of several bytes waits when the pipe is full, with a
part of them sent.
-/

namespace Xv6Sheet.WordPipe

open Xargs (Str)
open Sixfive (Filled filled_nil)

def sep : Str := [32, 9, 10]

/-- `strchr(sep, c)` finds the byte. -/
def isSep (c : UInt8) : Bool := c ∈ sep

/-- The variables of `main` of `temu_pipe.c` that outlive a byte. -/
structure Reader where
  buf : Bytes
  m : ℕ

/-- `buf[m] = 0`, the `printf`, and `m = 0`. -/
def endWord (arg : Str) (r : Reader) : Reader × List UInt8 :=
  let buf := Function.update r.buf r.m 0
  (⟨buf, 0⟩, arg ++ ascii " " ++ Bytes.str buf (r.m + 1) ++ ascii "\n")

def turn (arg : Str) (r : Reader) (c : UInt8) : Reader × List UInt8 :=
  if isSep c then
    if r.m = 0 then (r, []) else endWord arg r
  else if r.m < 511 then (⟨Function.update r.buf r.m c, r.m + 1⟩, [])
  else (r, [])

def finish (arg : Str) (r : Reader) : List UInt8 := if 0 < r.m then (endWord arg r).2 else []

def argOf (argv : List Str) : Str := argv.getD 1 []

/-- The writes of the writer. `printf` does one for each byte, and its message goes into the
pipe. -/
def writerMain (argv : List Str) : List (List UInt8) :=
  if argv.length < 2 then (ascii "Usage: writer <word>\n").map ([·])
  else [argv.getD 1 [], ascii "\n"]

inductive Who | writer | reader
  deriving DecidableEq, Repr

/-- The two processes and the pipe. The writer has its writes to do, until it exits. -/
structure State where
  writes : Option (List (List UInt8))
  pipe : List UInt8
  reader : Option Reader
  out : List UInt8

def step (cap : ℕ) (arg : Str) (s : State) : Who → Option State
  | .writer =>
    match s.writes with
    | none => none
    | some [] => some { s with writes := none }
    | some ([] :: ws) => some { s with writes := some ws }
    | some ((b :: bs) :: ws) =>
      -- nobody is left to read, and the write fails
      if s.reader.isNone then some { s with writes := some ws }
      else if s.pipe.length < cap then
        some { s with writes := some (bs :: ws), pipe := s.pipe ++ [b] }
      else none
  | .reader =>
    match s.reader, s.pipe with
    | none, _ => none
    | some r, c :: cs =>
      let (r, said) := turn arg r c
      some { s with pipe := cs, reader := some r, out := s.out ++ said }
    | some r, [] =>
      if s.writes.isNone then some { s with reader := none, out := s.out ++ finish arg r } else none

def start (buf : Bytes) (ws : List (List UInt8)) : State := ⟨some ws, [], some ⟨buf, 0⟩, []⟩

section Words

variable {arg : Str} {w : List UInt8} {r : Reader}

def line (arg w : Str) : List UInt8 :=
  if w = [] then [] else arg ++ ascii " " ++ (w.take 511).takeWhile (· ≠ 0) ++ ascii "\n"

def lines (arg : Str) (l : List UInt8) : List UInt8 := (words isSep l).flatMap (line arg)

def At (w : Str) (r : Reader) : Prop := Filled 511 r.buf r.m w

theorem At.eq_nil_iff (h : At w r) : r.m = 0 ↔ w = [] := by
  have hcount := h.count
  rw [← List.length_eq_zero_iff]
  omega

theorem At.endWord (h : At w r) (hne : w ≠ []) : (endWord arg r).2 = line arg w := by
  have hlen : (w.take 511).length = r.m := by
    rw [List.length_take]
    exact h.count.symm
  have hstr := Bytes.str_update_zero (b := r.buf) (w := w.take 511) (by rw [hlen, h.bytes])
  rw [hlen] at hstr
  simp only [WordPipe.endWord, line, if_neg hne, hstr]

theorem byWords (arg : Str) : ByWords isSep (line arg) (turn arg) At := by
  constructor
  · exact if_pos rfl
  · rintro w r c hc hr
    unfold turn
    rw [hc]
    simp only [Bool.false_eq_true, if_false]
    split
    · rename_i hm
      exact ⟨Filled.push hr hm c, rfl⟩
    · rename_i hm
      exact ⟨Filled.full hr hm c, rfl⟩
  · rintro w r c hc hr
    unfold turn
    rw [if_pos hc]
    split
    · rename_i hm
      obtain rfl := hr.eq_nil_iff.mp hm
      exact ⟨hr, (if_pos rfl).symm⟩
    · rename_i hm
      exact ⟨filled_nil 511 _, hr.endWord fun hw => hm (hr.eq_nil_iff.mpr hw)⟩

theorem At.finish (h : At w r) : finish arg r = line arg w := by
  unfold WordPipe.finish
  split
  · rename_i hm
    exact h.endWord fun hw => hm.ne' (h.eq_nil_iff.mpr hw)
  · rename_i hm
    exact (if_pos (h.eq_nil_iff.mp (by omega))).symm

/-- What the reader prints are the lines for the words, however the bytes come to it. -/
theorem reader_lines (arg : Str) (buf : Bytes) (l : List UInt8) :
    (readAll (turn arg) ⟨buf, 0⟩ l).2 ++ finish arg (readAll (turn arg) ⟨buf, 0⟩ l).1 =
    lines arg l := by
  have hnil : At [] ⟨buf, 0⟩ := filled_nil 511 buf
  exact (byWords arg).words hnil At.finish l

theorem reader_index (arg : Str) (buf : Bytes) (l : List UInt8) :
    (readAll (turn arg) ⟨buf, 0⟩ l).1.m ≤ 511 := by
  have hnil : At [] ⟨buf, 0⟩ := filled_nil 511 buf
  have hcount := ((byWords arg).readAll_nil hnil l).1.count
  omega

theorem lines_writer (arg name word : Str) (hne : word ≠ []) (hlen : word.length ≤ 511)
    (hword : ∀ c ∈ word, isSep c = false ∧ c ≠ 0) :
    lines arg (writerMain [name, word]).flatten = arg ++ ascii " " ++ word ++ ascii "\n" := by
  have hsent : (writerMain [name, word]).flatten = word ++ 10 :: [] := by
    rw [writerMain, if_neg (by simp)]
    exact congrArg (word ++ ·) (List.append_nil _)
  have hsep : ∀ c ∈ word, isSep c = false := fun c hc => (hword c hc).1
  have hzero : word.takeWhile (· ≠ 0) = word :=
    List.takeWhile_eq_self_iff.mpr fun c hc => decide_eq_true (hword c hc).2
  have hwords : words isSep (word ++ 10 :: []) = [word] := by
    rw [words_append_cons hsep rfl, if_neg hne, words_of_forall (by simp)]
    rfl
  rw [hsent, lines, hwords, List.flatMap_singleton, line, if_neg hne,
    List.take_of_length_le hlen, hzero]

end Words

end Xv6Sheet.WordPipe
