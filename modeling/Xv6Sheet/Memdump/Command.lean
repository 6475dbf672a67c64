import Xv6Sheet.Lib.Bytes
import Xv6Sheet.Lib.Exec

/-! # memdump

The four decoders that print data by a format, one letter for each item. A cursor goes over the
data; a read outside them, or through a pointer to no string, stops the program.
-/

namespace Xv6Sheet.Memdump

open Exec

abbrev Str := List UInt8

/-- What one call of `printf` prints. -/
inductive Line
  /-- `"%d\n"` -/
  | dec (n : ℤ)
  /-- `"%lx\n"` -/
  | hex (n : ℕ)
  /-- `"%c\n"` -/
  | char (c : UInt8)
  /-- `"%s\n"` -/
  | str (s : Str)
  /-- `"%c"` -/
  | put (c : UInt8)
  /-- `"\n"` -/
  | newline
  deriving DecidableEq, Repr

/-- A read of the data at an index, or of a string at an address, where there is none. -/
inductive Misuse
  | data (i : ℕ)
  | pointer (p : ℕ)
  deriving DecidableEq, Repr

/-- What the program reads: the data from the argument of `memdump` on, and the strings
elsewhere. -/
structure Memory where
  data : List UInt8
  string : ℕ → Option Str

abbrev DumpM := Exec (List Line) Misuse

def print (line : Line) : DumpM Unit := modify fun out => out ++ [line]

variable (mem : Memory)

/-- The `n` bytes of data at the cursor as a number. -/
def load (ptr n : ℕ) : DumpM ℕ :=
  if ptr + n ≤ mem.data.length then return (Bytes.ofList mem.data).le ptr n
  else throw (.data (max ptr mem.data.length))

def loadStr (ptr : ℕ) : DumpM Str :=
  if 0 ∈ mem.data.drop ptr then return (mem.data.drop ptr).takeWhile fun c => c ≠ 0
  else throw (.data (max ptr mem.data.length))

def deref (p : ℕ) : DumpM Str :=
  match mem.string p with
  | none => throw (.pointer p)
  | some s => return s

/-- A number of `n` bytes with its sign. -/
def signed (n v : ℕ) : ℤ := (v : ℤ).bmod (256 ^ n)

def dumpInt (ptr : ℕ) : DumpM ℕ := do
  let value ← load mem ptr 4
  print (.dec (signed 4 value))
  return ptr + 4

def dumpShort (ptr : ℕ) : DumpM ℕ := do
  let value ← load mem ptr 2
  print (.dec (signed 2 value))
  return ptr + 2

def dumpChar (ptr : ℕ) : DumpM ℕ := do
  let value ← load mem ptr 1
  print (.char (UInt8.ofNat value))
  return ptr + 1

def dumpPointer (ptr : ℕ) : DumpM ℕ := do
  let value ← load mem ptr 8
  let s ← deref mem value
  print (.str s)
  return ptr + 8

def dumpStr (ptr : ℕ) : DumpM ℕ := do
  let s ← loadStr mem ptr
  print (.str s)
  return ptr + (s.length + 1)

def dumpHex (ptr : ℕ) : DumpM ℕ := do
  let value ← load mem ptr 8
  print (.hex value)
  return ptr + 8

namespace Lab1

def item (ptr : ℕ) (c : UInt8) : DumpM ℕ :=
  if c = 105 then dumpInt mem ptr
  else if c = 104 then dumpShort mem ptr
  else if c = 99 then dumpChar mem ptr
  else if c = 115 then dumpPointer mem ptr
  else if c = 83 then dumpStr mem ptr
  else if c = 112 then dumpHex mem ptr
  else return ptr

/-- `memdump` of `lab1/memdump.c`. -/
def memdump (fmt : Str) : DumpM Unit := do
  let _ ← fmt.foldlM (item mem) 0
  return ()

end Lab1

namespace Cooked

def item (ptr : ℕ) (c : UInt8) : DumpM ℕ :=
  if c = 105 then dumpInt mem ptr
  else if c = 112 then dumpHex mem ptr
  else if c = 104 then dumpShort mem ptr
  else if c = 99 then dumpChar mem ptr
  else if c = 115 then dumpPointer mem ptr
  else if c = 83 then dumpStr mem ptr
  else return ptr

/-- `memdump` of `COOKED/memdump.c`. -/
def memdump (fmt : Str) : DumpM Unit := do
  let _ ← fmt.foldlM (item mem) 0
  return ()

end Cooked

namespace Quiz

def hexval (c : UInt8) : ℤ :=
  if 48 ≤ c ∧ c ≤ 57 then c.toNat - 48
  else if 97 ≤ c ∧ c ≤ 102 then c.toNat - 97 + 10
  else if 65 ≤ c ∧ c ≤ 70 then c.toNat - 65 + 10
  else -1

/-- The character of two digits, if it can be printed. A pair with another byte is left out. -/
def printPair (hi lo : ℤ) : DumpM Unit :=
  if hi < 0 ∨ lo < 0 then return ()
  else
    let v := UInt8.ofNat (hi.toNat <<< 4 ||| lo.toNat)
    if 32 ≤ v ∧ v ≤ 126 then print (.put v)
    else return ()

def dumpPair (ptr j : ℕ) : DumpM Unit := do
  let hi ← load mem (ptr + 2 * j) 1
  let lo ← load mem (ptr + 2 * j + 1) 1
  printPair (hexval (UInt8.ofNat hi)) (hexval (UInt8.ofNat lo))

def dumpText (ptr : ℕ) : DumpM ℕ := do
  each (dumpPair mem ptr) 0 8
  print .newline
  return ptr + 16

def item (ptr : ℕ) (c : UInt8) : DumpM ℕ :=
  if c = 105 then dumpInt mem ptr
  else if c = 112 then dumpHex mem ptr
  else if c = 104 then dumpShort mem ptr
  else if c = 99 then dumpChar mem ptr
  else if c = 115 then dumpPointer mem ptr
  else if c = 83 then dumpStr mem ptr
  else if c = 113 then dumpText mem ptr
  else return ptr

/-- `memdump` of `quiz1/memdump.c`. -/
def memdump (fmt : Str) : DumpM Unit := do
  let _ ← fmt.foldlM (item mem) 0
  return ()

def dataSize : ℕ := 512

/-- The loop that reads the standard input into the buffer, which holds `n` bytes. Each call of
`read` gets what is left of a piece, as far as there is room; it ends at the end of the input or at
an error, which is an empty piece. -/
def fill : List (List UInt8) → List UInt8 → ℕ → List UInt8
  | [], data, _ => data
  | piece :: pieces, data, n =>
    if n < dataSize then
      let got := piece.take (dataSize - n)
      if got = [] then data
      else fill pieces (Bytes.overlay data n got) (n + got.length)
    else data

def buffer (pieces : List (List UInt8)) : List UInt8 := fill pieces (List.replicate dataSize 0) 0

/-- `quiz1/memdump.c` with one argument. -/
def main (string : ℕ → Option Str) (fmt : Str) (pieces : List (List UInt8)) : DumpM Unit :=
  memdump ⟨buffer pieces, string⟩ fmt

end Quiz

namespace Mrm

/-- `memdump` of `chinese_dude_work/mrmdump.c`, from a letter of the format on. A string at the
cursor is the last item. -/
def memdumpFrom : Str → ℕ → DumpM Unit
  | [], _ => return ()
  | c :: p, curr => do
    if c = 105 then memdumpFrom p (← dumpInt mem curr)
    else if c = 112 then memdumpFrom p (← dumpHex mem curr)
    else if c = 104 then memdumpFrom p (← dumpShort mem curr)
    else if c = 99 then memdumpFrom p (← dumpChar mem curr)
    else if c = 115 then memdumpFrom p (← dumpPointer mem curr)
    else if c = 83 then do
      let s ← loadStr mem curr
      print (.str s)
      return ()
    else memdumpFrom p curr

@[inherit_doc memdumpFrom]
def memdump (fmt : Str) : DumpM Unit := memdumpFrom mem fmt 0

end Mrm

end Xv6Sheet.Memdump
