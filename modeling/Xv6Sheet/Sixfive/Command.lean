import Xv6Sheet.Lib.Reader
import Xv6Sheet.Xargs.Command

/-! # sixfive

The four programs that look for numbers in files. Each reads a file byte by byte, keeps what it
needs of the word that it is at, and judges the word at the separator after it.
-/

namespace Xv6Sheet.Sixfive

open Xargs (Str atoi)

inductive Line
  /-- A number, with `%d` or `%lld`. -/
  | number (n : ℤ)
  /-- A string, with `%s`. -/
  | text (s : Str)
  /-- A message on a descriptor. -/
  | message (fd : ℕ) (s : String)
  /-- The message for a file that cannot be opened, with its name. -/
  | cannotOpen (name : Str)
  deriving DecidableEq

/-- An argument of the program: the name of a file, and its content when it can be opened. -/
structure File where
  name : Str
  content : Option (List UInt8)

def seps : Str := [32, 45, 13, 9, 10, 46, 47, 44]

/-- `strchr(seps, c)` finds the byte. -/
def isSep (c : UInt8) : Bool := c ∈ seps

def isDigit (c : UInt8) : Bool := 48 ≤ c && c ≤ 57

def fiveOrSix (n : ℤ) : Bool := n.tmod 5 = 0 || n.tmod 6 = 0

namespace Lab2

/-- The variables of `main` that outlive a byte. -/
structure State where
  buffer : Bytes
  i : ℕ
  isValid : Bool

def turn (s : State) (c : UInt8) : State × List Line :=
  if isSep c then
    if 0 < s.i ∧ s.isValid then
      let buffer := Function.update s.buffer s.i 0
      let num := atoi (Bytes.str buffer (s.i + 1))
      (⟨buffer, 0, true⟩, if fiveOrSix num then [.number num] else [])
    else (⟨s.buffer, 0, true⟩, [])
  else if isDigit c then
    if s.i < 31 then ({ s with buffer := Function.update s.buffer s.i c, i := s.i + 1 }, [])
    else (s, [])
  else ({ s with isValid := false }, [])

def openFile (s : State) (f : File) : State × List Line :=
  match f.content with
  | none => (s, [.message 1 "Error opening file\n"])
  | some content => readAll turn s content

/-- `lab2/sixfive.c`, with what its buffer holds at first. -/
def main (buffer : Bytes) (files : List File) : List Line :=
  (readAll openFile ⟨buffer, 0, true⟩ files).2

end Lab2

namespace Machine

inductive St
  | ready
  | digits
  | invalid
  deriving DecidableEq

/-- The state of the machine and the number so far, a `long long`. -/
structure State where
  state : St
  current : ℤ

def check (s : State) : List Line :=
  if s.state = .digits then if fiveOrSix s.current then [.number s.current] else [] else []

def nextVal (s : State) (c : UInt8) : ℤ := s.current * 10 + (c.toNat - 48)

def turn (s : State) (c : UInt8) : State × List Line :=
  if isSep c then (⟨.ready, 0⟩, check s)
  else if isDigit c then
    if s.state = .ready ∨ s.state = .digits then (⟨.digits, (nextVal s c).bmod (2 ^ 64)⟩, [])
    else (s, [])
  else (⟨.invalid, 0⟩, [])

/-- `sixfive` of `chinese_dude_work/sixfive.c`. -/
def sixfive (content : List UInt8) : List Line :=
  let (s, lines) := readAll turn ⟨.ready, 0⟩ content
  lines ++ check s

end Machine

namespace Quiz

/-- The variables of `main` that outlive a byte. -/
structure State where
  buffer : Bytes
  i : ℕ
  isNumeric : Bool

def checkAndPrint (buf : Bytes) (len : ℕ) (isNumeric : Bool) : Bytes × List Line :=
  if 0 < len ∧ isNumeric ∧ len ≤ 3 then
    let buf := Function.update buf len 0
    let onlyFiveSix := ∀ k < len, ¬ (buf k ≠ 53 ∧ buf k ≠ 54)
    (buf, if onlyFiveSix then [.text (Bytes.str buf (len + 1))] else [])
  else (buf, [])

def endWord (s : State) : State × List Line :=
  let (buffer, lines) := checkAndPrint s.buffer s.i s.isNumeric
  (⟨buffer, 0, true⟩, lines)

def turn (s : State) (c : UInt8) : State × List Line :=
  if isSep c then endWord s
  else if isDigit c then
    if s.i < 31 then ({ s with buffer := Function.update s.buffer s.i c, i := s.i + 1 }, [])
    else (s, [])
  else ({ s with isNumeric := false }, [])

def openFile (s : State) (f : File) : State × List Line :=
  match f.content with
  | none => (s, [.message 1 "Error opening file\n"])
  | some content =>
    let (s, lines) := readAll turn s content
    let (s, last) := endWord s
    (s, lines ++ last)

/-- `quiz1/sixfive.c`, with what its buffer holds at first. -/
def main (buffer : Bytes) (files : List File) : List Line :=
  (readAll openFile ⟨buffer, 0, true⟩ files).2

end Quiz

namespace Cooked

/-- The variables of `sixfive` that outlive a byte. -/
structure State where
  word : Bytes
  i : ℕ

def checkAndPrint (buf : Bytes) (len : ℕ) : Bytes × List Line :=
  if len = 0 ∨ 3 < len then (buf, [])
  else if ∃ i < len, buf i ≠ 53 ∧ buf i ≠ 54 then (buf, [])
  else
    let buf := Function.update buf len 0
    (buf, [.text (Bytes.str buf (len + 1))])

def turn (s : State) (c : UInt8) : State × List Line :=
  if isSep c then
    let (word, lines) := checkAndPrint s.word s.i
    (⟨word, 0⟩, lines)
  else if s.i < 511 then (⟨Function.update s.word s.i c, s.i + 1⟩, [])
  else (s, [])

/-- `sixfive` of `COOKED/test.c`, with what its buffer holds at first. -/
def sixfive (word : Bytes) (content : List UInt8) : List Line :=
  let (s, lines) := readAll turn ⟨word, 0⟩ content
  lines ++ (checkAndPrint s.word s.i).2

/-- The loop over the files, which ends at the first that cannot be opened. -/
def sixfiveAll (word : ℕ → Bytes) : List File → List Line
  | [] => []
  | f :: files =>
    match f.content with
    | none => [.cannotOpen f.name]
    | some content => sixfive (word 0) content ++ sixfiveAll (fun k => word (k + 1)) files

/-- `COOKED/test.c`, with what the buffer holds at first in each call. -/
def main (word : ℕ → Bytes) (files : List File) : List Line :=
  if files = [] then [.message 2 "usage: sixfive file...\n"] else sixfiveAll word files

end Cooked

end Xv6Sheet.Sixfive
