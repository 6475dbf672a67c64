import Xv6Sheet.Lib.Bytes
import Xv6Sheet.Lib.Exec

/-! # xargs

The three programs that read words from the standard input and run a command with them. Each
has a buffer for the word that it reads and an array of arguments, and looks at one byte of
the input after the other. A write outside an array stops the program.
-/

namespace Xv6Sheet.Xargs

open Exec

abbrev Str := List UInt8

def cString (w : List UInt8) : Str := w.takeWhile fun c => c ≠ 0

/-- The number of entries of an array of arguments. -/
class Limits where
  MAXARG : ℕ

def bufSize : ℕ := 512

/-- A write outside an array, or a null pointer that is used. -/
inductive Misuse
  | buf
  | argv
  | null
  deriving DecidableEq, Repr

/-- The arrays of the program, where `none` is the null pointer, and the commands it has run. -/
structure Proc where
  argv : ℕ → Option Str
  buf : Bytes
  ran : List (List Str)

abbrev ProcM := Exec Proc Misuse

def dashN : Str := [45, 110]

def isSpace (c : UInt8) : Bool := c = 32 || c = 9 || c = 10

/-- `atoi` of the user library: the value of the leading digits, in an `int`. -/
def atoi (s : Str) : ℤ :=
  ((s.takeWhile fun c => 48 ≤ c && c ≤ 57).foldl (fun (n : ℤ) c => n * 10 + (c.toNat - 48)) 0).bmod
    (2 ^ 32)

/-- The arguments up to the null pointer, which `exec` wants among the first `n` entries. -/
def arguments (argv : ℕ → Option Str) : ℕ → Option (List Str)
  | 0 => none
  | n + 1 =>
    match argv 0 with
    | none => some []
    | some x => (arguments (fun i => argv (i + 1)) n).map (x :: ·)

section

variable [Limits]

def setArg (i : ℕ) (x : Option Str) : ProcM Unit :=
  if i < Limits.MAXARG then modify fun s => { s with argv := Function.update s.argv i x }
  else throw .argv

def setBuf (i : ℕ) (c : UInt8) : ProcM Unit :=
  if i < bufSize then modify fun s => { s with buf := Function.update s.buf i c }
  else throw .buf

/-- End the word in the buffer, which has `m` bytes, and make a copy of it argument `k`. -/
def copyWord (k m : ℕ) : ProcM Unit := do
  setBuf m 0
  setArg k (some (Bytes.str (← get).buf (m + 1)))

/-- A child runs the command in the array, and the parent waits for it. -/
def run : ProcM Unit := modify fun s =>
  match arguments s.argv Limits.MAXARG with
  | none => s
  | some cmd => { s with ran := s.ran ++ [cmd] }

/-- Copy the arguments from `start` on to the beginning of the array. -/
def copyArgs (argv : List Str) (start : ℕ) : ProcM Unit :=
  each (fun i => setArg (i - start) argv[i]?) start (argv.length - start)

namespace Cooked

/-- One byte of the input, with `m` bytes in the buffer and `count` arguments after the base
command. -/
def turn (limit : ℤ) (base : ℕ) (v : ℕ × ℕ) (c : UInt8) : ProcM (ℕ × ℕ) := do
  let (m, count) := v
  if isSpace c then
    if m = 0 then return (m, count)
    else do
      copyWord (base + count) m
      let count := count + 1
      if limit ≠ -1 ∧ count = limit then
        setArg (base + count) none
        run
        return (0, 0)
      else return (0, count)
  else do
    setBuf m c
    return (m + 1, count)

/-- The program after its options, whose base command starts at `argv[start]`. -/
def loop (limit : ℤ) (start : ℕ) (argv : List Str) (input : List UInt8) : ProcM Unit := do
  copyArgs argv start
  let base := argv.length - start
  let (_, count) ← input.foldlM (turn limit base) (0, 0)
  if 0 < count then do
    setArg (base + count) none
    run
  else return ()

/-- `COOKED/xargs.c`, with its name in `argv[0]`. -/
def main (argv : List Str) (input : List UInt8) : ProcM Unit :=
  if argv[1]? = some dashN then
    match argv[2]? with
    | none => throw .null
    | some n => loop (atoi n) 3 argv input
  else loop (-1) 1 argv input

end Cooked

namespace Lab2

/-- One byte of the input, with `m` bytes in the buffer and `argc` arguments. -/
def turn (useN : Bool) (base : ℕ) (v : ℕ × ℕ) (c : UInt8) : ProcM (ℕ × ℕ) := do
  let (m, argc) := v
  if isSpace c then
    if 0 < m then do
      copyWord argc m
      let argc := argc + 1
      if useN then
        setArg argc none
        run
        return (0, base)
      else return (0, argc)
    else return (m, argc)
  else do
    setBuf m c
    return (m + 1, argc)

/-- The program after its options, whose base command starts at `argv[start]`. -/
def loop (useN : Bool) (start : ℕ) (argv : List Str) (input : List UInt8) : ProcM Unit := do
  copyArgs argv start
  let base := argv.length - start
  let (_, argc) ← input.foldlM (turn useN base) (0, base)
  if !useN ∧ base < argc then do
    setArg argc none
    run
  else return ()

/-- `lab2/xargs.c`. Without a command it exits at once. -/
def main (argv : List Str) (input : List UInt8) : ProcM Unit :=
  if argv.length < 2 then return ()
  else if argv[1]? = some dashN then loop true 3 argv input
  else loop false 1 argv input

end Lab2

/-- `COOKED/xargs_gemgem.c`, which is `lab2/xargs.c` but for the comments. -/
def Gemgem.main (argv : List Str) (input : List UInt8) : ProcM Unit := Lab2.main argv input

end

end Xv6Sheet.Xargs
