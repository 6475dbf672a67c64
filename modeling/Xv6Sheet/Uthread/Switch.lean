import Xv6Sheet.Lib.Bytes

/-! # Switching register sets

`thread_switch` as the instructions it is written in, over a byte-addressed memory. The
registers go to the fields of `struct thread_context` and come back from them, one after the
other.
-/

namespace Xv6Sheet.Uthread

/-- The fields of `struct thread_context`, the registers a call must preserve. -/
inductive Saved
  | ra
  | sp
  | s (i : Fin 12)
  deriving DecidableEq

inductive Reg
  | saved (r : Saved)
  | a0
  | a1
  deriving DecidableEq

inductive Instr
  | sd (rs : Reg) (imm : ℕ) (base : Reg)
  | ld (rd : Reg) (imm : ℕ) (base : Reg)
  | ret

/-- The processor with the memory. The variable `current_thread` lies outside the array
`all_thread`; it is given as the number of the slot it points to. -/
structure Machine where
  mem : Bytes
  regs : Reg → BitVec 64
  pc : BitVec 64
  current : ℕ

namespace Saved

def offset : Saved → ℕ
  | ra => 0
  | sp => 8
  | s i => 16 + 8 * i

def all : List Saved :=
  [ra, sp, s 0, s 1, s 2, s 3, s 4, s 5, s 6, s 7, s 8, s 9, s 10, s 11]

theorem mem_all (r : Saved) : r ∈ all := by
  cases r with
  | ra => decide
  | sp => decide
  | s i => revert i; decide

end Saved

/-- `sizeof(struct thread_context)`. -/
def contextSize : ℕ := 112

theorem Saved.offset_lt (r : Saved) : r.offset + 8 ≤ contextSize := by
  cases r <;> simp only [offset, contextSize] <;> omega

theorem Saved.offset_disjoint (r r' : Saved) (h : r ≠ r') :
    r.offset + 8 ≤ r'.offset ∨ r'.offset + 8 ≤ r.offset := by
  cases r <;> cases r' <;> simp only [offset, ne_eq, not_true_eq_false, s.injEq] at * <;> omega

namespace Instr

def addr (m : Machine) (imm : ℕ) (base : Reg) : ℕ := (m.regs base + BitVec.ofNat 64 imm).toNat

def exec (m : Machine) : Instr → Machine
  | sd rs imm base => { m with mem := m.mem.putLe (addr m imm base) 8 (m.regs rs).toNat }
  | ld rd imm base =>
    { m with regs := Function.update m.regs rd (BitVec.ofNat 64 (m.mem.le (addr m imm base) 8)) }
  | ret => { m with pc := m.regs (.saved .ra) }

def run (code : List Instr) (m : Machine) : Machine := code.foldl exec m

theorem run_append (code code' : List Instr) (m : Machine) :
    run (code ++ code') m = run code' (run code m) := List.foldl_append

end Instr

open Instr Saved

/-- Save the old thread's registers, restore the new thread's registers. -/
def threadSwitch : List Instr := [
  sd (.saved ra) 0 .a0,
  sd (.saved sp) 8 .a0,
  sd (.saved (s 0)) 16 .a0,
  sd (.saved (s 1)) 24 .a0,
  sd (.saved (s 2)) 32 .a0,
  sd (.saved (s 3)) 40 .a0,
  sd (.saved (s 4)) 48 .a0,
  sd (.saved (s 5)) 56 .a0,
  sd (.saved (s 6)) 64 .a0,
  sd (.saved (s 7)) 72 .a0,
  sd (.saved (s 8)) 80 .a0,
  sd (.saved (s 9)) 88 .a0,
  sd (.saved (s 10)) 96 .a0,
  sd (.saved (s 11)) 104 .a0,
  ld (.saved ra) 0 .a1,
  ld (.saved sp) 8 .a1,
  ld (.saved (s 0)) 16 .a1,
  ld (.saved (s 1)) 24 .a1,
  ld (.saved (s 2)) 32 .a1,
  ld (.saved (s 3)) 40 .a1,
  ld (.saved (s 4)) 48 .a1,
  ld (.saved (s 5)) 56 .a1,
  ld (.saved (s 6)) 64 .a1,
  ld (.saved (s 7)) 72 .a1,
  ld (.saved (s 8)) 80 .a1,
  ld (.saved (s 9)) 88 .a1,
  ld (.saved (s 10)) 96 .a1,
  ld (.saved (s 11)) 104 .a1,
  ret]

def savedReg (mem : Bytes) (ctx : ℕ) (r : Saved) : BitVec 64 :=
  BitVec.ofNat 64 (mem.le (ctx + r.offset) 8)

theorem savedReg_congr {mem mem' : Bytes} {ctx : ℕ}
    (h : ∀ j < contextSize, mem' (ctx + j) = mem (ctx + j)) (r : Saved) :
    savedReg mem' ctx r = savedReg mem ctx r := by
  have hr := r.offset_lt
  unfold savedReg
  refine congrArg (BitVec.ofNat 64) (Bytes.le_congr fun k hk hk' => ?_)
  have hj := h (k - ctx) (by omega)
  rwa [show ctx + (k - ctx) = k by omega] at hj

theorem addr_eq {m : Machine} {base : Reg} {ctx : ℕ} (hbase : m.regs base = BitVec.ofNat 64 ctx)
    (hctx : ctx + contextSize ≤ 2 ^ 64) (r : Saved) : addr m r.offset base = ctx + r.offset := by
  have hr := r.offset_lt
  rw [addr, hbase, ← BitVec.ofNat_add, BitVec.toNat_ofNat, Nat.mod_eq_of_lt (by omega)]

/-- The memory after the registers `rs` were saved in the context at an address. -/
def saveAll (regs : Saved → BitVec 64) (ctx : ℕ) (rs : List Saved) (mem : Bytes) : Bytes :=
  rs.foldl (fun b r => b.putLe (ctx + r.offset) 8 (regs r).toNat) mem

theorem saveAll_of_not_mem {regs : Saved → BitVec 64} {ctx : ℕ} {rs : List Saved} {mem : Bytes}
    {j : ℕ} (h : ¬ (ctx ≤ j ∧ j < ctx + contextSize)) : saveAll regs ctx rs mem j = mem j := by
  induction rs generalizing mem with
  | nil => rfl
  | cons r rs ih =>
    have hr := r.offset_lt
    exact ih.trans (Bytes.putLe_of_not_mem (by omega))

theorem savedReg_saveAll (regs : Saved → BitVec 64) (ctx : ℕ) (rs : List Saved) (mem : Bytes)
    (r : Saved) : savedReg (saveAll regs ctx rs mem) ctx r =
      if r ∈ rs then regs r else savedReg mem ctx r := by
  induction rs generalizing mem with
  | nil => simp [saveAll]
  | cons x rs ih =>
    have hstep : savedReg (mem.putLe (ctx + x.offset) 8 (regs x).toNat) ctx r =
        if r = x then regs r else savedReg mem ctx r := by
      unfold savedReg
      split
      · rename_i h
        subst h
        rw [Bytes.le_putLe (regs r).isLt, BitVec.ofNat_toNat, BitVec.setWidth_eq]
      · rename_i h
        have hdis := Saved.offset_disjoint _ _ h
        rw [Bytes.le_putLe_of_disjoint (by omega)]
    refine (ih _).trans ?_
    rw [hstep]
    by_cases hr : r ∈ rs <;> by_cases hx : r = x <;> simp [hr, hx]

theorem run_sd (rs : List Saved) {m : Machine} {ctx : ℕ}
    (ha0 : m.regs .a0 = BitVec.ofNat 64 ctx) (hctx : ctx + contextSize ≤ 2 ^ 64) :
    run (rs.map fun r => sd (.saved r) r.offset .a0) m =
      { m with mem := saveAll (fun r => m.regs (.saved r)) ctx rs m.mem } := by
  induction rs generalizing m with
  | nil => rfl
  | cons r rs ih =>
    have hr := addr_eq ha0 hctx r
    refine (ih (m := exec m (sd (.saved r) r.offset .a0)) ha0).trans ?_
    simp only [exec, hr, saveAll, List.foldl_cons]

/-- The registers after `rs` were loaded from the context at an address. -/
def loadAll (mem : Bytes) (ctx : ℕ) (rs : List Saved) (regs : Reg → BitVec 64) :
    Reg → BitVec 64
  | .saved r => if r ∈ rs then savedReg mem ctx r else regs (.saved r)
  | x => regs x

theorem run_ld (rs : List Saved) {m : Machine} {ctx : ℕ}
    (ha1 : m.regs .a1 = BitVec.ofNat 64 ctx) (hctx : ctx + contextSize ≤ 2 ^ 64) :
    run (rs.map fun r => ld (.saved r) r.offset .a1) m =
      { m with regs := loadAll m.mem ctx rs m.regs } := by
  induction rs generalizing m with
  | nil =>
    have hnil : loadAll m.mem ctx [] m.regs = m.regs := by
      funext x
      cases x <;> simp [loadAll]
    rw [hnil]
    rfl
  | cons r rs ih =>
    have hr := addr_eq ha1 hctx r
    refine (ih (m := exec m (ld (.saved r) r.offset .a1)) (by simpa [exec] using ha1)).trans ?_
    simp only [exec, hr, Machine.mk.injEq, true_and, and_true]
    funext x
    cases x with
    | a0 => simp [loadAll]
    | a1 => simp [loadAll]
    | saved x =>
      by_cases hx : x = r
      · subst hx
        simp [loadAll, savedReg]
      · simp [loadAll, hx]

/-- `thread_switch` saves the registers in one context and has those of the other. -/
theorem run_threadSwitch {m : Machine} {old new : ℕ} (ha0 : m.regs .a0 = BitVec.ofNat 64 old)
    (ha1 : m.regs .a1 = BitVec.ofNat 64 new) (hold : old + contextSize ≤ 2 ^ 64)
    (hnew : new + contextSize ≤ 2 ^ 64)
    (hdis : old + contextSize ≤ new ∨ new + contextSize ≤ old) :
    run threadSwitch m = { m with
      mem := saveAll (fun r => m.regs (.saved r)) old all m.mem
      regs := loadAll m.mem new all m.regs
      pc := savedReg m.mem new .ra } := by
  have hcode : threadSwitch = all.map (fun r => sd (.saved r) r.offset .a0) ++
      (all.map (fun r => ld (.saved r) r.offset .a1) ++ [ret]) := rfl
  have hsame : ∀ r, savedReg (saveAll (fun r => m.regs (.saved r)) old all m.mem) new r =
      savedReg m.mem new r :=
    savedReg_congr fun j hj => saveAll_of_not_mem (by omega)
  have hload : loadAll (saveAll (fun r => m.regs (.saved r)) old all m.mem) new all m.regs =
      loadAll m.mem new all m.regs := by
    funext x
    cases x <;> simp [loadAll, hsame]
  have hld := run_ld all (m := { m with
    mem := saveAll (fun r => m.regs (.saved r)) old all m.mem }) ha1 hnew
  rw [hcode, run_append, run_append, run_sd all ha0 hold, hld, hload]
  simp [run, exec, loadAll, mem_all]

end Xv6Sheet.Uthread
