import Xv6Sheet.Lib.Sieve
import Xv6Sheet.Primes.Pipeline

/-! # The invariant of the pipeline

Process `k` reads the numbers the first `k` primes leave and passes on those its own prime
leaves. What holds of a process depends on where it is, on how much it has read and on what
it has passed on; no other process touches these.
-/

namespace Xv6Sheet.Primes

def fdsOf (e₀ e₃ e₄ : Option End) : ℕ → Option End
  | 0 => e₀
  | 1 | 2 => some .console
  | 3 => e₃
  | 4 => e₄
  | _ => none

section Fds

variable (a b : End) (e₀ e₃ e₄ x : Option End)

theorem freeFd_three : freeFd (fdsOf (some a) none e₄) = some 3 := rfl

theorem freeFd_four : freeFd (fdsOf (some a) (some b) none) = some 4 := rfl

theorem freeFd_zero : freeFd (fdsOf none e₃ e₄) = some 0 := rfl

@[simp] theorem update_fdsOf_zero :
    Function.update (fdsOf e₀ e₃ e₄) 0 x = fdsOf x e₃ e₄ := by
  funext k
  rcases k with _ | _ | _ | _ | _ | k <;> simp [fdsOf, Function.update]

@[simp] theorem update_fdsOf_three :
    Function.update (fdsOf e₀ e₃ e₄) 3 x = fdsOf e₀ x e₄ := by
  funext k
  rcases k with _ | _ | _ | _ | _ | k <;> simp [fdsOf, Function.update]

@[simp] theorem update_fdsOf_four :
    Function.update (fdsOf e₀ e₃ e₄) 4 x = fdsOf e₀ e₃ x := by
  funext k
  rcases k with _ | _ | _ | _ | _ | k <;> simp [fdsOf, Function.update]

end Fds

/-- The descriptors 0, 3 and 4 of a process, which has `pp` on 3 and 4. -/
structure Open (p : Proc) (e₀ e₃ e₄ : Option End) : Prop where
  fds : p.fds = fdsOf e₀ e₃ e₄
  rd : p.rd = 3
  wr : p.wr = 4

open Classical in
/-- What process `k` passes on of the first `r` numbers it reads. -/
noncomputable def sent (n k r : ℕ) : List ℕ :=
  ((sieve n k).take r).filter fun x => ¬ prime k ∣ x

theorem sent_zero (n k : ℕ) : sent n k 0 = [] := by
  simp [sent]

theorem sent_length (n k : ℕ) : sent n k (sieve n k).length = sieve n (k + 1) := by
  rw [sent, List.take_length, sieve_succ]

theorem sent_succ {n k r x : ℕ} (hx : (sieve n k)[r]? = some x) :
    sent n k (r + 1) = if prime k ∣ x then sent n k r else sent n k r ++ [x] := by
  unfold sent
  rw [List.take_add_one, hx, Option.toList_some, List.filter_append]
  split
  · rename_i h
    simp [h]
  · rename_i h
    simp [h]

theorem sent_prefix (n k r : ℕ) : sent n k r <+: sieve n (k + 1) := by
  rw [sieve_succ]
  exact (List.take_prefix ..).filter _

theorem sent_first {n k r x : ℕ} (hx : (sieve n k)[r]? = some x) (hdvd : ¬ prime k ∣ x)
    (hsent : sent n k r = []) : x = prime (k + 1) ∧ prime (k + 1) ≤ n := by
  have hpre := sent_prefix n k (r + 1)
  rw [sent_succ hx, if_neg hdvd, hsent, List.nil_append] at hpre
  obtain ⟨l, hl⟩ := hpre
  have hhead := head_sieve hl.symm
  refine ⟨hhead, ?_⟩
  have hmem : x ∈ sieve n (k + 1) := hl ▸ List.mem_cons_self
  exact hhead ▸ (mem_sieve.mp hmem).1.2

/-- A process that has read nothing: the first one, or a child with its number. -/
structure Fresh (n k taken : ℕ) (written : List ℕ) (child : Bool) (p : Proc) : Prop where
  untaken : taken = 0
  unwritten : written = []
  pid : p.pid = 0
  isChild : child = true ↔ k ≠ 0
  data : child = true → p.data = prime k

/-- A process that has read a number it has still to pass on. -/
structure Got (n k taken : ℕ) (written : List ℕ) (p : Proc) : Prop where
  pos : 0 < taken
  data : (sieve n k)[taken - 1]? = some p.data
  dvd : ¬ prime k ∣ p.data
  passed : written = sent n k (taken - 1)
  own : p.prime = prime k

structure Read (n k taken : ℕ) (written : List ℕ) : Prop where
  all : taken = (sieve n k).length
  passed : written = sieve n (k + 1)

def output (k : ℕ) (p : Proc) : Option End := if p.pid = 0 then none else some (.write (k + 1))

/-- What holds of process `k`, which has read so many numbers and passed some on. -/
def Good (n k taken : ℕ) (written : List ℕ) (p : Proc) : Prop :=
  match p.pc with
  | .pipe => k = 0 ∧ taken = 0 ∧ written = [] ∧ p.pid = 0 ∧
      p.fds = fdsOf (some .console) none none
  | .fill _ => k = 0 ∧ taken = 0 ∧ written = [] ∧ p.pid = 0 ∧
      Open p (some .console) (some (.read 0)) (some (.write 0))
  | .close0 child => Fresh n k taken written child p ∧
      ∃ e, Open p (some e) (some (.read k)) (some (.write k))
  | .dup child => Fresh n k taken written child p ∧
      Open p none (some (.read k)) (some (.write k))
  | .closeRd child => Fresh n k taken written child p ∧
      Open p (some (.read k)) (some (.read k)) (some (.write k))
  | .closeWr child => Fresh n k taken written child p ∧
      Open p (some (.read k)) none (some (.write k))
  | .print child => Fresh n k taken written child p ∧ Open p (some (.read k)) none none
  | .read => Open p (some (.read k)) none (output k p) ∧ p.prime = prime k ∧
      written = sent n k taken
  | .pipeNext => Open p (some (.read k)) none none ∧ p.pid = 0 ∧ Got n k taken written p
  | .fork => Open p (some (.read k)) (some (.read (k + 1))) (some (.write (k + 1))) ∧ p.pid = 0 ∧
      Got n k taken written p
  | .closeRead => Open p (some (.read k)) (some (.read (k + 1))) (some (.write (k + 1))) ∧
      p.pid ≠ 0 ∧ Got n k taken written p
  | .write => Open p (some (.read k)) none (output k p) ∧ p.prime = prime k ∧
      ((p.pid = 0 ∧ taken = 0 ∧ written = []) ∨ (p.pid ≠ 0 ∧ Got n k taken written p))
  | .closeWrite => Open p (some (.read k)) none (output k p) ∧ Read n k taken written
  | .wait => Open p (some (.read k)) none none ∧ Read n k taken written
  | .exit => Open p (some (.read k)) none none ∧ Read n k taken written
  | .exited => (p.fds = fun _ => none) ∧ Read n k taken written

def Filled (n : ℕ) (written : List ℕ) : Pc → Prop
  | .pipe => written = []
  | .fill i => 2 ≤ i ∧ i ≤ n + 1 ∧ written = List.range' 2 (i - 2)
  | _ => written = sieve n 0

/-- The number of pipes, when the last of `m` processes is at this place. -/
def Pc.npipe (m : ℕ) : Pc → ℕ
  | pipe => 0
  | fork => m + 1
  | _ => m

def Pc.silent : Pc → Bool
  | pipe | fill _ | close0 _ | dup _ | closeRd _ | closeWr _ | print _ => true
  | _ => false

def State.lines (s : State) : ℕ :=
  if (s.proc (s.nproc - 1)).pc.silent then s.nproc - 1 else s.nproc

structure Inv (n : ℕ) (s : State) : Prop where
  pos : 0 < s.nproc
  good : ∀ k < s.nproc, Good n k (s.pipe k).taken (s.pipe (k + 1)).written (s.proc k)
  filled : Filled n (s.pipe 0).written (s.proc 0).pc
  written : ∀ k, (s.pipe k).written <+: sieve n k
  taken : ∀ k, (s.pipe k).taken ≤ (s.pipe k).written.length
  last : ∀ k < s.nproc, (s.proc k).pid = 0 ↔ k + 1 = s.nproc
  unused : ∀ k, s.nproc ≤ k → s.pipe k = ⟨[], 0⟩
  npipe : s.npipe = (s.proc (s.nproc - 1)).pc.npipe s.nproc
  parent : ∀ k < s.nproc, (s.proc k).parent = if k = 0 then none else some (k - 1)
  le : ∀ k < s.nproc, prime k ≤ n
  out : s.out = (List.range s.lines).map prime

variable {n i : ℕ} {s t : State}

theorem Start.inv (h : Start s) (hn : 2 ≤ n) : Inv n s := by
  have hlt : ∀ k < s.nproc, k = 0 := fun k hk => by
    have := h.nproc
    omega
  refine ⟨by rw [h.nproc]; decide, fun k hk => ?_, ?_, fun k => ?_, fun k => ?_, fun k hk => ?_,
    fun k _ => ?_, ?_, fun k hk => ?_, fun k hk => ?_, ?_⟩
  · obtain rfl := hlt k hk
    simp only [Good, h.pc, h.pipe, h.pid, h.fds, true_and]
    funext k
    rcases k with _ | _ | _ | _ | _ | k <;> simp [fdsOf]
  · simp [Filled, h.pc, h.pipe]
  · rw [h.pipe]
    exact List.nil_prefix
  · simp [h.pipe]
  · obtain rfl := hlt k hk
    simp [h.pid, h.nproc]
  · exact h.pipe k
  · rw [h.nproc, h.npipe, h.pc]
    rfl
  · obtain rfl := hlt k hk
    simp [h.parent]
  · obtain rfl := hlt k hk
    rwa [prime_zero]
  · simp [State.lines, h.nproc, h.pc, h.out, Pc.silent]

theorem Inv.of_step (h : Inv n s) (hi : i < s.nproc) (hnproc : t.nproc = s.nproc)
    (hother : ∀ k, k ≠ i → t.proc k = s.proc k) (hpid : (t.proc i).pid = (s.proc i).pid)
    (hparent : (t.proc i).parent = (s.proc i).parent)
    (htaken : ∀ k, k ≠ i → (t.pipe k).taken = (s.pipe k).taken)
    (hwritten : ∀ k, k ≠ i → (t.pipe (k + 1)).written = (s.pipe (k + 1)).written)
    (hlast : i + 1 = s.nproc → (t.pipe (i + 1)).written = [])
    (hgrow : ∀ k, (s.pipe k).written <+: (t.pipe k).written)
    (hle : (t.pipe i).taken ≤ (t.pipe i).written.length)
    (hnext : (t.pipe (i + 1)).written <+: sieve n (i + 1))
    (hfilled : (i = 0 ∧ Filled n (t.pipe 0).written (t.proc 0).pc) ∨
      (i ≠ 0 ∧ (t.pipe 0).written = (s.pipe 0).written))
    (hgood : Good n i (t.pipe i).taken (t.pipe (i + 1)).written (t.proc i))
    (hnpipe : t.npipe = (t.proc (s.nproc - 1)).pc.npipe s.nproc)
    (hout : t.out = (List.range t.lines).map prime) : Inv n t := by
  have hfill : Filled n (t.pipe 0).written (t.proc 0).pc := by
    rcases hfilled with ⟨-, hf⟩ | ⟨h0, hw⟩
    · exact hf
    · rw [hw, hother 0 (Ne.symm h0)]
      exact h.filled
  refine ⟨hnproc ▸ h.pos, fun k hk => ?_, hfill, fun k => ?_, fun k => ?_, fun k hk => ?_,
    fun k hk => ?_, hnproc ▸ hnpipe, fun k hk => ?_, fun k hk => h.le k (hnproc ▸ hk), hout⟩
  · rw [hnproc] at hk
    by_cases hki : k = i
    · exact hki ▸ hgood
    · rw [hother k hki, htaken k hki, hwritten k hki]
      exact h.good k hk
  · cases k with
    | zero =>
      unfold Filled at hfill
      split at hfill
      · rw [hfill]
        exact List.nil_prefix
      · rename_i j _
        obtain ⟨h2, hn, hw⟩ := hfill
        rw [hw, sieve_zero, show n - 1 = j - 2 + (n - 1 - (j - 2)) by omega, ← List.range'_append]
        exact List.prefix_append ..
      · rw [hfill]
    | succ k =>
      by_cases hki : k = i
      · exact hki ▸ hnext
      · rw [hwritten k hki]
        exact h.written (k + 1)
  · by_cases hki : k = i
    · exact hki ▸ hle
    · rw [htaken k hki]
      exact (h.taken k).trans (hgrow k).length_le
  · rw [hnproc] at hk ⊢
    by_cases hki : k = i
    · rw [hki, hpid]
      exact h.last i hi
    · rw [hother k hki]
      exact h.last k hk
  · rw [hnproc] at hk
    have htk := htaken k (by omega)
    have hwk : (t.pipe k).written = (s.pipe k).written := by
      obtain ⟨k, rfl⟩ := Nat.exists_eq_succ_of_ne_zero (by omega : k ≠ 0)
      by_cases hki : k = i
      · rw [hki, hlast (by omega), h.unused _ (by omega)]
      · exact hwritten k hki
    rw [h.unused k hk] at htk hwk
    exact Pipe.ext hwk htk
  · rw [hnproc] at hk
    by_cases hki : k = i
    · rw [hki, hparent]
      exact h.parent i hi
    · rw [hother k hki]
      exact h.parent k hk

end Xv6Sheet.Primes
