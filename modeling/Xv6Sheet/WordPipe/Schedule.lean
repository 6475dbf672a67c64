import Xv6Sheet.WordPipe.Program

/-! # Every schedule of a pipe of words

The reader prints a line for each word that went into the pipe, in every interleaving with the
writer and for every size of the pipe. The invariant is that what was read, what is in the pipe and
what is still to be written is always the same text.
-/

namespace Xv6Sheet.WordPipe

open Xargs (Str)

variable {cap : ℕ} {arg : Str} {buf : Bytes} {l : List UInt8} {s t : State} {c : Who}

def unsent (ws : Option (List (List UInt8))) : List UInt8 := (ws.getD []).flatten

/-- The states in which the text `l` goes through the pipe. -/
inductive Phase (cap : ℕ) (arg : Str) (buf : Bytes) (l : List UInt8) : State → Prop
  | reading {ws : Option (List (List UInt8))} {pipe read : List UInt8} :
      read ++ pipe ++ unsent ws = l → pipe.length ≤ cap →
      Phase cap arg buf l ⟨ws, pipe, some (readAll (turn arg) ⟨buf, 0⟩ read).1,
        (readAll (turn arg) ⟨buf, 0⟩ read).2⟩
  | ended : Phase cap arg buf l ⟨none, [], none, lines arg l⟩

theorem phase_start (cap : ℕ) (arg : Str) (buf : Bytes) (ws : List (List UInt8)) :
    Phase cap arg buf ws.flatten (start buf ws) := by
  have hread : [] ++ [] ++ unsent (some ws) = ws.flatten := rfl
  exact .reading hread (Nat.zero_le _)

theorem Phase.next_writer (h : Phase cap arg buf l s) (ht : step cap arg s .writer = some t) :
    Phase cap arg buf l t := by
  cases h with
  | @reading ws pipe read htext hcap =>
    unfold step at ht
    dsimp only at ht
    split at ht
    · cases ht
    · obtain rfl := Option.some.inj ht
      exact .reading htext hcap
    · obtain rfl := Option.some.inj ht
      exact .reading htext hcap
    · rename_i b bs ws
      split at ht
      · rename_i hnone
        cases hnone
      · split at ht
        · rename_i hroom
          obtain rfl := Option.some.inj ht
          refine .reading ?_ ?_
          · rw [← htext]
            simp [unsent]
          · rw [List.length_append]
            exact hroom
        · cases ht
  | ended => cases ht

theorem Phase.next_reader (h : Phase cap arg buf l s) (ht : step cap arg s .reader = some t) :
    Phase cap arg buf l t := by
  cases h with
  | @reading ws pipe read htext hcap =>
    cases pipe with
    | cons b bs =>
      have hread := readAll_append (turn arg) ⟨buf, 0⟩ read [b]
      have hnext : Phase cap arg buf l ⟨ws, bs, some (readAll (turn arg) ⟨buf, 0⟩ (read ++ [b])).1,
          (readAll (turn arg) ⟨buf, 0⟩ (read ++ [b])).2⟩ :=
        .reading (by rw [← htext]; simp) ((Nat.le_succ _).trans hcap)
      rw [hread, readAll_cons] at hnext
      simp only [readAll, List.append_nil] at hnext
      simp only [step, Option.some.injEq] at ht
      rwa [← ht]
    | nil =>
      unfold step at ht
      dsimp only at ht
      split at ht
      · rename_i hexit
        obtain rfl := Option.some.inj ht
        obtain rfl := Option.isNone_iff_eq_none.mp hexit
        obtain rfl : read = l := by simpa [unsent] using htext
        rw [reader_lines]
        exact .ended
      · cases ht
  | ended => cases ht

theorem Phase.next (h : Phase cap arg buf l s) (ht : step cap arg s c = some t) :
    Phase cap arg buf l t := by
  cases c with
  | writer => exact h.next_writer ht
  | reader => exact h.next_reader ht

theorem Phase.printed (h : Phase cap arg buf l s) : s.out <+: lines arg l := by
  cases h with
  | @reading ws pipe read htext hcap =>
    rw [← reader_lines arg buf l, ← htext, List.append_assoc, readAll_append, List.append_assoc]
    exact List.prefix_append _ _
  | ended => exact List.prefix_refl _

theorem Phase.bounds (h : Phase cap arg buf l s) :
    s.pipe.length ≤ cap ∧ ∀ r ∈ s.reader, r.m ≤ 511 := by
  cases h with
  | reading htext hcap =>
    refine ⟨hcap, ?_⟩
    rintro r hr
    obtain rfl := Option.some.inj hr
    exact reader_index arg buf _
  | ended => exact ⟨Nat.zero_le _, by simp⟩

theorem Phase.last (h : Phase cap arg buf l s) (hcap : 0 < cap) (hhalt : Halted (step cap arg) s) :
    s = ⟨none, [], none, lines arg l⟩ := by
  cases h with
  | @reading ws pipe read htext _ =>
    have hreader := hhalt .reader
    have hwriter := hhalt .writer
    cases pipe with
    | cons b bs => cases hreader
    | nil =>
      cases ws with
      | none => cases hreader
      | some ws =>
        match ws with
        | [] => cases hwriter
        | [] :: ws => cases hwriter
        | (b :: bs) :: ws =>
          simp only [step, Option.isNone_some, Bool.false_eq_true, if_false, List.length_nil,
            if_pos hcap] at hwriter
          cases hwriter
  | ended => rfl

section Work

/-- What a write costs: each byte is written and read, and the write returns. -/
def cost (ws : List (List UInt8)) : ℕ := (ws.map fun w => 2 * w.length + 1).sum

def State.work (s : State) : ℕ :=
  s.writes.elim 0 (cost · + 1) + s.pipe.length + if s.reader.isSome then 1 else 0

theorem cost_eq (ws : List (List UInt8)) : cost ws = 2 * ws.flatten.length + ws.length := by
  induction ws with
  | nil => rfl
  | cons w ws ih =>
    unfold cost at ih ⊢
    rw [List.map_cons, List.sum_cons, ih, List.flatten_cons, List.length_append, List.length_cons]
    omega

theorem step_work (s : State) (c : Who) (t : State) (h : step cap arg s c = some t) :
    t.work < s.work := by
  obtain ⟨writes, pipe, reader, out⟩ := s
  cases c with
  | writer =>
    unfold step at h
    dsimp only at h
    split at h
    · cases h
    · obtain rfl := Option.some.inj h
      simp only [State.work, Option.elim_none, Option.elim_some]
      omega
    · obtain rfl := Option.some.inj h
      simp only [State.work, Option.elim_some, cost, List.map_cons, List.sum_cons]
      omega
    · split at h
      · obtain rfl := Option.some.inj h
        simp only [State.work, Option.elim_some, cost, List.map_cons, List.sum_cons]
        omega
      · split at h
        · obtain rfl := Option.some.inj h
          simp only [State.work, Option.elim_some, cost, List.map_cons, List.sum_cons,
            List.length_cons, List.length_append, List.length_nil]
          omega
        · cases h
  | reader =>
    unfold step at h
    dsimp only at h
    split at h
    · cases h
    · obtain rfl := Option.some.inj h
      simp only [State.work, List.length_cons, Option.isSome_some]
      omega
    · split at h
      · obtain rfl := Option.some.inj h
        simp [State.work]
      · cases h

end Work

/-- In every interleaving with a program that writes, in pieces of any length and through a pipe of
any size, the reader prints a line for each word and nothing else. It never leaves its buffer, no
schedule goes on forever and none gets stuck before both have exited. A word of the writer comes out
as it went in. -/
theorem words_through_pipe {argv : List Str} {ws : List (List UInt8)} {cs : List Who}
    (hcap : 0 < cap) (h : interleave (step cap (argOf argv)) (start buf ws) cs = some t) :
    t.out <+: lines (argOf argv) ws.flatten ∧ t.pipe.length ≤ cap ∧ (∀ r ∈ t.reader, r.m ≤ 511) ∧
      cs.length ≤ 2 * ws.flatten.length + ws.length + 2 ∧
      (Halted (step cap (argOf argv)) t → t = ⟨none, [], none, lines (argOf argv) ws.flatten⟩) ∧
      (∃ ds u, interleave (step cap (argOf argv)) t ds = some u ∧
        Halted (step cap (argOf argv)) u) ∧
      ∀ name word, ws = writerMain [name, word] → word ≠ [] → word.length ≤ 511 →
        (∀ c ∈ word, isSep c = false ∧ c ≠ 0) →
        lines (argOf argv) ws.flatten = argOf argv ++ ascii " " ++ word ++ ascii "\n" := by
  have hphase : Phase cap (argOf argv) buf ws.flatten t :=
    interleave_invariant (fun _ _ _ hs ht => hs.next ht) (phase_start cap (argOf argv) buf ws) h
  have hlen := interleave_length step_work h
  have hwork : (start buf ws).work = 2 * ws.flatten.length + ws.length + 2 := by
    simp [State.work, start, cost_eq]
  refine ⟨hphase.printed, hphase.bounds.1, hphase.bounds.2, by omega, hphase.last hcap,
    exists_halted step_work t, ?_⟩
  rintro name word rfl hne hlen hword
  exact lines_writer (argOf argv) name word hne hlen hword

/-- `writer hello | temu_pipe bye` with a pipe for two bytes. -/
theorem words_through_pipe_small : ∃ cs t,
    interleave (step 2 (argOf [ascii "temu_pipe", ascii "bye"]))
      (start (fun _ => 0) (writerMain [ascii "writer", ascii "hello"])) cs = some t ∧
      t.out = ascii "bye hello\n" := by
  obtain ⟨cs, t, ht, hhalt⟩ := exists_halted (@step_work 2 (argOf [ascii "temu_pipe", ascii "bye"]))
    (start (fun _ => 0) (writerMain [ascii "writer", ascii "hello"]))
  have hall := words_through_pipe (by decide) ht
  have hletters : ∀ c ∈ ascii "hello", isSep c = false ∧ c ≠ 0 := by decide +kernel
  have hword := hall.2.2.2.2.2.2 (ascii "writer") (ascii "hello") rfl (by decide)
    (by decide) hletters
  refine ⟨cs, t, ht, ?_⟩
  rw [hall.2.2.2.2.1 hhalt, hword]
  decide

end Xv6Sheet.WordPipe
