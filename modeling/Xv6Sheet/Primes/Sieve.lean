import Xv6Sheet.Primes.Invariant

/-! # The pipeline is a sieve

Every step keeps the invariant, so what is printed is a beginning of the primes. When no
process can step, none waits for a number: the first process has read its pipe to the end,
and so has every process whose predecessor has.
-/

namespace Xv6Sheet.Primes

variable {n i k : ℕ} {s t : State} {p q : Proc} {e₀ e₃ e₄ : Option End}

theorem Open.congr (h : Open p e₀ e₃ e₄) (hfds : q.fds = p.fds) (hrd : q.rd = p.rd)
    (hwr : q.wr = p.wr) : Open q e₀ e₃ e₄ :=
  ⟨hfds.trans h.fds, hrd.trans h.rd, hwr.trans h.wr⟩

theorem Open.zero (h : Open p e₀ e₃ e₄) : p.fds 0 = e₀ := by
  rw [h.fds]
  rfl

theorem Open.three (h : Open p e₀ e₃ e₄) : p.fds p.rd = e₃ := by
  rw [h.fds, h.rd]
  rfl

theorem Open.four (h : Open p e₀ e₃ e₄) : p.fds p.wr = e₄ := by
  rw [h.fds, h.wr]
  rfl

theorem Open.set_zero (h : Open p e₀ e₃ e₄) (pc : Pc) (x : Option End) :
    Open { p with pc := pc, fds := Function.update p.fds 0 x } x e₃ e₄ :=
  ⟨by simp [h.fds], h.rd, h.wr⟩

theorem Open.set_rd (h : Open p e₀ e₃ e₄) (pc : Pc) (x : Option End) :
    Open { p with pc := pc, fds := Function.update p.fds p.rd x } e₀ x e₄ :=
  ⟨by simp [h.fds, h.rd], h.rd, h.wr⟩

theorem Open.set_wr (h : Open p e₀ e₃ e₄) (pc : Pc) (x : Option End) :
    Open { p with pc := pc, fds := Function.update p.fds p.wr x } e₀ e₃ x :=
  ⟨by simp [h.fds, h.wr], h.rd, h.wr⟩

theorem Fresh.congr {taken : ℕ} {written : List ℕ} {child : Bool}
    (h : Fresh n k taken written child p) (hpid : q.pid = p.pid) (hdata : q.data = p.data) :
    Fresh n k taken written child q :=
  ⟨h.untaken, h.unwritten, hpid.trans h.pid, h.isChild, fun hc => hdata.trans (h.data hc)⟩

theorem Got.congr {taken : ℕ} {written : List ℕ} (h : Got n k taken written p)
    (hdata : q.data = p.data) (hprime : q.prime = p.prime) : Got n k taken written q :=
  ⟨h.pos, hdata ▸ h.data, hdata ▸ h.dvd, h.passed, hprime.trans h.own⟩

theorem Filled.sieve {written : List ℕ} {pc : Pc} (h : Filled n written pc)
    (hpipe : pc ≠ .pipe) (hfill : ∀ k, pc ≠ .fill k) : written = sieve n 0 := by
  cases pc with
  | pipe => exact absurd rfl hpipe
  | fill k => exact absurd rfl (hfill k)
  | _ => exact h

theorem Inv.of_quiet (h : Inv n s) (hi : i < s.nproc) (hnproc : t.nproc = s.nproc)
    (hother : ∀ k, k ≠ i → t.proc k = s.proc k) (hpid : (t.proc i).pid = (s.proc i).pid)
    (hparent : (t.proc i).parent = (s.proc i).parent)
    (htaken : ∀ k, k ≠ i → (t.pipe k).taken = (s.pipe k).taken)
    (hwritten : ∀ k, k ≠ i → (t.pipe (k + 1)).written = (s.pipe (k + 1)).written)
    (hlast : i + 1 = s.nproc → (t.pipe (i + 1)).written = [])
    (hgrow : ∀ k, (s.pipe k).written <+: (t.pipe k).written)
    (hle : (t.pipe i).taken ≤ (t.pipe i).written.length)
    (hnext : (t.pipe (i + 1)).written <+: sieve n (i + 1))
    (hfilled : (i = 0 ∧ Filled n (t.pipe 0).written (t.proc 0).pc) ∨
      (i ≠ 0 ∧ (t.pipe 0).written = (s.pipe 0).written))
    (hgood : Good n i (t.pipe i).taken (t.pipe (i + 1)).written (t.proc i))
    (hnpipe : t.npipe = s.npipe) (hout : t.out = s.out)
    (hstage : ∀ m, (t.proc i).pc.npipe m = (s.proc i).pc.npipe m)
    (hsilent : (t.proc i).pc.silent = (s.proc i).pc.silent) : Inv n t := by
  have hstages : ∀ k m, (t.proc k).pc.npipe m = (s.proc k).pc.npipe m := fun k m => by
    by_cases hki : k = i
    · rw [hki, hstage]
    · rw [hother k hki]
  have hlines : t.lines = s.lines := by
    unfold State.lines
    rw [hnproc]
    by_cases hki : s.nproc - 1 = i
    · rw [hki, hsilent]
    · rw [hother _ hki]
  refine h.of_step hi hnproc hother hpid hparent htaken hwritten hlast hgrow hle hnext hfilled
    hgood ?_ ?_
  · rw [hnpipe, h.npipe, hstages]
  · rw [hout, h.out, hlines]

theorem Inv.setProc (h : Inv n s) (hi : i < s.nproc) {pc : Pc} (hpc : (s.proc i).pc = pc)
    (hpid : q.pid = (s.proc i).pid) (hparent : q.parent = (s.proc i).parent)
    (hgood : Good n i (s.pipe i).taken (s.pipe (i + 1)).written q)
    (hfilled : Filled n (s.pipe 0).written pc → Filled n (s.pipe 0).written q.pc)
    (hstage : ∀ m, q.pc.npipe m = pc.npipe m) (hsilent : q.pc.silent = pc.silent) :
    Inv n (s.setProc i q) := by
  subst hpc
  refine h.of_quiet hi rfl (fun k hk => s.setProc_ne i q hk) (by simpa) (by simpa)
    (fun _ _ => rfl) (fun _ _ => rfl) (fun hl => ?_) (fun _ => List.prefix_refl _) (h.taken i)
    (h.written (i + 1)) ?_ (by simpa) rfl rfl (by simpa) (by simpa)
  · rw [State.setProc_pipe, h.unused _ hl.ge]
  · by_cases h0 : i = 0
    · subst h0
      exact .inl ⟨rfl, by simpa using hfilled h.filled⟩
    · exact .inr ⟨h0, rfl⟩

theorem Inv.fill (h : Inv n s) (hi : i < s.nproc) {j : ℕ} (hpc : (s.proc i).pc = .fill j)
    (hj : j ≤ n) : Inv n (s.send i (s.proc i).wr j (.fill (j + 1))) := by
  have hg := h.good i hi
  simp only [Good, hpc] at hg
  obtain ⟨rfl, htaken, hwritten, hpid, hopen⟩ := hg
  have hfill := h.filled
  rw [hpc] at hfill
  obtain ⟨h2, -, hlist⟩ := hfill
  have hsub : j + 1 - 2 = j - 2 + 1 := by omega
  simp only [State.send, hopen.four]
  refine h.of_quiet hi rfl (fun k hk => s.setProc_ne 0 _ hk) (by simp) (by simp)
    (by simp) (fun k _ => rfl) (fun _ => hwritten) (State.push_grow _ _ _) (by simp [htaken])
    (h.written 1) (.inl ⟨rfl, ?_⟩) ?_ rfl rfl (by simp [hpc, Pc.npipe]) (by simp [hpc, Pc.silent])
  · simp only [Filled, State.push_written, State.push_proc, State.setProc_self,
      State.setProc_pipe]
    refine ⟨by omega, by omega, ?_⟩
    rw [hlist, hsub, List.range'_1_concat, Nat.add_sub_cancel' h2]
  · simp only [Good, State.push_proc, State.setProc_self, State.push_taken]
    exact ⟨trivial, htaken, hwritten, hpid, hopen.congr rfl rfl rfl⟩

theorem Inv.write (h : Inv n s) (hi : i < s.nproc) (hpc : (s.proc i).pc = .write) :
    Inv n (s.send i (s.proc i).wr (s.proc i).data .read) := by
  have hg := h.good i hi
  have hf := h.filled
  simp only [Good, hpc] at hg
  obtain ⟨hopen, hown, ⟨hpid, htaken, hwritten⟩ | ⟨hpid, hgot⟩⟩ := hg
  · have hclosed : output i (s.proc i) = none := if_pos hpid
    simp only [State.send, hopen.four, hclosed]
    refine h.setProc hi hpc rfl rfl ⟨hopen.congr rfl rfl rfl, hown, ?_⟩ id (fun _ => rfl) rfl
    rw [hwritten, htaken, sent_zero]
  · have hopened : output i (s.proc i) = some (.write (i + 1)) := if_neg hpid
    have hsent : (s.pipe (i + 1)).written ++ [(s.proc i).data] = sent n i (s.pipe i).taken := by
      have hsucc := sent_succ hgot.data
      rw [Nat.sub_add_cancel hgot.pos, if_neg hgot.dvd] at hsucc
      rw [hgot.passed, hsucc]
    have hmore : i + 1 ≠ s.nproc := fun hl => hpid ((h.last i hi).mpr hl)
    simp only [State.send, hopen.four, hopened]
    refine h.of_quiet hi rfl (fun k hk => s.setProc_ne i _ hk) (by simp) (by simp)
      (by simp) (fun k hk => ?_) (fun hl => absurd hl hmore) (State.push_grow _ _ _) ?_ ?_ ?_ ?_
      rfl rfl (by simp [hpc, Pc.npipe]) (by simp [hpc, Pc.silent])
    · rw [State.push_ne _ _ _ _ (by omega)]
      rfl
    · rw [State.push_ne _ _ _ _ (by omega)]
      exact h.taken i
    · rw [State.push_written, State.setProc_pipe, hsent]
      exact sent_prefix ..
    · rw [State.push_ne _ _ _ _ (by omega)]
      by_cases h0 : i = 0
      · subst h0
        rw [hpc] at hf
        exact .inl ⟨rfl, by simpa [Filled] using hf⟩
      · exact .inr ⟨h0, rfl⟩
    · simp only [Good, State.push_proc, State.setProc_self, State.push_taken, State.push_written,
        State.setProc_pipe, hsent]
      exact ⟨hopen.congr rfl rfl rfl, hown, trivial⟩

theorem openPipe_eq {a : End} (h : (s.proc i).fds = fdsOf (some a) none none) (pc : Pc) :
    s.openPipe i pc =
      { s.setProc i { s.proc i with
          pc := pc
          fds := fdsOf (some a) (some (.read s.npipe)) (some (.write s.npipe))
          rd := 3
          wr := 4 } with
        npipe := s.npipe + 1 } := by
  simp only [State.openPipe, h, freeFd_three, update_fdsOf_three, freeFd_four, update_fdsOf_four]

theorem Inv.openPipe (h : Inv n s) (hi : i < s.nproc) {a : End} {pc : Pc}
    (hfds : (s.proc i).fds = fdsOf (some a) none none) (hpid : (s.proc i).pid = 0)
    (hfilled : i = 0 → Filled n (s.pipe 0).written pc)
    (hgood : Good n i (s.pipe i).taken (s.pipe (i + 1)).written
      { s.proc i with
        pc := pc
        fds := fdsOf (some a) (some (.read s.npipe)) (some (.write s.npipe))
        rd := 3
        wr := 4 })
    (hstage : pc.npipe s.nproc = s.npipe + 1)
    (hsilent : pc.silent = (s.proc i).pc.silent) : Inv n (s.openPipe i pc) := by
  have hlast := (h.last i hi).mp hpid
  have hi' : s.nproc - 1 = i := by omega
  rw [openPipe_eq hfds]
  refine h.of_step hi rfl (fun k hk => s.setProc_ne i _ hk) (by simp) (by simp)
    (fun _ _ => rfl) (fun _ _ => rfl) (fun hl => ?_) (fun _ => List.prefix_refl _) (h.taken i)
    (h.written (i + 1)) ?_ (by simpa) (by simp [hi', hstage]) ?_
  · rw [State.setProc_pipe, h.unused _ hl.ge]
  · by_cases h0 : i = 0
    · subst h0
      exact .inl ⟨rfl, by simpa using hfilled rfl⟩
    · exact .inr ⟨h0, rfl⟩
  · have hlines : ({ s.setProc i { s.proc i with
          pc := pc
          fds := fdsOf (some a) (some (.read s.npipe)) (some (.write s.npipe))
          rd := 3
          wr := 4 } with
        npipe := s.npipe + 1 } : State).lines = s.lines := by
      simp [State.lines, hi', hsilent]
    rw [hlines]
    exact h.out

theorem Inv.print (h : Inv n s) (hi : i < s.nproc) {child : Bool}
    (hpc : (s.proc i).pc = .print child) {x : ℕ} (hx : x = if child then (s.proc i).data else 2) :
    Inv n { s.setProc i { s.proc i with
      pc := if child then .write else .read
      prime := x } with out := s.out ++ [x] } := by
  have hg := h.good i hi
  have hf := h.filled
  simp only [Good, hpc] at hg
  obtain ⟨hfresh, hopen⟩ := hg
  have hlast := (h.last i hi).mp hfresh.pid
  have hi' : s.nproc - 1 = i := by omega
  have hprime : x = prime i := by
    cases child with
    | true => exact hx.trans (hfresh.data rfl)
    | false =>
      have h0 : i = 0 := by simpa using hfresh.isChild
      rw [hx, h0, prime_zero]
      rfl
  have hstage : (if child then Pc.write else Pc.read).npipe s.nproc = s.nproc ∧
      (if child then Pc.write else Pc.read).silent = false := by
    cases child <;> exact ⟨rfl, rfl⟩
  have hopened : Open (s.proc i) (some (.read i)) none (output i (s.proc i)) := by
    rwa [output, if_pos hfresh.pid]
  refine h.of_step hi rfl (fun k hk => s.setProc_ne i _ hk) (by simp) (by simp)
    (fun _ _ => rfl) (fun _ _ => rfl) (fun _ => hfresh.unwritten) (fun _ => List.prefix_refl _)
    (h.taken i) (h.written (i + 1)) ?_ ?_ ?_ ?_
  · by_cases h0 : i = 0
    · subst h0
      rw [hpc] at hf
      refine .inl ⟨rfl, ?_⟩
      cases child <;> simpa [Filled] using hf
    · exact .inr ⟨h0, rfl⟩
  · cases child with
    | true =>
      simp only [State.setProc_self, if_pos, Good]
      exact ⟨hopened.congr rfl rfl rfl, hprime,
        .inl ⟨hfresh.pid, hfresh.untaken, hfresh.unwritten⟩⟩
    | false =>
      simp only [State.setProc_self, Bool.false_eq_true, if_false, Good]
      refine ⟨hopened.congr rfl rfl rfl, hprime, ?_⟩
      rw [State.setProc_pipe, hfresh.unwritten, hfresh.untaken, sent_zero]
  · simp only [State.setProc_npipe, hi', State.setProc_self]
    rw [h.npipe, hi', hpc, hstage.1]
    rfl
  · have hold : s.lines = i := by simp [State.lines, hi', hpc, Pc.silent]
    simp only [State.lines, State.setProc_nproc, hi', State.setProc_self, hstage.2]
    rw [h.out, hold, hprime, ← hlast, if_neg Bool.false_ne_true, List.range_succ, List.map_append]
    rfl

/-- A process that does not hold the write end of its output has passed on all there is. -/
theorem Good.read_all {taken : ℕ} {written : List ℕ} (h : Good n k taken written p)
    (hpid : p.pid ≠ 0) (hclosed : ∀ fd < NOFILE, p.fds fd ≠ some (.write (k + 1))) :
    Read n k taken written := by
  have hfour : ∀ {e₀ e₃}, Open p e₀ e₃ (some (.write (k + 1))) → False := fun ho =>
    hclosed p.wr (by rw [ho.wr]; decide) ho.four
  have hout : ∀ {e₀ e₃}, Open p e₀ e₃ (output k p) → False := fun ho => by
    rw [output, if_neg hpid] at ho
    exact hfour ho
  unfold Good at h
  split at h
  · exact absurd h.2.2.2.1 hpid
  · exact absurd h.2.2.2.1 hpid
  · exact absurd h.1.pid hpid
  · exact absurd h.1.pid hpid
  · exact absurd h.1.pid hpid
  · exact absurd h.1.pid hpid
  · exact absurd h.1.pid hpid
  · exact (hout h.1).elim
  · exact absurd h.2.1 hpid
  · exact absurd h.2.1 hpid
  · exact (hfour h.1).elim
  · exact (hout h.1).elim
  · exact h.2
  · exact h.2
  · exact h.2
  · exact h.2

/-- When no process holds a write end of the pipe of process `i`, its input is complete. -/
theorem Inv.input (h : Inv n s) (hi : i < s.nproc) (hpipe : (s.proc i).pc ≠ .pipe)
    (hfill : ∀ k, (s.proc i).pc ≠ .fill k) (hclosed : ¬ s.HoldsWrite i) :
    (s.pipe i).written = sieve n i := by
  cases i with
  | zero => exact h.filled.sieve hpipe hfill
  | succ k =>
    have hk : k < s.nproc := by omega
    have hpid : (s.proc k).pid ≠ 0 := fun hpid => by
      have := (h.last k hk).mp hpid
      omega
    exact ((h.good k hk).read_all hpid fun fd hfd hw => hclosed ⟨k, hk, fd, hfd, hw⟩).passed

theorem afterRead_cases {m : ℕ} (hm : p.prime = m) :
    (m ∣ p.data ∧ State.afterRead p = .read) ∨
      (¬ m ∣ p.data ∧ p.pid = 0 ∧ State.afterRead p = .pipeNext) ∨
      (¬ m ∣ p.data ∧ p.pid ≠ 0 ∧ State.afterRead p = .write) := by
  subst hm
  unfold State.afterRead
  rw [Nat.dvd_iff_mod_eq_zero]
  by_cases hmod : p.data % p.prime = 0
  · exact .inl ⟨hmod, by simp [hmod]⟩
  · by_cases hpid : p.pid = 0
    · exact .inr (.inl ⟨hmod, hpid, by simp [hmod, hpid]⟩)
    · exact .inr (.inr ⟨hmod, hpid, by simp [hmod, hpid]⟩)

theorem Inv.receive (h : Inv n s) (hi : i < s.nproc) (hpc : (s.proc i).pc = .read)
    (hstep : s.receive i = some t) : Inv n t := by
  have hg := h.good i hi
  have hf := h.filled
  simp only [Good, hpc] at hg
  obtain ⟨hopen, hown, hwritten⟩ := hg
  unfold State.receive at hstep
  simp only [hopen.zero] at hstep
  cases hx : (s.pipe i).written[(s.pipe i).taken]? with
  | some x =>
    simp only [hx, Option.some.injEq] at hstep
    subst hstep
    have hlt : (s.pipe i).taken < (s.pipe i).written.length := (List.getElem?_eq_some_iff.mp hx).1
    have hxn : (sieve n i)[(s.pipe i).taken]? = some x := by
      obtain ⟨l, hl⟩ := h.written i
      rw [← hl, List.getElem?_append_left hlt, hx]
    have hafter := afterRead_cases (p := { s.proc i with data := x }) hown
    have hsent := sent_succ hxn
    refine h.of_quiet hi rfl (fun k hk => s.setProc_ne i _ hk) (by simp) (by simp)
      (fun k hk => by simp [State.pull_ne _ _ _ hk]) (by simp) (fun hl => ?_) (by simp)
      (by simpa using hlt) (by simpa using h.written (i + 1)) ?_ ?_ rfl rfl ?_ ?_
    · rw [State.pull_written, State.setProc_pipe, h.unused _ hl.ge]
    · by_cases h0 : i = 0
      · subst h0
        rw [hpc] at hf
        refine .inl ⟨rfl, ?_⟩
        rw [State.pull_written, State.pull_proc, State.setProc_self]
        rcases hafter with ⟨-, heq⟩ | ⟨-, -, heq⟩ | ⟨-, -, heq⟩ <;> rw [heq] <;> exact hf
      · exact .inr ⟨h0, by simp⟩
    · simp only [State.pull_proc, State.setProc_self, State.pull_taken, State.pull_written,
        State.setProc_pipe, Good]
      rcases hafter with ⟨hdvd, heq⟩ | ⟨hdvd, hpid, heq⟩ | ⟨hdvd, hpid, heq⟩ <;> rw [heq]
      · rw [if_pos hdvd] at hsent
        exact ⟨hopen.congr rfl rfl rfl, hown, hwritten.trans hsent.symm⟩
      · rw [output, if_pos hpid] at hopen
        exact ⟨hopen.congr rfl rfl rfl, hpid, Nat.succ_pos _, hxn, hdvd, hwritten, hown⟩
      · exact ⟨hopen.congr rfl rfl rfl, hown,
          .inr ⟨hpid, Nat.succ_pos _, hxn, hdvd, hwritten, hown⟩⟩
    · intro m
      rw [State.pull_proc, State.setProc_self]
      rcases hafter with ⟨-, heq⟩ | ⟨-, -, heq⟩ | ⟨-, -, heq⟩ <;> rw [heq, hpc] <;> rfl
    · rw [State.pull_proc, State.setProc_self]
      rcases hafter with ⟨-, heq⟩ | ⟨-, -, heq⟩ | ⟨-, -, heq⟩ <;> rw [heq, hpc] <;> rfl
  | none =>
    simp only [hx] at hstep
    split at hstep
    · cases hstep
    · rename_i hclosed
      cases hstep
      have hinput := h.input hi (by simp [hpc]) (by simp [hpc]) hclosed
      have hlen : (s.pipe i).taken = (sieve n i).length := by
        have hle := List.getElem?_eq_none_iff.mp hx
        rw [← hinput]
        exact (h.taken i).antisymm hle
      refine h.setProc hi hpc rfl rfl ⟨hopen.congr rfl rfl rfl, hlen, ?_⟩ id (fun _ => rfl) rfl
      rw [hwritten, hlen, sent_length]

/-- The last process makes the next one, which has read nothing and has its number. -/
theorem Inv.fork (h : Inv n s) (hi : i < s.nproc) (hpc : (s.proc i).pc = .fork) :
    Inv n (s.fork i) := by
  have hg := h.good i hi
  have hf := h.filled
  simp only [Good, hpc] at hg
  obtain ⟨hopen, hpid, hgot⟩ := hg
  have hlast := (h.last i hi).mp hpid
  have hi' : s.nproc - 1 = i := by omega
  have hunused : ∀ k, s.nproc ≤ k → (s.pipe k).taken = 0 ∧ (s.pipe k).written = [] :=
    fun k hk => by
      rw [h.unused k hk]
      exact ⟨rfl, rfl⟩
  have hwritten := (hunused (i + 1) hlast.ge).2
  obtain ⟨hdata, hle⟩ := sent_first hgot.data hgot.dvd (hgot.passed.symm.trans hwritten)
  have hchild : (s.fork i).proc s.nproc =
      { s.proc i with pc := .close0 true, parent := some i, pid := 0 } := Function.update_self ..
  have hold : ∀ k, k ≠ s.nproc → (s.fork i).proc k =
      if k = i then { s.proc i with pc := .closeRead, pid := s.nproc } else s.proc k :=
    fun k hk => by
      simp [State.fork, Function.update_apply, hk]
  have hparent : (s.fork i).proc i = { s.proc i with pc := .closeRead, pid := s.nproc } := by
    rw [hold i hi.ne, if_pos rfl]
  have hother : ∀ k, k ≠ s.nproc → k ≠ i → (s.fork i).proc k = s.proc k := fun k hk hki => by
    rw [hold k hk, if_neg hki]
  have hcases : ∀ k < s.nproc + 1, k = s.nproc ∨ k = i ∨ (k < s.nproc ∧ k ≠ s.nproc ∧ k ≠ i) :=
    fun k hk => by omega
  refine ⟨Nat.succ_pos _, fun k hk => ?_, ?_, h.written, h.taken, fun k hk => ?_,
    fun k hk => h.unused k (Nat.le_of_succ_le hk), ?_, fun k hk => ?_, fun k hk => ?_, ?_⟩
  · rcases hcases k hk with rfl | rfl | ⟨hk, hkn, hki⟩
    · rw [hchild]
      refine ⟨⟨(hunused _ le_rfl).1, (hunused _ (Nat.le_succ _)).2, rfl, ?_, fun _ => ?_⟩,
        .read i, ?_⟩
      · simpa using h.pos.ne'
      · rw [← hlast]
        exact hdata
      · rw [← hlast]
        exact hopen.congr rfl rfl rfl
    · rw [hparent]
      exact ⟨hopen.congr rfl rfl rfl, h.pos.ne', hgot.congr rfl rfl⟩
    · rw [hother k hkn hki]
      exact h.good k hk
  · by_cases h0 : 0 = i
    · subst h0
      rw [hparent]
      rw [hpc] at hf
      exact hf
    · rw [hother 0 h.pos.ne h0]
      exact hf
  · rcases hcases k hk with rfl | rfl | ⟨hk, hkn, hki⟩
    · rw [hchild]
      exact ⟨fun _ => rfl, fun _ => rfl⟩
    · rw [hparent]
      exact ⟨fun h0 => absurd h0 h.pos.ne', fun h0 => absurd h0 (by simp [State.fork, hi.ne])⟩
    · rw [hother k hkn hki, h.last k hk]
      simp only [State.fork]
      omega
  · have hnpipe := h.npipe
    rw [hi', hpc] at hnpipe
    simp only [State.fork] at hchild ⊢
    rw [Nat.add_sub_cancel, hchild, hnpipe]
    rfl
  · rcases hcases k hk with rfl | rfl | ⟨hk, hkn, hki⟩
    · rw [hchild, if_neg h.pos.ne', hi']
    · rw [hparent]
      exact h.parent k hi
    · rw [hother k hkn hki]
      exact h.parent k hk
  · rcases hcases k hk with rfl | rfl | ⟨hk, hkn, hki⟩
    · rw [← hlast]
      exact hle
    · exact h.le k hi
    · exact h.le k hk
  · have hlines : s.lines = s.nproc := by simp [State.lines, hi', hpc, Pc.silent]
    have hlines' : (s.fork i).lines = s.nproc := by
      have hn : (s.fork i).nproc - 1 = s.nproc := rfl
      simp [State.lines, hn, hchild, Pc.silent]
    rw [hlines', ← hlines]
    exact h.out

theorem Inv.step (h : Inv n s) (hstep : Step n i s t) : Inv n t := by
  obtain ⟨hi, hact⟩ := hstep
  have hg := h.good i hi
  unfold act at hact
  cases hpc : (s.proc i).pc with
  | pipe =>
    simp only [hpc, Option.some.injEq] at hact
    simp only [Good, hpc] at hg
    obtain ⟨rfl, htaken, hwritten, hpid, hfds⟩ := hg
    have hlast := (h.last 0 hi).mp hpid
    have hnpipe := h.npipe
    have hf := h.filled
    have h2 := h.le 0 hi
    rw [← hlast, hpc] at hnpipe
    rw [hpc] at hf
    rw [prime_zero] at h2
    subst hact
    refine h.openPipe hi hfds hpid (fun _ => ⟨le_rfl, by omega, hf⟩)
      ⟨rfl, htaken, hwritten, hpid, ?_, rfl, rfl⟩ ?_ (by rw [hpc]; rfl)
    · rw [hnpipe]
      rfl
    · rw [hnpipe, ← hlast]
      rfl
  | fill j =>
    simp only [hpc] at hact
    split at hact
    · rename_i hj
      cases hact
      exact h.fill hi hpc hj
    · rename_i hj
      cases hact
      simp only [Good, hpc] at hg
      obtain ⟨rfl, htaken, hwritten, hpid, hopen⟩ := hg
      refine h.setProc hi hpc rfl rfl ⟨⟨htaken, hwritten, hpid, by simp, by simp⟩, .console,
        hopen.congr rfl rfl rfl⟩ ?_ (fun _ => rfl) rfl
      rintro ⟨h2, hle, hlist⟩
      have hend : j - 2 = n - 1 := by omega
      rw [hend, ← sieve_zero] at hlist
      exact hlist
  | close0 child =>
    simp only [hpc, Option.some.injEq] at hact
    simp only [Good, hpc] at hg
    obtain ⟨hfresh, e, hopen⟩ := hg
    subst hact
    exact h.setProc hi hpc rfl rfl ⟨hfresh.congr rfl rfl, hopen.set_zero _ _⟩ id (fun _ => rfl) rfl
  | dup child =>
    simp only [hpc, Option.some.injEq] at hact
    simp only [Good, hpc] at hg
    obtain ⟨hfresh, hopen⟩ := hg
    have hfree : freeFd (s.proc i).fds = some 0 := by rw [hopen.fds, freeFd_zero]
    simp only [State.dup, hfree, hopen.three] at hact
    subst hact
    exact h.setProc hi hpc rfl rfl ⟨hfresh.congr rfl rfl, hopen.set_zero _ _⟩ id (fun _ => rfl) rfl
  | closeRd child =>
    simp only [hpc, Option.some.injEq] at hact
    simp only [Good, hpc] at hg
    obtain ⟨hfresh, hopen⟩ := hg
    subst hact
    exact h.setProc hi hpc rfl rfl ⟨hfresh.congr rfl rfl, hopen.set_rd _ _⟩ id (fun _ => rfl) rfl
  | closeWr child =>
    simp only [hpc, Option.some.injEq] at hact
    simp only [Good, hpc] at hg
    obtain ⟨hfresh, hopen⟩ := hg
    subst hact
    exact h.setProc hi hpc rfl rfl ⟨hfresh.congr rfl rfl, hopen.set_wr _ _⟩ id (fun _ => rfl) rfl
  | print child =>
    simp only [hpc, Option.some.injEq] at hact
    subst hact
    exact h.print hi hpc rfl
  | read =>
    simp only [hpc] at hact
    exact h.receive hi hpc hact
  | pipeNext =>
    simp only [hpc, Option.some.injEq] at hact
    simp only [Good, hpc] at hg
    obtain ⟨hopen, hpid, hgot⟩ := hg
    have hlast := (h.last i hi).mp hpid
    have hi' : s.nproc - 1 = i := by omega
    have hnpipe := h.npipe
    have hf := h.filled
    rw [hi', hpc] at hnpipe
    subst hact
    refine h.openPipe hi hopen.fds hpid (fun h0 => ?_) ⟨⟨?_, rfl, rfl⟩, hpid, hgot.congr rfl rfl⟩
      ?_ (by rw [hpc]; rfl)
    · subst h0
      rw [hpc] at hf
      exact hf
    · rw [hnpipe, hlast]
      rfl
    · rw [hnpipe]
      rfl
  | fork =>
    simp only [hpc, Option.some.injEq] at hact
    subst hact
    exact h.fork hi hpc
  | closeRead =>
    simp only [hpc, Option.some.injEq] at hact
    simp only [Good, hpc] at hg
    obtain ⟨hopen, hpid, hgot⟩ := hg
    subst hact
    have hout : some (.write (i + 1)) = output i (s.proc i) := (if_neg hpid).symm
    rw [hout] at hopen
    exact h.setProc hi hpc rfl rfl
      ⟨hopen.set_rd _ _, hgot.own, .inr ⟨hpid, hgot.congr rfl rfl⟩⟩ id (fun _ => rfl) rfl
  | write =>
    simp only [hpc, Option.some.injEq] at hact
    subst hact
    exact h.write hi hpc
  | closeWrite =>
    simp only [hpc, Option.some.injEq] at hact
    simp only [Good, hpc] at hg
    subst hact
    exact h.setProc hi hpc rfl rfl ⟨hg.1.set_wr _ _, hg.2⟩ id (fun _ => rfl) rfl
  | wait =>
    simp only [hpc] at hact
    split at hact
    · cases hact
      simp only [Good, hpc] at hg
      exact h.setProc hi hpc rfl rfl ⟨hg.1.congr rfl rfl rfl, hg.2⟩ id (fun _ => rfl) rfl
    · cases hact
  | exit =>
    simp only [hpc, Option.some.injEq] at hact
    simp only [Good, hpc] at hg
    subst hact
    exact h.setProc hi hpc rfl rfl ⟨rfl, hg.2⟩ id (fun _ => rfl) rfl
  | exited =>
    simp [hpc] at hact

theorem Run.inv {is : List ℕ} (hrun : Run n s is t) (h : Inv n s) : Inv n t := by
  induction hrun with
  | nil => exact h
  | snoc _ hstep ih => exact ih.step hstep

theorem fdsOf_write {fd j : ℕ} (h : fdsOf e₀ e₃ e₄ fd = some (.write j)) :
    e₀ = some (.write j) ∨ e₃ = some (.write j) ∨ e₄ = some (.write j) := by
  rcases fd with _ | _ | _ | _ | _ | fd
  · exact .inl h
  · cases h
  · cases h
  · exact .inr (.inl h)
  · exact .inr (.inr h)
  · cases h

/-- A process that has printed holds no write end but that of its output, and that one only
until it waits. -/
theorem Good.holds {taken fd j : ℕ} {written : List ℕ} (h : Good n k taken written p)
    (hfd : p.fds fd = some (.write j)) :
    p.pc.silent = true ∨ (j = k + 1 ∧ p.pc ≠ .wait ∧ p.pc ≠ .exited) := by
  have hout : ∀ {a}, Open p (some (.read a)) none (output k p) → j = k + 1 := fun ho => by
    rw [ho.fds] at hfd
    rcases fdsOf_write hfd with he | he | he
    · cases he
    · cases he
    · unfold output at he
      split at he <;> cases he
      rfl
  unfold Good at h
  split at h <;> rename_i hpc <;> rw [hpc]
  case h_8 => exact .inr ⟨hout h.1, by simp, by simp⟩
  case h_9 =>
    rw [h.1.fds] at hfd
    rcases fdsOf_write hfd with he | he | he <;> cases he
  case h_10 =>
    rw [h.1.fds] at hfd
    rcases fdsOf_write hfd with he | he | he <;> cases he
    exact .inr ⟨rfl, by simp, by simp⟩
  case h_11 =>
    rw [h.1.fds] at hfd
    rcases fdsOf_write hfd with he | he | he <;> cases he
    exact .inr ⟨rfl, by simp, by simp⟩
  case h_12 => exact .inr ⟨hout h.1, by simp, by simp⟩
  case h_13 => exact .inr ⟨hout h.1, by simp, by simp⟩
  case h_14 =>
    rw [h.1.fds] at hfd
    rcases fdsOf_write hfd with he | he | he <;> cases he
  case h_15 =>
    rw [h.1.fds] at hfd
    rcases fdsOf_write hfd with he | he | he <;> cases he
  case h_16 =>
    rw [h.1] at hfd
    cases hfd
  all_goals exact .inl rfl

theorem Inv.blocked (h : Inv n s) (hi : i < s.nproc) (hstuck : ∀ t, ¬ Step n i s t) :
    (s.proc i).pc = .exited ∨ ((s.proc i).pc = .wait ∧ ¬ s.Waited i) ∨
      ((s.proc i).pc = .read ∧ s.HoldsWrite i) := by
  have hnone : act n i s = none := by
    cases hact : act n i s with
    | none => rfl
    | some t => exact absurd ⟨hi, hact⟩ (hstuck t)
  have hg := h.good i hi
  unfold act at hnone
  cases hpc : (s.proc i).pc with
  | exited => exact .inl rfl
  | wait =>
    simp only [hpc] at hnone
    split at hnone
    · cases hnone
    · exact .inr (.inl ⟨rfl, ‹_›⟩)
  | read =>
    simp only [hpc] at hnone
    simp only [Good, hpc] at hg
    simp only [State.receive, hg.1.zero] at hnone
    split at hnone
    · cases hnone
    · split at hnone
      · exact .inr (.inr ⟨rfl, ‹_›⟩)
      · cases hnone
  | fill j =>
    simp only [hpc] at hnone
    split at hnone <;> cases hnone
  | _ =>
    simp only [hpc] at hnone
    cases hnone

theorem Inv.stuck (h : Inv n s) (hstuck : ∀ i t, ¬ Step n i s t) :
    ∀ k < s.nproc, (s.proc k).pc = .exited := by
  have hdone : ∀ k < s.nproc, (s.proc k).pc = .wait ∨ (s.proc k).pc = .exited := by
    intro k
    induction k using Nat.strongRecOn with
    | ind k ih =>
      intro hk
      rcases h.blocked hk (hstuck k) with he | ⟨hw, -⟩ | ⟨-, j, hj, fd, -, hfd⟩
      · exact .inr he
      · exact .inl hw
      · rcases (h.good j hj).holds hfd with hsilent | ⟨rfl, hw, he⟩
        · rcases h.blocked hj (hstuck j) with he | ⟨hw, -⟩ | ⟨hr, -⟩
          · rw [he] at hsilent
            cases hsilent
          · rw [hw] at hsilent
            cases hsilent
          · rw [hr] at hsilent
            cases hsilent
        · rcases ih j (Nat.lt_succ_self j) hj with hw' | he'
          · exact absurd hw' hw
          · exact absurd he' he
  -- the last process has no child to wait for, and each other one waits for the next
  have hback : ∀ m k, k < s.nproc → s.nproc - k = m + 1 → (s.proc k).pc = .exited := by
    intro m
    induction m with
    | zero =>
      intro k hk hm
      rcases h.blocked hk (hstuck k) with he | ⟨-, hw⟩ | ⟨hr, -⟩
      · exact he
      · refine absurd (.inr fun j hj hp => ?_) hw
        rw [h.parent j hj] at hp
        split at hp
        · cases hp
        · have := Option.some.inj hp
          omega
      · rcases hdone k hk with hw | he
        · rw [hr] at hw
          cases hw
        · exact he
    | succ m ih =>
      intro k hk hm
      have hk' : k + 1 < s.nproc := by omega
      rcases h.blocked hk (hstuck k) with he | ⟨-, hw⟩ | ⟨hr, -⟩
      · exact he
      · have hp := h.parent (k + 1) hk'
        rw [if_neg (Nat.succ_ne_zero k), Nat.add_sub_cancel] at hp
        exact absurd (.inl ⟨k + 1, hk', hp, ih (k + 1) hk' (by omega)⟩) hw
      · rcases hdone k hk with hw | he
        · rw [hr] at hw
          cases hw
        · exact he
  exact fun k hk => hback (s.nproc - k - 1) k hk (by omega)

theorem openPipe_pipe (s : State) (i : ℕ) (pc : Pc) : (s.openPipe i pc).pipe = s.pipe := by
  unfold State.openPipe
  dsimp only
  split
  · rfl
  · split <;> rfl

theorem dup_pipe (s : State) (i fd : ℕ) (pc : Pc) : (s.dup i fd pc).pipe = s.pipe := by
  unfold State.dup
  dsimp only
  split <;> rfl

theorem receive_written (hstep : s.receive i = some t) (j : ℕ) :
    (t.pipe j).written = (s.pipe j).written := by
  unfold State.receive at hstep
  dsimp only at hstep
  split at hstep
  · split at hstep
    · cases hstep
      simp
    · split at hstep <;> cases hstep
      rfl
  · cases hstep
    rfl

theorem send_written {fd x j : ℕ} {pc : Pc}
    (hne : ((s.send i fd x pc).pipe j).written ≠ (s.pipe j).written) :
    (s.proc i).fds fd = some (.write j) := by
  unfold State.send at hne
  dsimp only at hne
  split at hne
  · rename_i q hfd
    rcases eq_or_ne j q with rfl | hj
    · exact hfd
    · rw [State.push_ne _ _ _ _ hj] at hne
      exact absurd rfl hne
  · exact absurd rfl hne

theorem Inv.writer (h : Inv n s) (hstep : Step n i s t)
    (hne : (t.pipe (k + 1)).written ≠ (s.pipe (k + 1)).written) : i = k := by
  obtain ⟨hi, hact⟩ := hstep
  have hg := h.good i hi
  unfold act at hact
  cases hpc : (s.proc i).pc with
  | pipe =>
    simp only [hpc, Option.some.injEq] at hact
    exact absurd (by rw [← hact, openPipe_pipe]) hne
  | pipeNext =>
    simp only [hpc, Option.some.injEq] at hact
    exact absurd (by rw [← hact, openPipe_pipe]) hne
  | dup child =>
    simp only [hpc, Option.some.injEq] at hact
    exact absurd (by rw [← hact, dup_pipe]) hne
  | read =>
    simp only [hpc] at hact
    exact absurd (receive_written hact _) hne
  | fill j =>
    simp only [hpc] at hact
    simp only [Good, hpc] at hg
    split at hact <;> cases hact
    · have hfd := send_written hne
      rw [hg.2.2.2.2.four] at hfd
      cases hfd
    · exact absurd rfl hne
  | write =>
    simp only [hpc, Option.some.injEq] at hact
    simp only [Good, hpc] at hg
    subst hact
    have hfd := send_written hne
    rw [hg.1.four] at hfd
    unfold output at hfd
    split at hfd <;> cases hfd
    rfl
  | wait =>
    simp only [hpc] at hact
    split at hact <;> cases hact
    exact absurd rfl hne
  | exited =>
    simp only [hpc] at hact
    cases hact
  | _ =>
    simp only [hpc, Option.some.injEq] at hact
    exact absurd (by rw [← hact]; rfl) hne

/-- Under every schedule of the processes, the lines printed are the first primes, process `k`
passes on the numbers that the first `k + 1` primes leave and no others, in order, and when no
process can step all have exited and all primes are printed. -/
theorem pipeline_sieve (n : ℕ) (s₀ s : State) (is : List ℕ) (hn : 2 ≤ n) (h₀ : Start s₀)
    (hrun : Run n s₀ is s) :
    s.out <+: primesTo n ∧
      (∀ k < s.nproc, (s.pipe (k + 1)).written <+: sieve n (k + 1)) ∧
      (∀ k i t, Step n i s t → (t.pipe (k + 1)).written ≠ (s.pipe (k + 1)).written → i = k) ∧
      (∀ k < s.nproc, (s.proc k).pc = .exited → (s.pipe (k + 1)).written = sieve n (k + 1)) ∧
      ((∀ i t, ¬ Step n i s t) → s.out = primesTo n ∧ ∀ k < s.nproc, (s.proc k).pc = .exited) := by
  have h : Inv n s := hrun.inv (h₀.inv hn)
  have hpos := h.pos
  have hlines : ∀ k < s.lines, prime k ≤ n := fun k hk => h.le k <| by
    unfold State.lines at hk
    split at hk <;> omega
  refine ⟨?_, fun k _ => h.written (k + 1), fun k i t hstep hne => h.writer hstep hne,
    fun k hk hpc => ?_, fun hstuck => ?_⟩
  · rw [h.out]
    exact map_prime_prefix hlines
  · have hg := h.good k hk
    simp only [Good, hpc] at hg
    exact hg.2.passed
  · have hexited := h.stuck hstuck
    refine ⟨?_, hexited⟩
    have hlast : s.nproc - 1 < s.nproc := by omega
    have hpc := hexited _ hlast
    have hall : s.lines = s.nproc := by simp [State.lines, hpc, Pc.silent]
    have hg := h.good _ hlast
    simp only [Good, hpc] at hg
    have hnil := hg.2.passed
    rw [Nat.sub_add_cancel hpos, h.unused _ le_rfl] at hnil
    rw [h.out]
    refine map_prime_range hlines ?_
    rw [hall]
    exact sieve_eq_nil hnil.symm

section Small

def small : State where
  proc _ := ⟨.pipe, fun k => if k < 3 then some .console else none, none, 0, 0, 0, 0, 0⟩
  nproc := 1
  pipe _ := ⟨[], 0⟩
  npipe := 0
  out := []

/-- The first process sends 3 to a second one, which prints it; then both come to their ends. -/
def smallRun : List ℕ :=
  List.replicate 17 0 ++ List.replicate 11 1 ++ List.replicate 2 0

theorem pipeline_sieve_small : ∃ s, runAll 3 smallRun small = some s ∧
    s.out = primesTo 3 ∧ ∀ k < s.nproc, (s.proc k).pc = .exited := by
  have hdone : (runAll 3 smallRun small).any (fun s =>
      ∀ i < s.nproc, (s.proc i).pc = .exited) = true := by decide +kernel
  cases hs : runAll 3 smallRun small with
  | none => simp [hs] at hdone
  | some s =>
    rw [hs, Option.any_some, decide_eq_true_eq] at hdone
    obtain ⟨is, hrun⟩ := Run.of_runAll hs
    obtain ⟨-, -, -, -, hend⟩ := pipeline_sieve 3 small s is (by decide)
      ⟨rfl, rfl, rfl, rfl, rfl, fun _ => rfl, rfl, rfl⟩ hrun
    refine ⟨s, rfl, hend fun i t hstep => ?_⟩
    have hact := hstep.2
    simp [act, hdone i hstep.1] at hact

end Small

end Xv6Sheet.Primes
