import Xv6Sheet.Kernel.Sysfile
import Xv6Sheet.Vm.Mmap

/-! # The arguments of exec

`sys_exec` copies the strings of the user's vector to pages of the kernel, hands them to `kexec`,
and frees them, whether or not it came that far.
-/

namespace Xv6Sheet.Kernel.ExecArgs

abbrev Str := List UInt8

/-- What the other parts of the kernel answer, in a turn of the loop where they are called in it:
`fetchaddr` an entry of the vector at an address, `kalloc` a page or 0, and `fetchstr` whether it
succeeded, with what the page holds then. -/
structure Env where
  fetchaddr : ℕ → ℕ → Option ℕ
  kalloc : ℕ → ℕ
  fetchstr : ℕ → ℕ → Bool × Str
  kexec : Bytes → (ℕ → ℕ) → (ℕ → Str) → ℤ

/-- A call of `kexec`: the path, the vector and the pages. -/
structure Call where
  path : Bytes
  argv : ℕ → ℕ
  page : ℕ → Str

/-- The vector of the kernel, the pages, and the calls of `kalloc` that gave a page, of `kfree` and
of `kexec`. -/
structure State where
  argv : ℕ → ℕ
  page : ℕ → Str
  obtained : List ℕ
  freed : List ℕ
  calls : List Call

variable (MAXARG : ℕ) (env : Env)

/-- The address of entry `i` of the user's vector. -/
def entry (uargv i : ℕ) : ℕ := (uargv + 8 * i) % 2 ^ 64

/-- The loop over the user's vector from entry `i` on, with `n` entries of `argv` left. It answers
whether it came to a null pointer. -/
def fetchArgs (uargv : ℕ) : ℕ → ℕ → State → Bool × State
  | 0, _, s => (false, s)
  | n + 1, i, s =>
    match env.fetchaddr i (entry uargv i) with
    | none => (false, s)
    | some uarg =>
      if uarg = 0 then (true, { s with argv := Function.update s.argv i 0 })
      else
        let p := env.kalloc i
        let s := { s with argv := Function.update s.argv i p }
        if p = 0 then (false, s)
        else
          let (ok, str) := env.fetchstr i uarg
          let s := { s with
            page := Function.update s.page p str
            obtained := s.obtained ++ [p] }
          if ok then fetchArgs uargv n (i + 1) s else (false, s)

/-- The loop that frees the pages from entry `i` on, up to the first null pointer. -/
def freeArgs : ℕ → ℕ → State → State
  | 0, _, s => s
  | n + 1, i, s =>
    if s.argv i ≠ 0 then freeArgs n (i + 1) { s with freed := s.freed ++ [s.argv i] } else s

/-- `sys_exec` with a path and a vector of the user. -/
def sysExec [Param] (path : StrArg) (uargv : ℕ) (s : State) : ℤ × State :=
  match argstr path Param.MAXPATH with
  | none => (-1, s)
  | some path =>
    let s := { s with argv := fun i => if i < MAXARG then 0 else s.argv i }
    match fetchArgs env uargv MAXARG 0 s with
    | (true, s) =>
      let ret := env.kexec path s.argv s.page
      (ret, freeArgs MAXARG 0 { s with calls := s.calls ++ [⟨path, s.argv, s.page⟩] })
    | (false, s) => (-1, freeArgs MAXARG 0 s)

/-- `kalloc` gives no page twice before it was freed. -/
def Fresh : Prop := ∀ i j, i < j → env.kalloc i ≠ 0 → env.kalloc j ≠ env.kalloc i

/-- The user's vector from entry `i` on, up to a null pointer: all of it can be fetched, and there
are pages for the strings. -/
inductive Vector (uargv : ℕ) : ℕ → List Str → Prop
  | null {i : ℕ} : env.fetchaddr i (entry uargv i) = some 0 → Vector uargv i []
  | string {i uarg : ℕ} {str : Str} {strs : List Str} :
      env.fetchaddr i (entry uargv i) = some uarg → uarg ≠ 0 → env.kalloc i ≠ 0 →
      env.fetchstr i uarg = (true, str) → Vector uargv (i + 1) strs → Vector uargv i (str :: strs)

/-- A vector of the kernel has these strings and a null pointer after them. -/
structure Passes (argv : ℕ → ℕ) (page : ℕ → Str) (strs : List Str) : Prop where
  string : ∀ i (h : i < strs.length), argv i ≠ 0 ∧ page (argv i) = strs[i]
  null : argv strs.length = 0

def held (argv : ℕ → ℕ) : List ℕ := ((List.range MAXARG).map argv).takeWhile fun p => p ≠ 0

variable {MAXARG env} {uargv uarg i n : ℕ} {strs more : List Str} {str : Str} {s : State}
  {argv : ℕ → ℕ}

namespace Vector

theorem ne_none (h : Vector env uargv i strs) : env.fetchaddr i (entry uargv i) ≠ none := by
  cases h with
  | null h => rw [h]; exact Option.some_ne_none 0
  | string h => rw [h]; exact Option.some_ne_none _

theorem eq_nil (h : Vector env uargv i strs) (h0 : env.fetchaddr i (entry uargv i) = some 0) :
    strs = [] := by
  cases h with
  | null => rfl
  | string h hne =>
    rw [h0] at h
    exact absurd (Option.some.inj h).symm hne

theorem eq_cons (h : Vector env uargv i strs) (hfetch : env.fetchaddr i (entry uargv i) = some uarg)
    (hne : uarg ≠ 0) : ∃ str more, strs = str :: more ∧ env.kalloc i ≠ 0 ∧
      env.fetchstr i uarg = (true, str) ∧ Vector env uargv (i + 1) more := by
  cases h with
  | null h =>
    rw [hfetch] at h
    exact absurd (Option.some.inj h) hne
  | string h _ hp hstr hrest =>
    obtain rfl := Option.some.inj (hfetch.symm.trans h)
    exact ⟨_, _, rfl, hp, hstr, hrest⟩

end Vector

theorem freeArgs_eq (n i : ℕ) (s : State) : freeArgs n i s =
    { s with freed := s.freed ++ ((List.range' i n).map s.argv).takeWhile fun p => p ≠ 0 } := by
  induction n generalizing i s with
  | zero => simp [freeArgs]
  | succ n ih =>
    unfold freeArgs
    rw [List.range'_succ, List.map_cons, List.takeWhile_cons]
    split_ifs with hp hq hq
    · rw [ih]
      simp
    · exact absurd (decide_eq_true hp) hq
    · exact absurd (of_decide_eq_true hq) hp
    · simp

theorem held_eq (hn : n ≤ MAXARG) (hargs : ∀ k < n, argv k ≠ 0) (hnull : n < MAXARG → argv n = 0) :
    held MAXARG argv = (List.range n).map argv := by
  have hsplit : List.range MAXARG = List.range n ++ List.range' n (MAXARG - n) := by
    have happ := List.range'_append_1 (s := 0) (m := n) (n := MAXARG - n)
    rw [Nat.zero_add, Nat.add_sub_cancel' hn] at happ
    rw [List.range_eq_range', List.range_eq_range', happ]
  have hall : ∀ p ∈ (List.range n).map argv, decide (p ≠ 0) = true := by
    intro p hp
    obtain ⟨k, hk, rfl⟩ := List.mem_map.mp hp
    exact decide_eq_true (hargs k (List.mem_range.mp hk))
  unfold held
  rw [hsplit, List.map_append, List.takeWhile_append_of_pos hall]
  cases hrest : MAXARG - n with
  | zero => simp
  | succ m =>
    rw [List.range'_succ, List.map_cons, List.takeWhile_cons, if_neg, List.append_nil]
    simpa using hnull (by omega)

/-- The pages that were obtained are those of the first turns, and the loops for freeing find
them. -/
structure Owned (MAXARG : ℕ) (env : Env) (s : State) : Prop where
  held : held MAXARG s.argv = s.obtained
  turns : ∃ n, s.obtained = (List.range n).map env.kalloc ∧ ∀ k < n, env.kalloc k ≠ 0

theorem Owned.nodup (h : Owned MAXARG env s) (hfresh : Fresh env) : s.obtained.Nodup := by
  obtain ⟨n, hobt, hne⟩ := h.turns
  rw [hobt]
  refine List.Nodup.map_on (fun i hi j hj heq => ?_) List.nodup_range
  rw [List.mem_range] at hi hj
  rcases Nat.lt_trichotomy i j with hij | hij | hij
  · exact absurd heq.symm (hfresh i j hij (hne i hi))
  · exact hij
  · exact absurd heq (hfresh j i hij (hne j hj))

/-- After some turns of the loop: the strings so far are in their pages, and the rest of the vector
is empty. -/
structure Filled (MAXARG : ℕ) (env : Env) (strs : List Str) (s : State) : Prop where
  slot : ∀ k < strs.length, s.argv k = env.kalloc k ∧ env.kalloc k ≠ 0
  page : ∀ k (h : k < strs.length), s.page (env.kalloc k) = strs[k]
  rest : ∀ k, strs.length ≤ k → k < MAXARG → s.argv k = 0
  obtained : s.obtained = (List.range strs.length).map env.kalloc

namespace Filled

theorem start (page : ℕ → Str) (argv : ℕ → ℕ) (calls : List Call) :
    Filled MAXARG env [] ⟨fun i => if i < MAXARG then 0 else argv i, page, [], [], calls⟩ where
  slot k hk := by cases hk
  page k hk := by cases hk
  rest k _ hk := if_pos hk
  obtained := rfl

theorem owned (h : Filled MAXARG env strs s) (hle : strs.length ≤ MAXARG) : Owned MAXARG env s := by
  constructor
  · rw [held_eq hle (fun k hk => (h.slot k hk).1 ▸ (h.slot k hk).2) fun hlt => h.rest _ le_rfl hlt,
      h.obtained]
    exact List.map_congr_left fun k hk => (h.slot k (List.mem_range.mp hk)).1
  · exact ⟨strs.length, h.obtained, fun k hk => (h.slot k hk).2⟩

theorem setNull (h : Filled MAXARG env strs s) (hlt : strs.length < MAXARG) :
    { s with argv := Function.update s.argv strs.length 0 } = s := by
  rw [← h.rest _ le_rfl hlt, Function.update_eq_self]

theorem string (h : Filled MAXARG env strs s) (hfresh : Fresh env)
    (hp : env.kalloc strs.length ≠ 0) (str : Str) :
    Filled MAXARG env (strs ++ [str])
      ⟨Function.update s.argv strs.length (env.kalloc strs.length),
        Function.update s.page (env.kalloc strs.length) str,
        s.obtained ++ [env.kalloc strs.length], s.freed, s.calls⟩ := by
  constructor
  · intro k hk
    rw [List.length_append, List.length_singleton] at hk
    rcases Nat.eq_or_lt_of_le (Nat.le_of_lt_succ hk) with rfl | hlt
    · exact ⟨Function.update_self .., hp⟩
    · exact ⟨(Function.update_of_ne hlt.ne ..).trans (h.slot k hlt).1, (h.slot k hlt).2⟩
  · intro k hk
    rw [List.length_append, List.length_singleton] at hk
    rcases Nat.eq_or_lt_of_le (Nat.le_of_lt_succ hk) with rfl | hlt
    · simp
    · have hne : env.kalloc k ≠ env.kalloc strs.length :=
        (hfresh k strs.length hlt (h.slot k hlt).2).symm
      rw [List.getElem_append_left hlt, ← h.page k hlt]
      exact Function.update_of_ne hne ..
  · intro k hle hk
    rw [List.length_append, List.length_singleton] at hle
    exact (Function.update_of_ne (by omega) ..).trans (h.rest k (by omega) hk)
  · simp [h.obtained, List.range_succ]

theorem owned_string (h : Filled MAXARG env strs s) (hfresh : Fresh env)
    (hlt : strs.length < MAXARG) (hp : env.kalloc strs.length ≠ 0) (str : Str) :
    Owned MAXARG env
      ⟨Function.update s.argv strs.length (env.kalloc strs.length),
        Function.update s.page (env.kalloc strs.length) str,
        s.obtained ++ [env.kalloc strs.length], s.freed, s.calls⟩ :=
  (h.string hfresh hp str).owned (by
    rw [List.length_append, List.length_singleton]
    omega)

theorem passes (h : Filled MAXARG env strs s) (hlt : strs.length < MAXARG) :
    Passes s.argv s.page strs where
  string k hk := by
    obtain ⟨hslot, hne⟩ := h.slot k hk
    rw [hslot]
    exact ⟨hne, h.page k hk⟩
  null := h.rest _ le_rfl hlt

end Filled

/-- What the loop over the user's vector does after some strings. -/
structure Fetched (MAXARG : ℕ) (env : Env) (uargv : ℕ) (strs : List Str) (s : State)
    (r : Bool × State) : Prop where
  freed : r.2.freed = s.freed
  calls : r.2.calls = s.calls
  owned : Owned MAXARG env r.2
  found : r.1 = true ↔ ∃ more, Vector env uargv strs.length more ∧
    strs.length + more.length < MAXARG
  passes : ∀ more, Vector env uargv strs.length more → strs.length + more.length < MAXARG →
    Passes r.2.argv r.2.page (strs ++ more)

theorem fetched_of_none {r : State} (hfreed : r.freed = s.freed) (hcalls : r.calls = s.calls)
    (howned : Owned MAXARG env r)
    (h : ∀ more, Vector env uargv strs.length more → ¬ strs.length + more.length < MAXARG) :
    Fetched MAXARG env uargv strs s (false, r) where
  freed := hfreed
  calls := hcalls
  owned := howned
  found := iff_of_false Bool.false_ne_true fun ⟨more, hv, hlt⟩ => h more hv hlt
  passes more hv hlt := absurd hlt (h more hv)

theorem Fetched.string {t : State} {r : Bool × State}
    (h : Fetched MAXARG env uargv (strs ++ [str]) t r) (hfreed : t.freed = s.freed)
    (hcalls : t.calls = s.calls)
    (hfetch : env.fetchaddr strs.length (entry uargv strs.length) = some uarg) (hne : uarg ≠ 0)
    (hp : env.kalloc strs.length ≠ 0) (hstr : env.fetchstr strs.length uarg = (true, str)) :
    Fetched MAXARG env uargv strs s r := by
  have hlen : (strs ++ [str]).length = strs.length + 1 := by simp
  have hfound := h.found
  have hpasses := h.passes
  rw [hlen] at hfound hpasses
  constructor
  · exact h.freed.trans hfreed
  · exact h.calls.trans hcalls
  · exact h.owned
  · rw [hfound]
    constructor
    · rintro ⟨more, hv, hlt⟩
      exact ⟨str :: more, .string hfetch hne hp hstr hv, by rw [List.length_cons]; omega⟩
    · rintro ⟨more, hv, hlt⟩
      obtain ⟨str', more, rfl, -, -, hv⟩ := hv.eq_cons hfetch hne
      rw [List.length_cons] at hlt
      exact ⟨more, hv, by omega⟩
  · intro more hv hlt
    obtain ⟨str', rest, rfl, -, hstr', hrest⟩ := hv.eq_cons hfetch hne
    obtain rfl : str = str' := (Prod.mk.inj (hstr.symm.trans hstr')).2
    rw [List.length_cons] at hlt
    have hmore := hpasses rest hrest (by omega)
    rwa [List.append_assoc] at hmore

/-- The loop stops at the first null pointer, at the first failure or at the end of `argv`. -/
theorem fetchArgs_spec (hfresh : Fresh env) (uargv : ℕ) (h : Filled MAXARG env strs s)
    (hn : strs.length + n = MAXARG) :
    Fetched MAXARG env uargv strs s (fetchArgs env uargv n strs.length s) := by
  induction n generalizing strs s with
  | zero => exact fetched_of_none rfl rfl (h.owned (by omega)) fun more _ => by omega
  | succ n ih =>
    unfold fetchArgs
    cases hfetch : env.fetchaddr strs.length (entry uargv strs.length) with
    | none =>
      exact fetched_of_none rfl rfl (h.owned (by omega)) fun more hv => absurd hfetch hv.ne_none
    | some uarg =>
      dsimp only
      split_ifs with huarg hp hok
      · subst huarg
        rw [h.setNull (by omega)]
        constructor
        · rfl
        · rfl
        · exact h.owned (by omega)
        · exact iff_of_true rfl ⟨[], .null hfetch, by rw [List.length_nil]; omega⟩
        · intro more hv hlt
          rw [hv.eq_nil hfetch, List.append_nil]
          exact h.passes (by omega)
      · -- there is no page, and the entry is null as before
        rw [hp, h.setNull (by omega)]
        refine fetched_of_none rfl rfl (h.owned (by omega)) fun more hv => ?_
        obtain ⟨_, _, -, hne, -⟩ := hv.eq_cons hfetch huarg
        exact absurd hp hne
      · have hrest := ih (h.string hfresh hp (env.fetchstr strs.length uarg).2) (by
          rw [List.length_append, List.length_singleton]
          omega)
        rw [List.length_append, List.length_singleton] at hrest
        exact hrest.string rfl rfl hfetch huarg hp (Prod.ext hok rfl)
      · -- the page is not initialised, but it is in the vector
        refine fetched_of_none rfl rfl (h.owned_string hfresh (by omega) hp _) fun more hv => ?_
        obtain ⟨_, _, -, -, hstr, -⟩ := hv.eq_cons hfetch huarg
        exact absurd (congrArg Prod.fst hstr) hok

/-- What a call of `sys_exec` is to do: each page is freed once, and `kexec` is called with the
strings of the user's vector when there are some, and else the answer is -1. -/
structure Exact [Param] (MAXARG : ℕ) (env : Env) (path : StrArg) (uargv : ℕ) (r : ℤ × State) :
    Prop where
  freed : r.2.freed = r.2.obtained
  once : r.2.obtained.Nodup
  called : ∀ p strs, argstr path Param.MAXPATH = some p → Vector env uargv 0 strs →
    strs.length < MAXARG → ∃ argv page, r.2.calls = [⟨p, argv, page⟩] ∧ Passes argv page strs ∧
      r.1 = env.kexec p argv page
  failed : (¬ ∃ p strs, argstr path Param.MAXPATH = some p ∧ Vector env uargv 0 strs ∧
    strs.length < MAXARG) → r.2.calls = [] ∧ r.1 = -1

theorem freed_freeArgs (h : Owned MAXARG env s) (hfreed : s.freed = []) :
    (freeArgs MAXARG 0 s).freed = (freeArgs MAXARG 0 s).obtained := by
  have hheld := h.held
  unfold held at hheld
  rw [freeArgs_eq, ← List.range_eq_range', hfreed, List.nil_append]
  exact hheld

/-- `sys_exec` frees each page once and passes on the vector, whatever fails. -/
theorem sys_exec_exact [Param] (MAXARG : ℕ) {env : Env} (hfresh : Fresh env) (path : StrArg)
    (uargv : ℕ) (argv : ℕ → ℕ) (page : ℕ → Str) :
    Exact MAXARG env path uargv (sysExec MAXARG env path uargv ⟨argv, page, [], [], []⟩) := by
  unfold sysExec
  cases hpath : argstr path Param.MAXPATH with
  | none =>
    constructor
    · rfl
    · exact List.nodup_nil
    · intro p strs hp
      rw [hpath] at hp
      cases hp
    · exact fun _ => ⟨rfl, rfl⟩
  | some p =>
    have hspec := fetchArgs_spec hfresh uargv (n := MAXARG)
      (Filled.start page argv []) (Nat.zero_add MAXARG)
    rw [List.length_nil] at hspec
    dsimp only
    generalize fetchArgs env uargv MAXARG 0 _ = r at hspec ⊢
    obtain ⟨found, t⟩ := r
    have hfreed : t.freed = [] := hspec.freed
    have hcalls : t.calls = [] := hspec.calls
    have hvec : found = true ↔ ∃ strs, Vector env uargv 0 strs ∧ strs.length < MAXARG := by
      simpa using hspec.found
    cases found with
    | true =>
      dsimp only
      constructor
      · exact freed_freeArgs ⟨hspec.owned.held, hspec.owned.turns⟩ hfreed
      · rw [freeArgs_eq]
        exact hspec.owned.nodup hfresh
      · intro p' strs hp' hv hlt
        obtain rfl := Option.some.inj (hpath.symm.trans hp')
        refine ⟨t.argv, t.page, ?_, hspec.passes strs hv (by simpa using hlt), rfl⟩
        rw [freeArgs_eq]
        exact congrArg (· ++ [(⟨p, t.argv, t.page⟩ : Call)]) hcalls
      · intro hnone
        obtain ⟨strs, hv, hlt⟩ := hvec.mp rfl
        exact absurd ⟨p, strs, hpath, hv, hlt⟩ hnone
    | false =>
      dsimp only
      constructor
      · exact freed_freeArgs hspec.owned hfreed
      · rw [freeArgs_eq]
        exact hspec.owned.nodup hfresh
      · intro _ strs _ hv hlt
        exact absurd (hvec.mpr ⟨strs, hv, hlt⟩) Bool.false_ne_true
      · intro _
        rw [freeArgs_eq]
        exact ⟨hcalls, rfl⟩

def twoPages : Env where
  fetchaddr i _ := some (if i < 2 then 4096 else 0)
  kalloc i := if i < 2 then i + 1 else 0
  fetchstr i _ := (true, [UInt8.ofNat (97 + i)])
  kexec _ _ _ := 2

/-- The path `a` and the strings `a` and `b`, with room for 32 arguments. -/
theorem sys_exec_exact_small :
    letI := smallParam
    Exact 32 twoPages ⟨fun i => some (if i = 0 then 97 else 0), fun _ => 0⟩ 8192
      (sysExec 32 twoPages ⟨fun i => some (if i = 0 then 97 else 0), fun _ => 0⟩ 8192
        ⟨fun _ => 7, fun _ => [], [], [], []⟩) :=
  let _ := smallParam
  sys_exec_exact 32 (fun i j hij hi => by
    simp only [twoPages] at hi ⊢
    split_ifs at hi ⊢ <;> omega) _ _ _ _

end Xv6Sheet.Kernel.ExecArgs
