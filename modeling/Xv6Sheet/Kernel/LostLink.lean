import Xv6Sheet.Kernel.DanglingOpen
import Xv6Sheet.Kernel.ReadLink

/-! # The link that is freed

The path that is looked up at a link is its target over what the buffer held before, and not always
the target. A link that is freed leaves the entry that names it.
-/

namespace Xv6Sheet.Kernel

open Exec

section Text

variable [pm : Param] {T : Tree} {c m i j : ℕ} {omode : ℤ} {n : Node} {path buf : Bytes}
  {data : List UInt8}

theorem readOver_of_lt (h : m < min Param.MAXPATH data.length) :
    readOver data path m = Bytes.ofList data m := by
  unfold readOver
  rw [Bytes.copy_of_mem (by omega), Nat.zero_add, Nat.sub_zero]

/-- The buffer holds the target when it has a NUL where the target ends, or no place for it. -/
theorem sameText_readOver
    (h : Param.MAXPATH ≤ data.length ∨ readOver data path data.length = 0) :
    SameText (readOver data path) (Bytes.ofList data) := by
  intro k hk hin
  rcases Nat.lt_trichotomy k data.length with hlt | rfl | hgt
  · exact readOver_of_lt (by omega)
  · rw [h.resolve_left (by omega)]
    simp [Bytes.ofList]
  · exact absurd (h.resolve_left (by omega)) (hin _ hgt)

theorem Tree.target_eq_some (h : T.target omode i path = some buf) : ∃ n, T i = some n ∧
    n.type = T_SYMLINK ∧ buf = readOver n.data path := by
  unfold Tree.target at h
  cases hn : T i with
  | none =>
    rw [hn] at h
    cases h
  | some n =>
    rw [hn] at h
    dsimp only at h
    split at h
    · rename_i hlink
      exact ⟨n, rfl, hlink.1, (Option.some.inj h).symm⟩
    · cases h

/-- The lost link is a link, read over some path, and what was read leads nowhere. -/
theorem Tree.lost_eq_some (h : T.lost c omode m i path = some (j, buf)) : ∃ n path', T j = some n ∧
    n.type = T_SYMLINK ∧ buf = readOver n.data path' ∧ T.namex c buf false = none := by
  induction m generalizing i path with
  | zero => simp [Tree.lost] at h
  | succ m ih =>
    unfold Tree.lost at h
    split at h
    · cases h
    rename_i buf' htarget
    split at h
    · rename_i hnone
      obtain ⟨rfl, rfl⟩ := Prod.mk.inj (Option.some.inj h)
      obtain ⟨n, hn, htype, hbuf⟩ := Tree.target_eq_some htarget
      exact ⟨n, path, hn, htype, hbuf, hnone⟩
    · exact ih h

theorem Tree.lostOn_eq_some {path : StrArg} (h : T.lostOn c omode path = some (j, buf)) :
    ∃ n path', T j = some n ∧ n.type = T_SYMLINK ∧ buf = readOver n.data path' ∧
      T.namex c buf false = none := by
  unfold Tree.lostOn at h
  split at h
  · cases h
  split at h
  · cases h
  split at h
  · cases h
  · exact Tree.lost_eq_some h

end Text

section After

variable [sb : Superblock] {T T' : Tree} {i j : ℕ} {n : Node} {buf : Bytes}

theorem Tree.Grown.ne_none (h : T.Grown T') (hn : T i ≠ none) : T' i ≠ none := by
  rcases h with rfl | ⟨d, k, name, nd, nd', n, hmade, -⟩
  · exact hn
  · rw [hmade.tree]
    by_cases hid : i = d
    · simp [hid]
    rw [Function.update_of_ne hid]
    by_cases hik : i = k
    · simp [hik]
    · simpa [hik] using hn

theorem Tree.After.ne_none (h : T.After none T') (hn : T i ≠ none) : T' i ≠ none := by
  obtain ⟨T₁, hgrown, rfl | ⟨k, m, hm, -, rfl⟩⟩ := h
  · exact hgrown.ne_none hn
  · by_cases hik : i = k
    · simp [hik]
    · simpa [hik] using hgrown.ne_none hn

theorem Tree.Grown.closed (h : T.Grown T') (hT : T.Closed) (hmax : sb.ninodes ≤ 2 ^ 16) :
    T'.Closed := by
  rcases h with rfl | hgrown
  · exact hT
  have hne : ∀ {i : ℕ}, T i ≠ none → T' i ≠ none := fun hn => Tree.Grown.ne_none (.inr hgrown) hn
  obtain ⟨d, k, name, nd, nd', n, hmade, htype⟩ := hgrown
  have hk : k % 2 ^ 16 = k := Nat.mod_eq_of_lt (lt_of_lt_of_le hmade.lt hmax)
  intro i m hm hdir e he h0
  rw [hmade.tree] at hm
  by_cases hid : i = d
  · subst hid
    rw [Function.update_self] at hm
    obtain rfl := Option.some.inj hm
    rcases hmade.adds.mem_entries he with rfl | hold
    · dsimp only
      rw [hk, hmade.self]
      simp
    · exact hne (hT i nd hmade.parent hmade.dir e hold h0)
  · rw [Function.update_of_ne hid] at hm
    by_cases hik : i = k
    · subst hik
      rw [Function.update_self] at hm
      obtain rfl := Option.some.inj hm
      rw [htype] at hdir
      exact absurd hdir (by decide)
    · rw [Function.update_of_ne hik] at hm
      exact hne (hT i m hm hdir e he h0)

theorem Tree.After.closed (h : T.After none T') (hT : T.Closed) (hmax : sb.ninodes ≤ 2 ^ 16) :
    T'.Closed := by
  obtain ⟨T₁, hgrown, rfl | ⟨k, m, hm, hfile, rfl⟩⟩ := h
  · exact hgrown.closed hT hmax
  have hT₁ := hgrown.closed hT hmax
  intro i n hn hdir e he h0
  have hik : i ≠ k := by
    rintro rfl
    rw [Function.update_self] at hn
    obtain rfl := Option.some.inj hn
    rw [show m.type = T_DIR from hdir] at hfile
    exact absurd hfile (by decide)
  rw [Function.update_of_ne hik] at hn
  have hne := hT₁ i n hn hdir e he h0
  by_cases hek : e.inum = k
  · simp [hek]
  · simpa [hek] using hne

omit sb in
theorem Tree.Closed.erase_iff (hT : T.Closed) (hn : T i = some n) (htype : n.type ≠ T_DIR) :
    Tree.Closed (Function.update T i none) ↔ i = 0 ∨ ¬ T.Named i := by
  constructor
  · intro h
    refine or_iff_not_imp_left.mpr fun h0 hnamed => ?_
    obtain ⟨d, nd, hnd, hdir, e, he, rfl⟩ := hnamed
    have hdi : d ≠ e.inum := by
      rintro rfl
      obtain rfl := Option.some.inj (hn.symm.trans hnd)
      exact htype hdir
    refine h d nd ?_ hdir e he h0 (Function.update_self ..)
    rw [Function.update_of_ne hdi, hnd]
  · intro h d nd hnd hdir e he he0
    have hdi : d ≠ i := by
      rintro rfl
      rw [Function.update_self] at hnd
      cases hnd
    rw [Function.update_of_ne hdi] at hnd
    have hei : e.inum ≠ i := by
      rintro rfl
      exact h.elim he0 fun hno => hno ⟨d, nd, hnd, hdir, e, he, rfl⟩
    rw [Function.update_of_ne hei]
    exact hT d nd hnd hdir e he he0

end After

variable {χ : Type} [sb : Superblock] [pm : Param] {base : Set ℕ} {T : Tree} {R : ℕ → ℤ}
  {L : FileLayer χ} {a b : Task FilePtr (Sys χ)} {omode r : ℤ}

instance {P : Prop} : Permits (fun e => e = .deadlock → P) := ⟨fun _ _ h he => absurd he h⟩

theorem Settled.danglingOpen (h : Settled base T R a.proc.cwd a.sys.fs) (hL : TableLaws L)
    (hclosed : FilesClosed a.sys)
    (hmax : Param.MAXPATH ≤ BSIZE)
    (path : StrArg) (omode : ℤ) :
    Wp (fun e => e = .deadlock → T.snaredOn (home a) omode path = true)
      (danglingOpen L path omode) (fun _ b => T.snaredOn (home a) omode path = false ∧
        T.After (T.lostOn (home a) omode path) (tree b.sys.fs.disk)) a :=
  wp_danglingOpen hL h.view h.cwd_pos rfl h.used hclosed h.anchored hmax
    (fun hn => by cases hn) path
    fun hs _ => hs

def Tree.LosesDangling (T T' : Tree) (c : ℕ) : Prop :=
  ∀ i n, T i = some n → n.type = T_SYMLINK → T' i = none →
    T.namex c (Bytes.ofList n.data) false = none

/-- What is looked up at the link where the loop loses the way is the text that the link holds. -/
def Tree.LostAsStored (T : Tree) (c : ℕ) (omode : ℤ) (path : StrArg) : Prop :=
  ∀ i buf n, T.lostOn c omode path = some (i, buf) → T i = some n →
    SameText buf (Bytes.ofList n.data)

theorem Tree.After.loses_iff {T' : Tree} {c i : ℕ} {buf : Bytes} {n : Node}
    (h : T.After (some (i, buf)) T') (hn : T i = some n) (htype : n.type = T_SYMLINK) :
    T.LosesDangling T' c ↔ T.namex c (Bytes.ofList n.data) false = none := by
  obtain rfl : T' = Function.update T i none := h
  constructor
  · exact fun hall => hall i n hn htype (Function.update_self ..)
  · intro hnone k m hm _ hgone
    obtain rfl : k = i := by
      by_contra hki
      rw [Function.update_of_ne hki, hm] at hgone
      cases hgone
    obtain rfl := Option.some.inj (hm.symm.trans hn)
    exact hnone

/-- Where what is looked up is the text of the lost link, only a dangling link is freed. Elsewhere a
link is freed after the lookup of another text, and what it holds leads nowhere only by chance. -/
theorem danglingOpen_destroys (h : Settled base T R a.proc.cwd a.sys.fs)
    (hL : TableLaws L) (hclosed : FilesClosed a.sys) (hmax : Param.MAXPATH ≤ BSIZE)
    {path : StrArg} (hrun : Ends (danglingOpen L path omode) a r b) :
    (T.LostAsStored (home a) omode path → T.LosesDangling (tree b.sys.fs.disk) (home a)) ∧
      (¬ T.LostAsStored (home a) omode path → ∃ i buf n,
        T.lostOn (home a) omode path = some (i, buf) ∧ T i = some n ∧ n.type = T_SYMLINK ∧
        ¬ SameText buf (Bytes.ofList n.data) ∧ tree b.sys.fs.disk i = none ∧
        (T.LosesDangling (tree b.sys.fs.disk) (home a) ↔
          T.namex (home a) (Bytes.ofList n.data) false = none)) := by
  have hafter := ((h.danglingOpen hL hclosed hmax path omode).1 _ _ hrun).2
  constructor
  · intro hstored
    cases hlost : T.lostOn (home a) omode path with
    | none =>
      rw [hlost] at hafter
      exact fun i n hn _ hgone => absurd hgone (hafter.ne_none (by simp [hn]))
    | some found =>
      obtain ⟨i, buf⟩ := found
      rw [hlost] at hafter
      obtain ⟨n, path', hn, htype, -, hnone⟩ := Tree.lostOn_eq_some hlost
      rw [hafter.loses_iff hn htype, ← (hstored i buf n hlost hn).namex T (home a) false]
      exact hnone
  · intro hstale
    unfold Tree.LostAsStored at hstale
    push Not at hstale
    obtain ⟨i, buf, n, hlost, hn, hdiffer⟩ := hstale
    obtain ⟨m, path', hm, htype, -, -⟩ := Tree.lostOn_eq_some hlost
    obtain rfl := Option.some.inj (hm.symm.trans hn)
    rw [hlost] at hafter
    refine ⟨i, buf, m, hlost, hm, htype, hdiffer, ?_, hafter.loses_iff hm htype⟩
    rw [show tree b.sys.fs.disk = _ from hafter, Function.update_self]

/-- A call waits for a lock of its own only where some link of the chain lies on the way to its own
target, and there it never comes back. -/
theorem danglingOpen_deadlocks (h : Settled base T R a.proc.cwd a.sys.fs)
    (hL : TableLaws L) (hclosed : FilesClosed a.sys) (hmax : Param.MAXPATH ≤ BSIZE) (path : StrArg)
    (omode : ℤ) :
    (T.snaredOn (home a) omode path = false →
      ¬ Faults (danglingOpen L path omode) a .deadlock) ∧
    (T.snaredOn (home a) omode path = true →
      ∀ r b, ¬ Ends (danglingOpen L path omode) a r b) ∧
    ((∀ e, Faults (danglingOpen L path omode) a e → e = .deadlock) →
      (¬ Faults (danglingOpen L path omode) a .deadlock ↔
        T.snaredOn (home a) omode path = false)) := by
  have hwp := h.danglingOpen hL hclosed hmax path omode
  have hfree : T.snaredOn (home a) omode path = false →
      ¬ Faults (danglingOpen L path omode) a .deadlock := fun hno hdead => by
    rw [hwp.2 _ hdead rfl] at hno
    cases hno
  have hstuck : T.snaredOn (home a) omode path = true →
      ∀ r b, ¬ Ends (danglingOpen L path omode) a r b := fun hyes r b hrun => by
    rw [(hwp.1 r b hrun).1] at hyes
    cases hyes
  refine ⟨hfree, hstuck, fun honly => ⟨fun hno => ?_, hfree⟩⟩
  rcases ends_or_faults (danglingOpen L path omode) a with ⟨r, b, hrun⟩ | ⟨e, he⟩
  · exact (hwp.1 r b hrun).1
  · rw [honly e he] at he
    exact absurd he hno

/-- Every entry still names a node exactly when the loop loses the way at no link with an entry. -/
theorem danglingOpen_closed (h : Settled base T R a.proc.cwd a.sys.fs)
    (hL : TableLaws L) (hclosed : FilesClosed a.sys) (hmax : Param.MAXPATH ≤ BSIZE)
    (hinodes : sb.ninodes ≤ 2 ^ 16)
    (hT : T.Closed) {path : StrArg}
    (hrun : Ends (danglingOpen L path omode) a r b) :
    (tree b.sys.fs.disk).Closed ↔
      ∀ i buf, T.lostOn (home a) omode path = some (i, buf) → i = 0 ∨ ¬ T.Named i := by
  have hafter := ((h.danglingOpen hL hclosed hmax path omode).1 _ _ hrun).2
  cases hlost : T.lostOn (home a) omode path with
  | none =>
    rw [hlost] at hafter
    refine ⟨fun _ i buf hno => ?_, fun _ => hafter.closed hT hinodes⟩
    cases hno
  | some found =>
    obtain ⟨j, buf⟩ := found
    rw [hlost] at hafter
    obtain ⟨n, path', hn, htype, -, -⟩ := Tree.lostOn_eq_some hlost
    rw [show tree b.sys.fs.disk = _ from hafter,
      hT.erase_iff hn (by rw [htype]; decide)]
    constructor
    · rintro hj i buf' hij
      obtain ⟨rfl, -⟩ := Prod.mk.inj (Option.some.inj hij)
      exact hj
    · exact fun hall => hall j buf rfl

section Small

omit pm sb

/-- A root directory that names the empty file 2 `x` and a link 3. -/
def linkDisk (name target : List UInt8) : Disk where
  block b :=
    if b = 3 then Bytes.ofList [0x3f]
    else if b = 4 then Bytes.ofList ([2, 0, 120] ++ List.replicate 13 0 ++ [3, 0] ++ name)
    else if b = 5 then Bytes.ofList target
    else Bytes.ofList []
  dinodes b k :=
    if b ≠ 2 then .zero
    else if k = 1 then
      { Dinode.zero with
        type := 1, nlink := 1, size := 32, addrs := fun j => if j = 0 then 4 else 0 }
    else if k = 2 then { Dinode.zero with type := 2, nlink := 1 }
    else if k = 3 then
      { Dinode.zero with
        type := 4, nlink := 1, size := target.length, addrs := fun j => if j = 0 then 5 else 0 }
    else .zero

def linkTask (name target : List UInt8) :
    @Task (@FilePtr smallParam) (@Sys Unit smallParam) smallParam :=
  let _ := smallParam
  { smallTask with sys.fs.disk := linkDisk name target }

/-- The link `/l`, whose target passes through it. -/
def throughLink : LinkMade [47, 108, 47, 120] [47, 108] := .make (by decide +kernel)

/-- The link to `/x` is freed, the one to the root directory is followed, and the one that passes
through itself snares the call. -/
theorem runs_links :
    letI := smallDisk
    letI := smallParam
    let T := tree evenLink.task.sys.fs.disk
    let b := after (danglingOpen fileTable (pathArg [47, 108]) 0) evenLink.task
    let T' := tree rootLink.task.sys.fs.disk
    answer (danglingOpen fileTable (pathArg [47, 108]) 0) evenLink.task = some (-1) ∧
      (T.lostOn (home evenLink.task) 0 (pathArg [47, 108])).map (fun l => (l.1, l.2 2)) =
        some (2, 0) ∧
      (T 2).map (fun n => (n.type, n.data)) = some (T_SYMLINK, [47, 120]) ∧
      (tree b.sys.fs.disk 2).isNone = true ∧
      T.snaredOn (home evenLink.task) 0 (pathArg [47, 108]) = false ∧
      (tree throughLink.task.sys.fs.disk).snaredOn (home throughLink.task) 0 (pathArg [47, 108]) =
        true ∧
      answer (danglingOpen fileTable (pathArg [47, 108]) 0) rootLink.task = some 0 ∧
      (T'.lostOn (home rootLink.task) 0 (pathArg [47, 108])).isNone = true ∧
      (T' 2).map (fun n => (n.type, n.data)) = some (T_SYMLINK, [47, 47]) ∧
      ∀ i < 8, (T' i).elim true (fun n =>
        n.type ≠ T_DIR || n.entries.all fun e => e.inum == 0 || (T' e.inum).isSome) = true := by
  decide +kernel

/-- The link `/l` to `/x` is freed, and `/x` is not there. -/
theorem danglingOpen_destroys_small :
    letI := smallDisk
    letI := smallParam
    let T := tree evenLink.task.sys.fs.disk
    ∃ b n, Ends (danglingOpen fileTable (pathArg [47, 108]) 0) evenLink.task (-1) b ∧
      T 2 = some n ∧ n.type = T_SYMLINK ∧ n.data = [47, 120] ∧ tree b.sys.fs.disk 2 = none ∧
      T.namex (home evenLink.task) (Bytes.ofList n.data) false = none := by
  let _ := smallDisk
  let _ := smallParam
  obtain ⟨hanswer, hlost, hlink, hgone, -⟩ := runs_links
  obtain ⟨T, hT, hset⟩ := evenLink.settled
  rw [hT] at hlost hlink ⊢
  obtain ⟨n, hn, hfields⟩ := Option.map_eq_some_iff.mp hlink
  obtain ⟨htype, hdata⟩ := Prod.mk.inj hfields
  have hrun := ends_answer hanswer
  have hgone := Option.isNone_iff_eq_none.mp hgone
  have hstored : T.LostAsStored (home evenLink.task) 0 (pathArg [47, 108]) := by
    intro i buf m hi hm
    rw [hi, Option.map_some] at hlost
    obtain ⟨rfl, hnul⟩ := Prod.mk.inj (Option.some.inj hlost)
    obtain rfl := Option.some.inj (hm.symm.trans hn)
    obtain ⟨m', path', hm', -, hbuf, -⟩ := Tree.lostOn_eq_some hi
    obtain rfl := Option.some.inj (hm'.symm.trans hm)
    rw [hbuf] at hnul ⊢
    refine sameText_readOver (.inr ?_)
    rw [hdata]
    rw [hdata] at hnul
    exact hnul
  exact ⟨_, n, hrun, hn, htype, hdata, hgone, (danglingOpen_destroys hset fileTable_tableLaws
    (fun _ _ => rfl) (by decide) hrun).1 hstored 2 n hn htype hgone⟩

/-- A call at a link whose target does not pass through it does not wait for itself, and one at a
link whose target does never comes back. -/
theorem danglingOpen_deadlocks_small :
    letI := smallDisk
    letI := smallParam
    ¬ Faults (danglingOpen fileTable (pathArg [47, 108]) 0) evenLink.task .deadlock ∧
      ∀ r b, ¬ Ends (danglingOpen fileTable (pathArg [47, 108]) 0) throughLink.task r b := by
  let _ := smallDisk
  let _ := smallParam
  obtain ⟨-, -, -, -, hfree, hsnared, -⟩ := runs_links
  obtain ⟨T, hT, hset⟩ := evenLink.settled
  obtain ⟨T', hT', hset'⟩ := throughLink.settled
  rw [hT] at hfree
  rw [hT'] at hsnared
  exact ⟨(danglingOpen_deadlocks hset fileTable_tableLaws (fun _ _ => rfl) (by decide)
      (pathArg [47, 108]) 0).1 hfree,
    (danglingOpen_deadlocks hset' fileTable_tableLaws (fun _ _ => rfl) (by decide)
      (pathArg [47, 108]) 0).2.1 hsnared⟩

/-- The link `/l` is followed to the root directory, and every entry names a node. -/
theorem danglingOpen_closed_small :
    letI := smallDisk
    letI := smallParam
    ∃ b, Ends (danglingOpen fileTable (pathArg [47, 108]) 0) rootLink.task 0 b ∧
      (tree b.sys.fs.disk).Closed := by
  let _ := smallDisk
  let _ := smallParam
  obtain ⟨-, -, -, -, -, -, hanswer, hnone, -, hall⟩ := runs_links
  obtain ⟨T, hT, hset⟩ := rootLink.settled
  rw [hT] at hnone hall
  have hclosed : T.Closed := by
    intro d n hn hdir e he h0
    have hd := hall d (hset.view.bounded d n hn)
    have hentries : ∀ e ∈ n.entries, e.inum = 0 ∨ (T e.inum).isSome = true := by
      simpa [hn, hdir] using hd
    exact Option.isSome_iff_ne_none.mp ((hentries e he).resolve_left h0)
  have hrun := ends_answer hanswer
  refine ⟨_, hrun, (danglingOpen_closed hset fileTable_tableLaws (fun _ _ => rfl) (by decide)
    (by decide) hclosed hrun).mpr fun i buf hlost => ?_⟩
  rw [hlost] at hnone
  cases hnone

theorem runs_linkTask :
    letI := smallDisk
    letI := smallParam
    let a := linkTask [97, 98, 99] [47, 120]
    let T := tree a.sys.fs.disk
    let T' := tree (after (danglingOpen fileTable (pathArg [47, 97, 98, 99]) 0) a).sys.fs.disk
    answer (danglingOpen fileTable (pathArg [47, 97, 98, 99]) 0) a = some (-1) ∧
      (T 3).map (fun n => (n.type, n.data)) = some (T_SYMLINK, [47, 120]) ∧
      (T.namex (home a) (Bytes.ofList [47, 120]) false).isSome = true ∧ (T' 3).isNone = true ∧
      ((T 1).map fun n => n.entries.all fun e => e.inum == 0 || (T e.inum).isSome) = some true ∧
      (T' 1).map (fun n => (n.type, n.entries.any fun e => e.inum == 3)) = some (T_DIR, true) := by
  decide +kernel

/-- The link `/abc` to `/x` is freed, as `/xbc` is not there. -/
theorem danglingOpen_destroys_target :
    letI := smallDisk
    letI := smallParam
    let a := linkTask [97, 98, 99] [47, 120]
    let T := tree a.sys.fs.disk
    ∃ b n, Ends (danglingOpen fileTable (pathArg [47, 97, 98, 99]) 0) a (-1) b ∧
      T 3 = some n ∧ n.type = T_SYMLINK ∧ tree b.sys.fs.disk 3 = none ∧
      T.namex (home a) (Bytes.ofList n.data) false ≠ none := by
  let _ := smallDisk
  let _ := smallParam
  obtain ⟨hanswer, hnode, hthere, hgone, -⟩ := runs_linkTask
  obtain ⟨n, hn, hfields⟩ := Option.map_eq_some_iff.mp hnode
  obtain ⟨htype, hdata⟩ := Prod.mk.inj hfields
  refine ⟨_, n, ends_answer hanswer, hn, htype, Option.isNone_iff_eq_none.mp hgone, ?_⟩
  rw [hdata]
  exact Option.isSome_iff_ne_none.mp hthere

theorem closed_linkDisk {name target : List UInt8}
    (hroot :
      letI := smallDisk
      let T := tree (linkDisk name target)
      ((T 1).map fun n => n.entries.all fun e => e.inum == 0 || (T e.inum).isSome) = some true) :
    letI := smallDisk
    (tree (linkDisk name target)).Closed := by
  let _ := smallDisk
  intro d n hn hdir e he h0
  obtain ⟨htype, -⟩ := tree_eq_some hn
  rw [hdir] at htype
  have hd : d = 1 := by
    have hdin : (linkDisk name target).dinode d =
        (linkDisk name target).dinodes (d / IPB + 2) (d % IPB) := rfl
    rw [hdin] at htype
    unfold linkDisk at htype
    dsimp only at htype
    split at htype
    · exact absurd htype (by decide)
    rename_i hblock
    split at htype
    · simp only [IPB, BSIZE, dinodeSize] at *
      omega
    split at htype
    · exact absurd htype (by decide)
    split at htype
    · exact absurd htype (show (4 : ℤ) ≠ T_DIR by decide)
    · exact absurd htype (by decide)
  subst hd
  obtain ⟨m, hm, hall⟩ := Option.map_eq_some_iff.mp hroot
  obtain rfl := Option.some.inj (hn.symm.trans hm)
  have hsome := List.all_eq_true.mp hall e he
  simp only [Bool.or_eq_true, beq_iff_eq, h0, false_or] at hsome
  exact Option.isSome_iff_ne_none.mp hsome

/-- The entry of the link stays behind. -/
theorem danglingOpen_leaves_entry :
    letI := smallDisk
    letI := smallParam
    let a := linkTask [97, 98, 99] [47, 120]
    (tree a.sys.fs.disk).Closed ∧ ∃ b,
      Ends (danglingOpen fileTable (pathArg [47, 97, 98, 99]) 0) a (-1) b ∧
        ¬ (tree b.sys.fs.disk).Closed := by
  let _ := smallDisk
  let _ := smallParam
  obtain ⟨hanswer, -, -, hgone, hnamed, hroot⟩ := runs_linkTask
  refine ⟨closed_linkDisk hnamed, _, ends_answer hanswer, fun hclosed => ?_⟩
  obtain ⟨n, hn, hfields⟩ := Option.map_eq_some_iff.mp hroot
  obtain ⟨hdir, hany⟩ := Prod.mk.inj hfields
  obtain ⟨e, he, h3⟩ := List.any_eq_true.mp hany
  rw [beq_iff_eq] at h3
  refine hclosed 1 n hn hdir e he (by rw [h3]; decide) ?_
  rw [h3]
  exact Option.isNone_iff_eq_none.mp hgone

/-- The link `/l` to `/l/x` is locked while the walk to its target comes to it. -/
theorem danglingOpen_deadlock :
    letI := smallDisk
    letI := smallParam
    Faults (danglingOpen fileTable (pathArg [47, 108]) 0) (linkTask [108] [47, 108, 47, 120])
      .deadlock := by
  let _ := smallDisk
  let _ := smallParam
  exact faults_of_fault (by decide +kernel)

end Small

end Xv6Sheet.Kernel
