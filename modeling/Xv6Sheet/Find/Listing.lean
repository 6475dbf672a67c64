import Xv6Sheet.Find.Walk

/-! # The files that find lists

In a tree whose directories name their entries apart, the path of an entry leads to the node of the
entry. A walk then finds the files below its start by their names, as far as it can open them.
-/

namespace Xv6Sheet.Find

open Exec Kernel
open Xargs (Str Limits)

/-- The entries of a directory have proper names, each of them once. -/
structure WellNamed (T : Tree) : Prop where
  proper : ∀ d n, T d = some n → n.type = T_DIR → ∀ e ∈ n.entries, e.inum ≠ 0 →
    e.name ≠ [] ∧ 47 ∉ e.name
  distinct : ∀ d n, T d = some n → n.type = T_DIR →
    ((n.entries.filter (·.inum ≠ 0)).map Entry.name).Nodup

/-- A list of names leads down from a node to another, not by way of `.` and `..`. -/
inductive Leads (T : Tree) : ℕ → List Str → ℕ → Prop
  | here (i : ℕ) : Leads T i [] i
  | down {i j : ℕ} {n : Node} {e : Entry} {ns : List Str} (hn : T i = some n)
      (hdir : n.type = T_DIR) (he : e ∈ n.entries) (hl : listed e = true)
      (h : Leads T e.inum ns j) : Leads T i (e.name :: ns) j

def pathOf (path : Str) (ns : List Str) : Str := path ++ ns.flatMap (47 :: ·)

section Text

variable {path name name' : Str} {ns ns' : List Str}

@[simp] theorem pathOf_nil (path : Str) : pathOf path [] = path := by simp [pathOf]

theorem pathOf_cons (path name : Str) (ns : List Str) :
    pathOf path (name :: ns) = pathOf (path ++ 47 :: name) ns := by simp [pathOf]

theorem length_le_pathOf (path : Str) (ns : List Str) : path.length ≤ (pathOf path ns).length := by
  simp [pathOf]

theorem takeWhile_pathOf (h : 47 ∉ name) (ns : List Str) :
    (pathOf name ns).takeWhile (· ≠ 47) = name := by
  have hname : ∀ y ∈ name, decide (y ≠ 47) = true := fun y hy =>
    decide_eq_true fun he => h (he ▸ hy)
  rw [pathOf, List.takeWhile_append_of_pos hname]
  cases ns with
  | nil => simp
  | cons w ns => simp

theorem name_eq_of_pathOf (h : 47 ∉ name) (h' : 47 ∉ name')
    (heq : pathOf (path ++ 47 :: name) ns = pathOf (path ++ 47 :: name') ns') : name = name' := by
  have hname : pathOf name ns = pathOf name' ns' := by
    simpa [pathOf] using heq
  rw [← takeWhile_pathOf h ns, hname, takeWhile_pathOf h' ns']

theorem fmtname_append (h : 47 ∉ name) (path : Str) : fmtname (path ++ 47 :: name) = name := by
  have hname : ∀ y ∈ name.reverse, decide (y ≠ 47) = true := fun y hy =>
    decide_eq_true fun he => h (he ▸ List.mem_reverse.mp hy)
  unfold fmtname List.rtakeWhile
  rw [List.reverse_append, List.reverse_cons, List.append_assoc,
    List.takeWhile_append_of_pos hname]
  simp

theorem fmtname_pathOf (h : ∀ w ∈ ns, 47 ∉ w) :
    fmtname (pathOf path ns) = ns.getLast?.getD (fmtname path) := by
  induction ns generalizing path with
  | nil => simp
  | cons name ns ih =>
    rw [pathOf_cons, ih fun w hw => h w (List.mem_cons_of_mem _ hw),
      fmtname_append (h name List.mem_cons_self), List.getLast?_cons]
    rfl

end Text

section Tree

variable [pm : Param] {T : Tree} {cwd i j : ℕ} {n : Node} {e : Entry} {path target : Str}
  {ns : List Str}

theorem openNode_eq (h0 : 0 ∉ path) : openNode T cwd path =
    if path.length < Param.MAXPATH then
      (T.resolve (startOf cwd (Bytes.ofList path)) (names path)).bind fun i =>
        (T i).bind fun n =>
          if n.type = T_DEVICE ∧ (n.major < 0 ∨ n.major ≥ Param.NDEV) then none else some (i, n)
    else none := by
  unfold openNode
  split
  · rename_i hlen
    have hwalk : (T.walk (Bytes.ofList path) false Param.MAXPATH
        (startOf cwd (Bytes.ofList path)) 0 fun _ => 0).map (·.1) = _ :=
      (spells_ofList h0).walk hlen T (Nat.zero_le _) (by omega) fun _ => 0
    rw [List.drop_zero] at hwalk
    rw [← hwalk]
    show (T.namex cwd (Bytes.ofList path) false).bind _ = _
    rw [Tree.namex, Option.bind_map]
    rfl
  · rfl

omit pm in
theorem resolve_child (hw : WellNamed T) (hn : T i = some n) (hdir : n.type = T_DIR)
    (he : e ∈ n.entries) (hl : listed e = true) {c : ℕ}
    (hres : T.resolve c (names path) = some i) :
    T.resolve c (names (path ++ 47 :: e.name)) = some e.inum := by
  have h0 : e.inum ≠ 0 := by
    simp only [listed, decide_eq_true_eq] at hl
    exact hl.1
  obtain ⟨hne, hslash⟩ := hw.proper i n hn hdir e he h0
  rw [names_concat hne hslash (length_name_le he), Tree.resolve_concat, hres, Option.bind_some,
    Tree.child_of_dir hn hdir]
  cases hlookup : n.lookup e.name with
  | none => exact absurd ⟨h0, rfl⟩ (Node.lookup_eq_none.mp hlookup e he)
  | some found =>
    obtain ⟨k, j⟩ := found
    obtain ⟨e', he', hj, hj0, hname⟩ := Node.lookup_eq_some hlookup
    have hmem : ∀ {x : Entry}, x ∈ n.entries → x.inum ≠ 0 →
        x ∈ n.entries.filter (·.inum ≠ 0) :=
        fun hx hx0 => List.mem_filter.mpr ⟨hx, by simpa using hx0⟩
    have hsame := List.inj_on_of_nodup_map (hw.distinct i n hn hdir)
      (hmem (List.mem_of_getElem? he') (hj ▸ hj0)) (hmem he h0) hname
    rw [Option.map_some, ← hj, hsame]

omit pm in
theorem Leads.names (hw : WellNamed T) (h : Leads T i ns j) : ∀ w ∈ ns, 47 ∉ w := by
  induction h with
  | here i => simp
  | @down i j n e ns hn hdir he hl h ih =>
    have h0 : e.inum ≠ 0 := by
      simp only [listed, decide_eq_true_eq] at hl
      exact hl.1
    rintro w (- | ⟨-, hmem⟩)
    · exact (hw.proper i n hn hdir e he h0).2
    · exact ih w hmem

structure PathTo (T : Tree) (cwd : ℕ) (path : Str) (i : ℕ) : Prop where
  nonempty : path ≠ []
  noNul : 0 ∉ path
  resolve : T.resolve (startOf cwd (Bytes.ofList path)) (names path) = some i

omit pm in
theorem PathTo.child (h : PathTo T cwd path i) (hw : WellNamed T) (hn : T i = some n)
    (hdir : n.type = T_DIR) (he : e ∈ n.entries) (hl : listed e = true) :
    PathTo T cwd (path ++ 47 :: e.name) e.inum := by
  have hstart : startOf cwd (Bytes.ofList (path ++ 47 :: e.name)) =
      startOf cwd (Bytes.ofList path) := by
    obtain ⟨c, cs, rfl⟩ := List.exists_cons_of_ne_nil h.nonempty
    rfl
  refine ⟨by simp, ?_, ?_⟩
  · simp [h.noNul, zero_not_mem_name he]
  · rw [hstart]
    exact resolve_child hw hn hdir he hl h.resolve

theorem PathTo.openNode (h : PathTo T cwd path i) (hn : T i = some n) (htype : n.type ≠ T_DEVICE) :
    openNode T cwd path = if path.length < Param.MAXPATH then some (i, n) else none := by
  have hdev : ¬ (n.type = T_DEVICE ∧ (n.major < 0 ∨ n.major ≥ Param.NDEV)) := fun hd => htype hd.1
  rw [openNode_eq h.noNul, h.resolve, Option.bind_some, hn, Option.bind_some, if_neg hdev]

theorem PathTo.of_openNode (hne : path ≠ []) (h0 : 0 ∉ path)
    (h : Find.openNode T cwd path = some (i, n)) : PathTo T cwd path i ∧ T i = some n := by
  obtain ⟨hlen, hn⟩ := openNode_length h
  refine ⟨⟨hne, h0, ?_⟩, hn⟩
  rw [openNode_eq h0, if_pos hlen] at h
  obtain ⟨j, hj, h⟩ := Option.bind_eq_some_iff.mp h
  obtain ⟨m, -, h⟩ := Option.bind_eq_some_iff.mp h
  split at h
  · cases h
  · obtain ⟨rfl, -⟩ := Prod.mk.inj (Option.some.inj h)
    exact hj

/-- The path of a file below another path, which a process that can open `room` files gets to. -/
def Listed (T : Tree) (target : Str) (room i : ℕ) (path p : Str) : Prop :=
  ∃ ns j m, Leads T i ns j ∧ T j = some m ∧ m.type = T_FILE ∧ p = pathOf path ns ∧
    fmtname p = target ∧ ns.length < room ∧ p.length < Param.MAXPATH

section Listed

variable {room : ℕ} {p : Str}

theorem listed_none (hn : T i = none) : ¬ Listed T target room i path p := by
  rintro ⟨ns, j, m, hleads, hm, -⟩
  cases hleads with
  | here => rw [hn] at hm; cases hm
  | down hn' => rw [hn] at hn'; cases hn'

theorem listed_of_not_dir (hn : T i = some n) (hdir : n.type ≠ T_DIR) :
    Listed T target (room + 1) i path p ↔
      n.type = T_FILE ∧ p = path ∧ fmtname path = target ∧ path.length < Param.MAXPATH := by
  constructor
  · rintro ⟨ns, j, m, hleads, hm, hfile, rfl, hname, -, hlen⟩
    cases hleads with
    | here =>
      obtain rfl := Option.some.inj (hn.symm.trans hm)
      rw [pathOf_nil] at hname hlen ⊢
      exact ⟨hfile, rfl, hname, hlen⟩
    | down hn' hdir' =>
      obtain rfl := Option.some.inj (hn.symm.trans hn')
      exact absurd hdir' hdir
  · rintro ⟨hfile, rfl, hname, hlen⟩
    exact ⟨[], i, n, .here i, hn, hfile, (pathOf_nil p).symm, hname, Nat.succ_pos room, hlen⟩

theorem listed_of_dir (hn : T i = some n) (hdir : n.type = T_DIR) :
    Listed T target (room + 1) i path p ↔ ∃ e ∈ n.entries, listed e = true ∧
      Listed T target room e.inum (path ++ 47 :: e.name) p := by
  constructor
  · rintro ⟨ns, j, m, hleads, hm, hfile, rfl, hname, hroom, hlen⟩
    cases hleads with
    | here =>
      obtain rfl := Option.some.inj (hn.symm.trans hm)
      rw [hdir] at hfile
      exact absurd hfile (by decide)
    | @down _ _ n' e ns hn' _ he hl hleads =>
      obtain rfl := Option.some.inj (hn.symm.trans hn')
      exact ⟨e, he, hl, ns, j, m, hleads, hm, hfile, pathOf_cons path e.name ns, hname,
        Nat.lt_of_succ_lt_succ hroom, hlen⟩
  · rintro ⟨e, he, hl, ns, j, m, hleads, hm, hfile, rfl, hname, hroom, hlen⟩
    exact ⟨e.name :: ns, j, m, .down hn hdir he hl hleads, hm, hfile,
      (pathOf_cons path e.name ns).symm,
      hname, Nat.succ_lt_succ hroom, hlen⟩

theorem Listed.length (h : Listed T target room i path p) : path.length < Param.MAXPATH := by
  obtain ⟨ns, j, m, -, -, -, rfl, -, -, hlen⟩ := h
  exact lt_of_le_of_lt (length_le_pathOf path ns) hlen

theorem mem_matching (hw : WellNamed T) {depth : ℕ} (h : PathTo T cwd path i)
    (hdepth : Param.MAXPATH < depth + path.length) (hpos : 0 < depth) :
    p ∈ matching T cwd target depth room path ↔ Listed T target room i path p := by
  induction room generalizing depth path i with
  | zero => cases depth <;> simp [matching, Listed]
  | succ room ih =>
    obtain ⟨depth, rfl⟩ := Nat.exists_eq_succ_of_ne_zero hpos.ne'
    unfold matching
    cases hn : T i with
    | none =>
      have hopen : openNode T cwd path = none := by
        rw [openNode_eq h.noNul, h.resolve, Option.bind_some, hn]
        split <;> rfl
      rw [hopen]
      simp [listed_none hn]
    | some n =>
      by_cases hdir : n.type = T_DIR
      · rw [h.openNode hn (by rw [hdir]; decide), listed_of_dir hn hdir]
        have hfile : n.type ≠ T_FILE := by rw [hdir]; decide
        have hsub : ∀ e ∈ n.entries, listed e = true →
            path.length < Param.MAXPATH →
            (p ∈ matching T cwd target depth room (path ++ 47 :: e.name) ↔
              Listed T target room e.inum (path ++ 47 :: e.name) p) := by
          intro e he hl hlen
          have hlonger : (path ++ 47 :: e.name).length =
            path.length + (e.name.length + 1) := by simp
          exact ih (h.child hw hn hdir he hl) (by omega) (by omega)
        by_cases hlen : path.length < Param.MAXPATH
        · rw [if_pos hlen]
          dsimp only
          rw [if_neg hfile, if_pos hdir, List.mem_flatMap]
          simp only [List.mem_filter]
          constructor
          · rintro ⟨e, ⟨he, hl⟩, hp⟩
            exact ⟨e, he, hl, (hsub e he hl hlen).mp hp⟩
          · rintro ⟨e, he, hl, hp⟩
            exact ⟨e, ⟨he, hl⟩, (hsub e he hl hlen).mpr hp⟩
        · rw [if_neg hlen]
          refine iff_of_false (by simp) ?_
          rintro ⟨e, -, -, hp⟩
          have hle := hp.length
          rw [List.length_append] at hle
          omega
      · rw [listed_of_not_dir hn hdir]
        by_cases hfile : n.type = T_FILE
        · rw [h.openNode hn (by rw [hfile]; decide)]
          by_cases hlen : path.length < Param.MAXPATH
          · by_cases hname : fmtname path = target <;> simp [hlen, hfile, hname]
          · simp [hlen]
        · cases hopen : openNode T cwd path with
          | none => simp [hfile]
          | some r =>
            obtain ⟨j, m⟩ := r
            obtain ⟨hpath, hm⟩ := PathTo.of_openNode h.nonempty h.noNul hopen
            obtain rfl := Option.some.inj (h.resolve.symm.trans hpath.resolve)
            obtain rfl := Option.some.inj (hn.symm.trans hm)
            simp [hfile, hdir]

theorem nodup_matching (hw : WellNamed T) {depth : ℕ} (h : PathTo T cwd path i)
    (hdepth : Param.MAXPATH < depth + path.length) (hpos : 0 < depth) :
    (matching T cwd target depth room path).Nodup := by
  induction room generalizing depth path i with
  | zero => cases depth <;> simp [matching]
  | succ room ih =>
    obtain ⟨depth, rfl⟩ := Nat.exists_eq_succ_of_ne_zero hpos.ne'
    unfold matching
    cases hopen : openNode T cwd path with
    | none => simp
    | some r =>
      obtain ⟨j, n⟩ := r
      obtain ⟨hpath, hn⟩ := PathTo.of_openNode h.nonempty h.noNul hopen
      obtain rfl := Option.some.inj (h.resolve.symm.trans hpath.resolve)
      have hlen := (openNode_length hopen).1
      dsimp only
      split
      · split <;> simp
      split
      swap
      · simp
      rename_i hdir
      have hlonger : ∀ e : Entry, (path ++ 47 :: e.name).length =
        path.length + (e.name.length + 1) :=
        fun e => by simp
      have hsub : ∀ e ∈ n.entries.filter listed, e ∈ n.entries ∧ listed e = true := fun e he =>
        List.mem_filter.mp he
      have hchild : ∀ e ∈ n.entries.filter listed, PathTo T cwd (path ++ 47 :: e.name) e.inum :=
        fun e he => h.child hw hn hdir (hsub e he).1 (hsub e he).2
      refine List.nodup_flatMap.mpr ⟨fun e he => ?_, ?_⟩
      · have hl := hlonger e
        exact ih (hchild e he) (by omega) (by omega)
      -- the names of the entries tell the paths below them apart
      have hnames : (n.entries.filter listed).Pairwise fun e e' => e.name ≠ e'.name := by
        have hall := List.pairwise_map.mp (hw.distinct i n hn hdir)
        refine hall.sublist ?_
        have hsome : n.entries.filter listed = (n.entries.filter (·.inum ≠ 0)).filter listed := by
          rw [List.filter_filter]
          refine List.filter_congr fun e _ => ?_
          simp only [listed]
          by_cases h0 : e.inum = 0 <;> simp [h0]
        rw [hsome]
        exact List.filter_sublist
      refine hnames.imp_of_mem fun {e e'} he he' hne => ?_
      refine List.disjoint_left.mpr fun p hp hp' => hne ?_
      have hl := hlonger e
      have hl' := hlonger e'
      obtain ⟨ns, -, -, -, -, -, rfl, -⟩ :=
        (mem_matching hw (hchild e he) (by omega) (by omega)).mp hp
      obtain ⟨ns', -, -, -, -, -, heq, -⟩ :=
        (mem_matching hw (hchild e' he') (by omega) (by omega)).mp hp'
      have hslash : ∀ x ∈ n.entries.filter listed, 47 ∉ x.name := fun x hx => by
        have h0 := (hsub x hx).2
        simp only [listed, decide_eq_true_eq] at h0
        exact (hw.proper i n hn hdir x (hsub x hx).1 h0.1).2
      exact name_eq_of_pathOf (hslash e he) (hslash e' he') heq

end Listed

/-- `find` prints the paths of the regular files that are called like its target, each once and no
other path: of all that are at most 12 levels below the start, as each level of the recursion holds
one of the 13 descriptors that are left, and whose path fits in the 128 bytes of the kernel. -/
theorem find_prints (hmax : Param.MAXPATH = 128) (hfds : Param.NOFILE = 16) (hw : WellNamed T)
    {s : Process} (hused : (Finset.univ.filter fun fd => s.ofile fd ≠ none).card = 3)
    (hfiles : 13 ≤ s.files) (htarget : 0 ∉ target) (hne : path ≠ []) (hpath : 0 ∉ path)
    (hopen : openNode T cwd path = some (i, n)) (junk : Bytes) {depth : ℕ} (hdepth : 128 < depth) :
    ∃ out : List Str, Ends (Plain.find T cwd target junk depth path) s ()
        { s with log := s.log ++ out.map .print } ∧ out.Nodup ∧
      ∀ p, p ∈ out ↔ ∃ ns j m, Leads T i ns j ∧ T j = some m ∧ m.type = T_FILE ∧
        p = pathOf path ns ∧ ns.getLast?.getD (fmtname path) = target ∧ ns.length ≤ 12 ∧
        p.length < 128 := by
  have hroom : s.room = 13 := by
    have hsum := Finset.card_filter_add_card_filter_not
      (s := Finset.univ) fun fd => s.ofile fd = none
    have hopen : (Finset.univ.filter fun fd => ¬ s.ofile fd = none).card = 3 := hused
    rw [Finset.card_univ, Fintype.card_fin, hopen] at hsum
    rw [Process.room, Process.freeFds]
    omega
  have hbuf : Param.MAXPATH + DIRSIZ + 1 ≤ bufSize := by rw [hmax]; decide
  have hlong : Param.MAXPATH < depth + path.length := by omega
  obtain ⟨hto, hn⟩ := PathTo.of_openNode hne hpath hopen
  have hends : Ends (Plain.find T cwd target junk depth path) s () _ :=
    find_ends hbuf htarget hpath hlong (by omega) s
  rw [hroom] at hends
  refine ⟨matching T cwd target depth 13 path, hends, nodup_matching hw hto hlong (by omega),
    fun p => ?_⟩
  rw [mem_matching hw hto hlong (by omega)]
  constructor
  · rintro ⟨ns, j, m, hleads, hm, hfile, rfl, hname, hroom, hlen⟩
    rw [fmtname_pathOf (hleads.names hw)] at hname
    exact ⟨ns, j, m, hleads, hm, hfile, rfl, hname, by omega, by omega⟩
  · rintro ⟨ns, j, m, hleads, hm, hfile, rfl, hname, hroom, hlen⟩
    rw [← fmtname_pathOf (hleads.names hw)] at hname
    exact ⟨ns, j, m, hleads, hm, hfile, rfl, hname, by omega, by omega⟩

end Tree

/-- Directories in a row, each with the next one as its entry `d`, and at their end a file `d`. -/
def chainTree (k : ℕ) : Tree := fun i =>
  if 1 ≤ i ∧ i ≤ k then
    some ⟨T_DIR, 0, 0, 1, [UInt8.ofNat (i + 1), 0, 100] ++ List.replicate 13 0⟩
  else if i = k + 1 then some ⟨T_FILE, 0, 0, 1, []⟩
  else none

theorem chainTree_entries {i : ℕ} (hi : i < 255) :
    Node.entries ⟨T_DIR, 0, 0, 1, [UInt8.ofNat (i + 1), 0, 100] ++ List.replicate 13 0⟩ =
      [⟨i + 1, [100]⟩] := by
  have hle : Bytes.le (Bytes.ofList ([UInt8.ofNat (i + 1), 0, 100] ++ List.replicate 13 0)) 0 2 =
      i + 1 := by
    show (UInt8.ofNat (i + 1)).toNat + 256 * (0 + 256 * 0) = i + 1
    rw [UInt8.toNat_ofNat']
    omega
  have hlen : ([UInt8.ofNat (i + 1), 0, 100] ++ List.replicate 13 0).length / direntSize = 1 := by
    simp [direntSize]
  rw [Node.entries, hlen]
  show [Entry.mk (Bytes.le _ 0 2) _] = _
  rw [hle]
  rfl

theorem wellNamed_chainTree {k : ℕ} (hk : k < 255) : WellNamed (chainTree k) := by
  have hentries : ∀ d n, chainTree k d = some n → n.type = T_DIR →
    n.entries = [⟨d + 1, [100]⟩] := by
    intro d n hn hdir
    unfold chainTree at hn
    split at hn
    · obtain rfl := Option.some.inj hn
      exact chainTree_entries (by omega)
    split at hn
    · obtain rfl := Option.some.inj hn
      exact absurd hdir (by decide)
    · cases hn
  constructor
  · intro d n hn hdir e he _
    rw [hentries d n hn hdir] at he
    obtain rfl := List.mem_singleton.mp he
    exact ⟨by simp, by simp⟩
  · intro d n hn hdir
    rw [hentries d n hn hdir]
    simp

theorem leads_chainTree {k m i : ℕ} (hk : k < 255) (hi : 1 ≤ i) (h : i + m = k + 1) :
    Leads (chainTree k) i (List.replicate m [100]) (k + 1) := by
  induction m generalizing i with
  | zero =>
    obtain rfl : i = k + 1 := h
    exact .here _
  | succ m ih =>
    have hn : chainTree k i =
        some ⟨T_DIR, 0, 0, 1, [UInt8.ofNat (i + 1), 0, 100] ++ List.replicate 13 0⟩ :=
      if_pos ⟨hi, by omega⟩
    refine .down (e := ⟨i + 1, [100]⟩) hn rfl ?_ (by simp [listed])
      (ih (i := i + 1) (by omega) (by omega))
    rw [chainTree_entries (by omega)]
    exact List.mem_singleton_self _

def threeOpen : @Process smallParam :=
  let _ := smallParam
  ⟨fun fd => if fd.val < 3 then some ⟨0, 0⟩ else none, 100, []⟩

/-- A file in the directory `/d` is found. -/
theorem find_prints_small :
    letI := smallParam
    ∃ out : List Str, Ends (Plain.find (chainTree 2) ROOTINO [100] (fun _ => 0) 129 [47])
    threeOpen ()
        { threeOpen with log := threeOpen.log ++ out.map .print } ∧ out.Nodup ∧
      ∀ p, p ∈ out ↔ ∃ ns j m, Leads (chainTree 2) 1 ns j ∧ chainTree 2 j = some m ∧
        m.type = T_FILE ∧ p = pathOf [47] ns ∧ ns.getLast?.getD (fmtname [47]) = [100] ∧
        ns.length ≤ 12 ∧ p.length < 128 := by
  let _ := smallParam
  exact find_prints rfl rfl (wellNamed_chainTree (by decide)) (by decide) (by decide) (by decide)
    (by simp) (by decide) rfl _ (by decide)

/-- A file below thirteen directories is not found: the process has no descriptor left for it. -/
theorem find_misses :
    letI := smallParam
    (∃ t, Ends (Plain.find (chainTree 13) ROOTINO [100] (fun _ => 0) 129 [47]) threeOpen () t ∧
      t.log = []) ∧
    ∃ ns j m, Leads (chainTree 13) ROOTINO ns j ∧ chainTree 13 j = some m ∧ m.type = T_FILE ∧
      ns.getLast?.getD (fmtname [47]) = [100] ∧ (pathOf [47] ns).length < 128 := by
  let _ := smallParam
  refine ⟨⟨_, ends_answer (a := ()) (by decide +kernel), by decide +kernel⟩,
    List.replicate 13 [100], 14,
    _, leads_chainTree (by decide) (by decide) (by decide), rfl, rfl, by decide, by decide⟩

end Xv6Sheet.Find
