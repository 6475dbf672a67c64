import Mathlib.Data.Fintype.Card
import Mathlib.Data.Finset.Card
import Xv6Sheet.Find.Command
import Xv6Sheet.Vm.Mmap

/-! # What find does

A walk opens a path, goes down the directory below it, and closes what it opened. Each level of the
recursion holds a descriptor and makes the path longer, so that a walk ends, and stays in its
buffers.
-/

namespace Xv6Sheet.Find

open Exec Kernel
open Xargs (Str Limits)

section Text

variable {path target w : Str} {s name buf : Bytes} {n : ℕ}

theorem strcmp_eq_zero (ht : 0 ∉ target) (hn : target.length < n) :
    strcmp s target = 0 ↔ Bytes.str s n = target := by
  rw [strcmp, Bytes.strncmp_eq_zero_iff, Bytes.str_ofList ht (by omega),
    Bytes.str_eq_iff ht (by omega), Bytes.str_eq_iff ht hn.le]
  simp [hn]

theorem zero_not_mem_fmtname (h : 0 ∉ path) : 0 ∉ fmtname path := fun hmem =>
  h ((List.rtakeWhile_suffix _ path).subset hmem)

theorem strcmp_fmtname (hp : 0 ∉ path) (ht : 0 ∉ target) :
    strcmp (Bytes.ofList (fmtname path)) target = 0 ↔ fmtname path = target := by
  rw [strcmp_eq_zero (n := target.length + (fmtname path).length + 1) ht (by omega),
    Bytes.str_ofList (zero_not_mem_fmtname hp) (by omega)]

def Begins (buf : Bytes) (l : Str) : Prop := ∀ k (h : k < l.length), buf k = l[k]

theorem Begins.copy (h : Begins buf w) {i : ℕ} (hi : w.length ≤ i) (src : Bytes) (m : ℕ) :
    Begins (buf.copy i src 0 m) w := fun k hk => by
  rw [Bytes.copy_of_not_mem (by omega), h k hk]

theorem str_child (h : Begins buf (path ++ [47])) (hp : 0 ∉ path)
    (hlen : path.length + DIRSIZ + 2 ≤ bufSize) :
    Bytes.str ((buf.copy (path.length + 1) name 0 DIRSIZ).copy (path.length + 1 + DIRSIZ)
      (fun _ => 0) 0 1) bufSize = path ++ 47 :: Bytes.str name DIRSIZ := by
  have hw := Bytes.str_length_le name DIRSIZ
  have hnul := Bytes.zero_not_mem_str name DIRSIZ
  obtain ⟨hbyte, hend⟩ := (Bytes.str_eq_iff hnul hw).mp rfl
  generalize Bytes.str name DIRSIZ = w at *
  refine (Bytes.str_eq_iff (by simp [hp, hnul]) (by simp; omega)).mpr ⟨fun k hk => ?_, fun _ => ?_⟩
  · rw [List.length_append, List.length_cons] at hk
    rw [Bytes.copy_of_not_mem (by omega)]
    rcases Nat.lt_or_ge k (path.length + 1) with hlt | hge
    · have hpre : path ++ [47] <+: path ++ 47 :: w := ⟨w, by simp⟩
      have hk' : k < (path ++ [47]).length := by simpa using hlt
      rw [Bytes.copy_of_not_mem (by omega), h k hk', hpre.getElem hk']
    · rw [Bytes.copy_of_mem (by omega), Nat.zero_add, hbyte _ (by omega),
        List.getElem_append_right (by omega), List.getElem_cons, dif_neg (by omega)]
      rfl
  · rw [List.length_append, List.length_cons]
    rcases Nat.lt_or_ge w.length DIRSIZ with hlt | hge
    · rw [Bytes.copy_of_not_mem (by omega), Bytes.copy_of_mem (by omega), ← hend hlt]
      congr 1
      omega
    · rw [Bytes.copy_of_mem (by omega)]

end Text

/-- An entry that is looked into: neither empty nor `.` or `..`. -/
def listed (e : Entry) : Bool := e.inum ≠ 0 ∧ e.name ≠ [46] ∧ e.name ≠ [46, 46]

section Walks

variable [pm : Param]

def Process.freeFds (s : Process) : Finset (Fin Param.NOFILE) := {fd | s.ofile fd = none}

def Process.room (s : Process) : ℕ := min s.freeFds.card s.files

/-- The files that a walk finds below a path when so many files can be open. -/
def matching (T : Tree) (cwd : ℕ) (target : Str) : ℕ → ℕ → Str → List Str
  | 0, _, _ => []
  | _, 0, _ => []
  | depth + 1, room + 1, path =>
    match openNode T cwd path with
    | none => []
    | some (_, n) =>
      if n.type = T_FILE then if fmtname path = target then [path] else []
      else if n.type = T_DIR then
        (n.entries.filter listed).flatMap fun e => matching T cwd target depth room
          (path ++ 47 :: e.name)
      else []

variable {T : Tree} {cwd i k : ℕ} {path target : Str} {n : Node} {s t : Process} {E : Stop → Prop}
  {fd : Fin Param.NOFILE}

section Descriptors

theorem room_open (hfd : s.ofile fd = none) (hfiles : s.files ≠ 0) (f : OpenFile)
    (log : List Event) :
    Process.room ⟨Function.update s.ofile fd (some f), s.files - 1, log⟩ + 1 = s.room := by
  have hset : Process.freeFds ⟨Function.update s.ofile fd (some f), s.files - 1, log⟩ =
      s.freeFds.erase fd := by
    ext k
    by_cases hk : k = fd
    · subst hk
      simp [Process.freeFds]
    · simp [Process.freeFds, hk]
  have hmem : fd ∈ s.freeFds := by simp [Process.freeFds, hfd]
  have hpos := Finset.card_pos.mpr ⟨fd, hmem⟩
  rw [Process.room, Process.room, hset, Finset.card_erase_of_mem hmem]
  show min (s.freeFds.card - 1) (s.files - 1) + 1 = min s.freeFds.card s.files
  omega

theorem room_seek {f : OpenFile} (hfd : s.ofile fd = some f) (f' : OpenFile) (log : List Event) :
    Process.room ⟨Function.update s.ofile fd (some f'), s.files, log⟩ = s.room := by
  have hset : Process.freeFds ⟨Function.update s.ofile fd (some f'), s.files, log⟩ = s.freeFds := by
    ext k
    by_cases hk : k = fd
    · subst hk
      simp [Process.freeFds, hfd]
    · simp [Process.freeFds, hk]
  rw [Process.room, hset, Process.room]

theorem openRead_ends (hi : openNode T cwd path = some (i, n)) (hroom : s.room ≠ 0) :
    s.files ≠ 0 ∧ ∃ fd, s.ofile fd = none ∧ Ends (openRead T cwd path) s (some fd)
      ⟨Function.update s.ofile fd (some ⟨i, 0⟩), s.files - 1, s.log⟩ := by
  have hfiles : s.files ≠ 0 := fun h0 => hroom (by rw [Process.room, h0, Nat.min_zero])
  refine ⟨hfiles, ?_⟩
  cases hfd : s.freeFd with
  | none =>
    refine absurd ?_ hroom
    have hnone : s.freeFds = ∅ := Finset.eq_empty_iff_forall_notMem.mpr fun fd hmem => by
      have hfind := List.find?_eq_none.mp hfd fd (List.mem_finRange fd)
      simp only [Process.freeFds, Finset.mem_filter, Finset.mem_univ, true_and] at hmem
      simp [hmem] at hfind
    rw [Process.room, hnone, Finset.card_empty, Nat.zero_min]
  | some fd =>
    refine ⟨fd, by simpa using List.find?_some hfd, ?_⟩
    unfold openRead
    rw [ends_get_bind, hi]
    simp [hfiles, hfd]

theorem openRead_none (h : openNode T cwd path = none ∨ s.room = 0) :
    Ends (openRead T cwd path) s none s := by
  unfold openRead
  rw [ends_get_bind]
  cases hi : openNode T cwd path with
  | none => simp
  | some r =>
    obtain hroom := h.resolve_left (by simp [hi])
    dsimp only
    split
    · simp
    rename_i hfiles
    cases hfd : s.freeFd with
    | none => simp
    | some fd =>
      have hfree : s.ofile fd = none := by simpa using List.find?_some hfd
      have hmore := room_open hfree hfiles ⟨r.1, 0⟩ s.log
      omega

end Descriptors

theorem wp_store {buf src : Bytes} {m : ℕ} (h : i + m ≤ bufSize) {Q : Bytes → Process → Prop} :
    Wp E (store buf i src m) Q s ↔ Q (buf.copy i src 0 m) s := by
  unfold store
  rw [if_pos h]
  exact wp_pure

theorem wp_read {off : ℕ} {Q : ℤ × Bytes → Process → Prop} (hfd : s.ofile fd = some ⟨i, off⟩)
    (hn : T i = some n) : Wp E (read T fd direntSize) Q s ↔
      Q ((min direntSize (n.data.length - off) : ℕ), fun k => Bytes.ofList n.data (off + k))
        ⟨Function.update s.ofile fd (some ⟨i, off + min direntSize (n.data.length - off)⟩),
          s.files, s.log⟩ := by
  unfold read
  rw [wp_bind, wp_get, hfd]
  simp only [Option.bind_some, hn, Option.map_some, wp_bind, wp_set, wp_pure]

omit pm in
theorem zero_not_mem_name {e : Entry} (he : e ∈ n.entries) : 0 ∉ e.name := by
  obtain ⟨k, -, rfl⟩ := List.mem_map.mp he
  exact Bytes.zero_not_mem_str _ _

omit pm in
theorem length_name_le {e : Entry} (he : e ∈ n.entries) : e.name.length ≤ DIRSIZ := by
  obtain ⟨k, -, rfl⟩ := List.mem_map.mp he
  exact Bytes.str_length_le _ _

theorem wp_scan {find : Str → FindM Unit} {out : Str → List Event} {r turns : ℕ} {buf : Bytes}
    (hfind : ∀ e ∈ n.entries, listed e = true → ∀ u : Process, u.room = r →
      Wp E (find (path ++ 47 :: e.name))
        (fun _ t => t = { u with log := u.log ++ out (path ++ 47 :: e.name) }) u)
    (hpath : 0 ∉ path) (hlen : path.length + DIRSIZ + 2 ≤ bufSize)
    (hbuf : Begins buf (path ++ [47]))
    (hn : T i = some n) (hturns : n.entries.length < k + turns)
    (hk : k ≤ n.entries.length)
    (hfd : s.ofile fd = some ⟨i, direntSize * k⟩) (hroom : s.room = r) :
    Wp E (scan T find fd (path.length + 1) turns buf) (fun _ t => ∃ f, t =
      ⟨Function.update s.ofile fd (some f), s.files,
      s.log ++ ((n.entries.drop k).filter listed).flatMap
        fun e => out (path ++ 47 :: e.name)⟩) s := by
  induction turns generalizing k buf s with
  | zero => omega
  | succ turns ih =>
    have hent := n.length_entries
    refine wp_bind.mpr ((wp_read hfd hn).mpr ?_)
    rcases Nat.eq_or_lt_of_le hk with rfl | hlt
    · -- the rest is no entry
      have hshort : min direntSize (n.data.length - direntSize * n.entries.length) ≠
        direntSize := by
        simp only [direntSize] at *
        omega
      dsimp only
      rw [if_pos (by exact_mod_cast hshort)]
      rw [List.drop_length, List.filter_nil, List.flatMap_nil, List.append_nil]
      exact wp_pure.mpr ⟨_, rfl⟩
    have hfull : min direntSize (n.data.length - direntSize * k) = direntSize := by
      simp only [direntSize] at *
      omega
    obtain ⟨e, he⟩ : ∃ e, e = n.entries[k] := ⟨_, rfl⟩
    have hmem : e ∈ n.entries := he ▸ List.getElem_mem hlt
    have hentry : e = .ofBytes (Bytes.ofList n.data) (direntSize * k) := by
      have hget := n.entries_getElem? k
      rw [if_pos (by omega), List.getElem?_eq_getElem hlt] at hget
      exact he.trans (Option.some.inj hget)
    have hinum : Dirent.inum (fun j => Bytes.ofList n.data (direntSize * k + j)) = e.inum := by
      rw [hentry, Dirent.inum, Bytes.le_shift]
      rfl
    have hname : Bytes.str (Dirent.name fun j => Bytes.ofList n.data (direntSize * k + j)) DIRSIZ =
        e.name := by
      rw [hentry]
      show _ = Bytes.str (fun j => Bytes.ofList n.data (direntSize * k + 2 + j)) DIRSIZ
      refine Bytes.str_congr fun j _ => ?_
      rw [Dirent.name, Nat.add_assoc]
    rw [hfull]
    dsimp only
    rw [if_neg (by simp)]
    have hdots : ∀ w : Str, 0 ∉ w → w.length < DIRSIZ →
        (strcmp (Dirent.name fun j => Bytes.ofList n.data (direntSize * k + j)) w = 0 ↔
          e.name = w) := fun w hw hlt => by rw [strcmp_eq_zero hw hlt, hname]
    simp only [hinum, hdots [46] (by decide) (by decide), hdots [46, 46] (by decide) (by decide)]
    have hseek := room_seek hfd ⟨i, direntSize * (k + 1)⟩
    have hdrop : n.entries.drop k = e :: n.entries.drop (k + 1) := by
      rw [List.drop_eq_getElem_cons hlt, he]
    -- the turns after this one
    have hrest : ∀ {buf' : Bytes} (log : List Event), Begins buf' (path ++ [47]) →
        Wp E (scan T find fd (path.length + 1) turns buf') (fun _ t => ∃ f, t =
          ⟨Function.update s.ofile fd (some f), s.files, log ++ ((n.entries.drop (k + 1)).filter
            listed).flatMap fun e => out (path ++ 47 :: e.name)⟩)
          ⟨Function.update s.ofile fd (some ⟨i, direntSize * (k + 1)⟩), s.files, log⟩ := by
      intro buf' log hbuf'
      refine (ih hbuf' (by omega) hlt (Function.update_self ..) ((hseek log).trans hroom)).mono
        fun _ t ht => ?_
      obtain ⟨f, rfl⟩ := ht
      exact ⟨f, by rw [Function.update_idem]⟩
    rw [hdrop, List.filter_cons]
    by_cases hl : listed e = true
    · obtain ⟨h0, hdot, hdotdot⟩ : e.inum ≠ 0 ∧ e.name ≠ [46] ∧ e.name ≠ [46, 46] := by
        simpa [listed] using hl
      rw [if_neg h0, if_neg (by simp [hdot, hdotdot]), if_pos hl,
        List.flatMap_cons, ← List.append_assoc]
      have hlen' : (path ++ [47]).length = path.length + 1 := by simp
      refine wp_bind.mpr ((wp_store (by omega)).mpr (wp_bind.mpr ((wp_store (by omega)).mpr ?_)))
      rw [str_child hbuf hpath hlen, hname]
      refine wp_bind.mpr ((hfind e hmem hl _ ((hseek _).trans hroom)).mono fun _ t ht => ?_)
      rw [ht]
      exact hrest _ ((hbuf.copy (by omega) _ _).copy (by omega) _ _)
    · rw [if_neg hl]
      have hskip : e.inum = 0 ∨ (e.name = [46] ∨ e.name = [46, 46]) := by
        by_contra hno
        simp only [not_or] at hno
        exact hl (by simp [listed, hno])
      by_cases h0 : e.inum = 0
      · rw [if_pos h0]
        exact hrest _ hbuf
      · rw [if_neg h0, if_pos (hskip.resolve_left h0)]
        exact hrest _ hbuf

theorem openNode_length (h : openNode T cwd path = some (i, n)) :
    path.length < Param.MAXPATH ∧ T i = some n := by
  unfold openNode at h
  split at h
  · rename_i hlen
    obtain ⟨r, -, h⟩ := Option.bind_eq_some_iff.mp h
    obtain ⟨m, hm, h⟩ := Option.bind_eq_some_iff.mp h
    split at h
    · cases h
    · obtain ⟨rfl, rfl⟩ := Prod.mk.inj (Option.some.inj h)
      exact ⟨hlen, hm⟩
  · cases h

theorem wp_descend (out : Str → List Event) {find : Str → FindM Unit} {r : ℕ} {junk : Bytes}
    (hfind : ∀ e ∈ n.entries, listed e = true → ∀ u : Process, u.room = r →
      Wp E (find (path ++ 47 :: e.name))
        (fun _ t => t = { u with log := u.log ++ out (path ++ 47 :: e.name) }) u)
    (hpath : 0 ∉ path) (hlen : path.length + DIRSIZ + 2 ≤ bufSize) (hn : T i = some n)
    (hfd : s.ofile fd = some ⟨i, 0⟩) (hroom : s.room = r) :
    Wp E (descend T find fd path junk) (fun _ t => ∃ f, t =
      ⟨Function.update s.ofile fd (some f), s.files, s.log ++ (n.entries.filter listed).flatMap
        fun e => out (path ++ 47 :: e.name)⟩) s := by
  refine wp_bind.mpr ((wp_store (by omega)).mpr ?_)
  have hstr : Bytes.str (junk.copy 0 (Bytes.ofList path) 0 (path.length + 1)) bufSize = path := by
    refine (Bytes.str_eq_iff hpath (by omega)).mpr ⟨fun k hk => ?_, fun _ => ?_⟩
    · rw [Bytes.copy_of_mem (by omega), Nat.zero_add, Nat.sub_zero]
      simp [Bytes.ofList, hk]
    · rw [Bytes.copy_of_mem (by omega), Nat.zero_add, Nat.sub_zero]
      simp [Bytes.ofList]
  rw [hstr]
  refine wp_bind.mpr ((wp_store (by omega)).mpr (wp_bind.mpr (wp_get.mpr ?_)))
  rw [hfd, Option.bind_some, hn]
  refine (wp_scan (k := 0) hfind hpath hlen (fun k hk => ?_) hn (Nat.lt_of_lt_of_eq
    (Nat.lt_succ_self _) (Nat.zero_add _).symm) (Nat.zero_le _) hfd
    hroom).mono fun _ t ht => ht
  rw [List.length_append, List.length_singleton] at hk
  rcases Nat.lt_succ_iff_lt_or_eq.mp hk with hlt | rfl
  · rw [Bytes.copy_of_not_mem (by omega), Bytes.copy_of_mem (by omega), Nat.zero_add, Nat.sub_zero,
      List.getElem_append_left hlt]
    simp [Bytes.ofList, hlt]
  · rw [Bytes.copy_of_mem (by omega)]
    simp

theorem wp_close {f : OpenFile} {log : List Event} (hfree : s.ofile fd = none)
    (hfiles : s.files ≠ 0) : Wp E (close fd) (fun _ t => t = { s with log := log })
      ⟨Function.update s.ofile fd (some f), s.files - 1, log⟩ := by
  refine wp_modify.mpr ?_
  dsimp only
  rw [Function.update_self]
  dsimp only
  rw [Function.update_idem, ← hfree, Function.update_eq_self, Nat.sub_add_cancel (by omega)]

theorem wp_inspect {found find : Str → FindM Unit} {act : Str → List Event} {sub : Str → List Str}
    {r : ℕ} {junk : Bytes}
    (hfound : n.type = T_FILE → fmtname path = target →
      Wp E (found path) (fun _ t => t = { s with log := s.log ++ act path }) s)
    (hfind : n.type = T_DIR → ∀ e ∈ n.entries, listed e = true → ∀ u : Process, u.room = r →
      Wp E (find (path ++ 47 :: e.name))
        (fun _ t => t = { u with log := u.log ++ (sub (path ++ 47 :: e.name)).flatMap act }) u)
    (htarget : 0 ∉ target) (hpath : 0 ∉ path) (hlen : path.length + DIRSIZ + 2 ≤ bufSize)
    (hn : T i = some n) (hfd : s.ofile fd = some ⟨i, 0⟩) (hroom : s.room = r) :
    Wp E (inspect T found find target junk fd path n.type) (fun _ t => ∃ f, t =
      ⟨Function.update s.ofile fd (some f), s.files, s.log ++
        (if n.type = T_FILE then if fmtname path = target then [path] else []
          else if n.type = T_DIR then (n.entries.filter listed).flatMap fun e =>
            sub (path ++ 47 :: e.name)
          else []).flatMap act⟩) s := by
  have hself : Function.update s.ofile fd (some ⟨i, 0⟩) = s.ofile := by
    rw [← hfd, Function.update_eq_self]
  unfold inspect
  simp only [strcmp_fmtname hpath htarget]
  split
  · rename_i hfile
    split
    · rename_i hname
      refine (hfound hfile hname).mono fun _ t ht => ⟨⟨i, 0⟩, ?_⟩
      rw [hself, ht]
      simp
    · refine wp_pure.mpr ⟨⟨i, 0⟩, ?_⟩
      rw [hself]
      simp
  split
  · rename_i hdir
    refine (wp_descend (fun p => (sub p).flatMap act) (hfind hdir) hpath hlen hn hfd hroom).mono
      fun _ t ht => ?_
    rwa [List.flatMap_assoc]
  · refine wp_pure.mpr ⟨⟨i, 0⟩, ?_⟩
    rw [hself]
    simp

/-- A walk finds what matches, and leaves the descriptors as they were. Nothing is asked of what is
done with other paths. -/
theorem wp_walk {found : Str → FindM Unit} {act : Str → List Event} {junk : Bytes} {depth : ℕ}
    (s : Process) (hfound : ∀ p ∈ matching T cwd target depth s.room path, ∀ u : Process,
      Wp E (found p) (fun _ t => t = { u with log := u.log ++ act p }) u)
    (hmax : Param.MAXPATH + DIRSIZ + 1 ≤ bufSize) (htarget : 0 ∉ target) (hpath : 0 ∉ path)
    (hdepth : Param.MAXPATH < depth + path.length) (hpos : 0 < depth) :
    Wp E (walk T cwd found target junk depth path) (fun _ t => t =
      { s with log := s.log ++ (matching T cwd target depth s.room path).flatMap act }) s := by
  induction depth generalizing path s with
  | zero => omega
  | succ depth ih =>
    unfold walk
    have hnone : openNode T cwd path = none ∨ s.room = 0 →
        matching T cwd target (depth + 1) s.room path = [] ∧
          Ends (openRead T cwd path) s none s := by
      intro h
      refine ⟨?_, openRead_none h⟩
      unfold matching
      rcases h with h | h
      · cases s.room <;> simp [h]
      · rw [h]
    by_cases hopen : openNode T cwd path = none ∨ s.room = 0
    · obtain ⟨hempty, hends⟩ := hnone hopen
      refine wp_bind.mpr (.of_ends hends (wp_pure.mpr ?_))
      rw [hempty]
      simp
    simp only [not_or] at hopen
    obtain ⟨⟨i, n⟩, hi⟩ := Option.ne_none_iff_exists'.mp hopen.1
    obtain ⟨hlen, hn⟩ := openNode_length hi
    obtain ⟨hfiles, fd, hfree, hends⟩ := openRead_ends hi hopen.2
    refine wp_bind.mpr (.of_ends hends ?_)
    have hroom := room_open hfree hfiles ⟨i, 0⟩ s.log
    obtain ⟨u, hu⟩ : ∃ u : Process, u =
      ⟨Function.update s.ofile fd (some ⟨i, 0⟩), s.files - 1, s.log⟩ := ⟨_, rfl⟩
    have hfd : u.ofile fd = some ⟨i, 0⟩ := by rw [hu]; exact Function.update_self ..
    rw [← hu] at hroom ⊢
    refine wp_bind.mpr (wp_bind.mpr (wp_get.mpr (wp_pure.mpr ?_)))
    rw [hfd, Option.bind_some, hn, Option.map_some]
    rw [← hroom, matching, hi] at hfound
    dsimp only at hfound
    have hsub : n.type = T_DIR → ∀ e ∈ n.entries, listed e = true → ∀ v : Process, v.room = u.room →
        Wp E (walk T cwd found target junk depth (path ++ 47 :: e.name)) (fun _ t => t = { v with
          log := v.log ++ (matching T cwd target depth u.room (path ++ 47 :: e.name)).flatMap act })
          v := by
      intro hdir e he hl v hv
      have hname := zero_not_mem_name he
      have hlonger : (path ++ 47 :: e.name).length = path.length + (e.name.length + 1) := by simp
      rw [← hv]
      refine ih v (fun p hp => hfound p ?_) (by simp [hpath, hname]) (by omega) (by omega)
      rw [hdir, if_neg (by decide), if_pos rfl]
      rw [hv] at hp
      exact List.mem_flatMap.mpr ⟨e, List.mem_filter.mpr ⟨he, hl⟩, hp⟩
    have hself : n.type = T_FILE → fmtname path = target →
        Wp E (found path) (fun _ t => t = { u with log := u.log ++ act path }) u := by
      intro hfile hname
      refine hfound path ?_ u
      rw [if_pos hfile, if_pos hname]
      exact List.mem_singleton.mpr rfl
    refine wp_bind.mpr ((wp_inspect hself hsub htarget hpath (by omega) hn hfd rfl).mono
      fun _ t ht => ?_)
    obtain ⟨f, rfl⟩ := ht
    rw [← hroom, matching, hi, hu, Function.update_idem]
    exact wp_close hfree hfiles

theorem matching_depth {depth depth' room : ℕ} (h : Param.MAXPATH < depth + path.length)
    (hpos : 0 < depth) (h' : Param.MAXPATH < depth' + path.length) (hpos' : 0 < depth') :
    matching T cwd target depth room path = matching T cwd target depth' room path := by
  induction depth generalizing depth' room path with
  | zero => omega
  | succ depth ih =>
    cases depth' with
    | zero => omega
    | succ depth' =>
      cases room with
      | zero => rfl
      | succ room =>
        unfold matching
        cases hi : openNode T cwd path with
        | none => rfl
        | some r =>
          have hlen := (openNode_length hi).1
          have hsub : ∀ e : Entry, matching T cwd target depth room (path ++ 47 :: e.name) =
              matching T cwd target depth' room (path ++ 47 :: e.name) := fun e => by
            have hlonger : (path ++ 47 :: e.name).length = path.length + (e.name.length + 1) := by
              simp
            exact ih (by omega) (by omega) (by omega) (by omega)
          simp only [hsub]

theorem wp_print {p : Str} :
    Wp E (print p) (fun _ t => t = { s with log := s.log ++ [.print p] }) s := wp_modify.mpr rfl

theorem find_ends {junk : Bytes} {depth : ℕ} (hbuf : Param.MAXPATH + DIRSIZ + 1 ≤ bufSize)
    (htarget : 0 ∉ target) (hpath : 0 ∉ path) (hlong : Param.MAXPATH < depth + path.length)
    (hpos : 0 < depth) (s : Process) : Ends (Plain.find T cwd target junk depth path) s ()
      { s with log := s.log ++ (matching T cwd target depth s.room path).map .print } := by
  have hwalk : Wp (fun _ => False) (Plain.find T cwd target junk depth path) _ s :=
    wp_walk s (fun _ _ _ => wp_print) hbuf htarget hpath hlong hpos
  obtain ⟨⟨⟩, t, hends, ht⟩ := hwalk.ends
  rw [ht, ← List.map_eq_flatMap] at hends
  exact hends

variable [lim : Limits]

def Fits (cmd : List Str) : Prop := cmd.length + 2 ≤ Limits.MAXARG

theorem wp_runExec {cmd : List Str} {p : Str} (h : ¬ Fits cmd → E .argv) :
    Wp E (runExec cmd p) (fun _ t => t = { s with log := s.log ++ [.exec (cmd ++ [p])] }) s := by
  unfold runExec
  split
  · exact wp_modify.mpr rfl
  · rename_i hlong
    exact wp_throw.mpr (h hlong)

def report (cmd : Option (List Str)) (p : Str) : Event := match cmd with
  | none => .print p
  | some argv => .exec (argv ++ [p])

/-- Both programs come to an end, the same for every depth of the recursion from 129 on: they write
nothing outside the buffer for the path, and make only finitely many calls. Only a command that is
too long for its array stops the second one. -/
theorem find_terminates (hmax : Param.MAXPATH = 128) (hpath : 0 ∉ path) (htarget : 0 ∉ target)
    (T : Tree) (cwd : ℕ) (s : Process) :
    (∃ t, ∀ depth junk, 128 < depth → Ends (Plain.find T cwd target junk depth path) s () t) ∧
    ∀ cmd, ∃ t, ∀ depth junk, 128 < depth →
      Wp (fun e => e = .argv ∧ ∃ argv ∈ cmd, ¬ Fits argv)
        (Command.find T cwd cmd target junk depth path) (fun _ u => u = t) s := by
  have hbuf : Param.MAXPATH + DIRSIZ + 1 ≤ bufSize := by rw [hmax]; decide
  have hfix : ∀ depth, 128 < depth → matching T cwd target depth s.room path =
      matching T cwd target 129 s.room path := fun depth h =>
    matching_depth (by omega) (by omega) (by omega) (by omega)
  constructor
  · refine ⟨{ s with log := s.log ++ (matching T cwd target 129 s.room path).map .print },
      fun depth junk h => ?_⟩
    rw [← hfix depth h]
    exact find_ends hbuf htarget hpath (by omega) (by omega) s
  · refine fun cmd => ⟨{ s with
      log := s.log ++ (matching T cwd target 129 s.room path).flatMap fun p => [report cmd p] },
      fun depth junk h => ?_⟩
    have hfound : ∀ p (u : Process), Wp (fun e => e = Stop.argv ∧ ∃ argv ∈ cmd, ¬ Fits argv)
        (handle cmd p) (fun _ t => t = { u with log := u.log ++ [report cmd p] }) u := by
      intro p u
      cases cmd with
      | none => exact wp_print
      | some argv => exact wp_runExec fun hlong => ⟨rfl, argv, rfl, hlong⟩
    have hwalk : Wp _ (Command.find T cwd cmd target junk depth path) _ s :=
      wp_walk s (fun p _ => hfound p) hbuf htarget hpath (by omega) (by omega)
    rw [hfix depth h] at hwalk
    exact hwalk

end Walks

def loopTree : Tree := fun i =>
  if i = ROOTINO then some ⟨T_DIR, 0, 0, 1, [1, 0] ++ List.replicate DIRSIZ 97⟩ else none

theorem find_terminates_loop :
    letI := smallParam
    ∃ t, ∀ depth junk, 128 < depth →
      Ends (Plain.find loopTree ROOTINO [97] junk depth [47]) ⟨fun _ => none, 100, []⟩ () t :=
  let _ := smallParam
  let _ : Limits := ⟨32⟩
  (find_terminates rfl (by decide) (by decide) loopTree ROOTINO ⟨fun _ => none, 100, []⟩).1

end Xv6Sheet.Find
