import Xv6Sheet.Kernel.Dir

/-! # The directory tree

What the disk holds, seen without blocks: a node for every allocated inode, with its fields
and its content. A directory is the list of its entries, and a path leads from directory to
directory along their names.
-/

namespace Xv6Sheet.Kernel

/-- A directory entry: an inode number, 0 when the entry is empty, and a name. -/
structure Entry where
  inum : ℕ
  name : List UInt8
  deriving DecidableEq

namespace Entry

def ofBytes (b : Bytes) (off : ℕ) : Entry where
  inum := b.le off 2
  name := Bytes.str (fun j => b (off + 2 + j)) DIRSIZ

theorem ofBytes_congr {b c : Bytes} {o o' : ℕ} (h : ∀ j < direntSize, b (o + j) = c (o' + j)) :
    ofBytes b o = ofBytes c o' := by
  have hle : b.le o 2 = c.le o' 2 := by
    rw [← Nat.add_zero o, ← Nat.add_zero o', ← Bytes.le_shift, ← Bytes.le_shift]
    exact Bytes.le_congr fun k _ hk => h k (by simp only [direntSize]; omega)
  have hstr : Bytes.str (fun j => b (o + 2 + j)) DIRSIZ = Bytes.str
    (fun j => c (o' + 2 + j)) DIRSIZ :=
    Bytes.str_congr fun k hk => by
      rw [Nat.add_assoc, Nat.add_assoc]
      exact h (2 + k) (by simp only [direntSize, DIRSIZ] at *; omega)
  rw [ofBytes, ofBytes, hle, hstr]

theorem ofBytes_make (inum : ℕ) (name : Bytes) :
    ofBytes (Dirent.make inum name) 0 = ⟨inum % 2 ^ 16, Bytes.str name DIRSIZ⟩ := by
  have hle : (Dirent.make inum name).le 0 2 = inum % 2 ^ 16 :=
    Bytes.le_putLe (Nat.mod_lt _ (by decide))
  have hstr : Bytes.str (fun j => Dirent.make inum name (0 + 2 + j)) DIRSIZ =
      Bytes.str name DIRSIZ := by
    have hlen := Bytes.str_length_le name DIRSIZ
    rw [← Bytes.str_ofList (Bytes.zero_not_mem_str name DIRSIZ) hlen]
    refine Bytes.str_congr fun k hk => ?_
    unfold Dirent.make
    rw [Bytes.putLe_of_not_mem (by omega), Bytes.strncpy, Bytes.copy_of_mem (by omega)]
    congr 1
    omega
  rw [ofBytes, hle, hstr]

theorem ofBytes_zero (off : ℕ) : ofBytes (fun _ => 0) off = ⟨0, []⟩ := by
  rw [ofBytes, Bytes.le_zero]
  rfl

end Entry

structure Node where
  type : ℤ
  major : ℤ
  minor : ℤ
  nlink : ℤ
  data : List UInt8

abbrev Tree := ℕ → Option Node

namespace Node

variable {n : Node} {k : ℕ}

def entries (n : Node) : List Entry :=
  (List.range (n.data.length / direntSize)).map fun k =>
    .ofBytes (Bytes.ofList n.data) (direntSize * k)

@[simp] theorem length_entries (n : Node) : n.entries.length = n.data.length / direntSize := by
  simp [entries]

theorem entries_getElem? (n : Node) (k : ℕ) :
    n.entries[k]? = if k < n.data.length / direntSize then
      some (.ofBytes (Bytes.ofList n.data) (direntSize * k)) else none := by
  unfold entries
  split
  · rename_i h; simp [h]
  · rename_i h; simpa using h

def Matches (name : List UInt8) (e : Entry) : Prop := e.inum ≠ 0 ∧ e.name = name

instance (name : List UInt8) : DecidablePred (Matches name) :=
  fun _ => inferInstanceAs (Decidable (_ ∧ _))

def lookup (n : Node) (name : List UInt8) : Option (ℕ × ℕ) :=
  (n.entries.findIdx? fun e => Matches name e).bind fun k =>
    n.entries[k]?.map fun e => (k, e.inum)

theorem lookup_eq_none {name : List UInt8} :
    n.lookup name = none ↔ ∀ e ∈ n.entries, ¬ Matches name e := by
  unfold lookup
  cases h : n.entries.findIdx? fun e => Matches name e with
  | none => simpa using h
  | some k =>
    obtain ⟨hk, hm, -⟩ := List.findIdx?_eq_some_iff_getElem.mp h
    simp only [Option.bind_some, hk, List.getElem?_eq_getElem, Option.map_some, reduceCtorEq,
      false_iff, not_forall, not_not]
    exact ⟨_, List.getElem_mem hk, by simpa using hm⟩

theorem lookup_eq_some {name : List UInt8} {j : ℕ} (h : n.lookup name = some (k, j)) :
    ∃ e, n.entries[k]? = some e ∧ e.inum = j ∧ j ≠ 0 ∧ e.name = name := by
  obtain ⟨k', hk', h⟩ := Option.bind_eq_some_iff.mp h
  obtain ⟨e, he, hke⟩ := Option.map_eq_some_iff.mp h
  obtain ⟨rfl, rfl⟩ := Prod.mk.inj hke
  obtain ⟨hlt, hm, -⟩ := List.findIdx?_eq_some_iff_getElem.mp hk'
  rw [List.getElem?_eq_getElem hlt] at he
  obtain rfl := Option.some.inj he
  obtain ⟨h0, hname⟩ : Matches name _ := of_decide_eq_true hm
  exact ⟨_, List.getElem?_eq_getElem hlt, rfl, h0, hname⟩

theorem lookup_eq_of_first {name : List UInt8} {e : Entry} (he : n.entries[k]? = some e)
    (hm : Matches name e) (hfirst : ∀ j < k, ∀ e', n.entries[j]? = some e' → ¬ Matches name e') :
    n.lookup name = some (k, e.inum) := by
  obtain ⟨hlt, rfl⟩ := List.getElem?_eq_some_iff.mp he
  have hk : n.entries.findIdx? (fun e => Matches name e) = some k := by
    refine List.findIdx?_eq_some_iff_getElem.mpr ⟨hlt, by simpa using hm, fun j hj => ?_⟩
    simpa using hfirst j hj _ (List.getElem?_eq_getElem (by omega))
  rw [lookup, hk, Option.bind_some, he, Option.map_some]

theorem entries_overlay (n : Node) (de : Bytes) (hk : direntSize * k ≤ n.data.length) :
    entries { n with data := Bytes.overlay n.data (direntSize * k) (de.toList direntSize) } =
      if k < n.entries.length then n.entries.set k (.ofBytes de 0) else n.entries ++
        [.ofBytes de 0] := by
  have hbyte : ∀ j, Bytes.ofList (Bytes.overlay n.data (direntSize * k) (de.toList direntSize)) j =
      if direntSize * k ≤ j ∧ j < direntSize * k + direntSize then de (j - direntSize * k)
      else Bytes.ofList n.data j := by
    intro j
    rw [Bytes.ofList, List.getD_eq_getElem?_getD, Bytes.overlay_getElem? hk, Bytes.length_toList]
    split
    · rw [Bytes.toList_getElem?, if_pos (by omega), Option.getD_some]
    · rw [Bytes.ofList, List.getD_eq_getElem?_getD]
  have hself : Entry.ofBytes (Bytes.ofList (Bytes.overlay n.data (direntSize * k)
      (de.toList direntSize))) (direntSize * k) = .ofBytes de 0 :=
    Entry.ofBytes_congr fun j hj => by
      rw [hbyte, if_pos (by omega), Nat.add_sub_cancel_left, Nat.zero_add]
  have hother : ∀ j, j ≠ k → Entry.ofBytes (Bytes.ofList (Bytes.overlay n.data (direntSize * k)
      (de.toList direntSize))) (direntSize * j) = .ofBytes (Bytes.ofList n.data) (direntSize * j) :=
    fun j hj => Entry.ofBytes_congr fun i hi => by
      rw [hbyte, if_neg (by simp only [direntSize] at *; omega)]
  refine List.ext_getElem? fun j => ?_
  rw [entries_getElem?]
  simp only [Bytes.length_overlay hk, Bytes.length_toList, length_entries]
  by_cases hlt : k < n.data.length / direntSize
  · rw [if_pos hlt]
    have hlen : max n.data.length (direntSize * k + direntSize) / direntSize =
        n.data.length / direntSize := by simp only [direntSize] at *; omega
    rw [hlen, List.getElem?_set, length_entries, entries_getElem?]
    by_cases hj : k = j
    · subst hj
      rw [if_pos hlt, if_pos rfl, if_pos hlt, hself]
    · rw [if_neg hj, hother j (Ne.symm hj)]
  · rw [if_neg hlt]
    have hlen : max n.data.length (direntSize * k + direntSize) / direntSize = k + 1 := by
      simp only [direntSize] at *; omega
    have hk' : n.data.length / direntSize = k := by simp only [direntSize] at *; omega
    rw [hlen]
    by_cases hj : j < k
    · rw [if_pos (by omega), List.getElem?_append_left (by rw [length_entries]; omega),
        entries_getElem?, if_pos (by omega), hother j (by omega)]
    · rw [List.getElem?_append_right (by rw [length_entries]; omega), length_entries, hk']
      by_cases hjk : j = k
      · subst hjk
        rw [if_pos (by omega), hself, Nat.sub_self]
        rfl
      · rw [if_neg (by omega), List.getElem?_eq_none (by simp; omega)]

end Node

/-- The tree after a reference to node `i` was dropped, of `r` references to it: without
links to it, the last one takes it out. -/
def Tree.put (T : Tree) (i : ℕ) (r : ℤ) : Tree :=
  if r = 1 ∧ (T i).map Node.nlink = some 0 then Function.update T i none else T

theorem Tree.put_of_ref {T : Tree} {i : ℕ} {r : ℤ} (h : r ≠ 1) : T.put i r = T :=
  if_neg fun hc => h hc.1

def Tree.Closed (T : Tree) : Prop :=
  ∀ d n, T d = some n → n.type = T_DIR → ∀ e ∈ n.entries, e.inum ≠ 0 → T e.inum ≠ none

theorem Tree.Closed.lookup {T : Tree} (h : T.Closed) {d k j : ℕ} {n : Node} {name : List UInt8}
    (hd : T d = some n) (hdir : n.type = T_DIR) (hl : n.lookup name = some (k, j)) :
    T j ≠ none := by
  obtain ⟨e, he, rfl, h0, -⟩ := Node.lookup_eq_some hl
  exact h d n hd hdir e (List.mem_of_getElem? he) h0

def Tree.Named (T : Tree) (i : ℕ) : Prop :=
  ∃ d n, T d = some n ∧ n.type = T_DIR ∧ ∃ e ∈ n.entries, e.inum = i

theorem Tree.named_of_lookup {T : Tree} {d k j : ℕ} {n : Node} {name : List UInt8}
    (hd : T d = some n) (hdir : n.type = T_DIR) (hl : n.lookup name = some (k, j)) : T.Named j := by
  obtain ⟨e, he, hj, -⟩ := Node.lookup_eq_some hl
  exact ⟨d, n, hd, hdir, e, List.mem_of_getElem? he, hj⟩

variable [pm : Param]

/-- The walk of `namex` from node `i` on, at position `p` of the path. -/
def Tree.walk (T : Tree) (path : Bytes) (parent : Bool) :
    ℕ → ℕ → ℕ → Bytes → Option (ℕ × Bytes)
  | 0, _, _, _ => none
  | fuel + 1, i, p, name =>
    match skipelem path p name with
    | none => none
    | some .last => if parent then none else some (i, name)
    | some (.elem p name) =>
      match T i with
      | none => none
      | some n =>
        if n.type ≠ T_DIR then none
        else if parent ∧ path p = 0 then some (i, name)
        else match n.lookup (Bytes.str name DIRSIZ) with
          | none => none
          | some (_, j) => Tree.walk T path parent fuel j p name

def Tree.visits (T : Tree) (path : Bytes) (parent : Bool) : ℕ → ℕ → ℕ → Bytes → List ℕ
  | 0, _, _, _ => []
  | fuel + 1, i, p, name =>
    match skipelem path p name with
    | none => []
    | some .last => []
    | some (.elem p name) => i :: match T i with
      | none => []
      | some n =>
        if n.type ≠ T_DIR then []
        else if parent ∧ path p = 0 then []
        else match n.lookup (Bytes.str name DIRSIZ) with
          | none => []
          | some (_, j) => Tree.visits T path parent fuel j p name

theorem Tree.walk_named {T : Tree} {path name name' : Bytes} {parent : Bool} {fuel i p j : ℕ}
    (h : T.walk path parent fuel i p name = some (j, name')) : j = i ∨ T.Named j := by
  induction fuel generalizing i p name with
  | zero => simp [walk] at h
  | succ fuel ih =>
    unfold walk at h
    split at h
    · simp at h
    · split at h
      · simp at h
      · exact .inl (Prod.mk.inj (Option.some.inj h)).1.symm
    · split at h
      · simp at h
      rename_i n hn
      split at h
      · simp at h
      rename_i hdir
      split at h
      · exact .inl (Prod.mk.inj (Option.some.inj h)).1.symm
      split at h
      · simp at h
      · rename_i hlookup
        rcases ih h with rfl | hj
        · exact .inr (named_of_lookup hn (not_not.mp hdir) hlookup)
        · exact .inr hj

theorem Tree.walk_parent {T : Tree} {path name name' : Bytes} {fuel i p j : ℕ}
    (h : T.walk path true fuel i p name = some (j, name')) :
    ∃ n, T j = some n ∧ n.type = T_DIR := by
  induction fuel generalizing i p name with
  | zero => simp [walk] at h
  | succ fuel ih =>
    unfold walk at h
    split at h
    · simp at h
    · simp at h
    · split at h
      · simp at h
      · rename_i n hn
        split at h
        · simp at h
        · rename_i hdir
          split at h
          · obtain ⟨rfl, -⟩ := Prod.mk.inj (Option.some.inj h)
            exact ⟨n, hn, by simpa using hdir⟩
          · split at h
            · simp at h
            · exact ih h

def startOf (cwd : ℕ) (path : Bytes) : ℕ := if path 0 = 47 then ROOTINO else cwd

/-- The node a path leads to from the node `cwd`, or its parent and the final element. -/
def Tree.namex (T : Tree) (cwd : ℕ) (path : Bytes) (parent : Bool) : Option (ℕ × Bytes) :=
  T.walk path parent Param.MAXPATH (startOf cwd path) 0 fun _ => 0

theorem Tree.namex_named {T : Tree} {cwd j : ℕ} {path name : Bytes} {parent : Bool}
    (h : T.namex cwd path parent = some (j, name)) : j = startOf cwd path ∨ T.Named j :=
  walk_named h

/-- The nodes that the walk of a path from the node `cwd` locks. -/
def Tree.nodesOn (T : Tree) (cwd : ℕ) (path : Bytes) (parent : Bool) : List ℕ :=
  T.visits path parent Param.MAXPATH (startOf cwd path) 0 fun _ => 0

end Xv6Sheet.Kernel
