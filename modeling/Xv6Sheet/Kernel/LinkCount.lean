import Xv6Sheet.Kernel.NewEntry
import Xv6Sheet.Lib.Indegree

/-! # Links of a directory tree

An entry is a link to the node that it names, but for the entry `.` of a directory. A directory
has `.` and `..` in front and no two entries of one name, and an entry that is written or cleared
adds or takes one link.
-/

namespace Xv6Sheet.Kernel

theorem dot_ne_dotdot : Bytes.str dot DIRSIZ ≠ Bytes.str dotdot DIRSIZ := by decide

/-- The node that an entry is a link to: none when it is empty or the directory's own name. -/
def Entry.link? (e : Entry) : Option ℕ :=
  if e.inum = 0 ∨ e.name = Bytes.str dot DIRSIZ then none else some e.inum

theorem Entry.link?_eq_some {e : Entry} {i : ℕ} :
    e.link? = some i ↔ e.inum = i ∧ i ≠ 0 ∧ e.name ≠ Bytes.str dot DIRSIZ := by
  unfold link?
  split
  · rename_i h
    simp only [reduceCtorEq, false_iff]
    rintro ⟨rfl, h0, hname⟩
    exact h.elim h0 hname
  · rename_i h
    rw [not_or] at h
    rw [Option.some_inj]
    exact ⟨fun he => ⟨he, he ▸ h.1, h.2⟩, fun he => he.1⟩

theorem Entry.link?_of_empty {e : Entry} (h : e.inum = 0) : e.link? = none := if_pos (.inl h)

namespace Node

def links (n : Node) : List ℕ := if n.type = T_DIR then n.entries.filterMap Entry.link? else []

def children (n : Node) : List ℕ :=
  if n.type = T_DIR then (n.entries.drop 2).filterMap Entry.link? else []

variable {n n' : Node} {d p k c j : ℕ} {e : Entry} {name : List UInt8}

theorem links_of_ne (h : n.type ≠ T_DIR) : n.links = [] := if_neg h

theorem children_of_ne (h : n.type ≠ T_DIR) : n.children = [] := if_neg h

theorem mem_children : c ∈ n.children ↔ n.type = T_DIR ∧ ∃ k e, 2 ≤ k ∧
    n.entries[k]? = some e ∧ e.link? = some c := by
  unfold children
  split
  · rename_i hdir
    rw [List.mem_filterMap]
    constructor
    · rintro ⟨e, he, hc⟩
      obtain ⟨k, hk⟩ := List.mem_iff_getElem?.mp he
      rw [List.getElem?_drop] at hk
      exact ⟨hdir, 2 + k, e, Nat.le_add_right 2 k, hk, hc⟩
    · rintro ⟨-, k, e, hk, he, hc⟩
      refine ⟨e, List.mem_iff_getElem?.mpr ⟨k - 2, ?_⟩, hc⟩
      rwa [List.getElem?_drop, Nat.add_sub_cancel' hk]
  · rename_i hdir
    simp [hdir]

theorem mem_links_of_mem_children (h : c ∈ n.children) : c ∈ n.links := by
  obtain ⟨hdir, k, e, -, he, hc⟩ := mem_children.mp h
  rw [links, if_pos hdir]
  exact List.mem_filterMap.mpr ⟨e, List.mem_of_getElem? he, hc⟩

/-- The node is the directory `d` in the directory `p`. -/
structure Directory (n : Node) (d p : ℕ) : Prop where
  type : n.type = T_DIR
  dot : n.entries[0]? = some ⟨d, Bytes.str Kernel.dot DIRSIZ⟩
  dotdot : n.entries[1]? = some ⟨p, Bytes.str Kernel.dotdot DIRSIZ⟩
  unique : ∀ (j k : ℕ) (e e' : Entry), n.entries[j]? = some e → n.entries[k]? = some e' →
    e.inum ≠ 0 →
    e'.inum ≠ 0 → e.name = e'.name → j = k

namespace Directory

theorem parent_eq {q : ℕ} (h : n.Directory d p) (h' : n.Directory d q) : p = q :=
  congrArg Entry.inum (Option.some.inj (h.dotdot.symm.trans h'.dotdot))

theorem entries_eq (h : n.Directory d p) : n.entries =
    ⟨d, Bytes.str Kernel.dot DIRSIZ⟩ ::
    ⟨p, Bytes.str Kernel.dotdot DIRSIZ⟩ :: n.entries.drop 2 := by
  have h0 := h.dot
  have h1 := h.dotdot
  match hn : n.entries with
  | [] => simp [hn] at h0
  | [_] => simp [hn] at h1
  | a :: b :: l =>
    rw [hn] at h0 h1
    obtain rfl := Option.some.inj h0
    obtain rfl := Option.some.inj h1
    rfl

theorem two_le (h : n.Directory d p) : 2 ≤ n.entries.length := by
  rw [h.entries_eq]
  simp

theorem links (h : n.Directory d p) (hp : p ≠ 0) : n.links = p :: n.children := by
  have hdot : Entry.link? ⟨d, Bytes.str Kernel.dot DIRSIZ⟩ = none := if_pos (.inr rfl)
  have hdotdot : Entry.link? ⟨p, Bytes.str Kernel.dotdot DIRSIZ⟩ = some p :=
    Entry.link?_eq_some.mpr ⟨rfl, hp, dot_ne_dotdot.symm⟩
  rw [Node.links, if_pos h.type, children, if_pos h.type, h.entries_eq,
    List.filterMap_cons_none hdot, List.filterMap_cons_some hdotdot]
  rfl

theorem lookup_dots (h : n.Directory d p) (hd : d ≠ 0) (hp : p ≠ 0) (hl : n.lookup name = none) :
    name ≠ Bytes.str Kernel.dot DIRSIZ ∧ name ≠ Bytes.str Kernel.dotdot DIRSIZ := by
  have hnone := Node.lookup_eq_none.mp hl
  constructor
  · rintro rfl
    exact hnone _ (List.mem_of_getElem? h.dot) ⟨hd, rfl⟩
  · rintro rfl
    exact hnone _ (List.mem_of_getElem? h.dotdot) ⟨hp, rfl⟩

theorem two_le_of_lookup (h : n.Directory d p) (hl : n.lookup name = some (k, c))
    (hdot : name ≠ Bytes.str Kernel.dot DIRSIZ) (hdotdot : name ≠ Bytes.str Kernel.dotdot DIRSIZ) :
    2 ≤ k := by
  obtain ⟨e, he, -, -, rfl⟩ := Node.lookup_eq_some hl
  by_contra hlt
  obtain rfl | rfl : k = 0 ∨ k = 1 := by omega
  · rw [h.dot] at he
    obtain rfl := Option.some.inj he
    exact hdot rfl
  · rw [h.dotdot] at he
    obtain rfl := Option.some.inj he
    exact hdotdot rfl

theorem mem_children_of_lookup (h : n.Directory d p) (hl : n.lookup name = some (k, c))
    (hdot : name ≠ Bytes.str Kernel.dot DIRSIZ) (hdotdot : name ≠ Bytes.str Kernel.dotdot DIRSIZ) :
    c ∈ n.children := by
  obtain ⟨e, he, hc, h0, hname⟩ := Node.lookup_eq_some hl
  exact mem_children.mpr ⟨h.type, k, e, h.two_le_of_lookup hl hdot hdotdot, he,
    Entry.link?_eq_some.mpr ⟨hc, h0, hname ▸ hdot⟩⟩

end Directory

structure Clears (n n' : Node) (k : ℕ) : Prop where
  type : n'.type = n.type
  entries : n'.entries = n.entries.set k ⟨0, []⟩

theorem Directory.adds (h : n.Directory d p) (hd : d ≠ 0) (hp : p ≠ 0) (ha : Adds n n' e)
    (hl : n.lookup e.name = none) (h0 : e.inum ≠ 0) : n'.Directory d p ∧
      ∀ j, n'.children.count j = n.children.count j + if e.inum = j then 1 else 0 := by
  have htype : n'.type = T_DIR := by rw [ha.fields]; exact h.type
  obtain ⟨hdot, -⟩ := h.lookup_dots hd hp hl
  have hlink : e.link? = some e.inum := Entry.link?_eq_some.mpr ⟨rfl, h0, hdot⟩
  obtain ⟨k, hk, hempty, hget⟩ := ha.getElem?
  have hk2 : 2 ≤ k := by
    by_contra hlt
    obtain rfl | rfl : k = 0 ∨ k = 1 := by omega
    · exact hd (hempty _ h.dot)
    · exact hp (hempty _ h.dotdot)
  refine ⟨⟨htype, by rw [hget, if_neg (by omega)]; exact h.dot,
    by rw [hget, if_neg (by omega)]; exact h.dotdot, fun i j a b hi hj hai hbj hname => ?_⟩,
    fun j => ?_⟩
  · rw [hget] at hi hj
    have hnew : ∀ x ∈ n.entries, x.inum ≠ 0 → e.name ≠ x.name := fun x hx hx0 he =>
      Node.lookup_eq_none.mp hl x hx ⟨hx0, he.symm⟩
    split at hi <;> split at hj
    · omega
    · obtain rfl := Option.some.inj hi
      exact absurd hname (hnew b (List.mem_of_getElem? hj) hbj)
    · obtain rfl := Option.some.inj hj
      exact absurd hname.symm (hnew a (List.mem_of_getElem? hi) hai)
    · exact h.unique i j a b hi hj hai hbj hname
  · obtain ⟨k', hk', hempty', hentries⟩ := ha.entries
    rw [children, if_pos htype, children, if_pos h.type, hentries]
    split
    · rename_i hlt
      obtain ⟨x, hx⟩ : ∃ x, n.entries[k']? = some x := ⟨_, List.getElem?_eq_getElem hlt⟩
      have hk2' : 2 ≤ k' := by
        by_contra hlt'
        obtain rfl | rfl : k' = 0 ∨ k' = 1 := by omega
        · exact hd (hempty' _ h.dot)
        · exact hp (hempty' _ h.dotdot)
      rw [List.drop_set, if_neg (by omega)]
      refine count_filterMap_set_some (a := x) ?_ (Entry.link?_of_empty (hempty' x hx)) hlink
      rwa [List.getElem?_drop, Nat.add_sub_cancel' hk2']
    · rw [List.drop_append_of_le_length h.two_le, List.filterMap_append, List.count_append]
      simp [hlink, List.count_singleton]

theorem Directory.clears (h : n.Directory d p) (hc : Clears n n' k) (hk : 2 ≤ k)
    (he : n.entries[k]? = some e) (hlink : e.link? = some c) : n'.Directory d p ∧
      ∀ j, n'.children.count j + (if c = j then 1 else 0) = n.children.count j := by
  have htype : n'.type = T_DIR := hc.type.trans h.type
  have hlt := (List.getElem?_eq_some_iff.mp he).1
  have hget : ∀ i, n'.entries[i]? = if i = k then some ⟨0, []⟩ else n.entries[i]? := by
    intro i
    rw [hc.entries, List.getElem?_set]
    by_cases hi : k = i
    · subst hi
      rw [if_pos rfl, if_pos hlt, if_pos rfl]
    · rw [if_neg hi, if_neg (Ne.symm hi)]
  refine ⟨⟨htype, by rw [hget, if_neg (by omega)]; exact h.dot,
    by rw [hget, if_neg (by omega)]; exact h.dotdot, fun i j a b hi hj hai hbj hname => ?_⟩,
    fun j => ?_⟩
  · rw [hget] at hi hj
    split at hi
    · obtain rfl := Option.some.inj hi
      exact absurd rfl hai
    split at hj
    · obtain rfl := Option.some.inj hj
      exact absurd rfl hbj
    exact h.unique i j a b hi hj hai hbj hname
  · rw [children, if_pos htype, children, if_pos h.type, hc.entries, List.drop_set,
      if_neg (by omega)]
    refine count_filterMap_set_none (a := e) ?_ hlink (Entry.link?_of_empty rfl)
    rwa [List.getElem?_drop, Nat.add_sub_cancel' hk]

theorem clears_overlay (hk : k < n.entries.length) (x : ℤ) :
    Clears n { n with
      nlink := x
      data := Bytes.overlay n.data (direntSize * k) (Bytes.toList (fun _ => 0) direntSize) } k := by
  have hle : direntSize * k ≤ n.data.length := by
    rw [length_entries] at hk
    simp only [direntSize] at *
    omega
  refine ⟨rfl, ?_⟩
  have h := entries_overlay n (fun _ => 0) hle
  rw [if_pos hk, Entry.ofBytes_zero] at h
  exact h

theorem entries_of_dots {i : ℕ} (h : Dots d i { n with data := [] } n) (hi : i ≠ 0)
    (hilt : i < 2 ^ 16)
    (hdlt : d < 2 ^ 16) :
    n.entries = [⟨i, Bytes.str Kernel.dot DIRSIZ⟩, ⟨d, Bytes.str Kernel.dotdot DIRSIZ⟩] := by
  obtain ⟨m, h₁, h₂⟩ := h
  obtain ⟨k, hk, -, hm⟩ := h₁.entries
  have hnil : entries { n with data := [] } = [] := List.eq_nil_of_length_eq_zero (by simp)
  rw [hnil] at hk hm
  obtain rfl : k = 0 := Nat.le_zero.mp hk
  rw [List.length_nil, if_neg (Nat.lt_irrefl 0), List.nil_append, Nat.mod_eq_of_lt hilt] at hm
  obtain ⟨k, hk, hempty, hn⟩ := h₂.entries
  rw [hm] at hk hempty hn
  have hk1 : k = 1 := by
    by_contra hne
    obtain rfl : k = 0 := by
      simp only [List.length_singleton] at hk
      omega
    exact hi (hempty _ rfl)
  subst hk1
  rw [List.length_singleton, if_neg (Nat.lt_irrefl 1), Nat.mod_eq_of_lt hdlt] at hn
  exact hn

section Two

variable {i : ℕ} (hdir : n.type = T_DIR)
  (h : n.entries = [⟨i, Bytes.str Kernel.dot DIRSIZ⟩, ⟨d, Bytes.str Kernel.dotdot DIRSIZ⟩])

include hdir h

theorem directory_of_two : n.Directory i d := by
  refine ⟨hdir, by rw [h]; rfl, by rw [h]; rfl, fun j k a b hj hk _ _ hname => ?_⟩
  rw [h] at hj hk
  match j, k, hj, hk with
  | 0, 0, _, _ => rfl
  | 1, 1, _, _ => rfl
  | 0, 1, hj, hk =>
    obtain rfl := Option.some.inj hj
    obtain rfl := Option.some.inj hk
    exact absurd hname dot_ne_dotdot
  | 1, 0, hj, hk =>
    obtain rfl := Option.some.inj hj
    obtain rfl := Option.some.inj hk
    exact absurd hname dot_ne_dotdot.symm
  | j + 2, _, hj, _ => simp at hj
  | 0, k + 2, _, hk => simp at hk
  | 1, k + 2, _, hk => simp at hk

theorem children_of_two : n.children = [] := by
  rw [children, if_pos hdir, h]
  rfl

end Two

end Node

end Xv6Sheet.Kernel
