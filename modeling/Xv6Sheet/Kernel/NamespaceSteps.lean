import Xv6Sheet.Kernel.Namespace

/-! # Steps of a directory tree

A node is made under a name, a file gets a second name, a name is removed with its node or without,
a file is emptied, and a node without names goes away. Each step keeps the tree proper.
-/

namespace Xv6Sheet.Kernel

variable {n n' nd nd' : Node} {name : List UInt8} {e : Entry} {d i k : ℕ} {x : Option Node}

/-- The tree after the file `i` was entered under a name in the directory `d`. -/
structure Entered (T : Tree) (d i : ℕ) (name : List UInt8) (nd nd' n : Node) (T' : Tree) :
    Prop where
  file : T i = some n
  type : n.type ≠ T_DIR
  parent : T d = some nd
  dir : nd.type = T_DIR
  absent : nd.lookup name = none
  adds : Adds nd nd' ⟨i % 2 ^ 16, name⟩
  tree : T' = T.revise i (some { n with nlink := toShort (n.nlink + 1) }) d nd'

/-- The tree after a name was removed from the directory `d`. The node `i` that it named stays, with
one link less, or it is gone when that was the last one. -/
structure Removed (T : Tree) (d i : ℕ) (name : List UInt8) (nd nd' n : Node) (x : Option Node)
    (T' : Tree) : Prop where
  parent : T d = some nd
  dir : nd.type = T_DIR
  found : ∃ k, nd.lookup name = some (k, i) ∧ Node.Clears nd nd' k
  dot : name ≠ Bytes.str dot DIRSIZ
  dotdot : name ≠ Bytes.str dotdot DIRSIZ
  node : T i = some n
  empty : n.type = T_DIR → ∀ k, 2 ≤ k → ∀ e, n.entries[k]? = some e → e.inum = 0
  nlink : nd'.nlink = if n.type = T_DIR then toShort (nd.nlink - 1) else nd.nlink
  left : x = some { n with nlink := toShort (n.nlink - 1) } ∨ x = none ∧ toShort (n.nlink - 1) = 0
  tree : T' = T.revise i x d nd'

theorem Node.children_eq_nil (h : ∀ k, 2 ≤ k → ∀ e, n.entries[k]? = some e → e.inum = 0) :
    n.children = [] := by
  refine List.eq_nil_iff_forall_not_mem.mpr fun c hc => ?_
  obtain ⟨-, k, e, hk, he, hlink⟩ := Node.mem_children.mp hc
  obtain ⟨hi, h0, -⟩ := Entry.link?_eq_some.mp hlink
  exact h0 (hi ▸ h k hk e he)

variable [sb : Superblock] {T T' : Tree}

theorem Made.dir_type (h : Made T d i name nd nd' n T') : nd'.type = T_DIR := by
  have hfields := congrArg Node.type h.adds.fields
  exact hfields.trans h.dir

namespace Tree.Proper

theorem made (h : T.Proper) (hN : sb.ninodes ≤ 2 ^ 16) (hroom : T.Roomy)
    (hm : Made T d i name nd nd' n T') : T'.Proper := by
  obtain ⟨p, hp⟩ := h.directory d nd hm.parent hm.dir
  have hd := h.bounded d nd hm.parent
  have hadds := hm.adds
  have hdata := hm.data
  rw [Nat.mod_eq_of_lt (lt_of_lt_of_le hm.lt hN)] at hadds
  obtain ⟨hdir, hcount⟩ := hp.adds hd.1.ne' (h.parent_pos ⟨nd, hm.parent, hp⟩) hadds hm.absent
    hm.pos.ne'
  have hcount : ∀ j, nd'.children.count j = nd.children.count j + if i = j then 1 else 0 := hcount
  have hroot : i ≠ ROOTINO := by
    rintro rfl
    obtain ⟨m, hm', -⟩ := h.root
    rw [hm.free] at hm'
    cases hm'
  rw [hm.tree]
  refine Tree.Revision.proper (x := some n) ⟨hm.ne, hroot, hm.parent, hp,
    ⟨hdir.type, hdir.dot, hdir.dotdot, hdir.unique⟩, ⟨hm.pos, hm.lt⟩,
    fun m hi => ?_, fun m hi htype => ?_,
    fun j hj => ?_, ?_, ?_⟩ h
  · rw [hm.free] at hi
    cases hi
  · obtain rfl := Option.some.inj hi
    rw [if_pos htype] at hdata
    have hentries := Node.entries_of_dots hdata hm.pos.ne' (lt_of_lt_of_le hm.lt hN)
      (lt_of_lt_of_le hd.2 hN)
    exact ⟨hm.free, Node.directory_of_two htype hentries, Node.children_of_two htype hentries,
      by rw [hcount, if_pos rfl]⟩
  · rw [hcount, if_neg (Ne.symm hj), Nat.add_zero]
  · rw [hm.free, hcount, if_pos rfl, Option.elim_some, Option.elim_none, hm.nlink]
    omega
  · have hlt := hroom d nd hm.parent
    have hle := h.nlink_eq hm.parent
    rw [hm.free, hm.links, Tree.upward, Tree.upward, Option.elim_none, Option.elim_some]
    split
    · rw [toShort_eq (by omega) (by omega)]
      omega
    · rfl

theorem ne_root (h : T.Proper) (hi : T i = some n) (htype : n.type ≠ T_DIR) : i ≠ ROOTINO := by
  rintro rfl
  obtain ⟨m, hm, hdir⟩ := h.root
  obtain rfl := Option.some.inj (hi.symm.trans hm)
  exact htype hdir.type

/-- A node that is not a directory, and with it the names of one directory for it, is changed. -/
theorem reviseFile (h : T.Proper) {p : ℕ} (hd : T d = some nd) (hp : nd.Directory d p)
    (hp' : nd'.Directory d p) (hi : T i = some n) (htype : n.type ≠ T_DIR)
    (hx : ∀ m, x = some m → m.type ≠ T_DIR)
    (hothers : ∀ j, j ≠ i → nd'.children.count j = nd.children.count j)
    (hcount : x.elim 0 Node.nlink + nd.children.count i = n.nlink + nd'.children.count i)
    (hnlink : nd'.nlink = nd.nlink) : (T.revise i x d nd').Proper := by
  have hne : i ≠ d := by
    rintro rfl
    obtain rfl := Option.some.inj (hi.symm.trans hd)
    exact htype hp.type
  refine Tree.Revision.proper ⟨hne, h.ne_root hi htype, hd, hp, hp', h.bounded i n hi,
    fun m hm ht => ?_,
    fun m hm ht => absurd ht (hx m hm), hothers, by rwa [hi], ?_⟩ h
  · obtain rfl := Option.some.inj (hi.symm.trans hm)
    exact absurd ht htype
  · have hup : Tree.upward x = 0 := by
      cases x with
      | none => rfl
      | some m => exact if_neg (hx m rfl)
    rw [hi, hup, hnlink, Tree.upward, Option.elim_some, if_neg htype]

theorem entered (h : T.Proper) (hN : sb.ninodes ≤ 2 ^ 16) (hroom : T.Roomy)
    (he : Entered T d i name nd nd' n T') : T'.Proper := by
  obtain ⟨p, hp⟩ := h.directory d nd he.parent he.dir
  have hi := h.bounded i n he.file
  have hadds := he.adds
  rw [Nat.mod_eq_of_lt (lt_of_lt_of_le hi.2 hN)] at hadds
  obtain ⟨hp', hcount⟩ := hp.adds (h.bounded d nd he.parent).1.ne'
    (h.parent_pos ⟨nd, he.parent, hp⟩)
    hadds he.absent hi.1.ne'
  have hcount : ∀ j, nd'.children.count j = nd.children.count j + if i = j then 1 else 0 := hcount
  rw [he.tree]
  refine h.reviseFile he.parent hp hp' he.file he.type (fun m hm => ?_) (fun j hj => ?_) ?_ ?_
  · obtain rfl := Option.some.inj hm
    exact he.type
  · rw [hcount, if_neg (Ne.symm hj), Nat.add_zero]
  · have hlt := hroom i n he.file
    have hle := h.nlink_eq he.file
    rw [hcount, if_pos rfl, Option.elim_some, toShort_eq (by omega) (by omega)]
    dsimp only
    omega
  · rw [he.adds.fields]

theorem child_ne_root (h : T.Proper) (hd : T d = some nd) (hc : i ∈ nd.children) (hi : T i = some n)
    (hdir : n.type = T_DIR) : i ≠ ROOTINO := by
  rintro rfl
  have hnames := h.named _ n hi hdir
  rw [if_pos rfl] at hnames
  exact Nat.lt_irrefl 0 (hnames ▸ names_pos.mpr ⟨d, (h.bounded d nd hd).2, nd, hd, hc⟩)

theorem nlink_of_empty (h : T.Proper) (hd : T d = some nd) (hc : i ∈ nd.children)
    (hi : T i = some n)
    (hdir : n.type = T_DIR) (hnil : n.children = []) : n.nlink = 1 := by
  rw [h.nlink_eq hi, h.links_of_empty hi hdir (h.child_ne_root hd hc hi hdir) hnil]
  rfl

theorem removed (h : T.Proper) (hroom : T.Roomy) (hr : Removed T d i name nd nd' n x T')
    (hx : n.type = T_DIR → x = none) : T'.Proper := by
  obtain ⟨p, hp⟩ := h.directory d nd hr.parent hr.dir
  obtain ⟨k, hfound, hclears⟩ := hr.found
  obtain ⟨e, he, hei, h0, hname⟩ := Node.lookup_eq_some hfound
  have hmem := hp.mem_children_of_lookup hfound hr.dot hr.dotdot
  have hlink : e.link? = some i := Entry.link?_eq_some.mpr ⟨hei, h0, hname ▸ hr.dot⟩
  obtain ⟨hp', hcount⟩ := hp.clears hclears (hp.two_le_of_lookup hfound hr.dot hr.dotdot) he hlink
  have hcounti := hcount i
  rw [if_pos rfl] at hcounti
  have hothers : ∀ j, j ≠ i → nd'.children.count j = nd.children.count j := by
    intro j hj
    have hj' := hcount j
    rwa [if_neg (Ne.symm hj), Nat.add_zero] at hj'
  have hlt := hroom i n hr.node
  have hpos := h.nlink_of_links hr.parent (Node.mem_links_of_mem_children hmem) hr.node
  have hle := h.nlink_eq hr.node
  have hshort : toShort (n.nlink - 1) = n.nlink - 1 := toShort_eq (by omega) (by omega)
  rw [hr.tree]
  by_cases htype : n.type = T_DIR
  · -- the empty directory had the one link that is cleared
    obtain rfl := hx htype
    have hhome := h.home d nd i hr.parent hmem n hr.node htype
    have hnil := Node.children_eq_nil (hr.empty htype)
    have hone := h.nlink_of_empty hr.parent hmem hr.node htype hnil
    have hroot := h.child_ne_root hr.parent hmem hr.node htype
    refine Tree.Revision.proper ⟨h.child_ne hr.parent hmem, hroot, hr.parent, hp, hp',
      h.bounded i n hr.node,
      fun m hm _ => ?_, by simp, hothers, ?_, ?_⟩ h
    · obtain rfl := Option.some.inj (hr.node.symm.trans hm)
      exact ⟨hhome, hnil⟩
    · rw [hr.node, Option.elim_none, Option.elim_some]
      omega
    · have hltd := hroom d nd hr.parent
      have hled := h.nlink_eq hr.parent
      have hnlink := hr.nlink
      rw [if_pos htype, toShort_eq (by omega) (by omega)] at hnlink
      rw [hr.node, Tree.upward, Tree.upward, Option.elim_some, Option.elim_none, if_pos htype]
      omega
  · refine h.reviseFile hr.parent hp hp' hr.node htype (fun m hm => ?_) hothers ?_ ?_
    · rcases hr.left with hl | ⟨hl, -⟩
      · rw [hl] at hm
        obtain rfl := Option.some.inj hm
        exact htype
      · simp [hl] at hm
    · rcases hr.left with hl | ⟨hl, hz⟩
      · rw [hl, Option.elim_some, hshort]
        dsimp only
        omega
      · rw [hl, Option.elim_none]
        omega
    · rw [hr.nlink, if_neg htype]

theorem update (h : T.Proper) (hi : T i = some n) (htype : n.type ≠ T_DIR)
    (hx : ∀ m, x = some m → m.type ≠ T_DIR) (hcount : x.elim 0 Node.nlink = n.nlink) :
    Tree.Proper (Function.update T i x) := by
  obtain ⟨m, hm, hdir⟩ := h.root
  have hsame : T.revise i x ROOTINO m = Function.update T i x := by
    rw [Tree.revise, ← hm, ← Function.update_of_ne (h.ne_root hi htype).symm x T,
      Function.update_eq_self]
  rw [← hsame]
  exact h.reviseFile hm hdir hdir hi htype hx (fun _ _ => rfl) (by rw [hcount]) rfl

theorem put (h : T.Proper) (i : ℕ) (r : ℤ) : (T.put i r).Proper := by
  unfold Tree.put
  split
  · rename_i hgone
    obtain ⟨n, hi, h0⟩ := Option.map_eq_some_iff.mp hgone.2
    exact h.update hi (fun hdir => h.nlink_ne_zero hi hdir h0) (by simp) h0.symm
  · exact h

end Tree.Proper

end Xv6Sheet.Kernel
