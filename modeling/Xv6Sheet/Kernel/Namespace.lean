import Mathlib.Logic.Relation
import Xv6Sheet.Kernel.LinkCount

/-! # Proper directory trees

In a proper tree the link count of every node is the number of entries that are links to it, and
the directories hang from the root, each named once. Making a node, linking a file and removing
an entry keep the tree proper.
-/

namespace Xv6Sheet.Kernel

theorem toShort_eq {x : ℤ} (h : -2 ^ 15 ≤ x) (hlt : x < 2 ^ 15) : toShort x = x := by
  simp only [toShort, Int.bmod]
  split <;> omega

namespace Tree

def out (f : Node → List ℕ) (T : Tree) (d : ℕ) : List ℕ := (T d).elim [] f

theorem out_update (f : Node → List ℕ) (T : Tree) (d : ℕ) (x : Option Node) :
    out f (Function.update T d x) = Function.update (out f T) d (x.elim [] f) := by
  funext j
  unfold out
  by_cases hj : j = d
  · rw [hj, Function.update_self, Function.update_self]
  · rw [Function.update_of_ne hj, Function.update_of_ne hj]

def Parent (T : Tree) (c p : ℕ) : Prop := ∃ n, T c = some n ∧ n.Directory c p

/-- No link count is at the end of a `short`. -/
def Roomy (T : Tree) : Prop := ∀ i n, T i = some n → n.nlink < 2 ^ 15 - 1

variable [sb : Superblock]

def links (T : Tree) (i : ℕ) : ℕ := indegree sb.ninodes (T.out Node.links) i

/-- The number of those after `.` and `..`. -/
def names (T : Tree) (i : ℕ) : ℕ := indegree sb.ninodes (T.out Node.children) i

structure Proper (T : Tree) : Prop where
  bounded : ∀ i n, T i = some n → 0 < i ∧ i < sb.ninodes
  root : T.Parent ROOTINO ROOTINO
  directory : ∀ d n, T d = some n → n.type = T_DIR → ∃ p, n.Directory d p
  counted : ∀ i, T.links i = (T i).elim 0 Node.nlink
  named : ∀ d n, T d = some n → n.type = T_DIR → T.names d = if d = ROOTINO then 0 else 1
  home : ∀ p n c, T p = some n → c ∈ n.children → ∀ m, T c = some m → m.type = T_DIR →
    m.Directory c p
  rooted : ∀ d n, T d = some n → n.type = T_DIR → Relation.ReflTransGen T.Parent d ROOTINO

variable {T T' : Tree} {d i c p j k : ℕ} {n n' nd nd' : Node} {name : List UInt8}

theorem indegree_update (f : Node → List ℕ) (hd : d < sb.ninodes) (x : Option Node) :
    indegree sb.ninodes (out f (Function.update T d x)) j + ((T d).elim [] f).count j =
      indegree sb.ninodes (out f T) j + (x.elim [] f).count j := by
  rw [out_update]
  exact Xv6Sheet.indegree_update hd _

theorem links_pos : 0 < T.links i ↔ ∃ d < sb.ninodes, ∃ n, T d = some n ∧ i ∈ n.links := by
  rw [links, indegree_pos]
  refine exists_congr fun d => and_congr_right fun _ => ?_
  cases hd : T d <;> simp [out, hd]

theorem names_pos : 0 < T.names i ↔ ∃ d < sb.ninodes, ∃ n, T d = some n ∧ i ∈ n.children := by
  rw [names, indegree_pos]
  refine exists_congr fun d => and_congr_right fun _ => ?_
  cases hd : T d <;> simp [out, hd]

namespace Proper

theorem links_free (h : T.Proper) (hi : T i = none) : T.links i = 0 := by
  have hcount := h.counted i
  rw [hi] at hcount
  exact Int.ofNat_eq_zero.mp hcount

theorem nlink_eq (h : T.Proper) (hi : T i = some n) : n.nlink = T.links i := by
  rw [h.counted, hi]
  rfl

theorem child (h : T.Proper) (hp : T p = some n) (hc : c ∈ n.links) : T c ≠ none := by
  intro hfree
  have hpos := links_pos.mpr ⟨p, (h.bounded p n hp).2, n, hp, hc⟩
  rw [h.links_free hfree] at hpos
  exact Nat.lt_irrefl 0 hpos

theorem names_free (h : T.Proper) (hi : T i = none) : T.names i = 0 := by
  by_contra hne
  obtain ⟨d, -, n, hd, hn⟩ := names_pos.mp (Nat.pos_of_ne_zero hne)
  exact h.child hd (Node.mem_links_of_mem_children hn) hi

theorem parent (h : T.Proper) (hc : T.Parent c p) (hne : c ≠ ROOTINO) :
    ∃ n, T p = some n ∧ c ∈ n.children := by
  obtain ⟨m, hm, hdir⟩ := hc
  have hone := h.named c m hm hdir.type
  rw [if_neg hne] at hone
  obtain ⟨q, -, n, hq, hn⟩ := names_pos.mp (by rw [hone]; exact Nat.one_pos)
  obtain rfl := hdir.parent_eq (h.home q n c hq hn m hm hdir.type)
  exact ⟨n, hq, hn⟩

theorem lone (hdir : n.Directory ROOTINO ROOTINO) (hlink : n.nlink = 1) (hnil : n.children = [])
    (hlt : ROOTINO < sb.ninodes) : Proper (Function.update (fun _ => none) ROOTINO (some n)) := by
  have hsome : ∀ {i m}, Function.update (fun _ => none) ROOTINO (some n) i = some m → i = ROOTINO ∧
    m = n := by
    intro i m hi
    by_cases hroot : i = ROOTINO
    · subst hroot
      rw [Function.update_self] at hi
      exact ⟨rfl, (Option.some.inj hi).symm⟩
    · rw [Function.update_of_ne hroot] at hi
      cases hi
  have hempty : ∀ (f : Node → List ℕ) j, indegree sb.ninodes (out f fun _ => none) j = 0 :=
    fun f j => indegree_eq_zero.mpr fun _ _ => List.not_mem_nil
  have hroot : Parent (Function.update (fun _ => none) ROOTINO (some n)) ROOTINO ROOTINO :=
    ⟨n, Function.update_self .., hdir⟩
  refine ⟨fun i m hi => ?_, hroot, fun d m hd _ => ?_,
    fun i => ?_, fun d m hd _ => ?_, fun p m c hp hc => ?_,
    fun d m hd _ => ?_⟩
  · obtain ⟨rfl, -⟩ := hsome hi
    exact ⟨by decide, hlt⟩
  · obtain ⟨rfl, rfl⟩ := hsome hd
    exact ⟨_, hdir⟩
  · have hcount := indegree_update (T := fun _ => none) (j := i) Node.links hlt (some n)
    rw [hempty, Option.elim_none, Option.elim_some, hdir.links (by decide), hnil,
      List.count_nil] at hcount
    rw [links, show indegree _ _ _ = _ from hcount, zero_add, List.count_singleton]
    by_cases hi : i = ROOTINO
    · subst hi
      simp [hlink]
    · rw [Function.update_of_ne hi, beq_false_of_ne (Ne.symm hi)]
      rfl
  · have hcount := indegree_update (T := fun _ => none) (j := d) Node.children hlt (some n)
    rw [hempty, Option.elim_none, Option.elim_some, hnil, List.count_nil] at hcount
    rw [if_pos (hsome hd).1]
    exact hcount
  · obtain ⟨-, rfl⟩ := hsome hp
    rw [hnil] at hc
    exact absurd hc List.not_mem_nil
  · obtain ⟨rfl, -⟩ := hsome hd
    exact .refl

theorem parent_root (h : T.Proper) (hc : T.Parent ROOTINO p) : p = ROOTINO := by
  obtain ⟨m, hm, hdir⟩ := hc
  obtain ⟨m', hm', hdir'⟩ := h.root
  obtain rfl := Option.some.inj (hm.symm.trans hm')
  exact hdir.parent_eq hdir'

theorem parent_dir (h : T.Proper) (hc : T.Parent c p) : ∃ n, T p = some n ∧ n.type = T_DIR := by
  by_cases hroot : c = ROOTINO
  · subst hroot
    obtain ⟨m, hm, hdir⟩ := hc
    obtain rfl := h.parent_root ⟨m, hm, hdir⟩
    exact ⟨m, hm, hdir.type⟩
  · obtain ⟨n, hn, hmem⟩ := h.parent hc hroot
    exact ⟨n, hn, (Node.mem_children.mp hmem).1⟩

theorem parent_pos (h : T.Proper) (hc : T.Parent c p) : p ≠ 0 := by
  obtain ⟨n, hn, -⟩ := h.parent_dir hc
  exact (h.bounded p n hn).1.ne'

theorem links_eq (h : T.Proper) (hd : T d = some n) (hdir : n.Directory d p) :
    n.links = p :: n.children := hdir.links (h.parent_pos ⟨n, hd, hdir⟩)

theorem nlink_ne_zero (h : T.Proper) (hd : T d = some n) (hdir : n.type = T_DIR) : n.nlink ≠ 0 := by
  have hpos : 0 < T.links d := by
    by_cases hroot : d = ROOTINO
    · subst hroot
      obtain ⟨m, hm, hdir'⟩ := h.root
      refine links_pos.mpr ⟨_, (h.bounded _ m hm).2, m, hm, ?_⟩
      rw [h.links_eq hm hdir']
      exact List.mem_cons_self
    · obtain ⟨p, hp⟩ := h.directory d n hd hdir
      obtain ⟨m, hm, hc⟩ := h.parent ⟨n, hd, hp⟩ hroot
      exact links_pos.mpr ⟨p, (h.bounded p m hm).2, m, hm, Node.mem_links_of_mem_children hc⟩
  rw [h.nlink_eq hd]
  omega

theorem nlink_of_links (h : T.Proper) (hp : T p = some n) (hc : c ∈ n.links) {m : Node}
    (hm : T c = some m) : m.nlink ≠ 0 := by
  have hpos := links_pos.mpr ⟨p, (h.bounded p n hp).2, n, hp, hc⟩
  rw [h.nlink_eq hm]
  omega

theorem tidy (h : T.Proper) : T.Tidy := by
  intro d n hd hdir e he h0
  by_cases hdot : e.name = Bytes.str dot DIRSIZ
  · obtain ⟨p, hp⟩ := h.directory d n hd hdir
    obtain ⟨k, hk⟩ := List.mem_iff_getElem?.mp he
    have hd0 := (h.bounded d n hd).1.ne'
    obtain rfl := hp.unique k 0 e _ hk hp.dot h0 hd0 hdot
    rw [hp.dot] at hk
    exact .inl (congrArg Entry.inum (Option.some.inj hk)).symm
  · have hmem : e.inum ∈ n.links := by
      rw [Node.links, if_pos hdir]
      exact List.mem_filterMap.mpr ⟨e, he, Entry.link?_eq_some.mpr ⟨rfl, h0, hdot⟩⟩
    obtain ⟨m, hm⟩ := Option.ne_none_iff_exists'.mp (h.child hd hmem)
    exact .inr ⟨m, hm, h.nlink_of_links hd hmem hm⟩

theorem closed (h : T.Proper) : T.Closed := h.tidy.closed

theorem parent_ne (h : T.Proper) (hc : T.Parent c p) (hne : c ≠ ROOTINO) : p ≠ c := by
  rintro rfl
  obtain ⟨n, hn, hdir⟩ := hc
  have hstay : ∀ x, Relation.ReflTransGen T.Parent p x → x = p := by
    intro x hx
    induction hx with
    | refl => rfl
    | tail _ hstep ih =>
      subst ih
      obtain ⟨m, hm, hdir'⟩ := hstep
      obtain rfl := Option.some.inj (hn.symm.trans hm)
      exact (hdir.parent_eq hdir').symm
  exact hne (hstay _ (h.rooted p n hn hdir.type)).symm

theorem child_ne (h : T.Proper) (hd : T d = some n) (hc : c ∈ n.children) : c ≠ d := by
  rintro rfl
  have hdir := (Node.mem_children.mp hc).1
  have hnames := h.named c n hd hdir
  by_cases hroot : c = ROOTINO
  · rw [if_pos hroot] at hnames
    have hpos := names_pos.mpr ⟨c, (h.bounded c n hd).2, n, hd, hc⟩
    omega
  · exact h.parent_ne ⟨n, hd, h.home c n c hd hc n hd hdir⟩ hroot rfl

theorem parent_ne_of_empty (h : T.Proper) (hi : T i = some n) (hroot : i ≠ ROOTINO)
    (hnil : n.children = []) (hc : T.Parent c p) : p ≠ i := by
  rintro rfl
  by_cases hcr : c = ROOTINO
  · exact hroot (h.parent_root (hcr ▸ hc))
  · obtain ⟨m, hm, hmem⟩ := h.parent hc hcr
    obtain rfl := Option.some.inj (hi.symm.trans hm)
    rw [hnil] at hmem
    cases hmem

theorem links_of_empty (h : T.Proper) (hi : T i = some n) (hdir : n.type = T_DIR)
    (hroot : i ≠ ROOTINO)
    (hnil : n.children = []) : T.links i = 1 := by
  have hnames := h.named i n hi hdir
  rw [if_neg hroot] at hnames
  rw [← hnames]
  refine indegree_congr fun d _ => ?_
  unfold out
  cases hd : T d with
  | none => rfl
  | some m =>
    by_cases htype : m.type = T_DIR
    · obtain ⟨p, hp⟩ := h.directory d m hd htype
      have hne := h.parent_ne_of_empty hi hroot hnil ⟨m, hd, hp⟩
      rw [Option.elim_some, Option.elim_some, h.links_eq hd hp, List.count_cons_of_ne hne]
    · rw [Option.elim_some, Option.elim_some, Node.links_of_ne htype, Node.children_of_ne htype]

end Proper

/-- The tree after a directory was rewritten together with a node that it names or named. -/
def revise (T : Tree) (i : ℕ) (x : Option Node) (d : ℕ) (nd' : Node) : Tree :=
  Function.update (Function.update T i x) d (some nd')

/-- Whether `..` of the node is a link. -/
def upward (x : Option Node) : ℕ := x.elim 0 fun n => if n.type = T_DIR then 1 else 0

/-- A change that keeps the tree proper: the directory `d` gains or loses links to `i` alone, and
the two link counts follow. -/
structure Revision (T : Tree) (i : ℕ) (x : Option Node) (d p : ℕ) (nd nd' : Node) : Prop where
  ne : i ≠ d
  ne_root : i ≠ ROOTINO
  parent : T d = some nd
  shape : nd.Directory d p
  shape' : nd'.Directory d p
  bounded : 0 < i ∧ i < sb.ninodes
  old : ∀ m, T i = some m → m.type = T_DIR → m.Directory i d ∧ m.children = []
  new : ∀ m, x = some m → m.type = T_DIR → T i = none ∧ m.Directory i d ∧ m.children = [] ∧
    nd'.children.count i = nd.children.count i + 1
  others : ∀ j, j ≠ i → nd'.children.count j = nd.children.count j
  counted : x.elim 0 Node.nlink + nd.children.count i =
    (T i).elim 0 Node.nlink + nd'.children.count i
  counted' : nd'.nlink + upward (T i) = nd.nlink + upward x

namespace Revision

variable {x : Option Node} (r : Revision T i x d p nd nd')

include r

theorem self : T.revise i x d nd' i = x := by
  rw [revise, Function.update_of_ne r.ne, Function.update_self]

omit sb r in
theorem dir_self : T.revise i x d nd' d = some nd' := Function.update_self ..

omit sb r in
theorem of_ne (hd : j ≠ d) (hi : j ≠ i) : T.revise i x d nd' j = T j := by
  rw [revise, Function.update_of_ne hd, Function.update_of_ne hi]

theorem cases {m : Node} (hj : T.revise i x d nd' j = some m) :
    (j = d ∧ m = nd') ∨ (j = i ∧ x = some m) ∨ (j ≠ d ∧ j ≠ i ∧ T j = some m) := by
  by_cases hjd : j = d
  · subst hjd
    exact .inl ⟨rfl, Option.some.inj (hj.symm.trans dir_self)⟩
  by_cases hji : j = i
  · subst hji
    exact .inr (.inl ⟨rfl, r.self.symm.trans hj⟩)
  · rw [of_ne hjd hji] at hj
    exact .inr (.inr ⟨hjd, hji, hj⟩)

theorem indegree_revise (h : T.Proper) (f : Node → List ℕ) (j : ℕ) :
    Xv6Sheet.indegree sb.ninodes ((T.revise i x d nd').out f) j + (f nd).count j +
        ((T i).elim [] f).count j =
      Xv6Sheet.indegree sb.ninodes (T.out f) j + (x.elim [] f).count j + (f nd').count j := by
  have h₂ := indegree_update (T := Function.update T i x) (j := j) f (h.bounded d nd r.parent).2
    (some nd')
  rw [Function.update_of_ne r.ne.symm, r.parent] at h₂
  simp only [Option.elim_some] at h₂
  have h₁ := indegree_update (T := T) (j := j) f r.bounded.2 x
  unfold revise
  omega

theorem names_revise (h : T.Proper) (j : ℕ) :
    (T.revise i x d nd').names j + nd.children.count j = T.names j + nd'.children.count j := by
  have hold : (T i).elim [] Node.children = [] := by
    cases hi : T i with
    | none => rfl
    | some m =>
      by_cases htype : m.type = T_DIR
      · exact (r.old m hi htype).2
      · exact Node.children_of_ne htype
  have hnew : x.elim [] Node.children = [] := by
    cases hi : x with
    | none => rfl
    | some m =>
      by_cases htype : m.type = T_DIR
      · exact (r.new m hi htype).2.2.1
      · exact Node.children_of_ne htype
  have hj := r.indegree_revise h Node.children j
  rw [hold, hnew, List.count_nil] at hj
  exact hj

theorem links_revise (h : T.Proper) (j : ℕ) :
    (T.revise i x d nd').links j + nd.children.count j + (if d = j then upward (T i) else 0) =
      T.links j + (if d = j then upward x else 0) + nd'.children.count j := by
  have hup : ∀ y : Option Node, (∀ m, y = some m → m.type = T_DIR → m.Directory i d ∧
    m.children = []) →
      (y.elim [] Node.links).count j = if d = j then upward y else 0 := by
    intro y hy
    cases y with
    | none => simp [upward]
    | some m =>
      rw [upward, Option.elim_some, Option.elim_some]
      by_cases htype : m.type = T_DIR
      · obtain ⟨hdir, hnil⟩ := hy m rfl htype
        rw [hdir.links (h.bounded d nd r.parent).1.ne', hnil, List.count_singleton, if_pos htype]
        simp
      · rw [Node.links_of_ne htype, if_neg htype, ite_self, List.count_nil]
  have hp0 := h.parent_pos ⟨nd, r.parent, r.shape⟩
  have hj := r.indegree_revise h Node.links j
  rw [r.shape'.links hp0, r.shape.links hp0, List.count_cons, List.count_cons, hup _ r.old,
    hup x fun m hm htype => ⟨(r.new m hm htype).2.1, (r.new m hm htype).2.2.1⟩] at hj
  simp only [links] at hj ⊢
  omega

theorem parent_revise {c q : ℕ} (hc : T.Parent c q) (hci : c ≠ i) :
    (T.revise i x d nd').Parent c q := by
  obtain ⟨m, hm, hdir⟩ := hc
  by_cases hcd : c = d
  · subst hcd
    obtain rfl := Option.some.inj (r.parent.symm.trans hm)
    exact ⟨nd', dir_self, hdir.parent_eq r.shape ▸ r.shape'⟩
  · exact ⟨m, by rwa [of_ne hcd hci], hdir⟩

theorem home_revise (h : T.Proper) {c q : ℕ} {m m' : Node} (hq : T q = some m) (hc : c ∈ m.children)
    (hci : c ≠ i) (hm' : T.revise i x d nd' c = some m') (hdir : m'.type = T_DIR) :
    m'.Directory c q := by
  have hold : ∃ m₀, T c = some m₀ ∧ m₀.type = T_DIR := by
    obtain ⟨rfl, rfl⟩ | ⟨hi, -⟩ | ⟨-, -, hold⟩ := r.cases hm'
    · exact ⟨nd, r.parent, r.shape.type⟩
    · exact absurd hi hci
    · exact ⟨m', hold, hdir⟩
  obtain ⟨m₀, hm₀, hdir₀⟩ := hold
  obtain ⟨m₁, hm₁, hdir₁⟩ := r.parent_revise ⟨m₀, hm₀, h.home q m c hq hc m₀ hm₀ hdir₀⟩ hci
  obtain rfl := Option.some.inj (hm'.symm.trans hm₁)
  exact hdir₁

theorem parent_ne (h : T.Proper) {c q : ℕ} (hc : T.Parent c q) : q ≠ i := by
  rintro rfl
  obtain ⟨m, hm, htype⟩ := h.parent_dir hc
  exact h.parent_ne_of_empty hm r.ne_root (r.old m hm htype).2 hc rfl

theorem rooted_revise (h : T.Proper) {c : ℕ} (hc : Relation.ReflTransGen T.Parent c ROOTINO)
    (hci : c ≠ i) : Relation.ReflTransGen (T.revise i x d nd').Parent c ROOTINO := by
  induction hc using Relation.ReflTransGen.head_induction_on with
  | refl => exact .refl
  | head hstep _ ih => exact .head (r.parent_revise hstep hci) (ih (r.parent_ne h hstep))

theorem proper (h : T.Proper) : (T.revise i x d nd').Proper := by
  have hd := h.bounded d nd r.parent
  refine ⟨fun j m hj => ?_, r.parent_revise h.root r.ne_root.symm, fun j m hj hdir => ?_,
    fun j => ?_, fun j m hj hdir => ?_, fun q m c hq hc m' hm' hdir => ?_, fun j m hj hdir => ?_⟩
  · obtain ⟨rfl, -⟩ | ⟨rfl, -⟩ | ⟨-, -, hold⟩ := r.cases hj
    · exact hd
    · exact r.bounded
    · exact h.bounded j m hold
  · obtain ⟨rfl, rfl⟩ | ⟨rfl, hx⟩ | ⟨-, -, hold⟩ := r.cases hj
    · exact ⟨p, r.shape'⟩
    · exact ⟨d, (r.new m hx hdir).2.1⟩
    · exact h.directory j m hold hdir
  · have hj := r.links_revise h j
    have hold := h.counted j
    by_cases hjd : j = d
    · subst hjd
      rw [r.others j r.ne.symm, if_pos rfl, if_pos rfl] at hj
      rw [r.parent, Option.elim_some] at hold
      rw [dir_self, Option.elim_some]
      have hcount := r.counted'
      omega
    rw [if_neg (Ne.symm hjd), if_neg (Ne.symm hjd)] at hj
    by_cases hji : j = i
    · subst hji
      have hcount := r.counted
      rw [r.self]
      omega
    · rw [r.others j hji] at hj
      rw [of_ne hjd hji, ← hold]
      omega
  · have hj' := r.names_revise h j
    obtain ⟨rfl, rfl⟩ | ⟨rfl, hx⟩ | ⟨-, hji, hold⟩ := r.cases hj
    · rw [r.others j r.ne.symm] at hj'
      rw [← h.named j nd r.parent r.shape.type]
      omega
    · obtain ⟨hfree, -, -, hone⟩ := r.new m hx hdir
      rw [if_neg r.ne_root]
      have hzero := h.names_free hfree
      omega
    · rw [r.others j hji] at hj'
      rw [← h.named j m hold hdir]
      omega
  · obtain ⟨rfl, rfl⟩ | ⟨rfl, hx⟩ | ⟨-, -, hold⟩ := r.cases hq
    · by_cases hci : c = i
      · subst hci
        exact (r.new m' (r.self.symm.trans hm') hdir).2.1
      · have hmem : c ∈ nd.children := by
          rw [← List.count_pos_iff] at hc ⊢
          rwa [r.others c hci] at hc
        exact r.home_revise h r.parent hmem hci hm' hdir
    · obtain ⟨htype, -⟩ := Node.mem_children.mp hc
      rw [(r.new m hx htype).2.2.1] at hc
      cases hc
    · by_cases hci : c = i
      · subst hci
        obtain ⟨hfree, -⟩ := r.new m' (r.self.symm.trans hm') hdir
        exact absurd hfree (h.child hold (Node.mem_links_of_mem_children hc))
      · exact r.home_revise h hold hc hci hm' hdir
  · obtain ⟨rfl, rfl⟩ | ⟨rfl, hx⟩ | ⟨-, hji, hold⟩ := r.cases hj
    · exact r.rooted_revise h (h.rooted j nd r.parent r.shape.type) r.ne.symm
    · exact .head ⟨m, hj, (r.new m hx hdir).2.1⟩
        (r.rooted_revise h (h.rooted d nd r.parent r.shape.type) r.ne.symm)
    · exact r.rooted_revise h (h.rooted j m hold hdir) hji

end Revision

end Tree

end Xv6Sheet.Kernel
