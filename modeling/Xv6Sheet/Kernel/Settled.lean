import Xv6Sheet.Kernel.LinkSpec

/-! # States in which walks give up nothing

A node without links goes away with the last reference to it. Where every such node that a path may
lead to is in use, a walk leaves the tree as it is, and `create` adds one node.
-/

namespace Xv6Sheet.Kernel

open Exec

def Tree.Anchored (U : ℕ → Prop) (T : Tree) (c : ℕ) : Prop :=
  ∀ i n, T i = some n → n.nlink = 0 → T.Within c i → U i

theorem Drops.still {U : ℕ → Prop} {T T' : Tree} {c : ℕ}
    (h : Drops (fun i => T.Within c i → U i) T T') (ha : T.Anchored U c) : T' = T :=
  h.eq fun i n hn h0 => ha i n hn h0

variable [sb : Superblock] [pm : Param] {base : Set ℕ} {T T' : Tree} {R : ℕ → ℤ}
  {s t : FsState} {ip cwd c : ℕ} {n : Node} {path : Bytes} {E : Fault → Prop} [hE : Permits E]

omit pm in
theorem Made.ne {d i : ℕ} {name : List UInt8} {nd nd' n : Node} (h : Made T d i name nd nd' n T') :
    i ≠ d := by
  rintro rfl
  have hfree := h.free
  rw [h.parent] at hfree
  cases hfree

omit pm in
theorem Made.self {d i : ℕ} {name : List UInt8} {nd nd' n : Node}
    (h : Made T d i name nd nd' n T') : T' i = some n := by
  rw [h.tree, Function.update_of_ne h.ne, Function.update_self]

omit pm in
theorem Made.dir_self {d i : ℕ} {name : List UInt8} {nd nd' n : Node}
    (h : Made T d i name nd nd' n T') : T' d = some nd' := by
  rw [h.tree, Function.update_self]

omit pm in
theorem Made.of_ne {d i j : ℕ} {name : List UInt8} {nd nd' n : Node}
    (h : Made T d i name nd nd' n T') (hd : j ≠ d) (hi : j ≠ i) : T' j = T j := by
  rw [h.tree, Function.update_of_ne hd, Function.update_of_ne hi]

def Kept (T : Tree) (R : ℕ → ℤ) (ip : ℕ) (t : FsState) : Prop :=
  ∀ n, T (t.inodes ip).inum = some n → n.nlink = 0 → 0 < R ip

/-- A process between its calls in the directory of the entry `cwd`, where every node that a path
may lead to has links or is in use. -/
structure Settled (base : Set ℕ) (T : Tree) (R : ℕ → ℤ) (cwd : ℕ) (s : FsState) : Prop where
  view : View base T R (fun _ => false) s
  cwd_pos : 0 < R cwd
  used : ∀ i, InUse R s i → T i ≠ none
  anchored : T.Anchored (InUse R s) (s.inodes cwd).inum

theorem Settled.ops (h : Settled base T R cwd s) (k : ℤ) :
    Settled base T R cwd { s with ops := k } :=
  ⟨h.view.ops k, h.cwd_pos, h.used, h.anchored⟩

namespace View

omit hE in
theorem giveBackKept {L : ℕ → Bool}
    (h : View base T (R + Pi.single ip 1) (Function.update L ip true) s) (hL : L ip = false)
    (hn : T (s.inodes ip).inum = some n) (hlast : n.nlink = 0 → 0 < R ip) :
    Wp E (Kernel.iunlockput ip) (fun _ t => Pins R s t ∧ View base T R L t) s := by
  refine (h.iunlockput (Function.update_self ..)).mono fun _ t ht => ?_
  obtain ⟨ht, hk⟩ := ht
  have hput : T.put (s.inodes ip).inum ((R + Pi.single ip 1 : ℕ → ℤ) ip) = T := by
    refine if_neg fun hgone => ?_
    have h0 : n.nlink = 0 := by simpa [hn] using hgone.2
    have hpos := hlast h0
    have hone := hgone.1
    simp only [Pi.add_apply, Pi.single_eq_same] at hone
    omega
  rw [hput, add_sub_cancel_right, Function.update_idem, ← hL, Function.update_eq_self] at ht
  exact ⟨h.pins ht hk (le_add_single R ip) le_rfl, ht⟩

omit hE in
theorem returns {L : ℕ → Bool}
    (h : View base T (R + Pi.single ip 1) (Function.update L ip true) s) (hL : L ip = false)
    (hn : T (s.inodes ip).inum = some n) (h0 : n.nlink ≠ 0) (r : ℤ) : Wp E (do
      Kernel.iunlockput ip
      endOp
      return r) (fun a t => a = r ∧ Pins R s t ∧ View base T R L t) s :=
  wp_bind.mpr ((h.giveBackKept hL hn fun hz => absurd hz h0).mono fun _ _ ht =>
    wp_bind.mpr (wp_modify.mpr (wp_pure.mpr ⟨rfl, ht.1, ht.2.ops _⟩)))

omit hE in
/-- The last reference to a node that a path leads to is not to one without links. -/
theorem last {L : ℕ → Bool} (h : View base T (R + Pi.single ip 1) L s)
    (hpos : 0 < (R + Pi.single ip 1 : ℕ → ℤ) ip)
    (hanch : T.Anchored (InUse R s) c) (hin : T.Within c (s.inodes ip).inum)
    (hn : T (s.inodes ip).inum = some n) (h0 : n.nlink = 0) : 0 < R ip := by
  obtain ⟨k, hk, hki⟩ := hanch _ n hn h0 hin
  obtain rfl := h.unique k ip (lt_of_lt_of_le hk (le_add_single R ip k)) hpos hki
  exact hk

theorem namexStill {L : ℕ → Bool} {parent : Bool} (h : View base T R L s) (hcwd : 0 < R cwd)
    (hc : (s.inodes cwd).inum = c) (hanch : T.Anchored (InUse R s) c) (hE : E noType)
    (hdead : ∀ k, L k = true → (s.inodes k).inum ∈ T.nodesOn c path parent → E .deadlock) :
    Wp E (Kernel.namex cwd path parent) (fun r t => Pins R s t ∧
    Apart L s (T.nodesOn c path parent) ∧
      match r with
      | none => T.namex c path parent = none ∧ View base T R L t
      | some (ip, name) => T.namex c path parent = some ((t.inodes ip).inum, name) ∧
          View base T (R + Pi.single ip 1) L t) s := by
  subst hc
  refine (h.namex (U := fun i => T.Within (s.inodes cwd).inum i → InUse R s i) (.refl _ T) hcwd
    (fun i hi hu => hu ?_) hdead (.inl hE)).mono fun r t hr => ?_
  · rcases hi with rfl | hi
    · exact T.within_startOf _ path
    · exact .inr (.inr hi)
  obtain ⟨hpin, hapart, T', hd, hr⟩ := hr
  obtain rfl := hd.still hanch
  refine ⟨hpin, hapart, ?_⟩
  rcases r with - | ⟨ip, name⟩
  · exact hr
  · exact ⟨hr.1, hr.2.1⟩

theorem nameiStill {L : ℕ → Bool} (h : View base T R L s) (hcwd : 0 < R cwd)
    (hc : (s.inodes cwd).inum = c) (hanch : T.Anchored (InUse R s) c) (hE : E noType)
    (hdead : ∀ k, L k = true → (s.inodes k).inum ∈ T.nodesOn c path false → E .deadlock) :
    Wp E (Kernel.namei cwd path) (fun r t => Pins R s t ∧ Apart L s (T.nodesOn c path false) ∧
      match r with
      | none => T.namex c path false = none ∧ View base T R L t
      | some ip => ∃ name, T.namex c path false = some ((t.inodes ip).inum, name) ∧
          View base T (R + Pi.single ip 1) L t) s := by
  refine wp_bind.mpr ((h.namexStill hcwd hc hanch hE hdead).mono fun r t hr => wp_pure.mpr ?_)
  obtain ⟨hpin, hapart, hr⟩ := hr
  rcases r with - | ⟨ip, name⟩
  · exact ⟨hpin, hapart, hr⟩
  · exact ⟨hpin, hapart, name, hr⟩

/-- What `create` answers: no node, or a locked one that was there or is new. -/
def Stands (base : Set ℕ) (T : Tree) (R : ℕ → ℤ) (c : ℕ) (path : Bytes) (type major minor : ℤ) :
    Option ℕ → FsState → Prop
  | none, t => View base T R (fun _ => false) t
  | some ip, t => ∃ T', Kept T' R ip t ∧
      View base T' (R + Pi.single ip 1) (Function.update (fun _ => false) ip true) t ∧
      ((type = T_FILE ∧ T' = T ∧ ∃ m, T (t.inodes ip).inum = some m ∧
          (m.type = T_FILE ∨ m.type = T_DEVICE)) ∨
        ∃ d name nd nd' n, T.namex c path true = some (d, name) ∧
          Made T d (t.inodes ip).inum (Bytes.str name DIRSIZ) nd nd' n T' ∧
          n.type = type ∧ n.major = major ∧ n.minor = minor)

theorem createStill (h : View base T R (fun _ => false) s) (hcwd : 0 < R cwd)
    (hc : (s.inodes cwd).inum = c) (hused : ∀ i, InUse R s i → T i ≠ none)
    (hanch : T.Anchored (InUse R s) c) (hE : E noType) (path : Bytes) {type : ℤ} (h0 : type ≠ 0)
    (hdir : type ≠ T_DIR) (major minor : ℤ) :
    Wp E (Kernel.create cwd path type major minor) (fun r t => Pins R s t ∧
      Stands base T R c path type major minor r t) s := by
  subst hc
  refine (h.create (U := fun i => T.Within (s.inodes cwd).inum i → InUse R s i) hcwd
    (fun i hi hu => hu ?_) (fun _ => by simp) (.inl hE) (fun i hi => ⟨hused i hi, fun _ => hi⟩)
    h0 major minor).mono fun r t hr => ⟨hr.1, ?_⟩
  · rcases hi with rfl | hi
    · exact T.within_startOf _ path
    · exact .inr (.inr hi)
  obtain ⟨hpin, hr⟩ := hr
  rcases r with - | ip
  · obtain ⟨T', hd, ht⟩ := hr
    rwa [hd.still hanch] at ht
  obtain ⟨-, d, name, T₁, T₂, T', hw, hd, hd', ht, hkind⟩ := hr
  obtain rfl := hd.still hanch
  have hl : Function.update (fun _ => false) ip true ip = true := Function.update_self ..
  rcases hkind with ⟨hfile, rfl, nd, k, m, hnd, hdir', hlookup, hm, hmt⟩ |
    ⟨nd, nd', n, hmade, htype, hmajor, hminor⟩
  · obtain rfl := hd'.still hanch
    refine ⟨T', fun m' hm' h0 => ?_, ht, .inl ⟨hfile, rfl, m, hm, hmt⟩⟩
    obtain ⟨k, hk, hki⟩ := hanch _ m' hm' h0 (.inr (.inr (Tree.named_of_lookup hnd hdir' hlookup)))
    rw [← (hpin k hk).1] at hki
    obtain rfl := ht.unique k ip (lt_of_lt_of_le hk (le_add_single R ip k)) (ht.held ip hl).1 hki
    exact hk
  · have hlinks : nd'.nlink = nd.nlink := by
      rw [hmade.links, htype, if_neg hdir]
    -- the nodes without links are those of before
    obtain rfl : T' = T₂ := by
      refine hd'.eq fun i m hm h0 hin => ?_
      rw [hmade.tree] at hm
      by_cases hid : i = d
      · subst hid
        rw [Function.update_self] at hm
        obtain rfl := Option.some.inj hm
        exact hanch _ nd hmade.parent (hlinks.symm.trans h0) hin
      · rw [Function.update_of_ne hid] at hm
        by_cases hit : i = (t.inodes ip).inum
        · subst hit
          rw [Function.update_self] at hm
          obtain rfl := Option.some.inj hm
          exact absurd hmade.nlink (by rw [h0]; decide)
        · rw [Function.update_of_ne hit] at hm
          exact hanch _ m hm h0 hin
    refine ⟨T', fun m hm h0 => ?_, ht, .inr ⟨d, name, nd, nd', n, hw, hmade, htype, hmajor, hminor⟩⟩
    obtain rfl := Option.some.inj (hmade.self.symm.trans hm)
    exact absurd hmade.nlink (by rw [h0]; decide)

end View

section Small

omit pm sb

theorem smallParam_procs : 0 < smallParam.NPROC := by decide

theorem smallParam_procs_one : 1 < smallParam.NPROC := by decide

def smallTask : @Task (@FilePtr smallParam) (@Sys Unit smallParam) smallParam :=
  let _ := smallParam
  ⟨smallMachine.procs ⟨0, smallParam_procs⟩, smallMachine.sys⟩

theorem settled_smallFs {block : ℕ → Bytes}
    (hf : @Disk.Formatted smallDisk { rootDisk with block := block }) :
    letI := smallDisk
    letI := smallParam
    Settled (smallFs block).disk.used (tree (smallFs block).disk)
      (fun ip => if ip = 0 then 64 else 0) 0 (smallFs block) := by
  let _ := smallDisk
  let _ := smallParam
  have hd : ∀ i, (smallFs block).disk.dinode i =
      if i = 1 then { Dinode.zero with type := 1, nlink := 1 } else Dinode.zero := dinode_rootDisk
  refine ⟨view_smallFs hf, by decide, ?_, fun i n hn h0 _ => ?_⟩
  · rintro i ⟨ip, -, rfl⟩ hn
    have htype := tree_eq_none.mp hn
    have hi : ((smallFs block).inodes ip).inum = 1 := rfl
    rw [hi, hd, if_pos rfl] at htype
    exact absurd htype (by decide)
  · obtain ⟨htype, hne, -, -, hnlink, -⟩ := tree_eq_some hn
    rw [hd] at htype hnlink
    split at htype
    · rename_i hi
      rw [if_pos hi, h0] at hnlink
      exact absurd hnlink (by decide)
    · exact absurd htype.symm hne

theorem settled_smallTask :
    letI := smallDisk
    letI := smallParam
    Settled smallMachine.sys.fs.disk.used (tree rootDisk) (fun ip => if ip = 0 then 64 else 0)
      smallTask.proc.cwd smallTask.sys.fs :=
  settled_smallFs formatted_freshDisk

end Small

end Xv6Sheet.Kernel
