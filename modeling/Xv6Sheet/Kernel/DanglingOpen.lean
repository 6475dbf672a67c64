import Xv6Sheet.Kernel.Dangling

/-! # Opening with a loop that frees links

Where no walk gives up a node, a call of `sys_open` that frees dangling links leaves the tree as it
was, but for a file that it makes or empties and the link that it frees.
-/

namespace Xv6Sheet.Kernel

open Exec

variable {χ : Type} [sb : Superblock] [pm : Param] {base : Set ℕ} {T T' : Tree} {R : ℕ → ℤ}
  {s t : FsState} {ip cwd c : ℕ} {path : Bytes} {omode : ℤ} {E : Fault → Prop} [hE : Permits E]

omit pm in
def Tree.Grown (T T' : Tree) : Prop :=
  T' = T ∨ ∃ d i name nd nd' n, Made T d i name nd nd' n T' ∧ n.type = T_FILE

theorem followDangling_of_not_link {m : ℕ} (h : isLink (s.inodes ip) omode = false) :
    Ends (followDangling cwd omode m ip path) s (some (ip, m)) s := by
  unfold followDangling
  have hinode : Ends (inode ip) s (s.inodes ip) s := by simp [inode]
  refine hinode.bind ?_
  rw [h]
  exact ends_pure.mpr ⟨rfl, rfl⟩

namespace View

/-- The path leads to a locked inode, which is no link where it may be new. -/
def Led (base : Set ℕ) (T : Tree) (R : ℕ → ℤ) (c : ℕ) (omode : ℤ) (path : Bytes) :
    Option ℕ → FsState → Prop
  | none, t => View base T R (fun _ => false) t ∧
      (hasFlag omode O_CREATE = false → T.namex c path false = none)
  | some ip, t => ∃ T', T.Grown T' ∧ Kept T' R ip t ∧
      View base T' (R + Pi.single ip 1) (Function.update (fun _ => false) ip true) t ∧
      if hasFlag omode O_CREATE then isLink (t.inodes ip) omode = false
      else T' = T ∧ ∃ name, T.namex c path false = some ((t.inodes ip).inum, name)

theorem openPathStill (h : View base T R (fun _ => false) s) (hcwd : 0 < R cwd)
    (hc : (s.inodes cwd).inum = c) (hused : ∀ i, InUse R s i → T i ≠ none)
    (hanch : T.Anchored (InUse R s) c) (hE : E noType) :
    Wp E (Kernel.openPath cwd path omode)
      (fun r t => Pins R s t ∧ Led base T R c omode path r t) s := by
  unfold Kernel.openPath
  split
  · rename_i hcreate
    refine (h.createStill hcwd hc hused hanch hE path (by decide) (by decide) 0 0).mono
      fun r t hr => ⟨hr.1, ?_⟩
    obtain ⟨-, hr⟩ := hr
    rcases r with - | ip
    · exact ⟨hr, fun hno => absurd hcreate (by simp [hno])⟩
    · obtain ⟨T', hkept, ht, hkind⟩ := hr
      have hl : Function.update (fun _ => false) ip true ip = true := Function.update_self ..
      have hlink : ∀ {m : Node}, T' (t.inodes ip).inum = some m → m.type ≠ T_SYMLINK →
          isLink (t.inodes ip) omode = false := fun hm htype => by
        rw [← (ht.size_eq hl hm).1] at htype
        simp [isLink, htype]
      rcases hkind with ⟨-, rfl, m, hm, hmt⟩ | ⟨d, name, nd, nd', n, -, hmade, htype, -⟩
      · refine ⟨T', .inl rfl, hkept, ht, ?_⟩
        rw [if_pos hcreate]
        exact hlink hm (by rcases hmt with hmt | hmt <;> rw [hmt] <;> decide)
      · refine ⟨T', .inr ⟨d, _, _, nd, nd', n, hmade, htype⟩, hkept, ht, ?_⟩
        rw [if_pos hcreate]
        exact hlink hmade.self (by rw [htype]; decide)
  · rename_i hcreate
    refine wp_bind.mpr ((h.nameiStill hcwd hc hanch hE (by simp)).mono fun r t hr => ?_)
    obtain ⟨hpin, -, hr⟩ := hr
    rcases r with - | ip
    · exact wp_pure.mpr ⟨hpin, hr.2, fun _ => hr.1⟩
    obtain ⟨name, hw, ht⟩ := hr
    have hpos := h.single_pos ip
    refine wp_bind.mpr ((ht.ilock hpos (fun _ => hE) (by simp)).mono fun _ u hu => wp_pure.mpr ?_)
    obtain ⟨hu, hk, -, -⟩ := hu
    have hpin' := ht.pins hu hk le_rfl le_rfl
    have hpins := hpin.trans (hpin'.mono (le_add_single R ip))
    rw [← (hpin' ip hpos).1] at hw
    have hanch' : T.Anchored (InUse R u) c := fun i n hn h0 hin => hpins.inUse (hanch i n hn h0 hin)
    refine ⟨hpins, T, .inl rfl, fun n hn => hu.last hpos hanch'
      (Tree.within_namex hw) hn, hu, ?_⟩
    rw [if_neg hcreate]
    exact ⟨rfl, name, hw⟩

end View

/-- What the call has when the loop over links ends: nothing held and at most the lost link freed,
or an inode that is no link to follow. -/
def Dangling (base : Set ℕ) (T : Tree) (R : ℕ → ℤ) (lost : Option (ℕ × Bytes)) :
    Option (ℕ × ℕ) → FsState → Prop
  | some (k, _), t => lost = none ∧ ∃ T', T.Grown T' ∧ Kept T' R k t ∧
      View base T' (R + Pi.single k 1) (Function.update (fun _ => false) k true) t
  | none, t => match lost with
    | none => tree t.disk = T
    | some (j, _) => tree t.disk = Function.update T j none

def Tree.After (T : Tree) (lost : Option (ℕ × Bytes)) (T' : Tree) : Prop :=
  match lost with
  | some (j, _) => T' = Function.update T j none
  | none => ∃ T₁, T.Grown T₁ ∧ (T' = T₁ ∨ ∃ j n, T₁ j = some n ∧ n.type = T_FILE ∧
      T' = Function.update T₁ j (some { n with data := [] }))

theorem View.leadDangling (h : View base T R (fun _ => false) s) (hcwd : 0 < R cwd)
    (hc : (s.inodes cwd).inum = c) (hused : ∀ i, InUse R s i → T i ≠ none)
    (hanch : T.Anchored (InUse R s) c) (hmax : Param.MAXPATH ≤ BSIZE) (hE : E noType)
    {arg : StrArg} (hp : argstr arg Param.MAXPATH = some path)
    (hdead : T.snaredOn c omode arg = true → E .deadlock) :
    Wp E (Kernel.openPath cwd path omode) (fun r t => match r with
      | none => T.snaredOn c omode arg = false ∧ Dangling base T R (T.lostOn c omode arg) none t
      | some ip => Wp E (Kernel.followDangling cwd omode maxDepth ip path) (fun r u =>
          T.snaredOn c omode arg = false ∧
            Dangling base T R (T.lostOn c omode arg) r u) t) s := by
  have hsnare : T.snaredOn c omode arg = if hasFlag omode O_CREATE then false
      else match T.namex c path false with
        | none => false
        | some (i, _) => T.snared c omode maxDepth i path := by
    unfold Tree.snaredOn
    rewrite [hp]
    rfl
  have hlost : T.lostOn c omode arg = if hasFlag omode O_CREATE then none
      else match T.namex c path false with
        | none => none
        | some (i, _) => T.lost c omode maxDepth i path := by
    unfold Tree.lostOn
    rewrite [hp]
    rfl
  rw [hsnare] at hdead ⊢
  rw [hlost]
  refine (h.openPathStill hcwd hc hused hanch hE).mono fun r t hr => ?_
  obtain ⟨hpin, hr⟩ := hr
  rcases r with - | ip
  · obtain ⟨ht, hnone⟩ := hr
    cases hcreate : hasFlag omode O_CREATE with
    | true => exact ⟨rfl, ht.tree_eq⟩
    | false =>
      rw [if_neg Bool.false_ne_true, if_neg Bool.false_ne_true, hnone hcreate]
      exact ⟨rfl, ht.tree_eq⟩
  obtain ⟨T', hgrown, hkept, ht, hr⟩ := hr
  dsimp only
  split at hr
  · rename_i hcreate
    rw [if_pos hcreate, if_pos hcreate]
    exact .of_ends (followDangling_of_not_link hr) ⟨rfl, rfl, T', hgrown, hkept, ht⟩
  rename_i hcreate
  obtain ⟨rfl, name, hw⟩ := hr
  rw [if_neg hcreate, hw] at hdead ⊢
  rw [if_neg hcreate]
  dsimp only at hdead ⊢
  refine (ht.followDangling h.nonneg hcwd ((hpin cwd hcwd).1.trans hc) (Tree.within_namex hw)
    (fun i n hn h0 hin => hpin.inUse (hanch i n hn h0 hin)) hmax hE hdead).mono fun r u hu => ?_
  obtain ⟨hpin', hsnared, hu⟩ := hu
  refine ⟨hsnared, ?_⟩
  have hpins := hpin.trans hpin'
  rcases r with - | ⟨k, m⟩
  · unfold Dangling
    cases hlost : T'.lost c omode maxDepth (t.inodes ip).inum path with
    | none =>
      rw [View.Dangled, hlost] at hu
      exact hu.tree_eq
    | some found =>
      rw [View.Dangled, hlost] at hu
      exact hu.1
  · obtain ⟨hnone, -, hin, hu⟩ := hu
    have hanch' : T'.Anchored (InUse R u) c :=
      fun i n hn h0 hin => hpins.inUse (hanch i n hn h0 hin)
    have hk := (hu.held k (Function.update_self ..)).1
    exact ⟨hnone, T', .inl rfl, fun n hn => hu.last hk hanch' hin hn, hu⟩

section Ends

variable {L : FileLayer χ} {a b : Task FilePtr (Sys χ)}

def Grasped (base : Set ℕ) (T : Tree) (R : ℕ → ℤ) (ip : ℕ) (t : FsState) : Prop :=
  Kept T R ip t ∧ View base T (R + Pi.single ip 1) (Function.update (fun _ => false) ip true) t

omit hE in
theorem Grasped.giveUp (h : Grasped base T R ip b.sys.fs) :
    Wp E (giveUp ip) (fun _ b => tree b.sys.fs.disk = T) b := by
  obtain ⟨hkept, h⟩ := h
  have hl : Function.update (fun _ => false) ip true ip = true := Function.update_self ..
  obtain ⟨n, hn, -⟩ := h.node (h.held ip hl).1 (h.held ip hl).2
  refine wp_bind.mpr (wp_onFs.mpr ((h.giveBackKept rfl hn (hkept n hn)).mono fun _ t ht => ?_))
  exact wp_bind.mpr (wp_onFs.mpr (wp_modify.mpr (wp_pure.mpr ht.2.tree_eq)))

omit hE in
theorem Grasped.openInode (h : Grasped base T R ip b.sys.fs) (hL : TableLaws L)
    (hclosed : FilesClosed b.sys) : Wp E (openInode L ip omode) (fun _ b => tree b.sys.fs.disk = T ∨
      ∃ j n, T j = some n ∧ n.type = T_FILE ∧
        tree b.sys.fs.disk = Function.update T j (some { n with data := [] })) b := by
  refine wp_openInode hL.toOpenLaws (fun e he => absurd he (openFile_returns hL hclosed))
    (fun c hc _ => ?_) fun f k c _ hc => ?_
  · rw [← hc.fs hclosed] at h
    exact h.giveUp.mono fun _ _ => .inl
  obtain ⟨-, h⟩ := h
  have hl : Function.update (fun _ => false) ip true ip = true := Function.update_self ..
  obtain ⟨n, hn, htype, -⟩ := h.node (h.held ip hl).1 (h.held ip hl).2
  have hrest : ∀ {T' : Tree} {u : FsState} {x : Task FilePtr (Sys χ)},
      View base T' (R + Pi.single ip 1) (Function.update (fun _ => false) ip true) u →
      x.sys.fs = u → Wp E (do
        onFs (iunlock ip)
        onFs endOp
        return (k : ℤ)) (fun _ b => tree b.sys.fs.disk = T') x := by
    rintro T' u x hu rfl
    refine wp_bind.mpr (wp_onFs.mpr ((hu.iunlock hl).mono fun _ v hv => ?_))
    exact wp_bind.mpr (wp_onFs.mpr (wp_modify.mpr (wp_pure.mpr hv.1.tree_eq)))
  split
  · rename_i htrunc
    rw [← hc.fs] at h
    refine wp_bind.mpr (wp_onFs.mpr ((h.itrunc hl (hc.fs ▸ hn)).mono fun _ u hu => ?_))
    refine (hrest hu.1 rfl).mono fun _ _ hb => .inr ⟨_, n, hc.fs ▸ hn, ?_, hb⟩
    rw [← htype]
    exact htrunc.2
  · exact wp_bind.mpr (wp_pure.mpr ((hrest (x := c) h hc.fs).mono fun _ _ hb => .inl hb))

/-- A call of `sys_open` that frees dangling links waits for a lock of its own only where the chain
has a link on the way to its own target, and frees at most the link at which it loses the way. -/
theorem wp_danglingOpen (hL : TableLaws L) (h : View base T R (fun _ => false) a.sys.fs)
    (hcwd : 0 < R a.proc.cwd)
    (hc : (a.sys.fs.inodes a.proc.cwd).inum = c) (hused : ∀ i, InUse R a.sys.fs i → T i ≠ none)
    (hclosed : FilesClosed a.sys) (hanch : T.Anchored (InUse R a.sys.fs) c)
    (hmax : Param.MAXPATH ≤ BSIZE) (hE : E noType) (path : StrArg)
    (hdead : T.snaredOn c omode path = true → E .deadlock) :
    Wp E (danglingOpen L path omode) (fun _ b => T.snaredOn c omode path = false ∧
      T.After (T.lostOn c omode path) (tree b.sys.fs.disk)) a := by
  refine wp_bind.mpr (wp_get.mpr ?_)
  dsimp only
  split
  · rename_i hnone
    refine wp_pure.mpr ⟨?_, ?_⟩
    · unfold Tree.snaredOn
      rw [hnone]
    · unfold Tree.lostOn
      rw [hnone]
      exact ⟨T, .inl rfl, .inl h.tree_eq⟩
  rename_i p hp
  refine wp_bind.mpr (wp_onFs.mpr (wp_modify.mpr (wp_bind.mpr (wp_onFs.mpr ?_))))
  refine ((h.ops (a.sys.fs.ops + 1)).leadDangling hcwd hc hused hanch hmax hE hp hdead).mono
    fun r t ht => ?_
  have hrest : ∀ {u : FsState} {lost : Option (ℕ × Bytes)}, Dangling base T R lost none u →
      T.snaredOn c omode path = false → Wp E (do
        onFs endOp
        return (-1 : ℤ)) (fun _ b => T.snaredOn c omode path = false ∧
          T.After lost (tree b.sys.fs.disk)) (⟨a.proc, { a.sys with fs := u }⟩ :
            Task FilePtr (Sys χ)) := by
    intro u lost hu hsnared
    refine wp_bind.mpr (wp_onFs.mpr (wp_modify.mpr (wp_pure.mpr ⟨hsnared, ?_⟩)))
    unfold Dangling at hu
    unfold Tree.After
    rcases lost with - | ⟨j, buf⟩
    · exact ⟨T, .inl rfl, .inl hu⟩
    · exact hu
  rcases r with - | ip
  · exact hrest ht.2 ht.1
  refine wp_bind.mpr (wp_onFs.mpr (ht.mono fun r u hu => ?_))
  obtain ⟨hsnared, hu⟩ := hu
  rcases r with - | ⟨k, m⟩
  · exact hrest hu hsnared
  obtain ⟨hlost, T', hgrown, hgrasped⟩ := hu
  rw [hlost]
  refine wp_bind.mpr (wp_onFs.mpr (wp_inode.mpr ?_))
  rw [if_neg Bool.false_ne_true]
  have hg : Grasped base T' R k (⟨a.proc, { a.sys with fs := u }⟩ : Task FilePtr (Sys χ)).sys.fs :=
    hgrasped
  split
  · exact hg.giveUp.mono fun _ b hb => ⟨hsnared, T', hgrown, .inl hb⟩
  · exact (hg.openInode hL hclosed).mono fun _ b hb => ⟨hsnared, T', hgrown, hb⟩

end Ends

end Xv6Sheet.Kernel
