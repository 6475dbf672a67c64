import Xv6Sheet.Kernel.NamespaceCalls
import Xv6Sheet.Kernel.WriteThrough

/-! # Open files on a proper tree

A file on an inode and the directory of a process are references to the inode. `sys_open` makes a
reference from a file, `sys_close` and `sys_chdir` drop one, and a node without links goes away with
the last of them.
-/

namespace Xv6Sheet.Kernel

open Exec

variable [sb : Superblock] [pm : Param] {base : Set ℕ} {T T' : Tree} {R : ℕ → ℤ} {s t : FsState}
  {ip cwd c : ℕ} {n : Node} {path name : Bytes} {E : Fault → Prop} [hE : Permits E]

/-- A locked inode in hand beside a file system between calls. -/
structure OnHand (base : Set ℕ) (T : Tree) (R : ℕ → ℤ) (ip : ℕ) (s : FsState) : Prop where
  view : View base T (R + Pi.single ip 1) (Function.update (fun _ => false) ip true) s
  proper : T.Proper
  nonneg : ∀ k, 0 ≤ R k
  used : ∀ i, InUse R s i → T i ≠ none
  held : ∀ i n, T i = some n → n.nlink = 0 →
    ∃ ip, 0 < R ip ∧ (s.inodes ip).inum = i ∧ (s.inodes ip).valid = true

namespace OnHand

omit hE

theorem node (h : OnHand base T R ip s) : ∃ n, T (s.inodes ip).inum = some n ∧
    (s.inodes ip).type = n.type := by
  obtain ⟨hr, hv⟩ := h.view.held ip (Function.update_self ..)
  obtain ⟨n, hn, htype, -⟩ := h.view.node hr hv
  exact ⟨n, hn, htype⟩

theorem pos (h : OnHand base T R ip s) : 0 < (R + Pi.single ip 1 : ℕ → ℤ) ip := by
  have h0 := h.nonneg ip
  simp only [Pi.add_apply, Pi.single_eq_same]
  omega

theorem last (h : OnHand base T R ip s) (hn : T (s.inodes ip).inum = some n) (h0 : n.nlink = 0) :
    0 < R ip := by
  obtain ⟨k, hk, hki, -⟩ := h.held _ n hn h0
  obtain rfl := h.view.unique k ip (lt_of_lt_of_le hk (le_add_single R ip k)) h.pos hki
  exact hk

theorem giveBack (h : OnHand base T R ip s) :
    Wp E (iunlockput ip) (fun _ t => Orderly base T R t) s := by
  obtain ⟨n, hn, -⟩ := h.node
  refine (h.view.giveBackKept rfl hn (h.last hn)).mono fun _ t ht => ?_
  obtain ⟨hpin, ht⟩ := ht
  refine ⟨ht, h.proper, ?_, fun i m hi h0 => ?_⟩
  · rintro i ⟨k, hk, rfl⟩
    rw [(hpin k hk).1]
    exact h.used _ ⟨k, hk, rfl⟩
  · obtain ⟨k, hk, hki, hv⟩ := h.held i m hi h0
    exact ⟨k, hk, (hpin k hk).1.trans hki, (hpin k hk).2 hv⟩

theorem keep (h : OnHand base T R ip s) :
    Wp E (iunlock ip) (fun _ t => Orderly base T (R + Pi.single ip 1) t) s := by
  obtain ⟨n, hn, -⟩ := h.node
  refine (h.view.iunlock (Function.update_self ..)).mono fun _ t ht => ?_
  obtain ⟨ht, hk⟩ := ht
  rw [Function.update_idem, Function.update_eq_self] at ht
  have hpin := h.view.pins ht hk le_rfl le_rfl
  refine ⟨ht, h.proper, ?_, fun i m hi h0 => ?_⟩
  · rintro i ⟨k, hk, rfl⟩
    rw [(hpin k hk).1]
    by_cases hkip : k = ip
    · rw [hkip, hn]
      simp
    · exact h.used _ ⟨k, by simpa [hkip] using hk, rfl⟩
  · obtain ⟨k, hk, hki, hv⟩ := h.held i m hi h0
    have hk' := lt_of_lt_of_le hk (le_add_single R ip k)
    exact ⟨k, hk', (hpin k hk').1.trans hki, (hpin k hk').2 hv⟩

theorem refill (h : OnHand base T R ip s) (hn : T (s.inodes ip).inum = some n)
    (hfile : n.type ≠ T_DIR)
    {data : List UInt8} (hk : Keeps s t)
    (ht : View base (Function.update T (s.inodes ip).inum (some { n with data := data }))
      (R + Pi.single ip 1) (Function.update (fun _ => false) ip true) t) :
    OnHand base (Function.update T (s.inodes ip).inum (some { n with data := data })) R ip t := by
  have hpin := h.view.pins ht hk (le_add_single R ip) (le_add_single R ip)
  refine ⟨ht, h.proper.update (x := some { n with data := data }) hn hfile (fun m hm => ?_) rfl,
    h.nonneg, ?_, fun i m hi h0 => ?_⟩
  · obtain rfl := Option.some.inj hm
    exact hfile
  · rintro i ⟨k, hk, rfl⟩
    rw [(hpin k hk).1]
    by_cases hki : (s.inodes k).inum = (s.inodes ip).inum
    · rw [hki, Function.update_self]
      simp
    · rw [Function.update_of_ne hki]
      exact h.used _ ⟨k, hk, rfl⟩
  · have hold : ∃ m', T i = some m' ∧ m'.nlink = 0 := by
      by_cases hii : i = (s.inodes ip).inum
      · subst hii
        rw [Function.update_self] at hi
        obtain rfl := Option.some.inj hi
        exact ⟨n, hn, h0⟩
      · rw [Function.update_of_ne hii] at hi
        exact ⟨m, hi, h0⟩
    obtain ⟨m', hm', h0'⟩ := hold
    obtain ⟨k, hk, hki, hv⟩ := h.held i m' hm' h0'
    exact ⟨k, hk, (hpin k hk).1.trans hki, (hpin k hk).2 hv⟩

theorem itrunc (h : OnHand base T R ip s) (hfile : (s.inodes ip).type = T_FILE) :
    Wp E (Kernel.itrunc ip) (fun _ t => ∃ i n T', T i = some n ∧ n.type = T_FILE ∧
      T' = Function.update T i (some { n with data := [] }) ∧ OnHand base T' R ip t) s := by
  obtain ⟨n, hn, htype⟩ := h.node
  have hfile := htype.symm.trans hfile
  refine (h.view.itrunc (Function.update_self ..) hn).mono
    fun _ t ht => ⟨_, n, _, hn, hfile, rfl, ?_⟩
  exact h.refill hn (by rw [hfile]; decide) ht.2 ht.1

theorem writei (h : OnHand base T R ip s) (hn : T (s.inodes ip).inum = some n)
    (hfile : n.type ≠ T_DIR)
    (hnil : n.data = []) (src : Bytes) {cnt : ℕ} (hcnt : cnt < 2 ^ 31) :
    Wp E (Kernel.writei ip src 0 cnt) (fun r t => ∃ data, (r = cnt → data = src.toList cnt) ∧
      OnHand base (Function.update T (s.inodes ip).inum (some { n with data := data })) R ip
      t) s := by
  refine (h.view.writei (Function.update_self ..) hn src (Nat.zero_le _) hcnt).mono fun r t ht => ?_
  rcases ht with ⟨hr, rfl, -⟩ | ⟨tot, hr, -, ht, hk, -⟩
  · have hself : ({ n with data := [] } : Node) = n := by rw [← hnil]
    refine ⟨[], fun hcnt => ?_, ?_⟩
    · omega
    · rwa [hself, ← hn, Function.update_eq_self]
  · refine ⟨_, fun hcnt => ?_, h.refill hn hfile hk ht⟩
    obtain rfl : tot = cnt := by omega
    simp [hnil, Bytes.overlay]

end OnHand

omit hE in
theorem Orderly.locked (h : Orderly base T R s) (hpin : Pins R s t)
    (ht : View base T (R + Pi.single ip 1) (fun _ => false) t)
    (hthere : T (t.inodes ip).inum = none → E noType) :
    Wp E (ilock ip) (fun _ u => OnHand base T R ip u) t := by
  refine (ht.ilock (h.view.single_pos ip) hthere (by simp)).mono fun _ u hu => ?_
  obtain ⟨hu, hk, -, -⟩ := hu
  have hpins := hpin.trans (ht.pins hu hk (le_add_single R ip) (le_add_single R ip))
  refine ⟨hu, h.proper, h.view.nonneg, ?_, fun i m hi h0 => ?_⟩
  · rintro i ⟨k, hk, rfl⟩
    rw [(hpins k hk).1]
    exact h.used _ ⟨k, hk, rfl⟩
  · obtain ⟨k, hk, hki, hv⟩ := h.held i m hi h0
    exact ⟨k, hk, (hpins k hk).1.trans hki, (hpins k hk).2 hv⟩

def Tree.Released (T T' : Tree) : Prop :=
  T' = T ∨ ∃ i n, T i = some n ∧ n.nlink = 0 ∧ T' = Function.update T i none

omit hE in
theorem Orderly.iput (h : Orderly base T R s) (k : ℕ) (hk : 0 < R k) :
    Wp E (iput k) (fun _ t => ∃ T', T.Released T' ∧ Orderly base T' (R - Pi.single k 1) t) s := by
  refine (h.view.iput k hk fun _ => rfl).mono fun _ t ht => ?_
  obtain ⟨ht, hkeep⟩ := ht
  have hle : R - Pi.single k 1 ≤ R := fun q => by
    simp only [Pi.sub_apply, Pi.single_apply]
    split <;> omega
  have hpin := h.view.pins ht hkeep hle le_rfl
  obtain ⟨T', hT'⟩ : ∃ T', T' = if (s.inodes k).valid = true then T.put (s.inodes k).inum
    (R k) else T :=
    ⟨_, rfl⟩
  rw [← hT'] at ht
  have hother : ∀ i, T' i = T i ∨ i = (s.inodes k).inum ∧ T' i = none ∧ R k = 1 := by
    intro i
    rw [hT']
    split
    swap
    · exact .inl rfl
    unfold Tree.put
    split
    · rename_i hgone
      by_cases hi : i = (s.inodes k).inum
      · exact .inr ⟨hi, by rw [hi, Function.update_self], hgone.1⟩
      · exact .inl (Function.update_of_ne hi ..)
    · exact .inl rfl
  have hreleased : T.Released T' := by
    rw [hT']
    split
    swap
    · exact .inl rfl
    unfold Tree.put
    split
    · rename_i hgone
      obtain ⟨n, hn, h0⟩ := Option.map_eq_some_iff.mp hgone.2
      exact .inr ⟨_, n, hn, h0, rfl⟩
    · exact .inl rfl
  refine ⟨T', hreleased, ht, ?_, ?_, fun i m hi h0 => ?_⟩
  · rw [hT']
    split
    · exact h.proper.put _ _
    · exact h.proper
  · rintro i ⟨q, hq, rfl⟩
    rw [(hpin q hq).1]
    have hRq := lt_of_lt_of_le hq (hle q)
    rcases hother (s.inodes q).inum with hi | ⟨hi, -, hone⟩
    · rw [hi]
      exact h.used _ ⟨q, hRq, rfl⟩
    · obtain rfl := h.view.unique q k hRq hk hi
      simp only [Pi.sub_apply, Pi.single_eq_same] at hq
      omega
  · rcases hother i with hsame | ⟨-, hnone, -⟩
    swap
    · rw [hnone] at hi
      cases hi
    have hi' : T i = some m := hsame ▸ hi
    obtain ⟨q, hq, hqi, hv⟩ := h.held i m hi' h0
    have hqpos : 0 < (R - Pi.single k 1 : ℕ → ℤ) q := by
      by_cases hqk : q = k
      · subst hqk
        by_contra hlt
        have hone : R q = 1 := by
          simp only [Pi.sub_apply, Pi.single_eq_same] at hlt
          omega
        -- the last reference takes the node away
        rw [hT', if_pos hv, hqi, hone, Tree.put, if_pos ⟨rfl, by rw [hi', Option.map_some, h0]⟩,
          Function.update_self] at hi
        cases hi
      · simpa [hqk] using hq
    exact ⟨q, hqpos, (hpin q hqpos).1.trans hqi, (hpin q hqpos).2 hv⟩

theorem Orderly.namei (h : Orderly base T R s) (hcwd : 0 < R cwd) :
    Wp E (namei cwd path) (fun r t => match r with
      | none => Orderly base T R t
      | some ip => Pins R s t ∧ View base T (R + Pi.single ip 1) (fun _ => false) t ∧
          (T (t.inodes ip).inum = none → E noType)) s := by
  refine wp_bind.mpr ((h.namex hcwd).mono fun r t hr => wp_pure.mpr ?_)
  obtain ⟨hpin, hr⟩ := hr
  rcases r with - | ⟨ip, name⟩
  · exact h.same hr.2 hpin
  · exact ⟨hpin, hr.2⟩

/-- A node of some type was made at a path in the directory `c`. -/
def Tree.Creates (T : Tree) (c : ℕ) (path : Bytes) (type : ℤ) (i : ℕ) (n : Node)
    (T' : Tree) : Prop :=
  ∃ d name nd nd', T.namex c path true = some (d, name) ∧
    Made T d i (Bytes.str name DIRSIZ) nd nd' n T' ∧ n.type = type

/-- The inode that `create` answers is in hand. It was made, or for `T_FILE` it was there. -/
theorem Orderly.created (h : Orderly base T R s) (hcwd : 0 < R cwd) (hN : sb.ninodes ≤ 2 ^ 16)
    (hroom : T.Roomy) (path : Bytes) {type : ℤ} (h0 : type ≠ 0) (major minor : ℤ) :
    Wp E (Kernel.create cwd path type major minor) (fun r t => match r with
      | none => Orderly base T R t
      | some ip => ∃ T', OnHand base T' R ip t ∧ (type = T_FILE ∧ T' = T ∨
          ∃ n, T.Creates (s.inodes cwd).inum path type (t.inodes ip).inum n T')) s := by
  refine (h.create hcwd hN hroom path h0 major minor).mono fun r t hr => ?_
  obtain ⟨hpin, hr⟩ := hr
  rcases r with - | ip
  · exact h.same hr hpin
  obtain ⟨T', ht, ⟨hf, rfl, -⟩ | ⟨d, name, nd, nd', n, hw, hmade, htype, -⟩⟩ := hr
  · refine ⟨T', ⟨ht, h.proper, h.view.nonneg, ?_, fun i m hi h0 => ?_⟩, .inl ⟨hf, rfl⟩⟩
    · rintro i ⟨k, hk, rfl⟩
      rw [(hpin k hk).1]
      exact h.used _ ⟨k, hk, rfl⟩
    · obtain ⟨k, hk, hki, hv⟩ := h.held i m hi h0
      exact ⟨k, hk, (hpin k hk).1.trans hki, (hpin k hk).2 hv⟩
  have hproper := h.proper.made hN hroom hmade
  have hother : ∀ {j}, j ≠ d → j ≠ (t.inodes ip).inum → T' j = T j := fun hd hi => hmade.of_ne hd hi
  refine ⟨T', ⟨ht, hproper, h.view.nonneg, ?_, fun i m hi h0 => ?_⟩,
    .inr ⟨n, d, name, nd, nd', hw, hmade, htype⟩⟩
  · rintro i ⟨k, hk, rfl⟩
    rw [(hpin k hk).1]
    by_cases hd : (s.inodes k).inum = d
    · rw [hd, hmade.dir_self]
      simp
    by_cases hi : (s.inodes k).inum = (t.inodes ip).inum
    · rw [hi, hmade.self]
      simp
    · rw [hother hd hi]
      exact h.used _ ⟨k, hk, rfl⟩
  · by_cases hid : i = d
    · subst hid
      obtain rfl := Option.some.inj (hmade.dir_self.symm.trans hi)
      exact absurd h0 (hproper.nlink_ne_zero hi hmade.dir_type)
    by_cases hii : i = (t.inodes ip).inum
    · subst hii
      obtain rfl := Option.some.inj (hmade.self.symm.trans hi)
      exact absurd (hmade.nlink.symm.trans h0) (by decide)
    · rw [hother hid hii] at hi
      obtain ⟨k, hk, hki, hv⟩ := h.held i m hi h0
      exact ⟨k, hk, (hpin k hk).1.trans hki, (hpin k hk).2 hv⟩

/-- What `sys_open` does to the tree to find the inode of its path. -/
def Tree.Found (T : Tree) (c : ℕ) (path : Bytes) (omode : ℤ) (T' : Tree) : Prop :=
  T' = T ∨ hasFlag omode O_CREATE = true ∧ ∃ i n, T.Creates c path T_FILE i n T'

theorem Orderly.openPath (h : Orderly base T R s) (hcwd : 0 < R cwd) (hN : sb.ninodes ≤ 2 ^ 16)
    (hroom : T.Roomy) (path : Bytes) (omode : ℤ) :
    Wp E (openPath cwd path omode) (fun r t => match r with
      | none => Orderly base T R t
      | some ip => ∃ T', T.Found (s.inodes cwd).inum path omode T' ∧ OnHand base T' R ip t) s := by
  unfold Kernel.openPath
  split
  · rename_i hcreate
    refine (h.created hcwd hN hroom path (by decide) 0 0).mono fun r t hr => ?_
    rcases r with - | ip
    · exact hr
    · obtain ⟨T', ht, hkind⟩ := hr
      exact ⟨T', hkind.imp And.right fun hnew => ⟨hcreate, _, hnew⟩, ht⟩
  · refine wp_bind.mpr ((h.namei hcwd).mono fun r t hr => ?_)
    rcases r with - | ip
    · exact wp_pure.mpr hr
    · exact wp_bind.mpr ((h.locked hr.1 hr.2.1 hr.2.2).mono
        fun _ u hu => wp_pure.mpr ⟨T, .inl rfl, hu⟩)

theorem OnHand.followLinks {omode : ℤ} {m : ℕ} (h : OnHand base T R ip s) (hcwd : 0 < R cwd)
    (hmax : Param.MAXPATH ≤ BSIZE) :
    Wp E (followLinks cwd omode m ip path) (fun r t => match r with
      | none => Orderly base T R t
      | some (ip, _) => OnHand base T R ip t) s := by
  have hnone : ∀ {ip : ℕ} {s : FsState}, OnHand base T R ip s → Wp E (do
      iunlockput ip
      return none) (fun (r : Option (ℕ × ℕ)) t => match r with
        | none => Orderly base T R t
        | some (ip, _) => OnHand base T R ip t) s :=
    fun h => wp_bind.mpr (h.giveBack.mono fun _ _ ht => wp_pure.mpr ht)
  induction m generalizing ip path s with
  | zero =>
    unfold Kernel.followLinks
    refine wp_bind.mpr (wp_inode.mpr ?_)
    split
    · exact hnone h
    · exact wp_pure.mpr h
  | succ m ih =>
    unfold Kernel.followLinks
    refine wp_bind.mpr (wp_inode.mpr ?_)
    split
    swap
    · exact wp_pure.mpr h
    obtain ⟨n, hn, -⟩ := h.node
    refine wp_bind.mpr ((h.view.readLink (Function.update_self ..) hn hmax path).mono
      fun r t ht => ?_)
    obtain ⟨rfl, -⟩ := ht
    dsimp only
    split
    · exact hnone h
    refine wp_bind.mpr (h.giveBack.mono fun _ u hu => wp_bind.mpr
      ((hu.namei hcwd).mono fun r v hv => ?_))
    rcases r with - | next
    · exact wp_pure.mpr hv
    · exact wp_bind.mpr ((hu.locked hv.1 hv.2.1 hv.2.2).mono fun _ w hw => ih hw)

end Xv6Sheet.Kernel
