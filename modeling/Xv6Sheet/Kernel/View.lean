import Mathlib.Algebra.Group.Pi.Basic
import Xv6Sheet.Fs.Refinement
import Xv6Sheet.Kernel.Tree

/-! # Views of the file system

A view of a file system is what it shows: the tree on its disk, how often each entry of the
inode table is referenced, and which entries are locked. The programs that work on the inode
table are specified by the view they leave.
-/

namespace Xv6Sheet.Kernel

open Exec

variable [sb : Superblock]

/-- The inode with a number as the disk has it; a free one has no content. -/
def live (d : Disk) (i : ℕ) : Inode :=
  { (if (d.dinode i).type = 0 then Dinode.zero else d.dinode i) with
    dev := ROOTDEV, inum := i, ref := 0, valid := true, locked := false }

def nodeOf (dip : Dinode) (data : List UInt8) : Option Node :=
  if dip.type = 0 then none else some ⟨dip.type, dip.major, dip.minor, dip.nlink, data⟩

def tree (d : Disk) : Tree := fun i => nodeOf (d.dinode i) (Fs.content (live d) d i)

variable [pm : Param]

/-- A file system that shows the tree `T`, with `R` references to the entries of its table and
the locks `L`. The inodes in use are cached as they are on the disk. -/
structure View (base : Set ℕ) (T : Tree) (R : ℕ → ℤ) (L : ℕ → Bool) (s : FsState) : Prop where
  sound : Fs.Sound base (live s.disk) s.disk
  tree_eq : tree s.disk = T
  ref_eq : ∀ ip, (s.inodes ip).ref = R ip
  lock_eq : ∀ ip, (s.inodes ip).locked = L ip
  nonneg : ∀ ip, 0 ≤ R ip
  inTable : ∀ ip, 0 < R ip → ip < Param.NINODE
  dev : ∀ ip, 0 < R ip → (s.inodes ip).dev = ROOTDEV
  unique : ∀ ip ip', 0 < R ip → 0 < R ip' → (s.inodes ip).inum = (s.inodes ip').inum → ip = ip'
  cached : ∀ ip, 0 < R ip → (s.inodes ip).valid = true →
    (s.inodes ip).toDinode = s.disk.dinode (s.inodes ip).inum ∧ (s.inodes ip).type ≠ 0
  held : ∀ ip, L ip = true → 0 < R ip ∧ (s.inodes ip).valid = true
  bounded : ∀ i n, T i = some n → i < sb.ninodes

def Keeps (s t : FsState) : Prop :=
  ∀ ip, 0 < (s.inodes ip).ref → 0 < (t.inodes ip).ref →
    (t.inodes ip).inum = (s.inodes ip).inum ∧
      ((s.inodes ip).valid = true → (t.inodes ip).valid = true)

omit sb pm in
theorem Keeps.refl (s : FsState) : Keeps s s := fun _ _ _ => ⟨rfl, id⟩

omit sb pm in
theorem Keeps.trans {s t u : FsState} (h : Keeps s t) (h' : Keeps t u)
    (hm : ∀ ip, 0 < (s.inodes ip).ref → 0 < (u.inodes ip).ref → 0 < (t.inodes ip).ref) :
    Keeps s u := fun ip hs hu => by
  obtain ⟨hi, hv⟩ := h ip hs (hm ip hs hu)
  obtain ⟨hi', hv'⟩ := h' ip (hm ip hs hu) hu
  exact ⟨hi'.trans hi, fun h => hv' (hv h)⟩

section Disk

omit pm

variable {base : Set ℕ} {d d' : Disk} {i : ℕ} {n : Node}

theorem live_of_type {dip : Dinode} (hd : d.dinode i = dip) (h : dip.type ≠ 0) :
    (live d i).toDinode = dip := by
  unfold live
  rw [hd, if_neg h]

theorem tree_eq_some (h : tree d i = some n) :
    (d.dinode i).type = n.type ∧ n.type ≠ 0 ∧ (d.dinode i).major = n.major ∧
      (d.dinode i).minor = n.minor ∧ (d.dinode i).nlink = n.nlink ∧
      Fs.content (live d) d i = n.data := by
  unfold tree nodeOf at h
  split at h
  · simp at h
  · rename_i h0
    obtain rfl := Option.some.inj h
    exact ⟨rfl, h0, rfl, rfl, rfl, rfl⟩

theorem tree_eq_none : tree d i = none ↔ (d.dinode i).type = 0 := by
  unfold tree nodeOf
  split <;> simp_all

theorem tree_update {dip : Dinode} (hd : ∀ j, d'.dinode j = if j = i then dip else d.dinode j)
    (hc : ∀ j, j ≠ i → Fs.content (live d') d' j = Fs.content (live d) d j) :
    tree d' = Function.update (tree d) i (nodeOf dip (Fs.content (live d') d' i)) := by
  funext j
  by_cases hj : j = i
  · subst hj
    rw [Function.update_self, tree, hd, if_pos rfl]
  · rw [Function.update_of_ne hj, tree, tree, hd, if_neg hj, hc j hj]

end Disk

namespace View

variable {base : Set ℕ} {T : Tree} {R : ℕ → ℤ} {L : ℕ → Bool} {s : FsState} {ip i : ℕ} {n : Node}
  {E : Fault → Prop}

theorem inum_ne (h : View base T R L s) {ip' : ℕ} (hip : 0 < R ip) (hip' : 0 < R ip')
    (hne : ip ≠ ip') : (s.inodes ip).inum ≠ (s.inodes ip').inum :=
  fun he => hne (h.unique ip ip' hip hip' he)

theorem node (h : View base T R L s) (hr : 0 < R ip) (hv : (s.inodes ip).valid = true) :
    ∃ n, T (s.inodes ip).inum = some n ∧ (s.inodes ip).type = n.type ∧
      (s.inodes ip).major = n.major ∧ (s.inodes ip).minor = n.minor ∧
      (s.inodes ip).nlink = n.nlink ∧ (s.inodes ip).size = n.data.length := by
  obtain ⟨hc, h0⟩ := h.cached ip hr hv
  have htype : (s.disk.dinode (s.inodes ip).inum).type ≠ 0 := hc ▸ h0
  refine ⟨_, by rw [← h.tree_eq, tree, nodeOf, if_neg htype], ?_⟩
  rw [hc]
  refine ⟨rfl, rfl, rfl, rfl, ?_⟩
  rw [Fs.length_content]
  exact (congrArg Dinode.size (live_of_type rfl htype)).symm

def inodesWith (s : FsState) (ip : ℕ) : ℕ → Inode :=
  Function.update (live s.disk) (s.inodes ip).inum (s.inodes ip)

omit pm in
theorem inodesWith_self (s : FsState) (ip : ℕ) :
    inodesWith s ip (s.inodes ip).inum = s.inodes ip := Function.update_self ..

theorem inodesWith_sound (h : View base T R L s) (hr : 0 < R ip)
    (hv : (s.inodes ip).valid = true) : Fs.Sound base (inodesWith s ip) s.disk ∧
      Fs.content (inodesWith s ip) s.disk = Fs.content (live s.disk) s.disk := by
  obtain ⟨hc, h0⟩ := h.cached ip hr hv
  have hlive : ∀ j, (inodesWith s ip j).toDinode = (live s.disk j).toDinode := by
    intro j
    by_cases hj : j = (s.inodes ip).inum
    · subst hj
      rw [inodesWith_self, hc]
      exact (live_of_type rfl (hc ▸ h0)).symm
    · unfold inodesWith
      rw [Function.update_of_ne hj]
  exact h.sound.congr (fun j _ _ => by rw [hlive]) (fun j => by rw [hlive]) rfl

/-- One inode changed on the disk, and with it the entry of the table that caches it. -/
theorem store (h : View base T R L s) (ip : ℕ) {t : FsState} {dip : Dinode} {data : List UInt8}
    (hd : ∀ j, t.disk.dinode j = if j = i then dip else s.disk.dinode j)
    (hs : Fs.Sound base (live t.disk) t.disk)
    (hc : Fs.content (live t.disk) t.disk =
      Function.update (Fs.content (live s.disk) s.disk) i data)
    (hi : (s.inodes ip).inum = i) (hr : 0 < R ip) (hb : i < sb.ninodes)
    (hne : ∀ k, k ≠ ip → t.inodes k = s.inodes k)
    (hx : (t.inodes ip).dev = (s.inodes ip).dev ∧ (t.inodes ip).inum = i ∧
      (t.inodes ip).ref = (s.inodes ip).ref ∧ (t.inodes ip).locked = (s.inodes ip).locked)
    (hv : (t.inodes ip).valid = true → (t.inodes ip).toDinode = dip ∧ dip.type ≠ 0)
    (hl : L ip = true → (t.inodes ip).valid = true) :
    View base (Function.update T i (nodeOf dip data)) R L t := by
  obtain ⟨hdev, hinum, href, hlock⟩ := hx
  have hinums : ∀ k, (t.inodes k).inum = (s.inodes k).inum := by
    intro k
    by_cases hk : k = ip
    · rw [hk, hinum, hi]
    · rw [hne k hk]
  refine ⟨hs, ?_, fun k => ?_, fun k => ?_, h.nonneg, h.inTable,
    fun k hk => ?_, fun k k' hk hk' he => ?_,
    fun k hk hkv => ?_, fun k hk => ⟨(h.held k hk).1, ?_⟩, fun j n hj => ?_⟩
  · rw [tree_update hd fun j hj => by rw [hc, Function.update_of_ne hj], h.tree_eq, hc,
      Function.update_self]
  · by_cases hk : k = ip
    · rw [hk, href, h.ref_eq]
    · rw [hne k hk, h.ref_eq]
  · by_cases hk : k = ip
    · rw [hk, hlock, h.lock_eq]
    · rw [hne k hk, h.lock_eq]
  · by_cases hkip : k = ip
    · rw [hkip, hdev]
      exact h.dev ip hr
    · rw [hne k hkip]
      exact h.dev k hk
  · rw [hinums, hinums] at he
    exact h.unique k k' hk hk' he
  · by_cases hkip : k = ip
    · subst hkip
      obtain ⟨hdip, h0⟩ := hv hkv
      exact ⟨by rw [hd, if_pos hinum, hdip], hdip ▸ h0⟩
    · simp only [hne k hkip] at hkv ⊢
      obtain ⟨hdip, h0⟩ := h.cached k hk hkv
      have hki := h.inum_ne hk hr hkip
      exact ⟨by rw [hd, if_neg (hi ▸ hki), hdip], h0⟩
  · by_cases hkip : k = ip
    · rw [hkip] at hk ⊢
      exact hl hk
    · rw [hne k hkip]
      exact (h.held k hk).2
  · by_cases hji : j = i
    · rwa [hji]
    · rw [Function.update_of_ne hji] at hj
      exact h.bounded j n hj

theorem entry (h : View base T R L s) (ip : ℕ) {t : FsState} {R' : ℕ → ℤ} {L' : ℕ → Bool}
    (hd : t.disk = s.disk) (hne : ∀ k, k ≠ ip → t.inodes k = s.inodes k)
    (hR : ∀ k, k ≠ ip → R' k = R k) (hL : ∀ k, k ≠ ip → L' k = L k)
    (href : (t.inodes ip).ref = R' ip) (hlock : (t.inodes ip).locked = L' ip) (h0 : 0 ≤ R' ip)
    (huse : 0 < R' ip → ip < Param.NINODE ∧ (t.inodes ip).dev = ROOTDEV ∧
      (∀ k, k ≠ ip → 0 < R k → (s.inodes k).inum ≠ (t.inodes ip).inum) ∧
      ((t.inodes ip).valid = true →
        (t.inodes ip).toDinode = s.disk.dinode (t.inodes ip).inum ∧ (t.inodes ip).type ≠ 0))
    (hheld : L' ip = true → 0 < R' ip ∧ (t.inodes ip).valid = true) : View base T R' L' t := by
  refine ⟨hd ▸ h.sound, hd ▸ h.tree_eq, fun k => ?_, fun k => ?_, fun k => ?_, fun k hk => ?_,
    fun k hk => ?_, fun k k' hk hk' he => ?_, fun k hk hv => ?_, fun k hk => ?_, h.bounded⟩
  · by_cases hip : k = ip
    · rw [hip, href]
    · rw [hne k hip, hR k hip, h.ref_eq]
  · by_cases hip : k = ip
    · rw [hip, hlock]
    · rw [hne k hip, hL k hip, h.lock_eq]
  · by_cases hip : k = ip
    · rwa [hip]
    · rw [hR k hip]
      exact h.nonneg k
  · by_cases hip : k = ip
    · rw [hip] at hk ⊢
      exact (huse hk).1
    · rw [hR k hip] at hk
      exact h.inTable k hk
  · by_cases hip : k = ip
    · rw [hip] at hk ⊢
      exact (huse hk).2.1
    · rw [hR k hip] at hk
      rw [hne k hip]
      exact h.dev k hk
  · by_cases hip : k = ip
    · by_cases hip' : k' = ip
      · rw [hip, hip']
      · rw [hip] at hk he
        rw [hR k' hip'] at hk'
        rw [hne k' hip'] at he
        exact absurd he.symm ((huse hk).2.2.1 k' hip' hk')
    · rw [hR k hip] at hk
      rw [hne k hip] at he
      by_cases hip' : k' = ip
      · rw [hip'] at hk' he
        exact absurd he ((huse hk').2.2.1 k hip hk)
      · rw [hR k' hip'] at hk'
        rw [hne k' hip'] at he
        exact h.unique k k' hk hk' he
  · by_cases hip : k = ip
    · rw [hip] at hk hv ⊢
      rw [hd]
      exact (huse hk).2.2.2 hv
    · rw [hR k hip] at hk
      rw [hne k hip] at hv ⊢
      rw [hd]
      exact h.cached k hk hv
  · by_cases hip : k = ip
    · rw [hip] at hk ⊢
      exact hheld hk
    · rw [hL k hip] at hk
      rw [hR k hip, hne k hip]
      exact h.held k hk

theorem in_use (h : View base T R L s) (hr : 0 < R ip) {x : Inode}
    (hx : x.dev = (s.inodes ip).dev ∧ x.inum = (s.inodes ip).inum)
    (hv : x.valid = true → x.toDinode = s.disk.dinode x.inum ∧ x.type ≠ 0) :
    ip < Param.NINODE ∧ x.dev = ROOTDEV ∧
      (∀ k, k ≠ ip → 0 < R k → (s.inodes k).inum ≠ x.inum) ∧
      (x.valid = true → x.toDinode = s.disk.dinode x.inum ∧ x.type ≠ 0) :=
  ⟨h.inTable ip hr, hx.1.trans (h.dev ip hr),
    fun _ hk hk0 he => h.inum_ne hk0 hr hk (he.trans hx.2), hv⟩

end View

end Xv6Sheet.Kernel
