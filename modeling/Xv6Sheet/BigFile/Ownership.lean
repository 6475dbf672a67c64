import Xv6Sheet.BigFile.Bmap
import Xv6Sheet.Disk.Store

/-! # Block ownership in the big-file layout

Runs of `bmap` and `itrunc` on inodes sharing a disk. The metadata blocks stay reserved
and every other block in use belongs to one position of one inode, also when the disk
runs full halfway down to a data block.
-/

namespace Xv6Sheet.BigFile

open Exec Store

inductive Call (ι : Type)
  | bmap (i : ι) (bn : ℕ)
  | itrunc (i : ι)

variable [sb : Superblock] {ι : Type} [DecidableEq ι] {base : Set ℕ} {s s₀ t : Store ι}

/-- One call, with the answer 0 for `itrunc`. -/
def call : Call ι → Exec (Store ι) Fault ℕ
  | .bmap i bn => onInode i fun ip => bmap ip bn
  | .itrunc i => onInode i fun ip => do return (0, ← itrunc ip)

theorem ends_call_bmap {i : ι} {bn r : ℕ} : Ends (call (.bmap i bn)) s r t ↔
    ∃ ip d, Ends (bmap (s.inodes i) bn) s.disk (r, ip) d ∧
      t = ⟨Function.update s.inodes i ip, d⟩ := by
  rw [call, ends_onInode]

theorem call_bmap (h : Forest shape base s.inodes s.disk) (i : ι) {bn : ℕ} (hbn : bn < cap) :
    ∃ r t, Ends (call (.bmap i bn)) s r t ∧ Finds shape base i (position bn).1
      (position bn).2 s.inodes t.inodes s.disk t.disk r := by
  obtain ⟨r, ip, d', he, hf⟩ := bmap_ends h i hbn
  exact ⟨r, _, ends_call_bmap.mpr ⟨ip, d', he, rfl⟩, hf⟩

theorem call_bmap_cap (s : Store ι) (i : ι) {bn : ℕ} (hbn : cap ≤ bn) :
    Ends (call (.bmap i bn)) s 0 s := by
  refine ends_call_bmap.mpr ⟨s.inodes i, s.disk, bmap_ends_cap (s.inodes i) hbn s.disk, ?_⟩
  rw [Function.update_eq_self]

theorem call_itrunc (h : Forest shape base s.inodes s.disk) (i : ι) :
    ∃ ip d, Ends (call (.itrunc i)) s 0 ⟨Function.update s.inodes i ip, d⟩ ∧
      Truncates shape base i s.inodes s.disk ip d := by
  obtain ⟨ip, d, he, ht⟩ := itrunc_ends h i
  have hm : Ends (do return (0, ← itrunc (s.inodes i))) s.disk (0, ip) d := he.bind (by simp)
  refine ⟨ip, d, ?_, ht⟩
  rw [call, ends_onInode]
  exact ⟨ip, d, hm, rfl⟩

theorem call_ends (h : Forest shape base s.inodes s.disk) (c : Call ι) :
    ∃ a t, Ends (call c) s a t := by
  cases c with
  | bmap i bn =>
    rcases Nat.lt_or_ge bn cap with hbn | hbn
    · obtain ⟨r, t, he, -⟩ := call_bmap h i hbn
      exact ⟨r, t, he⟩
    · exact ⟨0, s, call_bmap_cap s i hbn⟩
  | itrunc i =>
    obtain ⟨ip, d, he, -⟩ := call_itrunc h i
    exact ⟨0, _, he⟩

/-- A call keeps the forest, and only truncation changes the pointers of an inode that are
set. -/
theorem call_keeps (h : Forest shape base s.inodes s.disk) {c : Call ι} {a : ℕ}
    (he : Ends (call c) s a t) : Forest shape base t.inodes t.disk ∧
      ∀ x, shape.Valid x → c ≠ .itrunc x.1 → s.ptr x ≠ 0 → t.ptr x = s.ptr x := by
  cases c with
  | bmap i bn =>
    rcases Nat.lt_or_ge bn cap with hbn | hbn
    · obtain ⟨r, t', he', hf⟩ := call_bmap h i hbn
      obtain ⟨rfl, rfl⟩ := he.unique he'
      exact ⟨hf.forest, fun x hx _ h0 => hf.extends'.ptr_eq x hx h0⟩
    · obtain ⟨rfl, rfl⟩ := he.unique (call_bmap_cap s i hbn)
      exact ⟨h, fun _ _ _ _ => rfl⟩
  | itrunc i =>
    obtain ⟨ip, d, he', ht⟩ := call_itrunc h i
    obtain ⟨rfl, rfl⟩ := he.unique he'
    exact ⟨ht.forest, fun x hx hne _ => ht.ptr_eq h hx fun hi => hne (hi ▸ rfl)⟩

theorem runs_forest {cs : List (Call ι)} (hr : Runs call s cs t)
    (h : Forest shape base s.inodes s.disk) : Forest shape base t.inodes t.disk :=
  hr.invariant (I := fun s => Forest shape base s.inodes s.disk) (P := fun _ => True)
    (fun _ _ _ _ h _ he => (call_keeps h he).1) (fun _ _ => trivial) h

theorem exists_runs (h : Forest shape base s.inodes s.disk) (cs : List (Call ι)) :
    ∃ t, Runs call s cs t := by
  obtain ⟨t, ht, -⟩ := Runs.exists_run
    (I := fun s : Store ι => Forest shape base s.inodes s.disk)
    (fun s c h => by
      obtain ⟨a, t, he⟩ := call_ends h c
      exact ⟨a, t, he, (call_keeps h he).1⟩) h cs
  exact ⟨t, ht⟩

/-- Along a run that does not truncate inode `i`, the pointers of `i` that are set stay. -/
theorem runs_ptr {cs : List (Call ι)} (hr : Runs call s cs t)
    (h : Forest shape base s.inodes s.disk) {i : ι} (hcs : Call.itrunc i ∉ cs) {r : ℕ}
    {p : List ℕ} (hok : shape.Ok r p) {b : ℕ} (hb : b ≠ 0) (hp : s.ptr (i, r, p) = b) :
    Forest shape base t.inodes t.disk ∧ t.ptr (i, r, p) = b := by
  refine hr.invariant (I := fun s => Forest shape base s.inodes s.disk ∧ s.ptr (i, r, p) = b)
    (P := fun c => c ≠ .itrunc i) ?_ (fun c hc he => hcs (he ▸ hc)) ⟨h, hp⟩
  rintro s t c a ⟨h, rfl⟩ hc he
  obtain ⟨h', hptr⟩ := call_keeps h he
  exact ⟨h', hptr (i, r, p) hok hc hb⟩

omit [DecidableEq ι] in
/-- Two block numbers share a block only when they are the same number of the same
inode. -/
theorem position_unique (h : Forest shape base s.inodes s.disk) {i j : ι} {bn bn' : ℕ}
    (hbn : bn < cap) (hbn' : bn' < cap) (h0 : s.ptr (i, position bn) ≠ 0)
    (he : s.ptr (i, position bn) = s.ptr (j, position bn')) : i = j ∧ bn = bn' := by
  have hx := h.owned.inj (i, position bn) (j, position bn') (position_ok hbn)
    (position_ok hbn') h0 he
  simp only [Prod.mk.injEq] at hx
  exact ⟨hx.1, position_injective hx.2⟩

theorem bmap_answer (h : Forest shape base s.inodes s.disk) {i j : ι} {bn bn' r r' : ℕ}
    (hbn : bn < cap) (hr : r ≠ 0) (hp : s.ptr (i, position bn) = r)
    (he : Ends (call (.bmap j bn')) s r' t) : r' = r ↔ j = i ∧ bn' = bn := by
  rcases Nat.lt_or_ge bn' cap with hbn' | hbn'
  · obtain ⟨r'', t', he', hf⟩ := call_bmap h j hbn'
    obtain ⟨rfl, rfl⟩ := he.unique he'
    have hpt : t.ptr (i, position bn) = r :=
      (hf.extends'.ptr_eq (i, position bn) (position_ok hbn) (hp.trans_ne hr)).trans hp
    have hpt' : t.ptr (j, position bn') = r' := hf.ptr_eq
    constructor
    · intro hrr
      exact position_unique hf.forest hbn' hbn (hpt'.trans_ne (hrr ▸ hr))
        (by rw [hpt, hpt', hrr])
    · rintro ⟨rfl, rfl⟩
      rw [← hpt, ← hpt']
  · obtain ⟨rfl, rfl⟩ := he.unique (call_bmap_cap s j hbn')
    exact ⟨fun h => absurd h.symm hr, fun h => absurd hbn (by omega)⟩

/-- Over any run of `bmap` and `itrunc` calls from empty inodes: the blocks referenced are
distinct, in use and none of the reserved ones; what is in use is what was reserved and
what is referenced; every call ends; and `bmap` answers the one block of the inode and
block number, the same until the inode is truncated, or 0 exactly when there are fewer
free blocks than blocks missing on the way. -/
theorem block_ownership {cs : List (Call ι)} (h₀ : s₀.Empty shape) (h : Runs call s₀ cs s) :
    (∀ b ∈ s.referenced shape, b ≠ 0 ∧ b ∈ s.disk.used ∧ b ∉ s₀.disk.used) ∧
    (∀ x y, shape.Valid x → shape.Valid y → s.ptr x ≠ 0 → s.ptr x = s.ptr y → x = y) ∧
    s.disk.used = s₀.disk.used ∪ s.referenced shape ∧
    (∀ i, ∃ t, Ends (call (.itrunc i)) s 0 t ∧ ∀ x, shape.Valid x → x.1 = i → t.ptr x = 0) ∧
    (∀ i bn, bn < cap → ∃ r t, Ends (call (.bmap i bn)) s r t ∧
      (r = 0 ↔ s.disk.free.card <
        missing s.inodes s.disk i (position bn).1 (position bn).2) ∧
      t.ptr (i, position bn) = r ∧
      (r ≠ 0 → ∀ cs u, Call.itrunc i ∉ cs → Runs call t cs u →
        ∀ j bn' r' v, Ends (call (.bmap j bn')) u r' v → (r' = r ↔ j = i ∧ bn' = bn))) ∧
    ∀ i bn, cap ≤ bn → Ends (call (.bmap i bn)) s 0 s := by
  have hf : Forest shape s₀.disk.used s.inodes s.disk := runs_forest h h₀.forest
  refine ⟨?_, hf.owned.inj, used_eq hf, fun i => ?_, fun i bn hbn => ?_,
    fun i bn => call_bmap_cap s i⟩
  · rintro b ⟨hb, x, hx, rfl⟩
    exact ⟨hb, hf.mem_used hx hb, hf.owned.not_base x hx hb⟩
  · obtain ⟨ip, d, he, ht⟩ := call_itrunc hf i
    refine ⟨_, he, ?_⟩
    rintro ⟨j, r, p⟩ hx rfl
    exact ht.ptr_zero hx
  · obtain ⟨r, t, he, hfinds⟩ := call_bmap hf i hbn
    refine ⟨r, t, he, ⟨fun hr => (hfinds.full hr).2, fun hlt => ?_⟩, hfinds.ptr_eq, ?_⟩
    · by_contra hr
      have := hfinds.card hr
      omega
    · intro hr cs u hcs hrun j bn' r' v hcall
      obtain ⟨hfu, hpu⟩ := runs_ptr hrun hfinds.forest hcs (position_ok hbn) hr hfinds.ptr_eq
      exact bmap_answer hfu hbn hr hpu hcall

omit sb in
/-- Two files of the small disk, one of them truncated. -/
theorem block_ownership_small :
    letI := smallDisk
    ∃ s : Store Bool, Runs call (.small fun i => if i then 1 else 2)
        [.bmap true 0, .bmap false 300, .bmap true 9999, .itrunc true] s ∧
      s.disk.used = (Store.small fun i : Bool => if i then 1 else 2).disk.used ∪
        s.referenced shape := by
  let _ := smallDisk
  have h₀ := Store.empty_small (fun i : Bool => if i then 1 else 2) shape
  obtain ⟨s, hs⟩ := exists_runs h₀.forest
    [.bmap true 0, .bmap false 300, .bmap true 9999, .itrunc true]
  exact ⟨s, hs, (block_ownership h₀ hs).2.2.1⟩

end Xv6Sheet.BigFile
