import Xv6Sheet.Disk.Inode

/-! # Freeing the blocks of an inode

The loops that free the trees of blocks below an inode. Each of them gives back exactly
the blocks of its tree and leaves the blocks of all other trees as they were.
-/

namespace Xv6Sheet

open Exec

variable [sb : Superblock]

/-- Free every block the index block `bp` names. -/
def freeEntries (bp : Bytes) (f : ℕ → DiskM Unit) : DiskM Unit :=
  each (fun j => if bp.le (4 * j) 4 = 0 then return () else f (bp.le (4 * j) 4)) 0 NINDIRECT

def freeIndirect (b : ℕ) : DiskM Unit := do
  let bp ← bread b
  freeEntries bp bfree
  bfree b

/-- Free the index blocks under a master block with their data blocks, then the master
block. -/
def freeDouble (b : ℕ) : DiskM Unit := do
  let bp1 ← bread b
  freeEntries bp1 freeIndirect
  bfree b

/-- Free what one root address names with `f` and clear the address. -/
def clearAddr (f : ℕ → DiskM Unit) (ip : Inode) (k : ℕ) : DiskM Inode :=
  if ip.addrs k = 0 then return ip
  else do
    f (ip.addrs k)
    return ip.setAddr k 0

def clearDirect : ℕ → ℕ → Inode → DiskM Inode
  | _, 0, ip => return ip
  | k, n + 1, ip => do
    let ip ← clearAddr bfree ip k
    clearDirect (k + 1) n ip

/-- On a disk whose data is that of `d`, the program frees the blocks of the list and
answers `a`. -/
def Frees {α : Type} (d : Disk) (m : DiskM α) (a : α) (bs : List ℕ) : Prop :=
  ∀ t : Disk, (∀ c, ¬ IsMeta c → t.block c = d.block c) → bs.Nodup →
    (∀ b ∈ bs, b ∈ t.used) →
    ∃ t', Ends m t a t' ∧ t'.used = {b ∈ t.used | b ∉ bs} ∧ t'.dinodes = t.dinodes ∧
      ∀ c, ¬ IsMeta c → t'.block c = t.block c

namespace Frees

variable {α β : Type} {d : Disk}

theorem pure (a : α) : Frees d (Pure.pure a) a [] :=
  fun t _ _ _ => ⟨t, by simp, by simp, rfl, fun _ _ => rfl⟩

theorem bind {m : DiskM α} {f : α → DiskM β} {a : α} {b : β} {xs ys : List ℕ}
    (hm : Frees d m a xs) (hf : Frees d (f a) b ys) : Frees d (m >>= f) b (xs ++ ys) := by
  intro t ht hnd hus
  obtain ⟨hx, hy, hxy⟩ := List.nodup_append.mp hnd
  obtain ⟨t₁, h₁, hu₁, hd₁, hb₁⟩ := hm t ht hx fun b hb => hus b (List.mem_append_left _ hb)
  obtain ⟨t₂, h₂, hu₂, hd₂, hb₂⟩ := hf t₁ (fun c hc => (hb₁ c hc).trans (ht c hc)) hy
    fun b hb => by
      rw [hu₁]
      exact ⟨hus b (List.mem_append_right _ hb), fun hx => hxy b hx b hb rfl⟩
  refine ⟨t₂, h₁.bind h₂, ?_, hd₂.trans hd₁, fun c hc => (hb₂ c hc).trans (hb₁ c hc)⟩
  rw [hu₂, hu₁]
  ext c
  simp only [Set.mem_ofPred_eq, List.mem_append, not_or]
  tauto

theorem bfree (b : ℕ) : Frees d (bfree b) () [b] := by
  intro t _ _ hus
  have hb := hus b (List.mem_singleton_self b)
  refine ⟨t.give b, bfree_ends hb.2, ?_, rfl, fun c hc => Disk.give_block hc hb.1⟩
  rw [Disk.used_give]
  ext c
  simp

theorem bread {b : ℕ} {f : Bytes → DiskM α} {a : α} {bs : List ℕ} (hb : ¬ IsMeta b)
    (h : Frees d (f (d.block b)) a bs) : Frees d (bread b >>= f) a bs := by
  intro t ht hnd hus
  obtain ⟨t', h', hrest⟩ := h t ht hnd hus
  exact ⟨t', (ends_bread.mpr ⟨(ht b hb).symm, rfl⟩).bind h', hrest⟩

theorem each {f : ℕ → DiskM Unit} {g : ℕ → List ℕ} {k n : ℕ}
    (h : ∀ j, k ≤ j → j < k + n → Frees d (f j) () (g j)) :
    Frees d (Exec.each f k n) () ((List.range' k n).flatMap g) := by
  induction n generalizing k with
  | zero => exact .pure ()
  | succ n ih =>
    rw [List.range'_succ, List.flatMap_cons]
    exact (h k (Nat.le_refl k) (by omega)).bind
      (ih fun j hj hj' => h j (by omega) (by omega))

theorem freeEntries {f : ℕ → DiskM Unit} {n b : ℕ}
    (h : ∀ j < NINDIRECT, d.entry b j ≠ 0 →
      Frees d (f (d.entry b j)) () (subtree d.entry (List.range NINDIRECT) n (d.entry b j))) :
    Frees d (freeEntries (d.block b) f) ()
      ((List.range NINDIRECT).flatMap fun j =>
        subtree d.entry (List.range NINDIRECT) n (d.entry b j)) := by
  rw [List.range_eq_range']
  refine .each fun j _ hj => ?_
  have hz : (d.block b).le (4 * j) 4 = d.entry b j := rfl
  rw [hz]
  split
  · rename_i h0
    rw [h0]
    have hnil : subtree d.entry (List.range' 0 NINDIRECT) n 0 = [] := by
      cases n <;> simp [subtree]
    rw [hnil]
    exact .pure ()
  · rename_i h0
    rw [← List.range_eq_range']
    exact h j (by omega) h0

theorem freeIndirect {b : ℕ} (h0 : b ≠ 0) (hb : ¬ IsMeta b) :
    Frees d (freeIndirect b) () (subtree d.entry (List.range NINDIRECT) 1 b) := by
  rw [subtree, if_neg h0]
  refine .bread hb (.bind (.freeEntries fun j _ hj => ?_) (.bfree b))
  rw [subtree, if_neg hj]
  exact .bfree _

theorem freeDouble {b : ℕ} (h0 : b ≠ 0) (hb : ¬ IsMeta b)
    (hbs : ∀ j < NINDIRECT, d.entry b j ≠ 0 → ¬ IsMeta (d.entry b j)) :
    Frees d (freeDouble b) () (subtree d.entry (List.range NINDIRECT) 2 b) := by
  rw [subtree, if_neg h0]
  exact .bread hb (.bind (.freeEntries fun j hj hj0 => .freeIndirect hj0 (hbs j hj hj0))
    (.bfree b))

theorem clearAddr {f : ℕ → DiskM Unit} {ip : Inode} {k n : ℕ}
    (h : ip.addrs k ≠ 0 →
      Frees d (f (ip.addrs k)) () (subtree d.entry (List.range NINDIRECT) n (ip.addrs k))) :
    Frees d (clearAddr f ip k) (ip.setAddr k 0)
      (subtree d.entry (List.range NINDIRECT) n (ip.addrs k)) := by
  unfold Xv6Sheet.clearAddr
  split
  · rename_i h0
    have hip : ip.setAddr k 0 = ip := by
      unfold Inode.setAddr
      rw [← h0, Function.update_eq_self]
    have hnil : subtree d.entry (List.range NINDIRECT) n 0 = [] := by
      cases n <;> simp [subtree]
    rw [hip, h0, hnil]
    exact .pure ip
  · rename_i h0
    have hb := (h h0).bind (f := fun _ => Pure.pure (ip.setAddr k 0)) (.pure _)
    rwa [List.append_nil] at hb

end Frees

/-- The inode with the addresses from `k` up to `k + n` cleared. -/
def Inode.clear : ℕ → ℕ → Inode → Inode
  | _, 0, ip => ip
  | k, n + 1, ip => clear (k + 1) n (ip.setAddr k 0)

omit sb in
theorem Inode.clear_eq (k n : ℕ) (ip : Inode) :
    ip.clear k n = { ip with addrs := fun j => if k ≤ j ∧ j < k + n then 0 else ip.addrs j } := by
  induction n generalizing k ip with
  | zero =>
    have hz : (fun j => if k ≤ j ∧ j < k + 0 then 0 else ip.addrs j) = ip.addrs := by
      funext j
      rw [if_neg (by omega)]
    rw [Inode.clear, hz]
  | succ n ih =>
    rw [Inode.clear, ih]
    simp only [Inode.setAddr, Inode.mk.injEq, Dinode.mk.injEq, true_and, and_true]
    funext j
    by_cases hj : j = k
    · subst hj
      rw [if_neg (by omega), if_pos (by omega), Function.update_self]
    · rw [Function.update_of_ne hj]
      congr 1
      simp only [eq_iff_iff]
      omega

theorem Frees.clearDirect {d : Disk} (ip : Inode) (k n : ℕ) :
    Frees d (clearDirect k n ip) (ip.clear k n)
      ((List.range' k n).flatMap fun j =>
        subtree d.entry (List.range NINDIRECT) 0 (ip.addrs j)) := by
  induction n generalizing k ip with
  | zero => exact .pure ip
  | succ n ih =>
    rw [List.range'_succ, List.flatMap_cons]
    refine .bind (a := ip.setAddr k 0) (.clearAddr fun h0 => ?_) ?_
    · rw [subtree, if_neg h0]
      exact .bfree _
    · -- the later addresses are still those of `ip`
      have hlist : ((List.range' (k + 1) n).flatMap fun j =>
            subtree d.entry (List.range NINDIRECT) 0 ((ip.setAddr k 0).addrs j)) =
          (List.range' (k + 1) n).flatMap fun j =>
            subtree d.entry (List.range NINDIRECT) 0 (ip.addrs j) := by
        refine List.flatMap_congr fun j hj => ?_
        have hjk : j ≠ k := by
          rintro rfl
          simp at hj
        simp only [Inode.setAddr, Function.update_of_ne hjk]
      rw [← hlist]
      exact ih (ip.setAddr k 0) (k + 1)

section Forest

variable {ι : Type} [DecidableEq ι] {S : Shape ℕ ℕ} {base : Set ℕ} {F : ι → Inode} {d : Disk}

/-- What truncation of inode `i` does: it gives back all blocks of the inode, clears its
addresses and size, and stores it; nothing else changes. -/
structure Truncates (S : Shape ℕ ℕ) (base : Set ℕ) (i : ι) (F : ι → Inode) (d : Disk)
    (ip : Inode) (d' : Disk) : Prop where
  forest : Forest S base (Function.update F i ip) d'
  used : d'.used = {b ∈ d.used | b ∉ S.blocks d.entry (F i).addrs}
  inode : ∃ a, ip = { F i with size := 0, addrs := a }
  roots : ∀ r ∈ S.roots, ip.addrs r = 0
  data : ∀ c, ¬ IsMeta c → d'.block c = d.block c
  dinodes : d'.dinodes = (d.setDinode ip.inum ip.toDinode).dinodes

theorem Truncates.ptr_eq {ip : Inode} {d' : Disk} {i : ι} (h : Forest S base F d)
    (ht : Truncates S base i F d ip d') {x : ι × ℕ × List ℕ} (hx : S.Valid x) (hi : x.1 ≠ i) :
    ptrAt (Function.update F i ip) d' x = ptrAt F d x := by
  have haddr : ptrAt (Function.update F i ip) d' x = ptrAt F d' x := by
    simp only [ptrAt, Shape.ptr, addrsOf, Function.update_of_ne hi]
  rw [haddr]
  exact Shape.ptr_congr (fun j s q k hq hq0 =>
    Disk.entry_congr (ht.data _ (h.not_isMeta (x := (j, s, q)) hq.of_snoc hq0)) k) hx

theorem Truncates.ptr_zero {ip : Inode} {d' : Disk} {i : ι} (ht : Truncates S base i F d ip d')
    {r : ℕ} {p : List ℕ} (hx : S.Ok r p) : ptrAt (Function.update F i ip) d' (i, r, p) = 0 := by
  show walk d'.entry ((Function.update F i ip i).addrs r) p = 0
  rw [Function.update_self, ht.roots r hx.1, walk_zero]

/-- A program that frees the blocks of inode `i` and clears its roots, followed by the
update of its record, truncates it. -/
theorem Frees.truncates (h : Forest S base F d) (i : ι) {m : DiskM Inode} (ip : Inode)
    (hm : Frees d m ip (S.blocks d.entry (F i).addrs)) (hip : ∃ a, ip = { F i with addrs := a })
    (hroots : ∀ r ∈ S.roots, ip.addrs r = 0) :
    ∃ ip' d', Ends (do
        let ip ← m
        let ip := { ip with size := 0 }
        iupdateDisk ip
        return ip) d ip' d' ∧ Truncates S base i F d ip' d' := by
  have hused : ∀ b ∈ S.blocks d.entry (F i).addrs, b ∈ d.used := by
    intro b hb
    obtain ⟨hb0, r, p, hok, rfl⟩ := Shape.mem_blocks.mp hb
    exact h.mem_used (x := (i, r, p)) hok hb0
  obtain ⟨t, ht, hu, hdi, hbl⟩ := hm d (fun _ _ => rfl) (h.owned.nodup_blocks i) hused
  refine ⟨{ ip with size := 0 }, t.setDinode ip.inum { ip.toDinode with size := 0 }, ?_, ?_⟩
  · exact ht.bind (by simp)
  obtain ⟨a, rfl⟩ := hip
  refine ⟨⟨h.meta_base, ?_⟩, hu, ⟨a, rfl⟩, hroots, hbl, ?_⟩
  · obtain ⟨F', hF⟩ : ∃ F', F' = Function.update F i { F i with size := 0, addrs := a } :=
      ⟨_, rfl⟩
    have hFi : addrsOf F' i = a := by simp [addrsOf, hF]
    have hFj : ∀ j, j ≠ i → addrsOf F' j = addrsOf F j := fun j hj => by
      simp [addrsOf, hF, hj]
    have hdrop : S.Owned base _ d.entry (addrsOf F') :=
      h.owned.drop (fun r hr => by rw [hFi]; exact hroots r hr) hFj
    rw [← hF, Disk.used_setDinode, hu]
    refine hdrop.congr fun x hx => Shape.ptr_congr (fun j s q k hq hq0 => ?_) hx
    have hy : S.Valid (j, s, q) := hq.of_snoc
    have hmem := hdrop.mem_used hy hq0
    have hym : ¬ IsMeta (Shape.ptr d.entry (addrsOf F') (j, s, q)) := fun hm =>
      hdrop.not_base _ hy hq0 (h.meta_base _ hmem.1.1 hm)
    exact Disk.entry_congr (hbl _ hym) k
  · simp only [Disk.setDinode, hdi]

end Forest

end Xv6Sheet
