import Xv6Sheet.BigFile.Ownership
import Xv6Sheet.Lib.Lockstep

/-! # The inverted inode

The big-file layout with the address array turned around: the doubly-indirect block comes
first, then the singly-indirect one and the direct blocks. It runs in lockstep with the
template layout.
-/

namespace Xv6Sheet.BigFile

open Exec Store

namespace Inverted

variable [sb : Superblock]

/-- Return the disk block address of the `bn`th block of the inode, allocating it if
there is none. 0 if out of disk space. -/
def bmap (ip : Inode) (bn : ℕ) : DiskM (ℕ × Inode) :=
  if bn < NDIRECT then addrsBlock ip (bn + 2)
  else
    let bn := bn - NDIRECT
    if bn < NINDIRECT then do
      let (addr, ip) ← addrsBlock ip 1
      if addr = 0 then return (0, ip)
      else do
        let addr ← entryBlock addr bn
        return (addr, ip)
    else
      let bn := bn - NINDIRECT
      if bn < NINDIRECT * NINDIRECT then do
        let (addr, ip) ← addrsBlock ip 0
        if addr = 0 then return (0, ip)
        else do
          let index1 := bn / NINDIRECT
          let index2 := bn % NINDIRECT
          let addr ← entryBlock addr index1
          if addr = 0 then return (0, ip)
          else do
            let addr ← entryBlock addr index2
            return (addr, ip)
      else panicAt "bmap: out of range"

def itrunc (ip : Inode) : DiskM Inode := do
  let ip ← (do
    let ip ← clearDirect 2 NDIRECT ip
    let ip ← clearAddr freeIndirect ip 1
    clearAddr freeDouble ip 0)
  let ip := { ip with size := 0 }
  iupdateDisk ip
  return ip

/-- One call, with the answer 0 for `itrunc`. -/
def call {ι : Type} [DecidableEq ι] : Call ι → Exec (Store ι) Fault ℕ
  | .bmap i bn => onInode i fun ip => bmap ip bn
  | .itrunc i => onInode i fun ip => do return (0, ← itrunc ip)

end Inverted

/-- The two layouts of one inode. The entries past the last index are no part of it. -/
structure Mirrored (ip jp : Inode) : Prop where
  same : jp = { ip with addrs := jp.addrs }
  direct : ∀ k < NDIRECT, jp.addrs (k + 2) = ip.addrs k
  single : jp.addrs 1 = ip.addrs NDIRECT
  double : jp.addrs 0 = ip.addrs (NDIRECT + 1)
  rest : ∀ k, NDIRECT + 2 ≤ k → jp.addrs k = ip.addrs k

def place (k : ℕ) : ℕ :=
  if k < NDIRECT then k + 2 else if k < NDIRECT + 2 then NDIRECT + 1 - k else k

theorem place_direct {k : ℕ} (h : k < NDIRECT) : place k = k + 2 := if_pos h

theorem place_cases (k : ℕ) : (k < NDIRECT ∧ place k = k + 2) ∨
    (NDIRECT ≤ k ∧ k < NDIRECT + 2 ∧ place k = NDIRECT + 1 - k) ∨
    (NDIRECT + 2 ≤ k ∧ place k = k) := by
  unfold place
  rcases Nat.lt_or_ge k NDIRECT with h | h
  · exact .inl ⟨h, if_pos h⟩
  · rcases Nat.lt_or_ge k (NDIRECT + 2) with h' | h'
    · exact .inr (.inl ⟨h, h', by rw [if_neg (by omega), if_pos h']⟩)
    · exact .inr (.inr ⟨h', by rw [if_neg (by omega), if_neg (by omega)]⟩)

theorem place_injective : Function.Injective place := by
  intro j k h
  have hj := place_cases j
  have hk := place_cases k
  simp only [NDIRECT] at hj hk
  omega

variable {ip jp : Inode}

theorem mirrored_iff : Mirrored ip jp ↔
    jp = { ip with addrs := jp.addrs } ∧ ∀ k, jp.addrs (place k) = ip.addrs k := by
  constructor
  · rintro ⟨hs, hd, h1, h0, hr⟩
    refine ⟨hs, fun k => ?_⟩
    unfold place
    split
    · exact hd k ‹_›
    · split
      · have hk : k = NDIRECT ∨ k = NDIRECT + 1 := by omega
        rcases hk with rfl | rfl
        · rw [Nat.add_sub_cancel_left]
          exact h1
        · rw [Nat.sub_self]
          exact h0
      · exact hr k (by omega)
  · rintro ⟨hs, h⟩
    refine ⟨hs, fun k hk => ?_, h NDIRECT, h (NDIRECT + 1), fun k hk => ?_⟩
    · rw [← place_direct hk]
      exact h k
    · rw [← h k]
      unfold place
      rw [if_neg (by omega), if_neg (by omega)]

theorem Mirrored.setAddr (h : Mirrored ip jp) (k b : ℕ) :
    Mirrored (ip.setAddr k b) (jp.setAddr (place k) b) := by
  obtain ⟨hs, ha⟩ := mirrored_iff.mp h
  refine mirrored_iff.mpr ⟨?_, fun j => ?_⟩
  · rw [hs]
    rfl
  · unfold Inode.setAddr
    dsimp only
    rcases eq_or_ne j k with rfl | hj
    · rw [Function.update_self, Function.update_self]
    · rw [Function.update_of_ne hj, Function.update_of_ne (fun h => hj (place_injective h)), ha]

theorem Mirrored.addrs (h : Mirrored ip jp) (k : ℕ) : jp.addrs (place k) = ip.addrs k :=
  (mirrored_iff.mp h).2 k

section Programs

variable [sb : Superblock]

def Both (x y : ℕ × Inode) : Prop := x.1 = y.1 ∧ Mirrored x.2 y.2

theorem addrsBlock_lockstep (h : Mirrored ip jp) (k : ℕ) :
    Lockstep Eq Both (addrsBlock ip k) (addrsBlock jp (place k)) := by
  unfold addrsBlock
  rw [h.addrs]
  refine .ite Iff.rfl (fun _ => (Lockstep.refl balloc).bind ?_) fun _ => .pure ⟨rfl, h⟩
  rintro b _ rfl
  exact .ite Iff.rfl (fun _ => .pure ⟨rfl, h⟩) fun _ => .pure ⟨rfl, h.setAddr k b⟩

theorem bmap_lockstep (h : Mirrored ip jp) {bn : ℕ} (hbn : bn < cap) :
    Lockstep Eq Both (bmap ip bn) (Inverted.bmap jp bn) := by
  unfold bmap Inverted.bmap
  rw [if_neg (Nat.not_le.mpr hbn)]
  refine .ite Iff.rfl (fun hd => ?_) fun _ => .ite Iff.rfl (fun _ => ?_) fun _ =>
    .ite Iff.rfl (fun _ => ?_) fun _ => .throw _
  · rw [← place_direct hd]
    exact addrsBlock_lockstep h bn
  · refine (addrsBlock_lockstep h NDIRECT).bind ?_
    rintro ⟨b, ip'⟩ ⟨_, jp'⟩ ⟨rfl, h'⟩
    refine .ite Iff.rfl (fun _ => .pure ⟨rfl, h'⟩) fun _ => (Lockstep.refl (entryBlock b _)).bind ?_
    rintro c _ rfl
    exact .pure ⟨rfl, h'⟩
  · refine (addrsBlock_lockstep h (NDIRECT + 1)).bind ?_
    rintro ⟨b, ip'⟩ ⟨_, jp'⟩ ⟨rfl, h'⟩
    refine .ite Iff.rfl (fun _ => .pure ⟨rfl, h'⟩) fun _ => (Lockstep.refl (entryBlock b _)).bind ?_
    rintro c _ rfl
    refine .ite Iff.rfl (fun _ => .pure ⟨rfl, h'⟩) fun _ => (Lockstep.refl (entryBlock c _)).bind ?_
    rintro v _ rfl
    exact .pure ⟨rfl, h'⟩

omit sb in
theorem setAddr_of_zero {k : ℕ} (h : ip.addrs k = 0) : ip.setAddr k 0 = ip := by
  unfold Inode.setAddr
  rw [← h, Function.update_eq_self]

omit sb in
theorem clearAddr_lockstep (f : ℕ → DiskM Unit) {j k : ℕ} (h : jp.addrs j = ip.addrs k) :
    Lockstep Eq (fun x y => x = ip.setAddr k 0 ∧ y = jp.setAddr j 0)
      (clearAddr f ip k) (clearAddr f jp j) := by
  unfold clearAddr
  rw [h]
  refine .ite Iff.rfl (fun h0 => .pure ⟨(setAddr_of_zero h0).symm,
    (setAddr_of_zero (h.trans h0)).symm⟩) fun _ => (Lockstep.refl (f _)).bind ?_
  rintro _ _ -
  exact .pure ⟨rfl, rfl⟩

theorem clearDirect_lockstep (n : ℕ) : ∀ {k : ℕ} {ip jp : Inode}, Mirrored ip jp →
    k + n ≤ NDIRECT → Lockstep Eq (fun x y => x = ip.clear k n ∧ Mirrored x y)
      (clearDirect k n ip) (clearDirect (k + 2) n jp) := by
  induction n with
  | zero => exact fun h _ => .pure ⟨rfl, h⟩
  | succ n ih =>
    intro k ip jp h hk
    have hplace : place k = k + 2 := place_direct (by omega)
    refine (clearAddr_lockstep bfree (hplace ▸ h.addrs k)).bind ?_
    rintro _ _ ⟨rfl, rfl⟩
    have hset := h.setAddr k 0
    rw [hplace] at hset
    have hrest := ih hset (k := k + 1) (by omega)
    rwa [Nat.add_right_comm] at hrest

omit sb in
theorem Mirrored.eq_of_zero (h : Mirrored ip jp) (h0 : ∀ k < NDIRECT + 2, ip.addrs k = 0) :
    jp = ip := by
  have haddrs : jp.addrs = ip.addrs := by
    funext k
    rcases Nat.lt_or_ge k (NDIRECT + 2) with hk | hk
    · rw [h0 k hk]
      match k with
      | 0 => exact h.double.trans (h0 _ (by omega))
      | 1 => exact h.single.trans (h0 _ (by omega))
      | k + 2 => exact (h.direct k (by omega)).trans (h0 k (by omega))
    · exact h.rest k hk
  rw [h.same, haddrs]

omit sb in
theorem mirrored_self (h0 : ∀ k < NDIRECT + 2, ip.addrs k = 0) : Mirrored ip ip where
  same := rfl
  direct k hk := (h0 _ (by omega)).trans (h0 _ (by omega)).symm
  single := (h0 _ (by omega)).trans (h0 _ (by omega)).symm
  double := (h0 _ (by omega)).trans (h0 _ (by omega)).symm
  rest _ _ := rfl

theorem itrunc_lockstep (h : Mirrored ip jp) :
    Lockstep Eq Mirrored (itrunc ip) (Inverted.itrunc jp) := by
  unfold itrunc Inverted.itrunc
  simp only [bind_assoc]
  refine (clearDirect_lockstep NDIRECT h (k := 0) (by omega)).bind ?_
  rintro ip₁ jp₁ ⟨rfl, h₁⟩
  refine (clearAddr_lockstep freeIndirect h₁.single).bind ?_
  rintro _ _ ⟨rfl, rfl⟩
  have h₂ := h₁.setAddr NDIRECT 0
  refine (clearAddr_lockstep freeDouble h₂.double).bind ?_
  rintro ip₂ jp₂ ⟨hip, hjp⟩
  have h₃ := h₂.setAddr (NDIRECT + 1) 0
  have hzero : ∀ k < NDIRECT + 2, ip₂.addrs k = 0 := fun k hk => by
    rw [hip, Inode.clear_eq]
    simp only [Inode.setAddr, Function.update_apply]
    split
    · rfl
    · split
      · rfl
      · exact if_pos (by omega)
  obtain rfl : jp₂ = ip₂ := by
    refine Mirrored.eq_of_zero ?_ hzero
    rw [hip, hjp]
    exact h₃
  refine (Lockstep.refl (iupdateDisk _)).bind ?_
  rintro _ _ -
  exact .pure (mirrored_self hzero)

variable {ι : Type} [DecidableEq ι]

def MirroredStore (s t : Store ι) : Prop :=
  t.disk = s.disk ∧ ∀ i, Mirrored (s.inodes i) (t.inodes i)

omit sb in
theorem onInode_lockstep {i : ι} {m m' : Inode → DiskM (ℕ × Inode)}
    (h : ∀ ip jp, Mirrored ip jp → Lockstep Eq Both (m ip) (m' jp)) :
    Lockstep MirroredStore Eq (onInode i m) (onInode i m') := by
  rintro s t ⟨hdisk, hinodes⟩
  obtain ⟨hend, hfault⟩ := h _ _ (hinodes i) s.disk s.disk rfl
  constructor
  · intro a s' he
    obtain ⟨ip, d, hm, rfl⟩ := ends_onInode.mp he
    obtain ⟨⟨_, jp⟩, _, hm', ⟨rfl, hmir⟩, rfl⟩ := hend _ _ hm
    refine ⟨a, _, ends_onInode.mpr ⟨jp, d, hdisk ▸ hm', rfl⟩, rfl, rfl, fun j => ?_⟩
    dsimp only
    rcases eq_or_ne j i with rfl | hj
    · rw [Function.update_self, Function.update_self]
      exact hmir
    · rw [Function.update_of_ne hj, Function.update_of_ne hj]
      exact hinodes j
  · intro e he
    have hm := hfault e (faults_onInode.mp he)
    rw [← hdisk] at hm
    exact faults_onInode.mpr hm

theorem call_lockstep {c : Call ι} (hc : ∀ i bn, c = .bmap i bn → bn < cap) :
    Lockstep MirroredStore Eq (call c) (Inverted.call c) := by
  cases c with
  | bmap i bn =>
    have hbmap : Lockstep MirroredStore Eq (onInode i fun ip => bmap ip bn)
        (onInode i fun ip => Inverted.bmap ip bn) :=
      onInode_lockstep fun _ _ h => bmap_lockstep h (hc i bn rfl)
    exact hbmap
  | itrunc i =>
    have hitrunc : Lockstep MirroredStore Eq (onInode i fun ip => do return (0, ← itrunc ip))
        (onInode i fun ip => do return (0, ← Inverted.itrunc ip)) :=
      onInode_lockstep fun _ _ h => (itrunc_lockstep h).bind fun _ _ h' => .pure ⟨rfl, h'⟩
    exact hitrunc

end Programs

/-- From related states, every sequence of calls with block numbers below the cap gives the
same answers on both layouts and ends in related states with the same disk, or stops both with
the same panic. -/
theorem inverted_equivalent (ι : Type) [DecidableEq ι] [Superblock] (cs : List (Call ι))
    (s t : Store ι) (hcs : ∀ i bn, Call.bmap i bn ∈ cs → bn < 10000) (hst : MirroredStore s t) :
    (∀ rs s', Ends (cs.mapM call) s rs s' →
      ∃ t', Ends (cs.mapM Inverted.call) t rs t' ∧ MirroredStore s' t') ∧
    (∀ rs t', Ends (cs.mapM Inverted.call) t rs t' →
      ∃ s', Ends (cs.mapM call) s rs s' ∧ MirroredStore s' t') ∧
    ∀ e, Faults (cs.mapM call) s e ↔ Faults (cs.mapM Inverted.call) t e := by
  have h : Lockstep MirroredStore Eq (cs.mapM call) (cs.mapM Inverted.call) :=
    .mapM fun c hc => call_lockstep fun i bn he => hcs i bn (he ▸ hc)
  obtain ⟨hend, hfault⟩ := h s t hst
  obtain ⟨hend', hfault'⟩ := h.back hst
  refine ⟨fun rs s' he => ?_, fun rs t' he => ?_, fun e => ⟨hfault e, hfault' e⟩⟩
  · obtain ⟨_, t', he', rfl, hst'⟩ := hend rs s' he
    exact ⟨t', he', hst'⟩
  · obtain ⟨_, s', he', rfl, hst'⟩ := hend' rs t' he
    exact ⟨s', he', hst'⟩

/-- Two empty files: a doubly-indirect block of one, a direct block of the other, and then the
first one is truncated. -/
theorem inverted_equivalent_small :
    letI := smallDisk
    ∃ rs s' t', Ends ([Call.bmap 0 300, .bmap 1 3, .itrunc 0].mapM call) (Store.small id) rs s' ∧
      Ends ([Call.bmap 0 300, .bmap 1 3, .itrunc 0].mapM Inverted.call) (Store.small id) rs t' ∧
      MirroredStore s' t' := by
  let _ := smallDisk
  have hcs : ∀ i bn, Call.bmap i bn ∈ [Call.bmap 0 300, .bmap 1 3, .itrunc (0 : ℕ)] →
      bn < 10000 := by
    simp
    omega
  have hok : (([Call.bmap 0 300, .bmap 1 3, .itrunc 0].mapM call).run
      (Store.small (ι := ℕ) id)).isOk = true := by decide +kernel
  obtain ⟨rs, s', he⟩ : ∃ rs s', Ends ([Call.bmap 0 300, .bmap 1 3, .itrunc 0].mapM call)
      (Store.small (ι := ℕ) id) rs s' := (ends_after hok).imp fun _ he => ⟨_, he⟩
  obtain ⟨t', he', hst⟩ := (inverted_equivalent ℕ [.bmap 0 300, .bmap 1 3, .itrunc 0]
    (Store.small id) (Store.small id) hcs
    ⟨rfl, fun _ => mirrored_self fun _ _ => rfl⟩).1 _ _ he
  exact ⟨rs, s', t', he, he', hst⟩

end Xv6Sheet.BigFile
