import Xv6Sheet.Fs.Mapping

/-! # Files of a layout as arrays of bytes

With every lawful layout `readi`, `writei` and `itrunc` are the operations on arrays of bytes that
are at most as long as the largest file. A file that is read is not changed, and a write stops short
only at a copy that fails or on a full disk.
-/

namespace Xv6Sheet.Fs.Mapping

open Exec Store Bytes

variable [sb : Superblock] {M : Mapping} {ι : Type} {base : Set ℕ} {F F' F'' : ι → Inode}
  {d d' d'' : Disk} {i : ι} {l : List UInt8} {off a b c : ℕ} {src : Bytes}

def bytes (M : Mapping) (F : ι → Inode) (d : Disk) (i : ι) (k : ℕ) : Option UInt8 :=
  if k / BSIZE < M.MAXFILE ∧ ptrAt F d (i, M.position (k / BSIZE)) ≠ 0 then
    some (d.block (ptrAt F d (i, M.position (k / BSIZE))) (k % BSIZE))
  else none

section Bytes

variable {k : ℕ} {x : UInt8}

theorem bytes_eq_some : M.bytes F d i k = some x ↔ k / BSIZE < M.MAXFILE ∧
    ptrAt F d (i, M.position (k / BSIZE)) ≠ 0 ∧
      d.block (ptrAt F d (i, M.position (k / BSIZE))) (k % BSIZE) = x := by
  rw [bytes, Option.ite_none_right_eq_some, Option.some.injEq, and_assoc]

theorem bytes_ne_none : M.bytes F d i k ≠ none ↔ k / BSIZE < M.MAXFILE ∧
    ptrAt F d (i, M.position (k / BSIZE)) ≠ 0 := by
  simp [bytes]

omit sb in
theorem div_lt {m : ℕ} (h : k < m * BSIZE) : k / BSIZE < m :=
  Nat.div_lt_of_lt_mul (by rwa [Nat.mul_comm])

theorem bytes_congr (hF : ∀ j, (F' j).addrs = (F j).addrs) (hd : d'.block = d.block) :
    M.bytes F' d' = M.bytes F d := by
  ext j k
  rw [bytes, bytes, Forest.ptrAt_congr hF hd, hd]

theorem Lawful.keeps (hM : M.Lawful) (h : Extends M.shape i F F' d d') (j : ι) (k : ℕ) (x : UInt8)
    (hx : M.bytes F d j k = some x) : M.bytes F' d' j k = some x := by
  obtain ⟨hbn, h0, rfl⟩ := bytes_eq_some.mp hx
  have hleaf := hM.leaf j hbn
  have hptr := h.ptr_eq _ hleaf.1 h0
  exact bytes_eq_some.mpr ⟨hbn, hptr.trans_ne h0, by rw [hptr, h.data_eq _ hleaf h0]⟩

theorem Lawful.bytes_write (hM : M.Lawful) (h : Forest M.shape base F d) {bn : ℕ}
    (hbn : bn < M.MAXFILE)
    (h0 : ptrAt F d (i, M.position bn) ≠ 0) (data : Bytes) :
    Forest M.shape base F (d.write (ptrAt F d (i, M.position bn)) data) ∧
      (∀ k, k / BSIZE = bn →
        M.bytes F (d.write (ptrAt F d (i, M.position bn)) data) i k = some (data (k % BSIZE))) ∧
      ∀ j k, (j, k / BSIZE) ≠ (i, bn) →
        M.bytes F (d.write (ptrAt F d (i, M.position bn)) data) j k = M.bytes F d j k := by
  have hleaf := hM.leaf i hbn
  obtain ⟨hforest, hptr⟩ := h.write_leaf hleaf h0 data
  refine ⟨hforest, fun k hk => ?_, fun j k hne => ?_⟩
  · rw [← hk] at hbn h0 hptr hleaf ⊢
    refine bytes_eq_some.mpr ⟨hbn, (hptr _ hleaf.1).trans_ne h0, ?_⟩
    rw [hptr _ hleaf.1, Disk.write_block_self]
  · unfold bytes
    by_cases hk : k / BSIZE < M.MAXFILE
    · have hvalid := (hM.leaf j hk).1
      rw [hptr _ hvalid]
      by_cases hz : ptrAt F d (j, M.position (k / BSIZE)) = 0
      · rw [if_neg (by simp [hz]), if_neg (by simp [hz])]
      · have hx : (j, M.position (k / BSIZE)) ≠ (i, M.position bn) := fun he => hne <| by
          obtain ⟨hj, hp⟩ := Prod.mk.inj he
          rw [hj, hM.injective hp]
        rw [Disk.write_block_of_ne (h.ptr_ne hvalid hleaf.1 hx hz)]
    · rw [if_neg (by simp [hk]), if_neg (by simp [hk])]

theorem Lawful.bytes_trunc [DecidableEq ι] (hM : M.Lawful) (h : Forest M.shape base F d)
    {ip : Inode}
    (ht : Truncates M.shape base i F d ip d') {j : ι} (hj : j ≠ i) (k : ℕ) (x : UInt8)
    (hx : M.bytes F d j k = some x) : M.bytes (Function.update F i ip) d' j k = some x := by
  obtain ⟨hbn, h0, rfl⟩ := bytes_eq_some.mp hx
  have hvalid := (hM.leaf j hbn).1
  have hptr := ht.ptr_eq h hvalid hj
  exact bytes_eq_some.mpr ⟨hbn, hptr.trans_ne h0, by rw [hptr, ht.data _ (h.not_isMeta hvalid h0)]⟩

end Bytes

section Read

/-- Where the bytes are there, the loop of `readi` copies them until a copy fails, and changes
nothing. -/
theorem Lawful.readLoop_ends (hM : M.Lawful) (hl : Shows (M.bytes F d i) l) (ok : ℕ → Bool) {n : ℕ}
    (hn : n < 2 ^ 31) (hmax : off + n ≤ l.length) (fuel tot : ℕ) (dst : Bytes) (htot : tot ≤ n)
    (hfuel : tot < n → (off + tot) % BSIZE + (n - tot) ≤ BSIZE * fuel) :
    ∃ r out, Ends (M.readLoop ok off n fuel tot dst (F i)) d (r, out, F i) d ∧
      ((r = n ∧ out = dst.copy tot (ofList l) (off + tot) (n - tot)) ∨
        (r = -1 ∧ ∃ k, tot ≤ k ∧ k < n ∧ ok k = false ∧
          out = dst.copy tot (ofList l) (off + tot) (k - tot))) := by
  induction fuel generalizing tot dst with
  | zero =>
    obtain rfl : tot = n := by omega
    refine ⟨_, dst, by simp [readLoop], Or.inl ⟨toInt_of_lt (by omega), ?_⟩⟩
    rw [Nat.sub_self, Bytes.copy_zero]
  | succ fuel ih =>
    unfold readLoop
    by_cases ht : tot < n
    · obtain ⟨hm0, hmn, hmb, hfuel'⟩ := block_step ht hfuel
      obtain ⟨m, hm⟩ : ∃ m, m = min (n - tot) (BSIZE - (off + tot) % BSIZE) := ⟨_, rfl⟩
      rw [← hm] at hm0 hmn hmb hfuel' ⊢
      obtain ⟨hbn, h0⟩ := bytes_ne_none.mp (hl.ne_none (k := off + tot) (by omega))
      have hb := hM.found hbn h0
      rw [if_pos ht]
      by_cases hok : ok tot
      · obtain ⟨r, out, he, hres⟩ := ih (tot + m) (dst.copy tot
          (d.block (ptrAt F d (i, M.position ((off + tot) / BSIZE)))) ((off + tot) % BSIZE) m)
          (by omega) hfuel'
        refine ⟨r, out, hb.bind ?_, ?_⟩
        · simp only [if_neg h0, hok, if_true]
          exact (ends_bread.mpr ⟨rfl, rfl⟩).bind he
        -- the stretch lies in one block
        · have hcopy : dst.copy tot (d.block (ptrAt F d (i, M.position ((off + tot) / BSIZE))))
              ((off + tot) % BSIZE) m = dst.copy tot (ofList l) (off + tot) m := by
            refine hl.copy_eq (fun j hj => bytes_eq_some.mpr ?_) (by omega)
            have hdiv : (off + tot + j) / BSIZE = (off + tot) / BSIZE := by
              simp only [BSIZE] at hmb ⊢
              omega
            have hmod : (off + tot + j) % BSIZE = (off + tot) % BSIZE + j := by
              simp only [BSIZE] at hmb ⊢
              omega
            rw [hdiv, hmod]
            exact ⟨hbn, h0, rfl⟩
          rw [hcopy] at hres
          rcases hres with ⟨hr, rfl⟩ | ⟨hr, k, hk, hkn, hokk, rfl⟩
          · refine Or.inl ⟨hr, ?_⟩
            rw [← Nat.add_assoc, Bytes.copy_copy, show m + (n - (tot + m)) = n - tot by omega]
          · refine Or.inr ⟨hr, k, by omega, hkn, hokk, ?_⟩
            rw [← Nat.add_assoc, Bytes.copy_copy, show m + (k - (tot + m)) = k - tot by omega]
      · refine ⟨-1, dst, hb.bind ?_, Or.inr ⟨rfl, tot, Nat.le_refl _, ht, by simpa using hok, ?_⟩⟩
        · simp only [if_neg h0, hok]
          exact (ends_bread.mpr ⟨rfl, rfl⟩).bind (by simp)
        · rw [Nat.sub_self, Bytes.copy_zero]
    · obtain rfl : tot = n := by omega
      refine ⟨_, dst, by simp, Or.inl ⟨toInt_of_lt (by omega), ?_⟩⟩
      rw [Nat.sub_self, Bytes.copy_zero]

/-- `readi` copies the bytes from `off` on, or fails with the copy; it changes neither the inode nor
the disk. -/
theorem Lawful.readi_ends (hM : M.Lawful) (hl : Shows (M.bytes F d i) l)
    (hsize : (F i).size = l.length)
    (hmax : l.length ≤ M.MAXFILE * BSIZE) (ok : ℕ → Bool) (dst : Bytes) {n : ℕ}
    (hoff : off < 2 ^ 32)
    (hn : n < 2 ^ 32) :
    ∃ r out, Ends (M.readi (F i) ok dst off n) d (r, out, F i) d ∧
      ((r = readable l.length off n ∧ out = dst.copy 0 (ofList l) off (readable l.length off n)) ∨
        (r = -1 ∧ ∃ k < readable l.length off n, ok k = false ∧
        out = dst.copy 0 (ofList l) off k)) := by
  have hsmall := hM.small
  unfold readi readable
  rw [hsize]
  by_cases hc : off > l.length ∨ (off + n) % 2 ^ 32 < off
  · rw [if_pos hc, if_pos (by omega)]
    exact ⟨0, dst, by simp, Or.inl ⟨rfl, by simp⟩⟩
  · have hw : ¬ (l.length < off ∨ 2 ^ 32 ≤ off + n) := by omega
    rw [if_neg hc, if_neg hw]
    have hlen : (if (off + n) % 2 ^ 32 > l.length then l.length - off else n) =
        min n (l.length - off) := by
      split <;> omega
    simp only [hlen]
    obtain ⟨m, hm⟩ : ∃ m, m = min n (l.length - off) := ⟨_, rfl⟩
    rw [← hm]
    obtain ⟨r, out, he, hres⟩ := hM.readLoop_ends hl ok (n := m) (by omega)
      (show off + m ≤ l.length by omega) (m / BSIZE + 2) 0 dst (Nat.zero_le _)
      (fun _ => by simp only [BSIZE]; omega)
    refine ⟨r, out, he, ?_⟩
    simpa using hres

end Read

/-- What `writei` does to the bytes and the blocks when it writes `src a` up to `src (b - 1)`. -/
structure Wrote (M : Mapping) (base : Set ℕ) (i : ι) (off : ℕ) (src : Bytes) (a b : ℕ)
    (F F' : ι → Inode)
    (d d' : Disk) : Prop where
  forest : Forest M.shape base F' d'
  inode : ∃ x, F' i = { F i with addrs := x }
  inodes : ∀ j, j ≠ i → F' j = F j
  dinodes : d'.dinodes = d.dinodes
  others : ∀ j, j ≠ i → ∀ k x, M.bytes F d j k = some x → M.bytes F' d' j k = some x
  bytes : Overwrites off src a b (M.bytes F d i) (M.bytes F' d' i)

theorem Wrote.trans (h : M.Wrote base i off src a b F F' d d')
    (h' : M.Wrote base i off src b c F' F'' d' d'') (hab : a ≤ b) (hbc : b ≤ c) :
    M.Wrote base i off src a c F F'' d d'' where
  forest := h'.forest
  inode := by
    obtain ⟨x, hx⟩ := h.inode
    obtain ⟨y, hy⟩ := h'.inode
    exact ⟨y, by rw [hy, hx]⟩
  inodes j hj := by rw [h'.inodes j hj, h.inodes j hj]
  dinodes := h'.dinodes.trans h.dinodes
  others j hj k x hx := h'.others j hj k x (h.others j hj k x hx)
  bytes := h.bytes.trans h'.bytes hab hbc

theorem Lawful.wrote_none (hM : M.Lawful) (h : Forest M.shape base F' d')
    (he : Extends M.shape i F F' d d')
    (off a : ℕ) (src : Bytes) : M.Wrote base i off src a a F F' d d' where
  forest := h
  inode := he.inode
  inodes := he.inodes
  dinodes := he.dinodes
  others j _ := hM.keeps he j
  bytes := .of_keeps (hM.keeps he i)

theorem Lawful.wrote_block (hM : M.Lawful) (h : Forest M.shape base F d) (src : Bytes) {tot m : ℕ}
    (hmb : (off + tot) % BSIZE + m ≤ BSIZE) (hbn : (off + tot) / BSIZE < M.MAXFILE)
    (h0 : ptrAt F d (i, M.position ((off + tot) / BSIZE)) ≠ 0) :
    M.Wrote base i off src tot (tot + m) F F d
      (d.write (ptrAt F d (i, M.position ((off + tot) / BSIZE)))
        ((d.block (ptrAt F d (i, M.position ((off + tot) / BSIZE)))).copy ((off + tot) % BSIZE) src
          tot m)) := by
  obtain ⟨hforest, hsame, hother⟩ := hM.bytes_write h hbn h0
    ((d.block (ptrAt F d (i, M.position ((off + tot) / BSIZE)))).copy
    ((off + tot) % BSIZE) src tot m)
  refine ⟨hforest, ⟨_, rfl⟩, fun _ _ => rfl, rfl, fun j hj k x hx => ?_, fun k hk hk' => ?_,
    fun k x hout hx => ?_⟩
  · rwa [hother j k fun he => hj (congrArg Prod.fst he)]
  · have hdiv : k / BSIZE = (off + tot) / BSIZE := by
      simp only [BSIZE] at *
      omega
    rw [hsame k hdiv, Bytes.copy_of_mem (by simp only [BSIZE] at *; omega)]
    congr 2
    simp only [BSIZE] at *
    omega
  · by_cases hdiv : k / BSIZE = (off + tot) / BSIZE
    · obtain ⟨-, -, hbyte⟩ := bytes_eq_some.mp hx
      rw [hsame k hdiv, Bytes.copy_of_not_mem (by simp only [BSIZE] at *; omega), ← hbyte, hdiv]
    · rwa [hother i k fun he => hdiv (congrArg Prod.snd he)]

variable [DecidableEq ι]

/-- The loop of `writei` writes up to `n` bytes; it stops early only at a copy that fails or a block
that is missing on a full disk. -/
theorem Lawful.writeLoop_ends (hM : M.Lawful) (ok : ℕ → Bool) (src : Bytes) {n : ℕ}
    (hmax : off + n ≤ M.MAXFILE * BSIZE) (fuel tot : ℕ) (htot : tot ≤ n)
    (hfuel : tot < n → (off + tot) % BSIZE + (n - tot) ≤ BSIZE * fuel)
    (h : Forest M.shape base F d) :
    ∃ r ip d', Ends (M.writeLoop ok src off n fuel tot (F i)) d (r, ip) d' ∧ tot ≤ r ∧ r ≤ n ∧
      M.Wrote base i off src tot r F (Function.update F i ip) d d' ∧
      (r < n → ok r = false ∨ (M.bytes F d i (off + r) = none ∧ d'.free = ∅)) := by
  induction fuel generalizing tot F d with
  | zero =>
    obtain rfl : tot = n := by omega
    refine ⟨tot, F i, d, by simp [writeLoop], Nat.le_refl _, Nat.le_refl _, ?_,
      fun h => absurd h (Nat.lt_irrefl _)⟩
    rw [Function.update_eq_self]
    exact hM.wrote_none h .refl off tot src
  | succ fuel ih =>
    unfold writeLoop
    by_cases ht : tot < n
    · obtain ⟨hm0, hmn, hmb, hfuel'⟩ := block_step ht hfuel
      obtain ⟨m, hm⟩ : ∃ m, m = min (n - tot) (BSIZE - (off + tot) % BSIZE) := ⟨_, rfl⟩
      rw [← hm] at hm0 hmn hmb hfuel' ⊢
      have hbn : (off + tot) / BSIZE < M.MAXFILE := div_lt (by omega)
      obtain ⟨r, ip, d₁, he, hfinds⟩ := hM.finds h i hbn
      obtain ⟨F₁, hF₁⟩ : ∃ F₁, F₁ = Function.update F i ip := ⟨_, rfl⟩
      have hip : F₁ i = ip := by rw [hF₁, Function.update_self]
      rw [← hF₁] at hfinds
      have hw₁ : M.Wrote base i off src tot tot F F₁ d d₁ :=
        hM.wrote_none hfinds.forest hfinds.extends' off tot src
      have hptr : ptrAt F₁ d₁ (i, M.position ((off + tot) / BSIZE)) = r := hfinds.ptr_eq
      rw [if_pos ht]
      by_cases hr : r = 0
      · refine ⟨tot, ip, d₁, he.bind (by simp [hr]), Nat.le_refl _, htot, hF₁ ▸ hw₁,
          fun _ => Or.inr ⟨?_, (hfinds.full hr).1⟩⟩
        by_contra hbyte
        exact (bytes_ne_none.mp (hw₁.bytes.ne_none hbyte)).2 (hptr.trans hr)
      · by_cases hok : ok tot
        · have hw₂ := hM.wrote_block hfinds.forest src hmb hbn (hptr.trans_ne hr)
          rw [hptr] at hw₂
          obtain ⟨r', ip', d₃, he', hle, hle', hw₃, hshort⟩ := ih (tot + m) hmn hfuel' hw₂.forest
          rw [hip] at he'
          have hFF : Function.update F₁ i ip' = Function.update F i ip' := by
            rw [hF₁, Function.update_idem]
          rw [hFF] at hw₃
          have hw := (hw₁.trans hw₂ (Nat.le_refl _) (by omega)).trans hw₃ (by omega) hle
          refine ⟨r', ip', d₃, he.bind ?_, by omega, hle', hw, fun hlt => ?_⟩
          · simp only [if_neg hr, hok, if_true]
            exact (ends_bread.mpr ⟨rfl, rfl⟩).bind (Ends.bind (a := ()) (ends_logWrite.mpr rfl) he')
          · refine (hshort hlt).imp_right fun ⟨hnone, hfree⟩ => ⟨?_, hfree⟩
            by_contra hbyte
            exact hw₂.bytes.ne_none (hw₁.bytes.ne_none hbyte) hnone
        · refine ⟨tot, ip, d₁, he.bind ?_, Nat.le_refl _, htot, hF₁ ▸ hw₁,
            fun _ => Or.inl (by simpa using hok)⟩
          simp only [if_neg hr, hok]
          exact (ends_bread.mpr ⟨rfl, rfl⟩).bind (by simp)
    · obtain rfl : tot = n := by omega
      refine ⟨tot, F i, d, by simp, Nat.le_refl _, Nat.le_refl _, ?_,
        fun h => absurd h (Nat.lt_irrefl _)⟩
      rw [Function.update_eq_self]
      exact hM.wrote_none h .refl off tot src

omit [DecidableEq ι] in
/-- `writei` refuses a stretch that starts beyond the end, wraps or ends beyond the largest file. -/
theorem Lawful.writei_refuses (hM : M.Lawful) (ok : ℕ → Bool) (src : Bytes) {n : ℕ}
    (hoff : off < 2 ^ 32)
    (hn : n < 2 ^ 32) (hr : (F i).size < off ∨ 2 ^ 32 ≤ off + n ∨ M.MAXFILE * BSIZE < off + n) :
    Ends (M.writei (F i) ok src off n) d (-1, F i) d := by
  have hsmall := hM.small
  unfold writei
  by_cases hc : off > (F i).size ∨ (off + n) % 2 ^ 32 < off
  · rw [if_pos hc]
    simp
  · rw [if_neg hc, if_pos (by omega)]
    simp

/-- What `writei` does to the inode `i` when it writes the first `tot` bytes of `src` at `off`. -/
structure Writes (M : Mapping) (base : Set ℕ) (i : ι) (off : ℕ) (src : Bytes) (tot : ℕ)
    (F F' : ι → Inode) (d d' : Disk) : Prop where
  forest : Forest M.shape base F' d'
  inode : ∃ x, F' i = { F i with size := max (F i).size (off + tot), addrs := x }
  inodes : ∀ j, j ≠ i → F' j = F j
  others : ∀ j, j ≠ i → ∀ k x, M.bytes F d j k = some x → M.bytes F' d' j k = some x
  bytes : Overwrites off src 0 tot (M.bytes F d i) (M.bytes F' d' i)
  dinodes : d'.dinodes = (d.setDinode (F' i).inum (F' i).toDinode).dinodes

/-- `writei` writes the first `tot` bytes; it writes all of them unless a copy fails or the disk is
full. -/
theorem Lawful.writei_ends (hM : M.Lawful) (h : Forest M.shape base F d) (ok : ℕ → Bool)
    (src : Bytes)
    {n : ℕ} (hoff : off ≤ (F i).size) (hmax : off + n ≤ M.MAXFILE * BSIZE) :
    ∃ (tot : ℕ) (ip : Inode) (d' : Disk), Ends (M.writei (F i) ok src off n) d (tot, ip) d' ∧
      tot ≤ n ∧ M.Writes base i off src tot F (Function.update F i ip) d d' ∧
      (tot < n → ok tot = false ∨ (M.bytes F d i (off + tot) = none ∧ d'.free = ∅)) := by
  have hsmall := hM.small
  obtain ⟨tot, ip, d₁, he, -, htot, hw, hshort⟩ := hM.writeLoop_ends ok src hmax (n / BSIZE + 2) 0
    (Nat.zero_le n) (fun _ => by simp only [BSIZE]; omega) h
  obtain ⟨F₁, hF₁⟩ : ∃ F₁, F₁ = Function.update F i ip := ⟨_, rfl⟩
  have hip : F₁ i = ip := by rw [hF₁, Function.update_self]
  rw [← hF₁] at hw
  obtain ⟨x, hx⟩ := hw.inode
  rw [hip] at hx
  obtain ⟨ip', hip'⟩ : ∃ ip', ip' = { F i with size := max (F i).size (off + tot), addrs := x } :=
    ⟨_, rfl⟩
  have hset : (if off + tot > ip.size then { ip with size := off + tot } else ip) = ip' := by
    have hipsize : ip.size = (F i).size := by rw [hx]
    split
    · rw [hip', hx, Nat.max_eq_right (by omega)]
    · rw [hip', hx, Nat.max_eq_left (by omega)]
  refine ⟨tot, ip', d₁.setDinode ip'.inum ip'.toDinode, ?_, htot, ?_, hshort⟩
  · unfold writei
    rw [if_neg (by omega), if_neg (by omega)]
    refine he.bind ?_
    simp only [hset]
    exact Ends.bind (a := ()) (ends_iupdateDisk.mpr rfl)
      (by simp [toInt_of_lt (x := tot) (by omega)])
  · obtain ⟨F', hF'⟩ : ∃ F', F' = Function.update F i ip' := ⟨_, rfl⟩
    have hFi : F' i = ip' := by rw [hF', Function.update_self]
    have hFj : ∀ j, j ≠ i → F' j = F j := fun j hj => by rw [hF', Function.update_of_ne hj]
    have haddrs : ∀ j, (F' j).addrs = (F₁ j).addrs := by
      intro j
      by_cases hj : j = i
      · subst hj
        rw [hFi, hip, hip', hx]
      · rw [hFj j hj, hw.inodes j hj]
    -- the record of the inode changes on the disk, and no block
    have hbytes : M.bytes F' (d₁.setDinode ip'.inum ip'.toDinode) = M.bytes F₁ d₁ :=
      bytes_congr haddrs rfl
    rw [← hF']
    refine ⟨hw.forest.congr_addrs haddrs rfl, ⟨x, hFi.trans hip'⟩, hFj, ?_, ?_, ?_⟩
    · rw [hbytes]
      exact hw.others
    · rw [hbytes]
      exact hw.bytes
    · rw [hFi]
      simp only [Disk.setDinode, hw.dinodes]

structure IsFile (M : Mapping) (F : ι → Inode) (d : Disk) (i : ι) (l : List UInt8) : Prop where
  size : (F i).size = l.length
  shows : Shows (M.bytes F d i) l
  length_le : l.length ≤ M.MAXFILE * BSIZE

/-- The inodes are files with these bytes, in blocks of their own. -/
structure Holds (M : Mapping) (base : Set ℕ) (F : ι → Inode) (d : Disk) (f : ι → List UInt8) :
    Prop where
  forest : Forest M.shape base F d
  file : ∀ i, M.IsFile F d i (f i)

variable {f : ι → List UInt8}

omit [DecidableEq ι] in
theorem IsFile.keeps {j : ι} (h : M.IsFile F d j l) (hF : F' j = F j)
    (hk : ∀ k x, M.bytes F d j k = some x → M.bytes F' d' j k = some x) : M.IsFile F' d' j l :=
  ⟨hF ▸ h.size, h.shows.keeps hk, h.length_le⟩

theorem Holds.update (h : M.Holds base F d f) (hforest : Forest M.shape base F' d')
    (hi : M.IsFile F' d' i l) (hF : ∀ j, j ≠ i → F' j = F j)
    (hk : ∀ j, j ≠ i → ∀ k x, M.bytes F d j k = some x → M.bytes F' d' j k = some x) :
    M.Holds base F' d' (Function.update f i l) := by
  refine ⟨hforest, fun j => ?_⟩
  by_cases hj : j = i
  · subst hj
    rwa [Function.update_self]
  · rw [Function.update_of_ne hj]
    exact (h.file j).keeps (hF j hj) (hk j hj)

theorem Holds.wrote {tot : ℕ} (h : M.Holds base F d f) (hoff : off ≤ (f i).length)
    (hmax : off + tot ≤ M.MAXFILE * BSIZE) (hw : M.Writes base i off src tot F F' d d') :
    M.Holds base F' d' (Function.update f i (overlay (f i) off (src.toList tot))) := by
  have hlen := (h.file i).length_le
  obtain ⟨x, hx⟩ := hw.inode
  have hover : M.IsFile F' d' i (overlay (f i) off (src.toList tot)) := by
    refine ⟨?_, (h.file i).shows.overlay hw.bytes hoff, ?_⟩
    · rw [hx, length_overlay hoff, length_toList, (h.file i).size]
    · rw [length_overlay hoff, length_toList]
      omega
  exact h.update hw.forest hover hw.inodes hw.others

/-- `writei` writes the first `tot` bytes over the file; it writes all of them unless a copy fails
or the disk is full. -/
theorem Holds.writei_ends (hM : M.Lawful) (h : M.Holds base F d f) (ok : ℕ → Bool)
    (src : Bytes) {n : ℕ}
    (hoff : off ≤ (f i).length) (hmax : off + n ≤ M.MAXFILE * BSIZE) :
    ∃ (tot : ℕ) (ip : Inode) (d' : Disk), Ends (M.writei (F i) ok src off n) d (tot, ip) d' ∧
    tot ≤ n ∧
      M.Holds base (Function.update F i ip) d'
        (Function.update f i (overlay (f i) off (src.toList tot))) ∧
      (tot < n → ok tot = false ∨ d'.free = ∅) := by
  have hsize := (h.file i).size
  obtain ⟨tot, ip, d', he, htot, hw, hshort⟩ := hM.writei_ends h.forest ok src (hsize ▸ hoff) hmax
  exact ⟨tot, ip, d', he, htot, h.wrote hoff (by omega) hw,
    fun hlt => (hshort hlt).imp_right And.right⟩

theorem Holds.truncated {ip : Inode} (hM : M.Lawful) (h : M.Holds base F d f)
    (ht : Truncates M.shape base i F d ip d') :
    M.Holds base (Function.update F i ip) d' (Function.update f i []) := by
  obtain ⟨x, hx⟩ := ht.inode
  have hempty : M.IsFile (Function.update F i ip) d' i [] :=
    ⟨by rw [Function.update_self, hx]; rfl, shows_nil, Nat.zero_le _⟩
  exact h.update ht.forest hempty (fun j hj => Function.update_of_ne hj ..)
    fun j hj => hM.bytes_trunc h.forest ht hj

theorem Holds.itrunc_ends (hM : M.Lawful) (h : M.Holds base F d f) (i : ι) :
    ∃ ip d', Ends (M.itrunc (F i)) d ip d' ∧
      M.Holds base (Function.update F i ip) d' (Function.update f i []) := by
  obtain ⟨ip, d', he, ht⟩ := hM.trunc h.forest i
  exact ⟨ip, d', he, h.truncated hM ht⟩

section Calls

/-- The calls on arrays of bytes that have at most `lim` bytes. A write stops short at a copy that
fails, or when the disk is full. -/
inductive Serves (lim : ℕ) (full : Prop) : Call ι → (ι → List UInt8) → Answer →
    (ι → List UInt8) → Prop
  | read (f : ι → List UInt8) (i : ι) (ok : ℕ → Bool) (dst : Bytes) (off n : UInt32) {m : ℕ} :
      m = readable (f i).length off.toNat n.toNat →
      Serves lim full (.readi i ok dst off n) f (m, some (dst.copy 0 (ofList (f i)) off.toNat m)) f
  | readFails (f : ι → List UInt8) (i : ι) (ok : ℕ → Bool) (dst : Bytes) (off n : UInt32) {k : ℕ} :
      k < readable (f i).length off.toNat n.toNat → ok k = false →
      Serves lim full (.readi i ok dst off n) f (-1, some (dst.copy 0 (ofList (f i)) off.toNat k)) f
  | refuse (f : ι → List UInt8) (i : ι) (ok : ℕ → Bool) (src : Bytes) (off n : UInt32) :
      (f i).length < off.toNat ∨ 2 ^ 32 ≤ off.toNat + n.toNat ∨ lim < off.toNat + n.toNat →
      Serves lim full (.writei i ok src off n) f (-1, none) f
  | write (f : ι → List UInt8) (i : ι) (ok : ℕ → Bool) (src : Bytes) (off n : UInt32) {tot : ℕ} :
      off.toNat ≤ (f i).length → off.toNat + n.toNat ≤ lim → tot ≤ n.toNat →
      (tot < n.toNat → ok tot = false ∨ full) →
      Serves lim full (.writei i ok src off n) f (tot, none)
        (Function.update f i (overlay (f i) off.toNat (src.toList tot)))
  | trunc (f : ι → List UInt8) (i : ι) :
      Serves lim full (.itrunc i) f (0, none) (Function.update f i [])

def call (M : Mapping) : Call ι → Exec (Store ι) Fault Answer
  | .readi i ok dst off n => onInode i fun ip => do
    let (r, out, ip) ← M.readi ip ok dst off.toNat n.toNat
    return ((r, some out), ip)
  | .writei i ok src off n => onInode i fun ip => do
    let (r, ip) ← M.writei ip ok src off.toNat n.toNat
    return ((r, none), ip)
  | .itrunc i => onInode i fun ip => do
    let ip ← M.itrunc ip
    return ((0, none), ip)

/-- A call ends, and does to the files what it does on arrays. One that reads or is refused changes
nothing. -/
theorem Holds.call_ends {s : Store ι} (hM : M.Lawful) (h : M.Holds base s.inodes s.disk f)
    (c : Call ι) :
    ∃ a t f', Ends (M.call c) s a t ∧ M.Holds base t.inodes t.disk f' ∧
      Serves (M.MAXFILE * BSIZE) (t.disk.free = ∅) c f a f' ∧
      (∀ i ok dst off n, c = .readi i ok dst off n → t = s) ∧ (a.1 = -1 → t = s) := by
  have hsmall := hM.small
  cases c with
  | readi i ok dst off n =>
    obtain ⟨r, out, he, hres⟩ := hM.readi_ends (h.file i).shows (h.file i).size
      (h.file i).length_le ok dst
      off.toNat_lt n.toNat_lt
    have hm : Ends (do
        let (r, out, ip) ← M.readi (s.inodes i) ok dst off.toNat n.toNat
        return ((r, some out), ip)) s.disk ((r, some out), s.inodes i) s.disk :=
      he.bind (by simp)
    refine ⟨(r, some out), s, f, ?_, h, ?_, fun _ _ _ _ _ _ => rfl, fun _ => rfl⟩
    · rw [call, ends_onInode]
      exact ⟨_, _, hm, by rw [Function.update_eq_self]⟩
    rcases hres with ⟨rfl, rfl⟩ | ⟨rfl, k, hk, hok, rfl⟩
    · exact .read f i ok dst off n rfl
    · exact .readFails f i ok dst off n hk hok
  | writei i ok src off n =>
    by_cases hr : (f i).length < off.toNat ∨ 2 ^ 32 ≤ off.toNat + n.toNat ∨
        M.MAXFILE * BSIZE < off.toNat + n.toNat
    · have he := hM.writei_refuses (F := s.inodes) (i := i) (d := s.disk) ok src off.toNat_lt
        n.toNat_lt
        (by rwa [(h.file i).size])
      have hm : Ends (do
          let (r, ip) ← M.writei (s.inodes i) ok src off.toNat n.toNat
          return ((r, (none : Option Bytes)), ip)) s.disk ((-1, none), s.inodes i) s.disk :=
        he.bind (by simp)
      refine ⟨(-1, none), s, f, ?_, h, .refuse f i ok src off n hr, fun _ _ _ _ _ _ => rfl,
        fun _ => rfl⟩
      rw [call, ends_onInode]
      exact ⟨_, _, hm, by rw [Function.update_eq_self]⟩
    · obtain ⟨hoff, hmax⟩ : off.toNat ≤ (f i).length ∧
          off.toNat + n.toNat ≤ M.MAXFILE * BSIZE := by omega
      obtain ⟨tot, ip, d', he, htot, hholds, hshort⟩ := h.writei_ends hM ok src hoff hmax
      have hm : Ends (do
          let (r, ip) ← M.writei (s.inodes i) ok src off.toNat n.toNat
          return ((r, (none : Option Bytes)), ip)) s.disk (((tot : ℤ), none), ip) d' :=
        he.bind (by simp)
      refine ⟨(tot, none), ⟨Function.update s.inodes i ip, d'⟩, _, ?_, hholds,
        .write f i ok src off n hoff hmax htot hshort, (fun _ _ _ _ _ hc => by cases hc),
        fun hneg => ?_⟩
      · rw [call, ends_onInode]
        exact ⟨_, _, hm, rfl⟩
      · have hneg : (tot : ℤ) = -1 := hneg
        omega
  | itrunc i =>
    obtain ⟨ip, d', he, hholds⟩ := h.itrunc_ends hM i
    have hm : Ends (do
        let ip ← M.itrunc (s.inodes i)
        return (((0 : ℤ), (none : Option Bytes)), ip)) s.disk ((0, none), ip) d' :=
      he.bind (by simp)
    refine ⟨(0, none), ⟨Function.update s.inodes i ip, d'⟩, _, ?_, hholds, .trunc f i,
      (fun _ _ _ _ _ hc => by cases hc), fun hneg => absurd hneg (by decide)⟩
    rw [call, ends_onInode]
    exact ⟨_, _, hm, rfl⟩

def contents (M : Mapping) (s : Store ι) (i : ι) : List UInt8 :=
  (List.range (s.inodes i).size).map fun k => (M.bytes s.inodes s.disk i k).getD 0

omit [DecidableEq ι] in
theorem Holds.contents_eq {s : Store ι} (h : M.Holds base s.inodes s.disk f) :
    M.contents s = f := by
  ext1 i
  refine List.ext_getElem? fun k => ?_
  rw [contents, (h.file i).size, List.getElem?_map]
  rcases Nat.lt_or_ge k (f i).length with hk | hk
  · rw [List.getElem?_range hk, Option.map_some, (h.file i).shows k hk, List.getElem?_eq_getElem hk]
    rfl
  · rw [List.getElem?_eq_none hk, List.getElem?_eq_none (by simpa using hk)]
    rfl

variable {s s₀ t : Store ι}

omit [DecidableEq ι] in
theorem holds_empty (h₀ : s₀.Empty M.shape) (hs : ∀ i, (s₀.inodes i).size = 0) :
    M.Holds s₀.disk.used s₀.inodes s₀.disk fun _ => [] :=
  ⟨h₀.forest, fun i => ⟨hs i, shows_nil, Nat.zero_le _⟩⟩

theorem runs_holds {cs : List (Call ι)} (hM : M.Lawful) (hr : Runs M.call s cs t)
    (h : ∃ f, M.Holds base s.inodes s.disk f) : ∃ f, M.Holds base t.inodes t.disk f :=
  hr.invariant (I := fun s => ∃ f, M.Holds base s.inodes s.disk f) (P := fun _ => True)
    (fun s t c a h _ he => by
      obtain ⟨f, hf⟩ := h
      obtain ⟨a', t', f', he', ht, -⟩ := hf.call_ends hM c
      obtain ⟨rfl, rfl⟩ := he.unique he'
      exact ⟨f', ht⟩) (fun _ _ => trivial) h

/-- Over any run of calls from empty inodes, the files are arrays of at most as many bytes as the
largest file has, and the next call ends and does what it does on arrays. A read and a call that
fails change nothing. -/
theorem files_refine (hM : M.Lawful) (h₀ : s₀.Empty M.shape) (hs : ∀ i, (s₀.inodes i).size = 0)
    {cs : List (Call ι)} (h : Runs M.call s₀ cs s) :
    (∀ i, M.contents s₀ i = []) ∧ (∀ i, (M.contents s i).length ≤ M.MAXFILE * BSIZE) ∧
      ∀ c, ∃ a t, Ends (M.call c) s a t ∧
        Serves (M.MAXFILE * BSIZE) (t.disk.free = ∅) c (M.contents s) a (M.contents t) ∧
        (∀ i ok dst off n, c = .readi i ok dst off n → t = s) ∧ (a.1 = -1 → t = s) := by
  have hempty := holds_empty h₀ hs
  obtain ⟨f, hf⟩ := runs_holds hM h ⟨_, hempty⟩
  rw [hempty.contents_eq, hf.contents_eq]
  refine ⟨fun _ => rfl, fun i => (hf.file i).length_le, fun c => ?_⟩
  obtain ⟨a, t, f', he, ht, hserves, hread⟩ := hf.call_ends hM c
  rw [← ht.contents_eq] at hserves
  exact ⟨a, t, he, hserves, hread⟩

end Calls

end Xv6Sheet.Fs.Mapping
