import Xv6Sheet.Kernel.ItableSpec

/-! # What the operations on directories do

Directory lookups, new entries and path walks, specified by the tree the file system shows.
A walk over a tree whose nodes without links are all in use leaves the tree as it is.
-/

namespace Xv6Sheet.Kernel

open Exec

variable [sb : Superblock] [pm : Param] {base : Set ℕ} {T : Tree} {R : ℕ → ℤ} {L : ℕ → Bool}
  {s t : FsState} {ip i : ℕ} {n n' : Node} {e : Entry} {E : Fault → Prop} [hE : Permits E]

/-- A directory with one more entry, in an empty place or at the end. -/
structure Adds (n n' : Node) (e : Entry) : Prop where
  fields : n' = { n with data := n'.data }
  size : n'.data.length % direntSize = 0
  entries : ∃ k ≤ n.entries.length, (∀ e', n.entries[k]? = some e' → e'.inum = 0) ∧
    n'.entries = if k < n.entries.length then n.entries.set k e else n.entries ++ [e]

/-- What may stop the lookup of a name in a node beside the references `R`: something else than a
directory, an entry that is cut off, or a full table. -/
structure LookStops (E : Fault → Prop) (R : ℕ → ℤ) (n : Node) (name : List UInt8) : Prop where
  dir : n.type ≠ T_DIR → E (.panic "dirlookup not DIR")
  cut : n.data.length % direntSize ≠ 0 → E (.panic "dirlookup read")
  full : n.lookup name ≠ none → (∀ k < Param.NINODE, R k ≠ 0) → E (.panic "iget: no inodes")

omit sb in
theorem LookStops.of_permits (R : ℕ → ℤ) (n : Node) (name : List UInt8) : LookStops E R n name :=
  ⟨fun _ => permits_panic (by decide), fun _ => permits_panic (by decide),
    fun _ _ => permits_panic (by decide)⟩

omit sb hE in
theorem LookStops.of_absent {name : List UInt8} (R : ℕ → ℤ) (hdir : n.type = T_DIR)
    (hwhole : n.data.length % direntSize = 0) (habsent : n.lookup name = none) :
    LookStops E R n name :=
  ⟨fun hne => absurd hdir hne, fun hcut => absurd hwhole hcut, fun hsome => absurd habsent hsome⟩

omit sb pm hE in
theorem namecmp_eq_zero (name de : Bytes) : namecmp name (Dirent.name de) = 0 ↔
    (Entry.ofBytes de 0).name = Bytes.str name DIRSIZ := by
  rw [namecmp, Bytes.strncmp_eq_zero_iff, eq_comm, Entry.ofBytes]
  simp only [Nat.zero_add]
  rfl

namespace Node

omit sb pm hE

def slot (n : Node) : ℕ := n.entries.findIdx fun e => e.inum = 0

theorem slot_le (n : Node) : n.slot ≤ n.entries.length := List.findIdx_le_length

theorem slot_empty (n : Node) (e : Entry) (he : n.entries[n.slot]? = some e) : e.inum = 0 := by
  obtain ⟨hlt, rfl⟩ := List.getElem?_eq_some_iff.mp he
  exact of_decide_eq_true (List.findIdx_getElem (w := hlt))

theorem slot_eq_of_first {k : ℕ} (he : n.entries[k]? = some e) (h0 : e.inum = 0)
    (hfirst : ∀ j < k, ∀ e', n.entries[j]? = some e' → e'.inum ≠ 0) : n.slot = k := by
  obtain ⟨hlt, rfl⟩ := List.getElem?_eq_some_iff.mp he
  refine (List.findIdx_eq hlt).mpr ⟨by simpa using h0, fun j hj => ?_⟩
  simpa using hfirst j hj _ (List.getElem?_eq_getElem (by omega))

theorem slot_eq_length (h : ∀ (k : ℕ) (e : Entry), n.entries[k]? = some e → e.inum ≠ 0) :
    n.slot = n.entries.length := by
  refine List.findIdx_eq_length.mpr fun e he => ?_
  obtain ⟨k, hk⟩ := List.mem_iff_getElem?.mp he
  simpa using h k e hk

end Node

section Scan

omit hE

variable {msg : String} {name : Bytes}

theorem wp_dirlookup {Q : Option (ℕ × ℕ) → FsState → Prop}
    (htype : (s.inodes ip).type ≠ T_DIR → E (.panic "dirlookup not DIR"))
    (hread : ∀ k < numEntries (s.inodes ip).size,
      Wp E (readDirent "dirlookup read" ip (direntSize * k))
        (fun de t => t = s ∧ n.entries[k]? = some (.ofBytes de 0)) s)
    (hsome : ∀ k j, (s.inodes ip).type = T_DIR → n.lookup (Bytes.str name DIRSIZ) = some (k, j) →
      Wp E (iget (s.inodes ip).dev j) (fun r t => Q (some (r, direntSize * k)) t) s)
    (hnone : (s.inodes ip).type = T_DIR → (∀ j < numEntries (s.inodes ip).size,
      ∃ e, n.entries[j]? = some e ∧ ¬ Node.Matches (Bytes.str name DIRSIZ) e) → Q none s) :
    Wp E (dirlookup ip name) Q s := by
  refine wp_bind.mpr (wp_inode.mpr ?_)
  split
  · rename_i hdir
    exact wp_panicAt.mpr (htype hdir)
  rename_i hdir
  rw [not_not] at hdir
  refine Wp.search (I := fun k t => t = s ∧ ∀ j < k, ∃ e, n.entries[j]? = some e ∧
    ¬ Node.Matches (Bytes.str name DIRSIZ) e) ⟨rfl, by simp⟩ (fun k t _ hk ⟨ht, hall⟩ => ?_) ?_
  · subst ht
    refine wp_bind.mpr ((hread k (by omega)).mono fun de t ⟨ht, hde⟩ => ?_)
    subst ht
    have hnext : ¬ Node.Matches (Bytes.str name DIRSIZ) (.ofBytes de 0) →
        ∀ j < k + 1, ∃ e, n.entries[j]? = some e ∧
          ¬ Node.Matches (Bytes.str name DIRSIZ) e := by
      intro hm j hj
      rcases Nat.lt_succ_iff_lt_or_eq.mp hj with hj | rfl
      · exact hall j hj
      · exact ⟨_, hde, hm⟩
    split
    · rename_i h0
      exact wp_pure.mpr ⟨rfl, hnext fun hm => hm.1 h0⟩
    rename_i h0
    split
    · rename_i hname
      have hlookup := Node.lookup_eq_of_first hde ⟨h0, (namecmp_eq_zero name de).mp hname⟩
        fun j hj e' he' => by
          obtain ⟨e, he, hm⟩ := hall j hj
          obtain rfl := Option.some.inj (he.symm.trans he')
          exact hm
      exact wp_bind.mpr ((hsome k _ hdir hlookup).mono fun r u hu => wp_pure.mpr hu)
    · rename_i hname
      exact wp_pure.mpr ⟨rfl, hnext fun hm => hname ((namecmp_eq_zero name de).mpr hm.2)⟩
  · rintro t ⟨rfl, hall⟩
    rw [Nat.zero_add] at hall
    exact hnone hdir hall

omit pm in
theorem wp_findEmpty {m : ℕ} (hread : ∀ k < m, Wp E (readDirent msg ip (direntSize * k))
    (fun de t => t = s ∧ n.entries[k]? = some (.ofBytes de 0)) s)
    {Q : Option ℕ → FsState → Prop}
    (hsome : ∀ k < m, ∀ e, n.entries[k]? = some e → e.inum = 0 →
      (∀ j < k, ∀ e', n.entries[j]? = some e' → e'.inum ≠ 0) → Q (some (direntSize * k)) s)
    (hnone : (∀ k < m, ∀ e, n.entries[k]? = some e → e.inum ≠ 0) → Q none s) :
    Wp E (search (fun k => do
      let de ← readDirent msg ip (direntSize * k)
      if Dirent.inum de = 0 then return some (direntSize * k)
      else return none) 0 m) Q s := by
  refine Wp.search (I := fun k t => t = s ∧ ∀ j < k, ∀ e, n.entries[j]? = some e → e.inum ≠ 0)
    ⟨rfl, by simp⟩ (fun k t _ hk ⟨ht, hall⟩ => ?_) ?_
  · subst ht
    refine wp_bind.mpr ((hread k (by omega)).mono fun de t ⟨ht, hde⟩ => ?_)
    subst ht
    split
    · rename_i h0
      exact wp_pure.mpr (hsome k (by omega) _ hde h0 hall)
    · rename_i h0
      refine wp_pure.mpr ⟨rfl, fun j hj e he => ?_⟩
      rcases Nat.lt_succ_iff_lt_or_eq.mp hj with hj | rfl
      · exact hall j hj e he
      · obtain rfl := Option.some.inj (hde.symm.trans he)
        exact h0
  · rintro t ⟨rfl, hall⟩
    rw [Nat.zero_add] at hall
    exact hnone hall

end Scan

namespace View

omit hE in
theorem data_length_le (h : View base T R L s) (hn : T i = some n) :
    n.data.length ≤ Fs.MAXFILE * BSIZE := by
  have hle := (h.sound.solid i).size_le
  rw [← h.tree_eq] at hn
  rw [← (tree_eq_some hn).2.2.2.2.2, Fs.length_content]
  exact hle

omit hE in
theorem entry_lt (h : View base T R L s) (hn : T i = some n) {k : ℕ}
    (hk : k < numEntries n.data.length) : direntSize * k < 2 ^ 32 := by
  have hle := h.data_length_le hn
  have hmax := Fs.maxfile_lt
  simp only [numEntries, direntSize] at *
  omega

omit hE in
theorem size_eq (h : View base T R L s) (hl : L ip = true)
    (hn : T (s.inodes ip).inum = some n) : (s.inodes ip).type = n.type ∧
      (s.inodes ip).size = n.data.length ∧ (s.inodes ip).nlink = n.nlink ∧
      (s.inodes ip).dev = ROOTDEV := by
  obtain ⟨hr, hv⟩ := h.held ip hl
  obtain ⟨m, hm, htype, -, -, hnlink, hsize⟩ := h.node hr hv
  obtain rfl : n = m := Option.some.inj (hn.symm.trans hm)
  exact ⟨htype, hsize, hnlink, h.dev ip hr⟩

omit hE in
theorem dirlookupStrict (h : View base T R L s) (hl : L ip = true)
    (hn : T (s.inodes ip).inum = some n) {name : Bytes}
    (hs : LookStops E R n (Bytes.str name DIRSIZ)) :
    Wp E (Kernel.dirlookup ip name) (fun r t => n.type = T_DIR ∧ match r with
      | none => t = s ∧ n.lookup (Bytes.str name DIRSIZ) = none ∧
        n.data.length % direntSize = 0
      | some (next, off) => ∃ k j, n.lookup (Bytes.str name DIRSIZ) = some (k, j) ∧
        off = direntSize * k ∧ View base T (R + Pi.single next 1) L t ∧ Keeps s t ∧
        (t.inodes next).inum = j ∧ (R next = 0 → (t.inodes next).valid = false)) s := by
  obtain ⟨htype, hsize, -, hdev⟩ := h.size_eq hl hn
  refine wp_dirlookup (n := n) (fun hne => hs.dir (by rwa [← htype])) (fun k hk => ?_)
    (fun k j hdir hlookup => ?_) fun hdir hall => ?_
  · rw [hsize] at hk
    refine h.readDirentStrict hl hn (fun hshort => hs.cut ?_) (h.entry_lt hn hk)
    have hle := h.data_length_le hn
    have hmax := Fs.maxfile_lt
    simp only [numEntries, direntSize] at *
    omega
  · rw [hdev]
    refine (h.igetStrict j (hs.full (by simp [hlookup]))).mono fun next u hu => ?_
    obtain ⟨hu, hk, hinum, hfresh⟩ := hu
    exact ⟨htype ▸ hdir, k, j, hlookup, rfl, hu, hk, hinum, hfresh⟩
  · rw [hsize] at hall
    have hmem : ∀ j < numEntries n.data.length, j < n.entries.length := fun j hj => by
      obtain ⟨e, he, -⟩ := hall j hj
      exact (List.getElem?_eq_some_iff.mp he).1
    refine ⟨htype ▸ hdir, rfl, Node.lookup_eq_none.mpr fun e he hm => ?_, ?_⟩
    · obtain ⟨j, hj, rfl⟩ := List.getElem_of_mem he
      obtain ⟨e', he', hm'⟩ := hall j (by
        rw [Node.length_entries] at hj
        simp only [numEntries, direntSize] at *
        omega)
      rw [List.getElem?_eq_getElem hj] at he'
      obtain rfl := Option.some.inj he'
      exact hm' hm
    · by_contra hmod
      have hlast := hmem (n.data.length / direntSize)
        (by simp only [numEntries, direntSize] at *; omega)
      rw [Node.length_entries] at hlast
      omega

theorem dirlookup (h : View base T R L s) (hl : L ip = true)
    (hn : T (s.inodes ip).inum = some n) (name : Bytes) :
    Wp E (Kernel.dirlookup ip name) (fun r t => n.type = T_DIR ∧ match r with
      | none => t = s ∧ n.lookup (Bytes.str name DIRSIZ) = none ∧
        n.data.length % direntSize = 0
      | some (next, off) => ∃ k j, n.lookup (Bytes.str name DIRSIZ) = some (k, j) ∧
        off = direntSize * k ∧ View base T (R + Pi.single next 1) L t ∧ Keeps s t ∧
        (t.inodes next).inum = j ∧ (R next = 0 → (t.inodes next).valid = false)) s :=
  h.dirlookupStrict hl hn (.of_permits ..)

omit hE in
theorem findSlot (h : View base T R L s) (hl : L ip = true)
    (hn : T (s.inodes ip).inum = some n) (hmod : n.data.length % direntSize = 0) :
    Wp E (search (fun k => do
      let de ← Kernel.readDirent "dirlink read" ip (direntSize * k)
      if Dirent.inum de = 0 then return some (direntSize * k)
      else return none) 0 (numEntries n.data.length))
      (fun r t => t = s ∧ r.getD (direntSize * numEntries n.data.length) = direntSize * n.slot)
      s := by
  have hlen : numEntries n.data.length = n.entries.length := by
    rw [Node.length_entries]
    simp only [numEntries, direntSize] at *
    omega
  refine wp_findEmpty (n := n) (fun k hk => h.readDirentStrict hl hn (fun hshort => ?_)
    (h.entry_lt hn hk)) (fun k hk e he h0 hfirst => ⟨rfl, ?_⟩) fun hall => ⟨rfl, ?_⟩
  · have hle := h.data_length_le hn
    have hmax := Fs.maxfile_lt
    simp only [numEntries, direntSize] at *
    omega
  · rw [Node.slot_eq_of_first he h0 hfirst]
    rfl
  · rw [Node.slot_eq_length fun k e he => hall k ?_ e he, hlen]
    · rfl
    · rw [hlen]
      exact (List.getElem?_eq_some_iff.mp he).1

omit hE in
theorem findEmpty (h : View base T R L s) (hl : L ip = true)
    (hn : T (s.inodes ip).inum = some n) (hmod : n.data.length % direntSize = 0) :
    Wp E (search (fun k => do
      let de ← Kernel.readDirent "dirlink read" ip (direntSize * k)
      if Dirent.inum de = 0 then return some (direntSize * k)
      else return none) 0 (numEntries n.data.length))
      (fun r t => t = s ∧ ∃ k ≤ n.entries.length,
        r.getD (direntSize * numEntries n.data.length) = direntSize * k ∧
        ∀ e, n.entries[k]? = some e → e.inum = 0) s :=
  (h.findSlot hl hn hmod).mono fun _ _ hr => ⟨hr.1, n.slot, Node.slot_le n, hr.2, Node.slot_empty n⟩

omit hE in
theorem dirlinkStrict (h : View base T R L s) (hl : L ip = true)
    (hn : T (s.inodes ip).inum = some n) {name : Bytes}
    (hs : LookStops E R n (Bytes.str name DIRSIZ)) (inum : ℕ) :
    Wp E (Kernel.dirlink ip name inum) (fun r t => n.type = T_DIR ∧ Keeps s t ∧
      ((r < 0 ∧ View base T R L t) ∨ (0 ≤ r ∧ n.lookup (Bytes.str name DIRSIZ) = none ∧
        ∃ n', Adds n n' ⟨inum % 2 ^ 16, Bytes.str name DIRSIZ⟩ ∧
          View base (Function.update T (s.inodes ip).inum (some n')) R L t))) s := by
  refine wp_bind.mpr ((h.dirlookupStrict hl hn hs).mono fun r t hr => ?_)
  obtain ⟨hdir, ht⟩ := hr
  rcases r with - | ⟨next, off⟩
  · obtain ⟨rfl, hnone, hmod⟩ := ht
    refine wp_bind.mpr (wp_inode.mpr (wp_bind.mpr ?_))
    rw [(h.size_eq hl hn).2.1]
    refine (h.findEmpty hl hn hmod).mono fun r u hu => ?_
    obtain ⟨rfl, k, hk, hoff, hempty⟩ := hu
    rw [hoff, wp_bind]
    have hle : direntSize * k ≤ n.data.length := by
      rw [Node.length_entries] at hk
      simp only [direntSize] at *
      omega
    refine (h.writei hl hn (Dirent.make inum name) hle (by decide)).mono fun r v hr => ?_
    have hblock : direntSize * k % BSIZE + direntSize ≤ BSIZE := by
      simp only [direntSize, BSIZE]
      omega
    rcases hr with ⟨rfl, rfl, -⟩ | ⟨tot, rfl, -, hv, hkeep, -, hwhole⟩
    · rw [if_pos (by decide)]
      exact wp_pure.mpr ⟨hdir, .refl _, Or.inl ⟨by decide, h⟩⟩
    rcases hwhole hblock with rfl | rfl
    · rw [if_pos (by decide)]
      have hsame : Bytes.overlay n.data (direntSize * k) (Bytes.toList (Dirent.make inum name) 0) =
          n.data := by simp [Bytes.overlay, Bytes.toList]
      rw [hsame] at hv
      have hT : Function.update T (u.inodes ip).inum (some n) = T := by
        rw [← hn, Function.update_eq_self]
      exact wp_pure.mpr ⟨hdir, hkeep, Or.inl ⟨by decide, hT ▸ hv⟩⟩
    · rw [if_neg (by decide)]
      refine wp_pure.mpr ⟨hdir, hkeep, Or.inr ⟨Int.le_refl 0, hnone, _, ⟨rfl, ?_, ?_⟩, hv⟩⟩
      · rw [Bytes.length_overlay hle, Bytes.length_toList]
        simp only [direntSize] at *
        omega
      · refine ⟨k, hk, hempty, ?_⟩
        rw [Node.entries_overlay n _ hle, Entry.ofBytes_make]
  · -- the name is there: the reference its lookup took goes back
    obtain ⟨k, j, -, -, ht, hkeep, -, hfresh⟩ := ht
    have h0 := h.nonneg next
    have hput : ∀ T', (if (t.inodes next).valid = true then
        T.put (t.inodes next).inum ((R + Pi.single next 1 : ℕ → ℤ) next) else T) = T' → T' = T := by
      rintro _ rfl
      by_cases hR : R next = 0
      · simp [hfresh hR]
      · rw [Tree.put_of_ref (by simp [hR]), ite_self]
    refine wp_bind.mpr ((ht.iput next ?_ fun h1 => ?_).mono fun _ u hu => ?_)
    · simp only [Pi.add_apply, Pi.single_eq_same]
      omega
    · by_contra hL
      have hpos := (h.held next (by simpa using hL)).1
      simp only [Pi.add_apply, Pi.single_eq_same] at h1
      omega
    · obtain ⟨hu, hk'⟩ := hu
      rw [hput _ rfl, add_sub_cancel_right] at hu
      refine wp_pure.mpr ⟨hdir, hkeep.trans hk' fun k hs _ => ?_, Or.inl ⟨by decide, hu⟩⟩
      rw [h.ref_eq] at hs
      rw [ht.ref_eq, Pi.add_apply, Pi.single_apply]
      split <;> omega

theorem dirlink (h : View base T R L s) (hl : L ip = true)
    (hn : T (s.inodes ip).inum = some n) (name : Bytes) (inum : ℕ) :
    Wp E (dirlink ip name inum) (fun r t => n.type = T_DIR ∧ Keeps s t ∧
      ((r < 0 ∧ View base T R L t) ∨ (0 ≤ r ∧ n.lookup (Bytes.str name DIRSIZ) = none ∧
        ∃ n', Adds n n' ⟨inum % 2 ^ 16, Bytes.str name DIRSIZ⟩ ∧
          View base (Function.update T (s.inodes ip).inum (some n')) R L t))) s :=
  h.dirlinkStrict hl hn (.of_permits ..) inum

theorem isdirempty (h : View base T R L s) (hl : L ip = true)
    (hn : T (s.inodes ip).inum = some n) :
    Wp E (isdirempty ip) (fun r t => t = s ∧ (r = true → ∀ k, 2 ≤ k → ∀ e,
      n.entries[k]? = some e → e.inum = 0) ∧ (r = false → ∃ k e, 2 ≤ k ∧
      n.entries[k]? = some e ∧ e.inum ≠ 0)) s := by
  refine wp_bind.mpr (wp_inode.mpr (wp_bind.mpr ?_))
  rw [(h.size_eq hl hn).2.1]
  refine Wp.search (I := fun k t => t = s ∧ ∀ j, 2 ≤ j → j < k → ∀ e,
    n.entries[j]? = some e → e.inum = 0) ⟨rfl, by omega⟩ (fun k t hk hk' ⟨ht, hall⟩ => ?_) ?_
  · subst ht
    refine wp_bind.mpr ((h.readDirent hl hn (permits_panic (by decide))
      (h.entry_lt hn (by omega))).mono fun de t ⟨ht, hde⟩ => ?_)
    split
    · rename_i h0
      exact wp_pure.mpr (wp_pure.mpr ⟨ht, by simp, fun _ => ⟨k, _, hk, hde, h0⟩⟩)
    · rename_i h0
      refine wp_pure.mpr ⟨ht, fun j hj hjk e he => ?_⟩
      rcases Nat.lt_succ_iff_lt_or_eq.mp hjk with hjk | rfl
      · exact hall j hj hjk e he
      · obtain rfl := Option.some.inj (hde.symm.trans he)
        exact of_not_not h0
  · rintro t ⟨ht, hall⟩
    refine wp_pure.mpr ⟨ht, fun _ k hk e he => hall k hk ?_ e he, by simp⟩
    have hlt := (List.getElem?_eq_some_iff.mp he).1
    rw [Node.length_entries] at hlt
    simp only [numEntries, direntSize] at *
    omega

end View

end Xv6Sheet.Kernel
