import Xv6Sheet.Kernel.DirSpec
import Xv6Sheet.Lib.Run
import Xv6Sheet.Vm.Mmap

/-! # A directory is a finite map

One directory, whatever else is on the disk and in the inode table. Its entries bind names to
inode numbers; new entries and removals change one binding each, and a name is compared by
its first `DIRSIZ` bytes.
-/

namespace Xv6Sheet.Kernel

open Exec

section Entries

def Distinct (es : List Entry) : Prop :=
  ∀ (j k : ℕ) (e e' : Entry), es[j]? = some e → es[k]? = some e' → e.inum ≠ 0 → e'.inum ≠ 0 →
    e.name = e'.name → j = k

def place (es : List Entry) (k : ℕ) (e : Entry) : List Entry :=
  if k < es.length then es.set k e else es ++ [e]

variable {es : List Entry} {k : ℕ} {e : Entry}

theorem place_getElem? (hk : k ≤ es.length) (j : ℕ) :
    (place es k e)[j]? = if j = k then some e else es[j]? := by
  unfold place
  split
  · rename_i hlt
    rcases eq_or_ne j k with rfl | hne
    · rw [if_pos rfl, List.getElem?_set_self hlt]
    · rw [if_neg hne, List.getElem?_set_ne hne.symm]
  · obtain rfl : k = es.length := by omega
    split
    · rename_i h
      rw [h, List.getElem?_append_right (Nat.le_refl _), Nat.sub_self]
      rfl
    · rename_i h
      rcases Nat.lt_or_gt_of_ne h with hlt | hgt
      · exact List.getElem?_append_left hlt
      · rw [List.getElem?_eq_none (by simp; omega), List.getElem?_eq_none (by omega)]

theorem mem_place (hk : k ≤ es.length) {x : Entry} :
    x ∈ place es k e ↔ x = e ∨ ∃ j, j ≠ k ∧ es[j]? = some x := by
  rw [List.mem_iff_getElem?]
  constructor
  · rintro ⟨j, hj⟩
    rw [place_getElem? hk] at hj
    split at hj
    · exact .inl (Option.some.inj hj).symm
    · exact .inr ⟨j, ‹_›, hj⟩
  · rintro (rfl | ⟨j, hjk, hj⟩)
    · exact ⟨k, by rw [place_getElem? hk, if_pos rfl]⟩
    · exact ⟨j, by rw [place_getElem? hk, if_neg hjk, hj]⟩

theorem Distinct.place (h : Distinct es) (hk : k ≤ es.length)
    (he : e.inum ≠ 0 → ∀ j, j ≠ k → ∀ x, es[j]? = some x → x.inum ≠ 0 → x.name ≠ e.name) :
    Distinct (place es k e) := by
  intro i j x y hx hy hx0 hy0 hname
  rw [place_getElem? hk] at hx hy
  split at hx <;> split at hy
  · rename_i hi hj
    rw [hi, hj]
  · rename_i hi hj
    cases hx
    exact absurd hname.symm (he hx0 j hj y hy hy0)
  · rename_i hi hj
    cases hy
    exact absurd hname (he hy0 i hi x hx hx0)
  · exact h i j x y hx hy hx0 hy0 hname

def Node.binding (n : Node) (name : List UInt8) : Option ℕ := (n.lookup name).map Prod.snd

theorem Node.binding_eq_none {n : Node} {name : List UInt8} :
    n.binding name = none ↔ n.lookup name = none := Option.map_eq_none_iff

theorem Node.binding_eq_some {n : Node} (h : Distinct n.entries) {name : List UInt8} {j : ℕ} :
    n.binding name = some j ↔ j ≠ 0 ∧ (⟨j, name⟩ : Entry) ∈ n.entries := by
  unfold binding
  constructor
  · intro hb
    obtain ⟨⟨k, i⟩, hl, rfl⟩ := Option.map_eq_some_iff.mp hb
    obtain ⟨e, he, rfl, h0, rfl⟩ := Node.lookup_eq_some hl
    exact ⟨h0, List.mem_of_getElem? he⟩
  · rintro ⟨h0, hmem⟩
    obtain ⟨k, hk⟩ := List.mem_iff_getElem?.mp hmem
    have hl := Node.lookup_eq_of_first hk ⟨h0, rfl⟩ fun i hi e he hm =>
      absurd (h i k e _ he hk hm.1 h0 hm.2) hi.ne
    rw [hl]
    rfl

theorem Node.binding_add {n n' : Node} (h : Distinct n.entries) (hk : k ≤ n.entries.length)
    (hfree : ∀ e', n.entries[k]? = some e' → e'.inum = 0) (he : e.inum ≠ 0)
    (hnone : n.lookup e.name = none) (hn' : n'.entries = Kernel.place n.entries k e) :
    Distinct n'.entries ∧ n'.binding = Function.update n.binding e.name (some e.inum) := by
  have habsent := Node.lookup_eq_none.mp hnone
  have hd : Distinct n'.entries := by
    rw [hn']
    refine h.place hk fun _ j _ x hx hx0 hname => ?_
    exact habsent x (List.mem_of_getElem? hx) ⟨hx0, hname⟩
  refine ⟨hd, funext fun name => Option.ext fun j => ?_⟩
  rw [Node.binding_eq_some hd, hn', mem_place hk]
  rcases eq_or_ne name e.name with rfl | hname
  · rw [Function.update_self, Option.some.injEq]
    constructor
    · rintro ⟨h0, heq | ⟨i, -, hi⟩⟩
      · rw [← heq]
      · exact absurd ⟨h0, rfl⟩ (habsent _ (List.mem_of_getElem? hi))
    · rintro rfl
      exact ⟨he, .inl rfl⟩
  · rw [Function.update_of_ne hname, Node.binding_eq_some h]
    refine and_congr_right fun h0 => ⟨?_, fun hmem => ?_⟩
    · rintro (heq | ⟨i, -, hi⟩)
      · exact absurd (congrArg Entry.name heq) hname
      · exact List.mem_of_getElem? hi
    · obtain ⟨i, hi⟩ := List.mem_iff_getElem?.mp hmem
      refine .inr ⟨i, ?_, hi⟩
      rintro rfl
      exact h0 (hfree _ hi)

theorem Node.binding_remove {n n' : Node} (h : Distinct n.entries) {name : List UInt8} {j : ℕ}
    (hl : n.lookup name = some (k, j)) (he : e.inum = 0)
    (hn' : n'.entries = Kernel.place n.entries k e) :
    Distinct n'.entries ∧ n'.binding = Function.update n.binding name none := by
  obtain ⟨x, hx, rfl, h0, rfl⟩ := Node.lookup_eq_some hl
  have hk : k ≤ n.entries.length := (List.getElem?_eq_some_iff.mp hx).1.le
  have hd : Distinct n'.entries := by
    rw [hn']
    exact h.place hk fun h0 => absurd he h0
  refine ⟨hd, funext fun name => Option.ext fun j => ?_⟩
  rw [Node.binding_eq_some hd, hn', mem_place hk]
  rcases eq_or_ne name x.name with rfl | hname
  · rw [Function.update_self]
    simp only [reduceCtorEq, iff_false, not_and, not_or, not_exists]
    refine fun hj => ⟨fun heq => hj ((congrArg Entry.inum heq).trans he), fun i hik hi => ?_⟩
    exact hik (h i k _ x hi hx hj h0 rfl)
  · rw [Function.update_of_ne hname, Node.binding_eq_some h]
    refine and_congr_right fun hj => ⟨?_, fun hmem => ?_⟩
    · rintro (heq | ⟨i, -, hi⟩)
      · exact absurd ((congrArg Entry.inum heq).trans he) hj
      · exact List.mem_of_getElem? hi
    · obtain ⟨i, hi⟩ := List.mem_iff_getElem?.mp hmem
      refine .inr ⟨i, ?_, hi⟩
      rintro rfl
      exact hname (congrArg Entry.name (Option.some.inj (hi.symm.trans hx)))

end Entries

section Run

variable [sb : Superblock] [pm : Param] {base : Set ℕ} {s t : FsState} {dp : ℕ}
  {E : Fault → Prop}

def only (s : FsState) (dp : ℕ) : Unit → Inode := fun _ => s.inodes dp

def dirNode (s : FsState) (dp : ℕ) : Node :=
  ⟨(s.inodes dp).type, (s.inodes dp).major, (s.inodes dp).minor, (s.inodes dp).nlink,
    Fs.content (only s dp) s.disk ()⟩

omit sb pm in
theorem length_dirNode (s : FsState) (dp : ℕ) :
    (dirNode s dp).data.length = (s.inodes dp).size := Fs.length_content

/-- A directory in use: the blocks below its size are there and its own, and its entries have
different names. -/
structure Directory (base : Set ℕ) (dp : ℕ) (s : FsState) : Prop where
  type : (s.inodes dp).type = T_DIR
  ref : 0 < (s.inodes dp).ref
  sound : Fs.Sound base (only s dp) s.disk
  size : (s.inodes dp).size % direntSize = 0
  names : Distinct (dirNode s dp).entries

def tableFull : Fault → Prop := (· = .panic "iget: no inodes")

/-- The table after a reference to entry `r` was taken: one to an entry in use, or the first
one to an entry that was free. -/
structure Took (r : ℕ) (s t : FsState) : Prop where
  disk : t.disk = s.disk
  others : ∀ k, k ≠ r → t.inodes k = s.inodes k
  entry : (0 < (s.inodes r).ref ∧ t.inodes r = { s.inodes r with ref := (s.inodes r).ref + 1 }) ∨
    ((s.inodes r).ref = 0 ∧ (t.inodes r).ref = 1 ∧ (t.inodes r).valid = false)

omit sb in
theorem iget_took (s : FsState) (dev inum : ℕ) :
    Wp tableFull (iget dev inum) (fun r t => Took r s t ∧ (t.inodes r).inum = inum) s := by
  refine wp_bind.mpr (wp_get.mpr ?_)
  split
  · rename_i r hr
    have hfound := List.find?_some hr
    simp only [decide_eq_true_eq] at hfound
    obtain ⟨href, -, hi⟩ := hfound
    refine wp_bind.mpr (wp_modifyInode.mpr
      (wp_pure.mpr ⟨⟨rfl, fun k hk => ?_, .inl ⟨href, ?_⟩⟩, ?_⟩))
    · exact Function.update_of_ne hk ..
    · exact Function.update_self ..
    · simpa using hi
  · split
    · rename_i r hr
      have h0 : (s.inodes r).ref = 0 := by simpa using List.find?_some hr
      refine wp_bind.mpr (wp_modifyInode.mpr (wp_pure.mpr
        ⟨⟨rfl, fun k hk => ?_, .inr ⟨h0, ?_, ?_⟩⟩, ?_⟩))
      · exact Function.update_of_ne hk ..
      all_goals simp
    · exact wp_panicAt.mpr rfl

omit pm in
theorem iput_gives {r : ℕ} (h : ¬ ((s.inodes r).ref = 1 ∧ (s.inodes r).valid = true)) :
    Wp E (iput r) (fun _ t => t.disk = s.disk ∧ (∀ k, k ≠ r → t.inodes k = s.inodes k) ∧
      t.inodes r = { s.inodes r with ref := (s.inodes r).ref - 1 }) s := by
  refine wp_bind.mpr (wp_inode.mpr ?_)
  rw [if_neg fun hc => h ⟨hc.1, hc.2.1⟩]
  refine wp_modifyInode.mpr ⟨rfl, fun k hk => ?_, ?_⟩
  · exact Function.update_of_ne hk ..
  · exact Function.update_self ..

omit sb pm in
theorem Took.not_last {r : ℕ} (h : Took r s t) :
    ¬ ((t.inodes r).ref = 1 ∧ (t.inodes r).valid = true) := by
  rintro ⟨h1, hv⟩
  rcases h.entry with ⟨hpos, heq⟩ | ⟨-, -, hf⟩
  · rw [heq] at h1
    dsimp only at h1
    omega
  · rw [hf] at hv
    cases hv

omit sb pm in
theorem Took.in_use {r : ℕ} (h : Took r s t) (hr : 0 < (s.inodes dp).ref) :
    (t.inodes dp).toDinode = (s.inodes dp).toDinode ∧ (s.inodes dp).ref ≤ (t.inodes dp).ref ∧
      (dp = r → (s.inodes dp).ref < (t.inodes dp).ref) := by
  rcases eq_or_ne dp r with rfl | hne
  · rcases h.entry with ⟨-, heq⟩ | ⟨h0, -⟩
    · rw [heq]
      exact ⟨rfl, by simp, by simp⟩
    · omega
  · rw [h.others dp hne]
    exact ⟨rfl, le_rfl, fun he => absurd he hne⟩

namespace Directory

omit pm in
theorem congr (h : Directory base dp s) (hd : t.disk = s.disk)
    (hi : (t.inodes dp).toDinode = (s.inodes dp).toDinode) (hr : 0 < (t.inodes dp).ref) :
    Directory base dp t ∧ dirNode t dp = dirNode s dp := by
  obtain ⟨hs, hc⟩ : Fs.Sound base (only t dp) t.disk ∧
      Fs.content (only t dp) t.disk = Fs.content (only s dp) s.disk :=
    h.sound.congr (fun _ r _ => congrArg (fun d : Dinode => d.addrs r) hi)
      (fun _ => congrArg Dinode.size hi) (congrArg Disk.block hd)
  have hnode : dirNode t dp = dirNode s dp := by
    unfold dirNode
    rw [hc, hi]
  exact ⟨⟨hi ▸ h.type, hr, hs, hi ▸ h.size, hnode ▸ h.names⟩, hnode⟩

omit pm in
theorem numEntries_eq (h : Directory base dp s) :
    numEntries (s.inodes dp).size = (dirNode s dp).entries.length ∧
      direntSize * (dirNode s dp).entries.length = (s.inodes dp).size := by
  have hsize := h.size
  rw [Node.length_entries, length_dirNode]
  simp only [numEntries, direntSize] at *
  omega

omit pm in
theorem readDirent (h : Directory base dp s) (msg : String) {k : ℕ}
    (hk : k < (dirNode s dp).entries.length) :
    Wp E (readDirent msg dp (direntSize * k))
      (fun de t => t = s ∧ (dirNode s dp).entries[k]? = some (.ofBytes de 0)) s := by
  have hmax := Fs.maxfile_lt
  have hsolid := h.sound.solid ()
  have hle : (s.inodes dp).size ≤ _ := hsolid.size_le
  have hlen := h.numEntries_eq.2
  have hin : direntSize * k + direntSize ≤ (s.inodes dp).size := by
    simp only [direntSize] at *
    omega
  have hread : Fs.readable (s.inodes dp).size (direntSize * k) direntSize = direntSize := by
    unfold Fs.readable
    rw [if_neg (by simp only [direntSize] at *; omega)]
    exact Nat.min_eq_left (by omega)
  obtain ⟨r, out, he, hres⟩ := Fs.readi_ends hsolid (fun _ => true) (fun _ => 0)
    (show direntSize * k < 2 ^ 32 by omega) (show direntSize < 2 ^ 32 by decide)
  obtain ⟨rfl, rfl⟩ := hres.resolve_right (by simp)
  have hsize : (only s dp ()).size = (s.inodes dp).size := rfl
  rw [hsize, hread] at he
  refine wp_bind.mpr (wp_onInode.mpr (.of_ends (he.bind (ends_pure.mpr ⟨rfl, rfl⟩)) ?_))
  dsimp only
  rw [if_neg (by simp)]
  refine wp_pure.mpr ⟨?_, ?_⟩
  · simp [only]
  · rw [Node.length_entries] at hk
    rw [Node.entries_getElem?, if_pos hk, Fs.copy_content (F := only s dp) (i := ()) _ hin]
    refine congrArg some (Entry.ofBytes_congr fun j hj => ?_)
    rw [Bytes.copy_of_mem (by omega), Nat.zero_add, Nat.sub_zero]
    rfl

omit pm in
theorem writei (h : Directory base dp s) (src : Bytes) {k : ℕ}
    (hk : k ≤ (dirNode s dp).entries.length) :
    Wp E (writei dp src (direntSize * k) direntSize) (fun r t =>
      (∀ j, j ≠ dp → t.inodes j = s.inodes j) ∧
      (∃ z a, t.inodes dp = { s.inodes dp with size := z, addrs := a }) ∧
      Fs.Sound base (only t dp) t.disk ∧
      ((r = direntSize ∧
          (dirNode t dp).entries = place (dirNode s dp).entries k (.ofBytes src 0) ∧
          (s.inodes dp).size ≤ (t.inodes dp).size ∧ (t.inodes dp).size % direntSize = 0) ∨
        (r ≠ direntSize ∧ dirNode t dp = dirNode s dp ∧
          k = (dirNode s dp).entries.length ∧
          ((s.inodes dp).size = Fs.MAXFILE * BSIZE ∨ t.disk.free = ∅)))) s := by
  have hsolid := h.sound.solid ()
  have hle : (s.inodes dp).size ≤ Fs.MAXFILE * BSIZE := hsolid.size_le
  have hlen := h.numEntries_eq.2
  have hmod := h.size
  have hoff : direntSize * k ≤ (s.inodes dp).size := by
    rw [← hlen]
    exact Nat.mul_le_mul_left _ hk
  have hnode := length_dirNode s dp
  by_cases hfit : direntSize * k + direntSize ≤ Fs.MAXFILE * BSIZE
  · obtain ⟨tot, x, d', he, htot, hw, hshort⟩ := Fs.writei_ends h.sound.forest
      (fun _ => true) src hoff hfit
    obtain ⟨hs', hc'⟩ := h.sound.wrote hoff (by omega) hw
    obtain ⟨a, hx⟩ := hw.inode
    have honly : Function.update (only s dp) () x = fun _ => x := by
      funext
      exact Function.update_self ..
    rw [honly] at hs' hc' hx
    have hx : x = { s.inodes dp with
        size := max (s.inodes dp).size (direntSize * k + tot), addrs := a } := hx
    have hblock : direntSize * k % BSIZE + direntSize ≤ BSIZE := by
      simp only [direntSize, BSIZE]
      omega
    have hwhole : tot = 0 ∨ tot = direntSize := by
      rcases Fs.writei_whole hblock he with hr | hr | hr <;> omega
    obtain ⟨u, hu⟩ : ∃ u : FsState, u =
      { s with inodes := Function.update s.inodes dp x, disk := d' } := ⟨_, rfl⟩
    have hux : u.inodes dp = x := by
      rw [hu]
      exact Function.update_self ..
    have honly' : only u dp = fun _ => x := by
      funext
      exact hux
    have hdisk : u.disk = d' := by rw [hu]
    have hdata : (dirNode u dp).data = Bytes.overlay (dirNode s dp).data (direntSize * k)
        (src.toList tot) := by
      show Fs.content (only u dp) u.disk () = _
      rw [honly', hdisk, hc', Function.update_self]
      rfl
    have hfields : dirNode u dp = { dirNode s dp with data := (dirNode u dp).data } := by
      unfold dirNode
      rw [hux, hx]
    refine wp_onInode.mpr (.of_ends he ?_)
    rw [← hu]
    refine ⟨fun j hj => ?_, ⟨_, a, hux.trans hx⟩, ?_, ?_⟩
    · rw [hu]
      exact Function.update_of_ne hj ..
    · rw [honly', hdisk]
      exact hs'
    · rcases hwhole with rfl | rfl
      · have hsame : (dirNode u dp).data = (dirNode s dp).data := by
          rw [hdata]
          simp [Bytes.overlay, Bytes.toList]
        rcases hshort (by decide) with hok | ⟨hmap, hfull⟩
        · simp at hok
        · have hend : ¬ direntSize * k < (s.inodes dp).size := fun hlt =>
            hmap (hsolid.mapped _ hlt)
          refine .inr ⟨by simp [direntSize], ?_, ?_, .inr (hdisk ▸ hfull)⟩
          · rw [hfields, hsame]
          · simp only [direntSize] at *
            omega
      · refine .inl ⟨rfl, ?_, ?_, ?_⟩
        · rw [hfields, hdata, Node.entries_overlay _ _ (hnode ▸ hoff)]
          rfl
        · rw [hux, hx]
          exact Nat.le_max_left ..
        · rw [hux, hx]
          simp only [direntSize] at *
          omega
  · have hend : (s.inodes dp).size = Fs.MAXFILE * BSIZE := by
      simp only [direntSize, Fs.MAXFILE, Fs.NDIRECT, NINDIRECT, BSIZE] at *
      omega
    have hlt := Fs.maxfile_lt
    have he : Ends (Fs.writei (only s dp ()) (fun _ => true) src (direntSize * k) direntSize) s.disk
        (-1, only s dp ()) s.disk :=
      Fs.writei_refuses (fun _ => true) src (by omega) (by decide) (by omega)
    refine wp_onInode.mpr (.of_ends he ?_)
    have hsame : Function.update s.inodes dp (only s dp ()) = s.inodes :=
      Function.update_eq_self ..
    dsimp only
    rw [hsame]
    refine ⟨fun _ _ => rfl, ⟨(s.inodes dp).size, (s.inodes dp).addrs, rfl⟩, h.sound,
      .inr ⟨by decide, rfl, ?_, .inl hend⟩⟩
    simp only [direntSize] at *
    omega

theorem dirlookup (h : Directory base dp s) (name : Bytes) :
    Wp tableFull (dirlookup dp name) (fun r t => match r with
      | none => t = s ∧ (dirNode s dp).lookup (Bytes.str name DIRSIZ) = none
      | some (ip, off) => ∃ k j, (dirNode s dp).lookup (Bytes.str name DIRSIZ) = some (k, j) ∧
        off = direntSize * k ∧ Took ip s t ∧ (t.inodes ip).inum = j) s := by
  obtain ⟨hn, -⟩ := h.numEntries_eq
  refine wp_dirlookup (n := dirNode s dp) (fun htype => absurd h.type htype) (fun k hk => ?_)
    (fun k j _ hlookup => ?_) fun _ hall => ⟨rfl, ?_⟩
  · rw [hn] at hk
    exact h.readDirent _ hk
  · exact (iget_took s _ j).mono fun r t ⟨ht, hinum⟩ => ⟨k, j, hlookup, rfl, ht, hinum⟩
  · refine Node.lookup_eq_none.mpr fun e he hm => ?_
    obtain ⟨k, hk, rfl⟩ := List.getElem_of_mem he
    obtain ⟨e', he', hm'⟩ := hall k (hn ▸ hk)
    rw [List.getElem?_eq_getElem hk] at he'
    obtain rfl := Option.some.inj he'
    exact hm' hm

def Links (base : Set ℕ) (dp : ℕ) (name : List UInt8) (inum : ℕ) (s : FsState) (r : ℤ)
    (t : FsState) : Prop :=
  Directory base dp t ∧
    ((r = 0 ∧ (dirNode s dp).binding name = none ∧
        (dirNode t dp).binding = Function.update (dirNode s dp).binding name (some inum)) ∨
      (r = -1 ∧ (dirNode t dp).binding = (dirNode s dp).binding ∧
        ((dirNode s dp).binding name ≠ none ∨
          ((∀ e ∈ (dirNode s dp).entries, e.inum ≠ 0) ∧
            ((s.inodes dp).size = Fs.MAXFILE * BSIZE ∨ t.disk.free = ∅)))))

omit pm in
theorem link_at (h : Directory base dp s) {name : Bytes} {inum k : ℕ} (h1 : 1 ≤ inum)
    (hmax : inum ≤ 65535) (hnone : (dirNode s dp).lookup (Bytes.str name DIRSIZ) = none)
    (hk : k ≤ (dirNode s dp).entries.length)
    (hfree : ∀ e, (dirNode s dp).entries[k]? = some e → e.inum = 0)
    (hfull : k = (dirNode s dp).entries.length → ∀ e ∈ (dirNode s dp).entries, e.inum ≠ 0) :
    Wp E (do
      let r ← Kernel.writei dp (Dirent.make inum name) (direntSize * k) direntSize
      if r ≠ direntSize then return -1 else return 0)
      (Links base dp (Bytes.str name DIRSIZ) inum s) s := by
  have hmake : Entry.ofBytes (Dirent.make inum name) 0 = ⟨inum, Bytes.str name DIRSIZ⟩ := by
    rw [Entry.ofBytes_make, Nat.mod_eq_of_lt (by omega)]
  refine wp_bind.mpr ((h.writei _ hk).mono fun r t ⟨_, ⟨z, a, hi⟩, hs, hr⟩ => ?_)
  have htype : (t.inodes dp).type = T_DIR := by rw [hi]; exact h.type
  have href : 0 < (t.inodes dp).ref := by rw [hi]; exact h.ref
  rcases hr with ⟨rfl, hentries, -, hsize⟩ | ⟨hr, hnode, hend, hroom⟩
  · rw [if_neg (by simp)]
    rw [hmake] at hentries
    obtain ⟨hd, hb⟩ := Node.binding_add h.names hk hfree (by dsimp only; omega) hnone hentries
    exact wp_pure.mpr ⟨⟨htype, href, hs, hsize, hd⟩,
      .inl ⟨rfl, Node.binding_eq_none.mpr hnone, hb⟩⟩
  · rw [if_pos hr]
    have hsize : (t.inodes dp).size = (s.inodes dp).size := by
      rw [← length_dirNode, hnode, length_dirNode]
    refine wp_pure.mpr ⟨⟨htype, href, hs, hsize ▸ h.size, hnode ▸ h.names⟩,
      .inr ⟨rfl, by rw [hnode], .inr ⟨hfull hend, hroom⟩⟩⟩

theorem dirlink (h : Directory base dp s) (name : Bytes) {inum : ℕ} (h1 : 1 ≤ inum)
    (hmax : inum ≤ 65535) :
    Wp tableFull (dirlink dp name inum) (Links base dp (Bytes.str name DIRSIZ) inum s) s := by
  refine wp_bind.mpr ((h.dirlookup name).mono fun r t ht => ?_)
  rcases r with - | ⟨ip, off⟩
  · obtain ⟨rfl, hnone⟩ := ht
    obtain ⟨hn, -⟩ := h.numEntries_eq
    refine wp_bind.mpr (wp_inode.mpr (wp_bind.mpr ?_))
    rw [hn]
    refine wp_findEmpty (n := dirNode t dp) (fun k hk => h.readDirent _ hk)
      (fun k hk e he h0 _ => ?_) fun hall => ?_
    · refine h.link_at h1 hmax hnone hk.le (fun e' he' => ?_) fun hend => absurd hend hk.ne
      obtain rfl := Option.some.inj (he.symm.trans he')
      exact h0
    · refine h.link_at h1 hmax hnone le_rfl (fun e he => by simp at he) fun _ e he => ?_
      obtain ⟨k, hk, rfl⟩ := List.getElem_of_mem he
      exact hall k hk _ (List.getElem?_eq_getElem hk)
  · -- the name is there: the reference its lookup took goes back
    obtain ⟨k, j, hlookup, -, htook, -⟩ := ht
    obtain ⟨hi, hle, hlt⟩ := htook.in_use h.ref
    refine wp_bind.mpr ((iput_gives htook.not_last).mono fun _ u ⟨hd, hothers, hip⟩ => ?_)
    have href : 0 < (u.inodes dp).ref ∧ (u.inodes dp).toDinode = (t.inodes dp).toDinode := by
      have hpos := h.ref
      rcases eq_or_ne dp ip with rfl | hne
      · rw [hip]
        have := hlt rfl
        exact ⟨by dsimp only; omega, rfl⟩
      · rw [hothers dp hne]
        exact ⟨by omega, rfl⟩
    obtain ⟨hdir, hnode⟩ := h.congr (hd.trans htook.disk) (href.2.trans hi) href.1
    refine wp_pure.mpr ⟨hdir, .inr ⟨rfl, by rw [hnode], .inl fun hb => ?_⟩⟩
    rw [Node.binding_eq_none.mp hb] at hlookup
    cases hlookup

end Directory

/-- Take the entry of a name out of a directory, as `sys_unlink` does: look for its offset,
write an empty entry there, and give back the reference that the lookup took. -/
def removeEntry (dp : ℕ) (name : Bytes) : FsM ℤ := do
  match ← dirlookup dp name with
  | none => return -1
  | some (ip, off) => do
    let r ← writei dp (fun _ => 0) off direntSize
    if r ≠ direntSize then panicAt "unlink: writei"
    else do
      iput ip
      return 0

namespace Directory

theorem removeEntry (h : Directory base dp s) (name : Bytes) :
    Wp tableFull (removeEntry dp name) (fun r t => Directory base dp t ∧
      (dirNode t dp).binding =
        Function.update (dirNode s dp).binding (Bytes.str name DIRSIZ) none ∧
      r = if (dirNode s dp).binding (Bytes.str name DIRSIZ) = none then -1 else 0) s := by
  refine wp_bind.mpr ((h.dirlookup name).mono fun r t ht => ?_)
  rcases r with - | ⟨ip, off⟩
  · obtain ⟨rfl, hnone⟩ := ht
    have hb := Node.binding_eq_none.mpr hnone
    refine wp_pure.mpr ⟨h, ?_, (if_pos hb).symm⟩
    rw [← hb, Function.update_eq_self]
  · obtain ⟨k, j, hlookup, rfl, htook, -⟩ := ht
    obtain ⟨hi, hle, hlt⟩ := htook.in_use h.ref
    obtain ⟨ht, hnode⟩ := h.congr htook.disk hi (by have := h.ref; omega)
    obtain ⟨e, he, -, -, -⟩ := Node.lookup_eq_some hlookup
    have hk : k < (dirNode s dp).entries.length := (List.getElem?_eq_some_iff.mp he).1
    refine wp_bind.mpr ((ht.writei _ (hnode ▸ hk.le)).mono
      fun r u ⟨hother, ⟨z, a, hu⟩, hs, hr⟩ => ?_)
    rcases hr with ⟨rfl, hentries, -, hsize⟩ | ⟨-, -, hend, -⟩
    swap
    · rw [hnode] at hend
      exact absurd hend hk.ne
    rw [if_neg (by simp)]
    rw [hnode, Entry.ofBytes_zero] at hentries
    obtain ⟨hd, hb⟩ := Node.binding_remove h.names hlookup rfl hentries
    have hdir : Directory base dp u :=
      ⟨by rw [hu]; exact ht.type, by rw [hu]; exact ht.ref, hs, hsize, hd⟩
    have hip : (u.inodes ip).ref = (t.inodes ip).ref ∧
        (u.inodes ip).valid = (t.inodes ip).valid := by
      rcases eq_or_ne ip dp with rfl | hne
      · rw [hu]
        exact ⟨rfl, rfl⟩
      · rw [hother ip hne]
        exact ⟨rfl, rfl⟩
    have hlast : ¬ ((u.inodes ip).ref = 1 ∧ (u.inodes ip).valid = true) := by
      rw [hip.1, hip.2]
      exact htook.not_last
    refine wp_bind.mpr ((iput_gives hlast).mono fun _ v ⟨hvd, hvo, hvi⟩ => wp_pure.mpr ?_)
    have hv : 0 < (v.inodes dp).ref ∧ (v.inodes dp).toDinode = (u.inodes dp).toDinode := by
      have hpos := h.ref
      rcases eq_or_ne dp ip with rfl | hne
      · rw [hvi]
        have := hlt rfl
        exact ⟨by dsimp only; omega, rfl⟩
      · rw [hvo dp hne]
        exact ⟨hdir.ref, rfl⟩
    obtain ⟨hdir', hnode'⟩ := hdir.congr hvd hv.2 hv.1
    refine ⟨hdir', by rw [hnode', hb], (if_neg fun hnone => ?_).symm⟩
    rw [Node.binding_eq_none.mp hnone] at hlookup
    cases hlookup

end Directory

inductive DirCall
  | dirlink (name : Bytes) (inum : ℕ)
  | remove (name : Bytes)

/-- One call on the directory `dp`. -/
def dirCall (dp : ℕ) : DirCall → FsM ℤ
  | .dirlink name inum => dirlink dp name inum
  | .remove name => removeEntry dp name

def DirCall.Valid : DirCall → Prop
  | dirlink _ inum => 1 ≤ inum ∧ inum ≤ 65535
  | remove _ => True

instance : DecidablePred DirCall.Valid
  | .dirlink _ inum => inferInstanceAs (Decidable (1 ≤ inum ∧ inum ≤ 65535))
  | .remove _ => inferInstanceAs (Decidable True)

theorem Directory.reached {s₀ : FsState} (h₀ : Directory base dp s₀)
    (h : Reached (dirCall dp) (fun _ c => c.Valid) (· = s₀) s) : Directory base dp s := by
  refine h.invariant (I := Directory base dp) (by rintro _ rfl; exact h₀) fun s t c a hs hc he => ?_
  cases c with
  | dirlink name inum => exact ((hs.dirlink name hc.1 hc.2).1 a t he).1
  | remove name => exact ((hs.removeEntry name).1 a t he).1

/-- After any sequence of new entries and removals, a directory is a finite map from names to
inode numbers: a new entry adds one binding to a name that has none, or fails for want of
room, a removal takes one out, and a lookup finds the number and the entry. No call stops,
but for a full inode table. -/
theorem directory_is_map (base : Set ℕ) (dp : ℕ) (s₀ s : FsState) (h₀ : Directory base dp s₀)
    (h : Reached (dirCall dp) (fun _ c => c.Valid) (· = s₀) s) :
    Distinct (dirNode s dp).entries ∧
    (∀ name inum, 1 ≤ inum → inum ≤ 65535 → Wp tableFull (dirlink dp name inum) (fun r t =>
      (r = 0 ∧ (dirNode s dp).binding (Bytes.str name DIRSIZ) = none ∧
          (dirNode t dp).binding =
            Function.update (dirNode s dp).binding (Bytes.str name DIRSIZ) (some inum)) ∨
        (r = -1 ∧ (dirNode t dp).binding = (dirNode s dp).binding ∧
          ((dirNode s dp).binding (Bytes.str name DIRSIZ) ≠ none ∨
            ((∀ e ∈ (dirNode s dp).entries, e.inum ≠ 0) ∧
              ((s.inodes dp).size = Fs.MAXFILE * BSIZE ∨ t.disk.free = ∅))))) s) ∧
    (∀ name, Wp tableFull (removeEntry dp name) (fun r t =>
      (dirNode t dp).binding =
          Function.update (dirNode s dp).binding (Bytes.str name DIRSIZ) none ∧
        r = if (dirNode s dp).binding (Bytes.str name DIRSIZ) = none then -1 else 0) s) ∧
    (∀ name, Wp tableFull (dirlookup dp name) (fun r t => match r with
      | none => (dirNode s dp).binding (Bytes.str name DIRSIZ) = none
      | some (ip, off) =>
        (dirNode s dp).binding (Bytes.str name DIRSIZ) = some (t.inodes ip).inum ∧
          ∃ k, off = direntSize * k ∧ (dirNode s dp).entries[k]? =
            some ⟨(t.inodes ip).inum, Bytes.str name DIRSIZ⟩) s) := by
  have hs := h₀.reached h
  refine ⟨hs.names, fun name inum h1 hmax => (hs.dirlink name h1 hmax).mono fun r t ht => ht.2,
    fun name => (hs.removeEntry name).mono fun r t ht => ht.2,
    fun name => (hs.dirlookup name).mono fun r t ht => ?_⟩
  rcases r with - | ⟨ip, off⟩
  · exact Node.binding_eq_none.mpr ht.2
  · obtain ⟨k, j, hlookup, hoff, -, rfl⟩ := ht
    obtain ⟨e, he, hinum, -, hname⟩ := Node.lookup_eq_some hlookup
    refine ⟨by rw [Node.binding, hlookup]; rfl, k, hoff, ?_⟩
    rw [he, ← hinum, ← hname]

end Run

def smallDir : FsState where
  inodes ip :=
    { Dinode.zero with
      type := T_DIR, nlink := 1, dev := ROOTDEV, inum := ip + 1, ref := if ip = 0 then 1 else 0,
      valid := true, locked := true }
  disk := freshDisk
  ops := 0

def threeEntries : List DirCall :=
  [.dirlink dot 1, .dirlink dotdot 1, .dirlink (Bytes.ofList [97]) 5, .remove (Bytes.ofList [97])]

/-- After these calls an entry is made and another one removed. -/
theorem directory_is_map_small :
    letI := smallParam
    letI := smallDisk
    let s := afterAll (dirCall 0) threeEntries smallDir
    (∃ t, Ends (dirlink 0 (Bytes.ofList [98]) 7) s 0 t ∧
      (dirNode t 0).binding = Function.update (dirNode s 0).binding [98] (some 7)) ∧
    ∃ t, Ends (removeEntry 0 dotdot) s 0 t ∧
      (dirNode t 0).binding = Function.update (dirNode s 0).binding [46, 46] none := by
  let _ := smallParam
  let _ := smallDisk
  have h₀ : Directory freshDisk.used 0 smallDir := by
    refine ⟨rfl, by decide, ?_, rfl, ?_⟩
    · have hempty : Store.Empty Fs.shape ⟨only smallDir 0, freshDisk⟩ :=
        ⟨fun _ _ _ => rfl, formatted_freshDisk⟩
      exact Fs.empty_sound hempty fun _ => rfl
    · intro j k e e' he
      simp [Node.entries, dirNode, Fs.content, only, smallDir, Dinode.zero] at he
  obtain ⟨s, hs⟩ : ∃ s, afterAll (dirCall 0) threeEntries smallDir = s := ⟨_, rfl⟩
  have hall : allRun (dirCall 0) (fun _ c => c.Valid) threeEntries smallDir = true := by
    decide +kernel
  have hstart : Traced (dirCall 0) (fun _ c => c.Valid) (· = smallDir) [] smallDir := .init rfl
  have hrun : Reached (dirCall 0) (fun _ c => c.Valid) (· = smallDir) s := by
    rw [← hs]
    exact (hstart.calls hall).reached
  have hlink : answer (dirlink 0 (Bytes.ofList [98]) 7) s = some 0 := by
    rw [← hs]
    decide +kernel
  have hremove : answer (removeEntry 0 dotdot) s = some 0 := by
    rw [← hs]
    decide +kernel
  obtain ⟨-, hinsert, hclear, -⟩ := directory_is_map freshDisk.used 0 smallDir s h₀ hrun
  rw [hs]
  refine ⟨⟨_, ends_answer hlink, ?_⟩, _, ends_answer hremove, ?_⟩
  · obtain ⟨-, -, hb⟩ | ⟨hr, -⟩ := (hinsert (Bytes.ofList [98]) 7 (by decide) (by decide)).1 _ _
      (ends_answer hlink)
    · exact hb
    · cases hr
  · exact ((hclear dotdot).1 _ _ (ends_answer hremove)).1

end Xv6Sheet.Kernel
