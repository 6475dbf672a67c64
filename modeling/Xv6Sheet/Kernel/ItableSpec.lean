import Xv6Sheet.Kernel.View
import Xv6Sheet.Lib.Wp

/-! # What the operations on the inode table do

Each operation of `fs.c` on the inode table, specified by the view of the file system it
leaves. The faults a specification rules out are the panic of `ilock` on a free inode and the
deadlock on a lock that is held already.
-/

namespace Xv6Sheet.Kernel

open Exec

/-- The panic of `ilock` on an inode that is free on the disk. -/
def noType : Fault := .panic "ilock: no type"

/-- Faults that are permitted throughout: all but `noType` and deadlocks. -/
class Permits (E : Fault → Prop) : Prop where
  permits : ∀ e, e ≠ noType → e ≠ .deadlock → E e

instance : Permits (fun _ => True) := ⟨fun _ _ _ => trivial⟩

instance : Permits (· ≠ noType) := ⟨fun _ h _ => h⟩

instance : Permits (· ≠ .deadlock) := ⟨fun _ _ h => h⟩

instance : Permits (fun e => e ≠ noType ∧ e ≠ .deadlock) := ⟨fun _ h h' => ⟨h, h'⟩⟩

variable [sb : Superblock] [pm : Param] {base : Set ℕ} {T : Tree} {R : ℕ → ℤ} {L : ℕ → Bool}
  {s : FsState} {ip i : ℕ} {n : Node} {E : Fault → Prop} [hE : Permits E]

omit sb pm in
theorem permits_panic {msg : String} (h : msg ≠ "ilock: no type") : E (.panic msg) :=
  hE.permits _ (fun he => h (by simpa [noType] using he)) (by simp)

omit sb pm in
theorem permits_overread : E .overread := hE.permits _ (by simp [noType]) (by simp)

namespace View

omit hE in
theorem ops (h : View base T R L s) (k : ℤ) : View base T R L { s with ops := k } :=
  ⟨h.sound, h.tree_eq, h.ref_eq, h.lock_eq, h.nonneg, h.inTable, h.dev, h.unique, h.cached,
    h.held, h.bounded⟩

omit hE in
theorem idup (h : View base T R L s) (hr : 0 < R ip) :
    Wp E (idup ip) (fun r t => r = ip ∧ View base T (R + Pi.single ip 1) L t ∧ Keeps s t) s := by
  refine wp_bind.mpr (wp_modifyInode.mpr (wp_pure.mpr ⟨rfl, ?_, fun k _ _ => ?_⟩))
  · refine h.entry ip rfl (fun k hk => Function.update_of_ne hk ..)
      (fun k hk => by simp [hk]) (fun _ _ => rfl) ?_ ?_ ?_ (fun _ => ?_) fun hl => ?_
    all_goals simp only [Function.update_self, Pi.add_apply, Pi.single_eq_same]
    · rw [h.ref_eq]
    · exact h.lock_eq ip
    · omega
    · exact h.in_use hr ⟨rfl, rfl⟩ fun hv => h.cached ip hr hv
    · exact ⟨by omega, (h.held ip hl).2⟩
  · by_cases hk : k = ip
    · subst hk
      simp
    · simp [hk]

omit hE in
theorem igetStrict (h : View base T R L s) (i : ℕ)
    (hfull : (∀ k < Param.NINODE, R k ≠ 0) → E (.panic "iget: no inodes")) :
    Wp E (Kernel.iget ROOTDEV i) (fun r t => View base T (R + Pi.single r 1) L t ∧ Keeps s t ∧
      (t.inodes r).inum = i ∧ (R r = 0 → (t.inodes r).valid = false)) s := by
  refine wp_bind.mpr (wp_get.mpr ?_)
  split
  · rename_i r hr
    have hfound := List.find?_some hr
    simp only [decide_eq_true_eq] at hfound
    obtain ⟨href, -, hi⟩ := hfound
    rw [h.ref_eq] at href
    refine (h.idup href).mono fun r' t ⟨hr', ht, hk⟩ => ?_
    subst hr'
    have hin := hk r' (by rw [h.ref_eq]; exact href)
      (by rw [ht.ref_eq]; simp only [Pi.add_apply, Pi.single_eq_same]; omega)
    exact ⟨ht, hk, hin.1.trans hi, fun h0 => by omega⟩
  · rename_i hnone
    have hfree : ∀ k, 0 < R k → (s.inodes k).inum ≠ i := by
      intro k hk hi
      have hmem := List.find?_eq_none.mp hnone k (List.mem_range.mpr (h.inTable k hk))
      simp only [decide_eq_true_eq, not_and] at hmem
      exact hmem (by rw [h.ref_eq]; exact hk) (h.dev k hk) hi
    split
    · rename_i r hr
      have hr0 : R r = 0 := by simpa [h.ref_eq] using List.find?_some hr
      have hlt : r < Param.NINODE := List.mem_range.mp (List.mem_of_find?_eq_some hr)
      refine wp_bind.mpr (wp_modifyInode.mpr (wp_pure.mpr ⟨?_, fun k hk _ => ?_, ?_, ?_⟩))
      · refine h.entry r rfl (fun k hk => Function.update_of_ne hk ..)
          (fun k hk => by simp [hk]) (fun _ _ => rfl) ?_ ?_ ?_ (fun _ => ?_) fun hl => ?_
        all_goals simp only [Function.update_self, Pi.add_apply, Pi.single_eq_same, hr0]
        · rfl
        · exact h.lock_eq r
        · omega
        · exact ⟨hlt, trivial, fun k _ hk0 => hfree k hk0, fun hv => by simp at hv⟩
        · exact absurd (h.held r hl).1 (by omega)
      · have hk' : k ≠ r := by
          rintro rfl
          rw [h.ref_eq] at hk
          omega
        simp [hk']
      · simp
      · simp
    · rename_i hnone'
      refine wp_panicAt.mpr (hfull fun k hk hR => ?_)
      have hmem := List.find?_eq_none.mp hnone' k (List.mem_range.mpr hk)
      exact hmem (by simp [h.ref_eq, hR])

theorem iget (h : View base T R L s) (i : ℕ) :
    Wp E (Kernel.iget ROOTDEV i) (fun r t => View base T (R + Pi.single r 1) L t ∧ Keeps s t ∧
      (t.inodes r).inum = i ∧ (R r = 0 → (t.inodes r).valid = false)) s :=
  h.igetStrict i fun _ => permits_panic (by decide)

omit hE in
theorem ilock (h : View base T R L s) (hr : 0 < R ip)
    (hn : T (s.inodes ip).inum = none → E noType) (hd : L ip = true → E .deadlock) :
    Wp E (ilock ip) (fun _ t => View base T R (Function.update L ip true) t ∧ Keeps s t ∧
      L ip = false ∧ (t.inodes ip).valid = true) s := by
  refine wp_bind.mpr (wp_inode.mpr ?_)
  have hkeep : ∀ t : FsState, (∀ k, k ≠ ip → t.inodes k = s.inodes k) →
      (t.inodes ip).inum = (s.inodes ip).inum → (t.inodes ip).valid = true → Keeps s t := by
    intro t hne hinum hv k _ _
    by_cases hk : k = ip
    · rw [hk]
      exact ⟨hinum, fun _ => hv⟩
    · rw [hne k hk]
      exact ⟨rfl, id⟩
  rw [if_neg (by rw [h.ref_eq]; omega)]
  split
  · rename_i hlock
    exact wp_throw.mpr (hd (by rwa [← h.lock_eq]))
  rename_i hlock
  have hlock : L ip = false := by rw [← h.lock_eq]; simpa using hlock
  split
  · rename_i hv
    refine wp_modifyInode.mpr ⟨?_, hkeep _ (fun k hk => Function.update_of_ne hk ..) ?_ ?_,
      hlock, ?_⟩
    · refine h.entry ip rfl (fun k hk => Function.update_of_ne hk ..)
        (fun _ _ => rfl) (fun k hk => Function.update_of_ne hk ..) ?_ ?_ (h.nonneg ip)
        (fun _ => ?_) fun _ => ?_
      all_goals simp only [Function.update_self]
      · exact h.ref_eq ip
      · exact h.in_use hr ⟨rfl, rfl⟩ fun hv => h.cached ip hr hv
      · exact ⟨hr, hv⟩
    all_goals simp only [Function.update_self]
    all_goals exact hv
  · refine wp_bind.mpr (wp_get.mpr (wp_bind.mpr (wp_modifyInode.mpr ?_)))
    split
    · rename_i h0
      exact wp_panicAt.mpr (hn (by rw [← h.tree_eq]; exact tree_eq_none.mpr h0))
    · rename_i h0
      refine wp_pure.mpr ⟨?_, hkeep _ (fun k hk => Function.update_of_ne hk ..) ?_ ?_, hlock, ?_⟩
      · refine h.entry ip rfl (fun k hk => Function.update_of_ne hk ..)
          (fun _ _ => rfl) (fun k hk => Function.update_of_ne hk ..) ?_ ?_ (h.nonneg ip)
          (fun _ => ?_) fun _ => ?_
        all_goals simp only [Function.update_self]
        · exact h.ref_eq ip
        · exact ⟨h.inTable ip hr, h.dev ip hr, fun k hk hk0 => h.inum_ne hk0 hr hk,
            fun _ => ⟨trivial, h0⟩⟩
        · exact ⟨hr, trivial⟩
      all_goals simp only [Function.update_self]

omit hE in
theorem iunlock (h : View base T R L s) (hl : L ip = true) :
    Wp E (iunlock ip) (fun _ t => View base T R (Function.update L ip false) t ∧ Keeps s t) s := by
  refine wp_bind.mpr (wp_inode.mpr ?_)
  obtain ⟨hr, hv⟩ := h.held ip hl
  rw [if_neg (by rw [h.ref_eq, h.lock_eq, hl]; simp only [Bool.true_eq_false, false_or]; omega)]
  refine wp_modifyInode.mpr ⟨?_, fun k _ _ => ?_⟩
  · refine h.entry ip rfl (fun k hk => Function.update_of_ne hk ..)
      (fun _ _ => rfl) (fun k hk => Function.update_of_ne hk ..) ?_ ?_ (h.nonneg ip)
      (fun _ => ?_) fun hl => ?_
    all_goals simp only [Function.update_self]
    · exact h.ref_eq ip
    · exact h.in_use hr ⟨rfl, rfl⟩ fun hv => h.cached ip hr hv
    · simp at hl
  · by_cases hk : k = ip
    · subst hk
      simp
    · simp [hk]

omit pm hE in
theorem live_sound {d d' : Disk} {x : Inode}
    (hs : Fs.Sound base (Function.update (live d) i x) d')
    (hd : ∀ j, j ≠ i → d'.dinode j = d.dinode j)
    (ha : ∀ r ∈ Fs.shape.roots, (live d' i).addrs r = x.addrs r)
    (hsize : (live d' i).size = x.size) :
    Fs.Sound base (live d') d' ∧
      Fs.content (live d') d' = Fs.content (Function.update (live d) i x) d' := by
  have hlive : ∀ j, j ≠ i → live d' j = live d j := fun j hj => by rw [live, live, hd j hj]
  refine hs.congr (fun j r hr => ?_) (fun j => ?_) rfl
  · by_cases hj : j = i
    · subst hj
      rw [Function.update_self]
      exact ha r hr
    · rw [Function.update_of_ne hj, hlive j hj]
  · by_cases hj : j = i
    · subst hj
      rw [Function.update_self]
      exact hsize
    · rw [Function.update_of_ne hj, hlive j hj]

omit hE in
theorem readi (h : View base T R L s) (hl : L ip = true) (hn : T (s.inodes ip).inum = some n)
    (dst : Bytes) {off cnt : ℕ} (hoff : off < 2 ^ 32) (hcnt : cnt < 2 ^ 32) :
    Wp E (readi ip dst off cnt) (fun r t => t = s ∧
      r.1 = Fs.readable n.data.length off cnt ∧
      r.2 = dst.copy 0 (Bytes.ofList n.data) off (Fs.readable n.data.length off cnt)) s := by
  obtain ⟨hr, hv⟩ := h.held ip hl
  obtain ⟨hs, hc⟩ := h.inodesWith_sound hr hv
  obtain ⟨n', hn', -, -, -, -, hsize⟩ := h.node hr hv
  obtain rfl : n = n' := Option.some.inj (hn.symm.trans hn')
  have hdata : Fs.content (inodesWith s ip) s.disk (s.inodes ip).inum = n.data := by
    rw [hc]
    rw [← h.tree_eq] at hn
    exact (tree_eq_some hn).2.2.2.2.2
  obtain ⟨r, out, he, hres⟩ := Fs.readi_ends (hs.solid (s.inodes ip).inum) (fun _ => true) dst
    hoff hcnt
  rw [inodesWith_self] at he hres
  rw [hsize] at hres
  obtain ⟨rfl, rfl⟩ := hres.resolve_right (by simp)
  refine wp_onInode.mpr (.of_ends (he.bind (ends_pure.mpr ⟨rfl, rfl⟩)) ⟨?_, rfl, ?_⟩)
  · simp only [Function.update_eq_self]
  · rcases Nat.eq_zero_or_pos (Fs.readable n.data.length off cnt) with h0 | h0
    · rw [h0, Bytes.copy_zero, Bytes.copy_zero]
    · have hle := Fs.readable_le h0
      rw [Fs.copy_content dst (by rw [inodesWith_self, hsize]; exact hle), hdata]

omit hE in
theorem readDirentStrict (h : View base T R L s) (hl : L ip = true)
    (hn : T (s.inodes ip).inum = some n) {msg : String} {k : ℕ}
    (hmsg : n.data.length < direntSize * k + direntSize ∨ 2 ^ 32 ≤ direntSize * k + direntSize →
      E (.panic msg))
    (hk : direntSize * k < 2 ^ 32) :
    Wp E (Kernel.readDirent msg ip (direntSize * k)) (fun de t => t = s ∧
      n.entries[k]? = some (.ofBytes de 0)) s := by
  refine wp_bind.mpr ((h.readi hl hn _ hk (by decide)).mono fun r t ⟨ht, hr, hout⟩ => ?_)
  obtain ⟨r, out⟩ := r
  simp only at hr hout ⊢
  split
  · rename_i hshort
    refine wp_panicAt.mpr (hmsg ?_)
    by_contra hfull
    refine hshort ?_
    rw [hr]
    unfold Fs.readable
    split <;> simp only [direntSize] at * <;> omega
  rename_i hfull
  have hlen : Fs.readable n.data.length (direntSize * k) direntSize = direntSize := by
    rw [not_not, hr] at hfull
    exact_mod_cast hfull
  have hle := Fs.readable_le (by rw [hlen]; decide : 0 < Fs.readable _ (direntSize * k) direntSize)
  rw [hlen] at hle hout
  refine wp_pure.mpr ⟨ht, ?_⟩
  rw [Node.entries_getElem?, if_pos (by simp only [direntSize] at *; omega), hout]
  refine congrArg some (Entry.ofBytes_congr fun j hj => ?_)
  rw [Bytes.copy_of_mem (by omega)]
  congr 1
  omega

omit hE in
theorem readDirent (h : View base T R L s) (hl : L ip = true)
    (hn : T (s.inodes ip).inum = some n) {msg : String} (hmsg : E (.panic msg)) {k : ℕ}
    (hk : direntSize * k < 2 ^ 32) :
    Wp E (Kernel.readDirent msg ip (direntSize * k)) (fun de t => t = s ∧
      n.entries[k]? = some (.ofBytes de 0)) s :=
  h.readDirentStrict hl hn (fun _ => hmsg) hk

omit hE in
theorem stored (h : View base T R L s) (hr : 0 < R ip) (hv : (s.inodes ip).valid = true)
    (hn : T (s.inodes ip).inum = some n) {x : Inode} {d' : Disk} {data : List UInt8}
    (hx : ∃ z a, x = { s.inodes ip with size := z, addrs := a })
    (hs : Fs.Sound base (Function.update (inodesWith s ip) (s.inodes ip).inum x) d')
    (hc : Fs.content (Function.update (inodesWith s ip) (s.inodes ip).inum x) d' =
      Function.update (Fs.content (inodesWith s ip) s.disk) (s.inodes ip).inum data)
    (hd : d'.dinodes = (s.disk.setDinode x.inum x.toDinode).dinodes) :
    View base (Function.update T (s.inodes ip).inum (some { n with data := data })) R L
        { s with inodes := Function.update s.inodes ip x, disk := d' } ∧
      Keeps s { s with inodes := Function.update s.inodes ip x, disk := d' } := by
  obtain ⟨z, a, hxe⟩ := hx
  have hinum : x.inum = (s.inodes ip).inum := by rw [hxe]
  obtain ⟨hcached, h0⟩ := h.cached ip hr hv
  have hx0 : x.type ≠ 0 := by rw [hxe]; exact h0
  have hdin : ∀ j, d'.dinode j =
      if j = (s.inodes ip).inum then x.toDinode else s.disk.dinode j := by
    intro j
    have he : d'.dinode j = (s.disk.setDinode x.inum x.toDinode).dinode j := by
      simp only [Disk.dinode, hd]
    rw [he, Disk.dinode_setDinode, hinum]
  have hwith : Function.update (inodesWith s ip) (s.inodes ip).inum x =
      Function.update (live s.disk) (s.inodes ip).inum x := by
    rw [inodesWith, Function.update_idem]
  have hlive : (live d' (s.inodes ip).inum).toDinode = x.toDinode :=
    live_of_type (by rw [hdin, if_pos rfl]) hx0
  rw [hwith] at hs hc
  obtain ⟨hs', hc'⟩ := live_sound hs (fun j hj => by rw [hdin, if_neg hj])
    (fun r _ => by rw [hlive]) (by rw [hlive])
  rw [hc, (h.inodesWith_sound hr hv).2] at hc'
  have hnode : nodeOf x.toDinode data = some { n with data := data } := by
    obtain ⟨n', hn', htype, hmajor, hminor, hnlink, -⟩ := h.node hr hv
    obtain rfl : n = n' := Option.some.inj (hn.symm.trans hn')
    rw [nodeOf, if_neg hx0, hxe]
    simp only [htype, hmajor, hminor, hnlink]
  have hother : ∀ k, k ≠ ip → Function.update s.inodes ip x k = s.inodes k :=
    fun k hk => Function.update_of_ne hk ..
  refine ⟨?_, fun k _ _ => ?_⟩
  · rw [← hnode]
    refine h.store ip hdin hs' hc' rfl hr (h.bounded _ n hn) hother ?_ ?_ ?_
    · simp [hxe]
    · simp [hxe, h0]
    · simp [hxe, hv]
  · by_cases hk : k = ip
    · subst hk
      simp [hxe]
    · simp [hother k hk]

omit hE in
/-- A write to an inode in use overlays the bytes it wrote: all of them where there was
content, and all or none within one block. -/
theorem writei (h : View base T R L s) (hl : L ip = true) (hn : T (s.inodes ip).inum = some n)
    (src : Bytes) {off cnt : ℕ} (hoff : off ≤ n.data.length) (hcnt : cnt < 2 ^ 31) :
    Wp E (writei ip src off cnt) (fun r t => (r = -1 ∧ t = s ∧ n.data.length < off + cnt) ∨
      ∃ tot : ℕ, r = tot ∧ tot ≤ cnt ∧ View base (Function.update T (s.inodes ip).inum
          (some { n with data := Bytes.overlay n.data off (src.toList tot) })) R L t ∧
        Keeps s t ∧ (off + cnt ≤ n.data.length → tot = cnt) ∧
        (off % BSIZE + cnt ≤ BSIZE → tot = 0 ∨ tot = cnt)) s := by
  obtain ⟨hr, hv⟩ := h.held ip hl
  obtain ⟨hs, hc⟩ := h.inodesWith_sound hr hv
  obtain ⟨n', hn', -, -, -, -, hsize⟩ := h.node hr hv
  obtain rfl : n = n' := Option.some.inj (hn.symm.trans hn')
  have hdata : Fs.content (inodesWith s ip) s.disk (s.inodes ip).inum = n.data := by
    rw [hc]
    rw [← h.tree_eq] at hn
    exact (tree_eq_some hn).2.2.2.2.2
  have hsolid := hs.solid (s.inodes ip).inum
  have hself := inodesWith_self s ip
  have hmax := Fs.maxfile_lt
  have hle := hsolid.size_le
  rw [hself, hsize] at hle
  by_cases hfit : off + cnt ≤ Fs.MAXFILE * BSIZE
  · obtain ⟨tot, x, d', he, htot, hw, hshort⟩ := Fs.writei_ends hs.forest (fun _ => true) src
      (by rw [hself, hsize]; exact hoff) hfit
    obtain ⟨hs', hc'⟩ := hs.wrote (by rw [hself, hsize]; exact hoff) (by omega) hw
    obtain ⟨a, hx⟩ := hw.inode
    have hd := hw.dinodes
    rw [Function.update_self] at hx hd
    rw [hself] at he hx
    rw [hdata] at hc'
    obtain ⟨hview, hkeep⟩ := h.stored hr hv hn ⟨_, a, hx⟩ hs' hc' hd
    refine wp_onInode.mpr (.of_ends he (Or.inr ⟨tot, rfl, htot, hview, hkeep, fun hin => ?_,
      fun hblock => ?_⟩))
    · by_contra hne
      have hlt : tot < cnt := by omega
      rcases hshort hlt with hok | ⟨hmap, -⟩
      · simp at hok
      · exact hmap (hsolid.mapped (off + tot) (by rw [hself, hsize]; omega))
    · have hwhole := Fs.writei_whole hblock he
      omega
  · have he : Ends (Fs.writei (inodesWith s ip (s.inodes ip).inum)
      (fun _ => true) src off cnt) s.disk
        (-1, inodesWith s ip (s.inodes ip).inum) s.disk :=
      Fs.writei_refuses (fun _ => true) src (by omega) (by omega) (Or.inr (Or.inr (by omega)))
    rw [hself] at he
    refine wp_onInode.mpr (.of_ends he (Or.inl ⟨rfl, ?_, by omega⟩))
    simp only [Function.update_eq_self]

omit hE in
theorem itrunc (h : View base T R L s) (hl : L ip = true) (hn : T (s.inodes ip).inum = some n) :
    Wp E (itrunc ip) (fun _ t =>
      View base (Function.update T (s.inodes ip).inum (some { n with data := [] })) R L t ∧
        Keeps s t) s := by
  obtain ⟨hr, hv⟩ := h.held ip hl
  obtain ⟨hs, hc⟩ := h.inodesWith_sound hr hv
  obtain ⟨x, d', he, ht⟩ := Fs.itrunc_ends hs.forest (s.inodes ip).inum
  obtain ⟨hs', hc'⟩ := Fs.truncates_sound hs ht
  obtain ⟨a, hx⟩ := ht.inode
  rw [inodesWith_self] at he hx
  exact wp_onInode.mpr (.of_ends (he.bind (ends_pure.mpr ⟨rfl, rfl⟩))
    (h.stored hr hv hn ⟨0, a, hx⟩ hs' hc' ht.dinodes))

omit hE in
theorem setFields (h : View base T R L s) (hl : L ip = true)
    (hn : T (s.inodes ip).inum = some n) (g : Inode → Inode) (n' : Node)
    (hg : g (s.inodes ip) =
      { s.inodes ip with major := n'.major, minor := n'.minor, nlink := n'.nlink })
    (hn' : n' = { n with major := n'.major, minor := n'.minor, nlink := n'.nlink }) :
    Wp E (do
      modifyInode ip g
      iupdate ip) (fun _ t =>
        View base (Function.update T (s.inodes ip).inum (some n')) R L t ∧ Keeps s t) s := by
  obtain ⟨hr, hv⟩ := h.held ip hl
  obtain ⟨hcached, h0⟩ := h.cached ip hr hv
  refine wp_bind.mpr (wp_modifyInode.mpr (wp_onInode.mpr (wp_bind.mpr (wp_modify.mpr
    (wp_pure.mpr ?_)))))
  simp only [Function.update_self, Function.update_idem]
  obtain ⟨x, hx⟩ : ∃ x, x = g (s.inodes ip) := ⟨_, rfl⟩
  rw [← hx]
  rw [hg] at hx
  obtain ⟨d', hd'⟩ : ∃ d', d' = s.disk.setDinode (s.inodes ip).inum x.toDinode := ⟨_, rfl⟩
  have hinum : x.inum = (s.inodes ip).inum := by rw [hx]
  have hx0 : x.type ≠ 0 := by rw [hx]; exact h0
  have hdin : ∀ j, d'.dinode j =
      if j = (s.inodes ip).inum then x.toDinode else s.disk.dinode j := fun j => by
    rw [hd', Disk.dinode_setDinode]
  -- the blocks and the size are as before
  have hsame : ∀ j, (live d' j).addrs = (live s.disk j).addrs ∧
      (live d' j).size = (live s.disk j).size := by
    intro j
    by_cases hj : j = (s.inodes ip).inum
    · subst hj
      have hnew : (live d' (s.inodes ip).inum).toDinode = x.toDinode :=
        live_of_type (by rw [hdin, if_pos rfl]) hx0
      have hold : (live s.disk (s.inodes ip).inum).toDinode = (s.inodes ip).toDinode :=
        live_of_type hcached.symm h0
      rw [hnew, hold, hx]
      exact ⟨rfl, rfl⟩
    · rw [live, live, hdin, if_neg hj]
      exact ⟨rfl, rfl⟩
  obtain ⟨hs, hc⟩ : Fs.Sound base (live d') d' ∧
      Fs.content (live d') d' = Fs.content (live s.disk) s.disk :=
    h.sound.congr (fun j r _ => by rw [(hsame j).1]) (fun j => (hsame j).2) (by rw [hd']; rfl)
  have hdata : Fs.content (live s.disk) s.disk (s.inodes ip).inum = n.data := by
    rw [← h.tree_eq] at hn
    exact (tree_eq_some hn).2.2.2.2.2
  have hnode : nodeOf x.toDinode n.data = some n' := by
    obtain ⟨m, hm, htype, -⟩ := h.node hr hv
    obtain rfl : n = m := Option.some.inj (hn.symm.trans hm)
    rw [nodeOf, if_neg hx0, hn', hx]
    simp only [htype]
  have hother : ∀ k, k ≠ ip → Function.update s.inodes ip x k = s.inodes k :=
    fun k hk => Function.update_of_ne hk ..
  rw [← hnode, ← hdata, hinum, ← hd']
  refine ⟨h.store ip hdin hs ?_ rfl hr (h.bounded _ n hn) hother ?_ ?_ ?_, fun k _ _ => ?_⟩
  · rw [hc, Function.update_eq_self]
  · simp [hx]
  · simp [hx, h0]
  · simp [hx, hv]
  · by_cases hk : k = ip
    · subst hk
      simp [hx]
    · simp [hother k hk]

omit hE in
theorem ifree (h : View base T R L s) (hr : 0 < R ip) (hv : (s.inodes ip).valid = true)
    (hl : L ip = false) : Wp E (ifree ip) (fun _ t =>
      View base (Function.update T (s.inodes ip).inum none) R L t ∧
        (∀ k, k ≠ ip → t.inodes k = s.inodes k)) s := by
  obtain ⟨hs, hc⟩ := h.inodesWith_sound hr hv
  obtain ⟨n, hn, -⟩ := h.node hr hv
  obtain ⟨x, d₁, he, ht⟩ := Fs.itrunc_ends hs.forest (s.inodes ip).inum
  obtain ⟨hs₁, hc₁⟩ := Fs.truncates_sound hs ht
  obtain ⟨a, hx⟩ := ht.inode
  have hroots := ht.roots
  have hdin₁ := ht.dinodes
  rw [inodesWith_self] at he hx
  have hinum : x.inum = (s.inodes ip).inum := by rw [hx]
  refine wp_bind.mpr (wp_onInode.mpr (.of_ends (he.bind (ends_pure.mpr ⟨rfl, rfl⟩)) ?_))
  refine wp_bind.mpr (wp_modifyInode.mpr (wp_bind.mpr (wp_onInode.mpr (wp_bind.mpr
    (wp_modify.mpr (wp_pure.mpr (wp_modifyInode.mpr ?_)))))))
  simp only [Function.update_self, Function.update_idem]
  rw [hinum]
  obtain ⟨dip, hdip⟩ : ∃ dip, dip = { x.toDinode with type := 0 } := ⟨_, rfl⟩
  obtain ⟨d', hd'⟩ : ∃ d', d' = d₁.setDinode (s.inodes ip).inum dip := ⟨_, rfl⟩
  rw [← hdip, ← hd']
  have hdin : ∀ j, d'.dinode j = if j = (s.inodes ip).inum then dip else s.disk.dinode j := by
    intro j
    have h₁ : d₁.dinode j = (s.disk.setDinode x.inum x.toDinode).dinode j := by
      simp only [Disk.dinode, hdin₁]
    rw [hd', Disk.dinode_setDinode, h₁, Disk.dinode_setDinode, hinum]
    split <;> rfl
  have hlive : live d' (s.inodes ip).inum = { Dinode.zero with
      dev := ROOTDEV, inum := (s.inodes ip).inum, ref := 0, valid := true, locked := false } := by
    rw [live, hdin, if_pos rfl, if_pos (by rw [hdip])]
  have hwith : Function.update (inodesWith s ip) (s.inodes ip).inum x =
      Function.update (live s.disk) (s.inodes ip).inum x := by
    rw [inodesWith, Function.update_idem]
  rw [hwith] at hs₁ hc₁
  have hsame : Fs.Sound base (Function.update (live s.disk) (s.inodes ip).inum x) d' ∧
      Fs.content (Function.update (live s.disk) (s.inodes ip).inum x) d' =
        Fs.content (Function.update (live s.disk) (s.inodes ip).inum x) d₁ :=
    hs₁.congr (fun _ _ _ => rfl) (fun _ => rfl) (by rw [hd']; rfl)
  obtain ⟨hs', hc'⟩ := live_sound hsame.1 (fun j hj => by rw [hdin, if_neg hj])
    (fun r hr => by rw [hlive, hroots r hr]; rfl) (by rw [hlive, hx]; rfl)
  rw [hsame.2, hc₁, hc] at hc'
  have hother : ∀ (y : Inode) k, k ≠ ip → Function.update s.inodes ip y k = s.inodes k :=
    fun y k hk => Function.update_of_ne hk ..
  have hnode : nodeOf dip [] = none := by rw [nodeOf, if_pos (by rw [hdip])]
  refine ⟨?_, hother _⟩
  rw [← hnode]
  refine h.store ip hdin hs' hc' rfl hr (h.bounded _ n hn) (hother _) ?_ ?_ ?_
  · simp [hx]
  · simp
  · simp [hl]

omit hE in
/-- Dropping a reference frees the inode when it was the last one and nothing links to it. -/
theorem iput (h : View base T R L s) (ip : ℕ) (hr : 0 < R ip) (hl : R ip = 1 → L ip = false) :
    Wp E (iput ip) (fun _ t => View base
      (if (s.inodes ip).valid = true then T.put (s.inodes ip).inum (R ip) else T)
      (R - Pi.single ip 1) L t ∧ Keeps s t) s := by
  have hdrop : ∀ {T' : Tree} {t : FsState}, View base T' R L t →
      (∀ k, k ≠ ip → t.inodes k = s.inodes k) → (0 < (R - Pi.single ip 1 : ℕ → ℤ) ip →
        t.inodes ip = s.inodes ip) → Wp E (modifyInode ip fun i => { i with ref := i.ref - 1 })
      (fun _ u => View base T' (R - Pi.single ip 1) L u ∧ Keeps s u) t := by
    intro T' t ht hother hip
    have hRip : (R - Pi.single ip 1 : ℕ → ℤ) ip = R ip - 1 := by simp
    refine wp_modifyInode.mpr ⟨?_, fun k hk hk' => ?_⟩
    · refine ht.entry ip rfl (fun k hk => Function.update_of_ne hk ..)
        (fun k hk => by simp [hk]) (fun _ _ => rfl) ?_ ?_ ?_ (fun h0 => ?_) fun hl' => ?_
      · simp [ht.ref_eq]
      · simp [ht.lock_eq]
      · omega
      · simp only [Function.update_self]
        exact ht.in_use hr ⟨rfl, rfl⟩ fun hv => ht.cached ip hr hv
      · have h1 : R ip ≠ 1 := fun h1 => by simp [hl h1] at hl'
        simp only [Function.update_self]
        exact ⟨by omega, (ht.held ip hl').2⟩
    · by_cases hkip : k = ip
      · subst hkip
        simp only [Function.update_self, ht.ref_eq] at hk' ⊢
        rw [hip (by omega)]
        exact ⟨rfl, id⟩
      · simp [hkip, hother k hkip]
  refine wp_bind.mpr (wp_inode.mpr ?_)
  rw [h.ref_eq, h.lock_eq]
  have htree : (if (s.inodes ip).valid = true then T.put (s.inodes ip).inum (R ip) else T) =
      if R ip = 1 ∧ (s.inodes ip).valid = true ∧ (s.inodes ip).nlink = 0 then
        Function.update T (s.inodes ip).inum none else T := by
    cases hv : (s.inodes ip).valid with
    | false => simp
    | true =>
      obtain ⟨n, hn, -, -, -, hnlink, -⟩ := h.node hr hv
      simp [Tree.put, hn, hnlink]
  rw [htree]
  split
  · rename_i hfree
    rw [if_neg (by simp [hl hfree.1])]
    refine wp_bind.mpr ((h.ifree hr hfree.2.1 (hl hfree.1)).mono fun _ t ⟨ht, hother⟩ => ?_)
    exact hdrop ht hother fun h0 => by
      simp only [Pi.sub_apply, Pi.single_eq_same] at h0
      omega
  · exact hdrop h (fun _ _ => rfl) fun _ => rfl

omit hE in
theorem iunlockput (h : View base T R L s) (hl : L ip = true) :
    Wp E (iunlockput ip) (fun _ t => View base (T.put (s.inodes ip).inum (R ip))
      (R - Pi.single ip 1) (Function.update L ip false) t ∧ Keeps s t) s := by
  obtain ⟨hr, hv⟩ := h.held ip hl
  refine wp_bind.mpr ((h.iunlock hl).mono fun _ t ⟨ht, hk⟩ => ?_)
  obtain ⟨hinum, hv'⟩ := hk ip (by rw [h.ref_eq]; exact hr) (by rw [ht.ref_eq]; exact hr)
  refine (ht.iput ip hr fun _ => Function.update_self ..).mono fun _ u ⟨hu, hk'⟩ => ?_
  rw [if_pos (hv' hv), hinum] at hu
  refine ⟨hu, hk.trans hk' fun k hs _ => ?_⟩
  rw [ht.ref_eq]
  rwa [h.ref_eq] at hs

omit hE in
theorem iallocStrict (h : View base T R L s) {type : ℤ} (htype : type ≠ 0)
    (hfree : ∀ k, 0 < R k → T (s.inodes k).inum ≠ none)
    (hfull : (∀ k < Param.NINODE, R k ≠ 0) → E (.panic "iget: no inodes")) :
    Wp E (Kernel.ialloc ROOTDEV type) (fun r t => match r with
      | none => t = s
      | some ip => ∃ i, T i = none ∧ 0 < i ∧ i < sb.ninodes ∧ R ip = 0 ∧
        (t.inodes ip).inum = i ∧ Keeps s t ∧
        View base (Function.update T i (some ⟨type, 0, 0, 0, []⟩)) (R + Pi.single ip 1) L t) s := by
  refine Wp.search (I := fun _ t => t = s) rfl (fun i t hi hi' ht => ?_) fun t ht => ht
  subst ht
  refine wp_bind.mpr (wp_get.mpr ?_)
  split
  swap
  · exact wp_pure.mpr rfl
  rename_i h0
  have hn : T i = none := by rw [← h.tree_eq]; exact tree_eq_none.mpr h0
  refine wp_bind.mpr (wp_set.mpr (wp_bind.mpr ?_))
  obtain ⟨dip, hdip⟩ : ∃ dip, dip = { Dinode.zero with type := type } := ⟨_, rfl⟩
  obtain ⟨d', hd'⟩ : ∃ d', d' = t.disk.setDinode i dip := ⟨_, rfl⟩
  rw [← hdip, ← hd']
  have hdin : ∀ j, d'.dinode j = if j = i then dip else t.disk.dinode j := fun j => by
    rw [hd', Disk.dinode_setDinode]
  have hold : (live t.disk i).toDinode = Dinode.zero := by rw [live, if_pos h0]
  have hnew : (live d' i).toDinode = dip :=
    live_of_type (by rw [hdin, if_pos rfl]) (by rw [hdip]; exact htype)
  have hsame : ∀ j, (live d' j).addrs = (live t.disk j).addrs ∧
      (live d' j).size = (live t.disk j).size := by
    intro j
    by_cases hj : j = i
    · subst hj
      rw [hnew, hold, hdip]
      exact ⟨rfl, rfl⟩
    · rw [live, live, hdin, if_neg hj]
      exact ⟨rfl, rfl⟩
  obtain ⟨hs, hc⟩ : Fs.Sound base (live d') d' ∧
      Fs.content (live d') d' = Fs.content (live t.disk) t.disk :=
    h.sound.congr (fun j r _ => by rw [(hsame j).1]) (fun j => (hsame j).2) (by rw [hd']; rfl)
  have hdata : Fs.content (live d') d' i = [] := by
    rw [hc, Fs.content, hold]
    rfl
  have hnode : nodeOf dip [] = some ⟨type, 0, 0, 0, []⟩ := by
    rw [nodeOf, if_neg (by rw [hdip]; exact htype), hdip]
    rfl
  have hne : ∀ k, 0 < R k → (t.inodes k).inum ≠ i := fun k hk hki => hfree k hk (hki ▸ hn)
  have hu : View base (Function.update T i (some ⟨type, 0, 0, 0, []⟩)) R L
      { t with disk := d' } := by
    refine ⟨hs, ?_, h.ref_eq, h.lock_eq, h.nonneg, h.inTable, h.dev, h.unique, fun k hk hv => ?_,
      h.held, fun j m hj => ?_⟩
    · rw [tree_update hdin fun j _ => by rw [hc], hdata, hnode, h.tree_eq]
    · simp only [hdin, if_neg (hne k hk)]
      exact h.cached k hk hv
    · by_cases hji : j = i
      · omega
      · rw [Function.update_of_ne hji] at hj
        exact h.bounded j m hj
  refine (hu.igetStrict i hfull).mono fun ip u h' => wp_pure.mpr ?_
  obtain ⟨hu', hk, hinum, -⟩ := h'
  have hkeep : Keeps t u := hk
  refine ⟨i, hn, by omega, by omega, ?_, hinum, hkeep, hu'⟩
  by_contra hR
  have hpos : 0 < R ip := by have := h.nonneg ip; omega
  refine hne ip hpos ((hkeep ip (by rw [h.ref_eq]; exact hpos) ?_).1.symm.trans hinum)
  rw [hu'.ref_eq, Pi.add_apply, Pi.single_eq_same]
  omega

theorem ialloc (h : View base T R L s) {type : ℤ} (htype : type ≠ 0)
    (hfree : ∀ k, 0 < R k → T (s.inodes k).inum ≠ none) :
    Wp E (ialloc ROOTDEV type) (fun r t => match r with
      | none => t = s
      | some ip => ∃ i, T i = none ∧ 0 < i ∧ i < sb.ninodes ∧ R ip = 0 ∧
        (t.inodes ip).inum = i ∧ Keeps s t ∧
        View base (Function.update T i (some ⟨type, 0, 0, 0, []⟩)) (R + Pi.single ip 1) L t) s :=
  h.iallocStrict htype hfree fun _ => permits_panic (by decide)

end View

end Xv6Sheet.Kernel
