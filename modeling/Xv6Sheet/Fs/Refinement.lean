import Xv6Sheet.Fs.Arrays

/-! # Files as arrays of bytes

Seen from outside, the inodes are arrays of bytes: a read copies a stretch of one, a write
overlays bytes on one, truncation empties one. Every run of `readi`, `writei` and `itrunc`
on inodes sharing a disk refines this.
-/

namespace Xv6Sheet.Fs

open Exec Store

variable [sb : Superblock] {ι : Type} {base : Set ℕ} {F F' : ι → Inode} {d d' : Disk} {i : ι}

omit sb in
theorem length_content : (content F d i).length = (F i).size := by simp [content]

omit sb in
theorem content_getElem? (k : ℕ) :
    (content F d i)[k]? = if k < (F i).size then some (byteAt F d i k) else none := by
  unfold content
  split
  · rename_i h; simp [h]
  · rename_i h; simpa using h

omit sb in
theorem content_congr (hs : (F' i).size = (F i).size)
    (hb : ∀ k < (F i).size, byteAt F' d' i k = byteAt F d i k) :
    content F' d' i = content F d i := by
  unfold content
  rw [hs]
  exact List.map_congr_left fun k hk => hb k (List.mem_range.mp hk)

omit sb in
theorem copy_content (dst : Bytes) {off m : ℕ} (h : off + m ≤ (F i).size) :
    dst.copy 0 (byteAt F d i) off m = dst.copy 0 (Bytes.ofList (content F d i)) off m := by
  funext k
  unfold Bytes.copy
  split
  · rename_i hk
    rw [Bytes.ofList, List.getD_eq_getElem?_getD, content_getElem?, if_pos (by omega),
      Option.getD_some]
  · rfl

omit sb in
theorem readable_le {size off n : ℕ} (h : 0 < readable size off n) :
    off + readable size off n ≤ size := by
  unfold readable at *
  split at h
  · omega
  · rename_i hc
    rw [if_neg hc]
    omega

omit sb in
theorem copy_readable (dst : Bytes) (off n : ℕ) :
    dst.copy 0 (byteAt F d i) off (readable (F i).size off n) =
      dst.copy 0 (Bytes.ofList (content F d i)) off (readable (F i).size off n) := by
  rcases Nat.eq_zero_or_pos (readable (F i).size off n) with h0 | h0
  · rw [h0, Bytes.copy_zero, Bytes.copy_zero]
  · exact copy_content dst (readable_le h0)

theorem mapping_bytes {k : ℕ} {x : UInt8} : mapping.bytes F d i k = some x ↔
    k < MAXFILE * BSIZE ∧ Mapped F d i k ∧ byteAt F d i k = x := by
  rw [Mapping.bytes_eq_some]
  refine and_congr_left' ⟨fun h => ?_, div_lt_maxfile⟩
  have h : k / BSIZE < MAXFILE := h
  simp only [BSIZE] at *
  omega

theorem Solid.shows (h : Solid F d i) : Bytes.Shows (mapping.bytes F d i) (content F d i) := by
  intro k hk
  rw [length_content] at hk
  rw [content_getElem?, if_pos hk]
  exact mapping_bytes.mpr ⟨Nat.lt_of_lt_of_le hk h.size_le, h.mapped k hk, rfl⟩

/-- `readi` copies the content from `off` on, or fails with the copy; it changes neither
the inode nor the disk. -/
theorem readi_ends (h : Solid F d i) (ok : ℕ → Bool) (dst : Bytes) {off n : ℕ}
    (hoff : off < 2 ^ 32) (hn : n < 2 ^ 32) :
    ∃ r out, Ends (readi (F i) ok dst off n) d (r, out, F i) d ∧
      ((r = readable (F i).size off n ∧
          out = dst.copy 0 (byteAt F d i) off (readable (F i).size off n)) ∨
        (r = -1 ∧ ∃ k < readable (F i).size off n, ok k = false ∧
          out = dst.copy 0 (byteAt F d i) off k)) := by
  obtain ⟨r, out, he, hres⟩ := mapping_lawful.readi_ends h.shows length_content.symm
    (length_content.trans_le h.size_le) ok dst hoff hn
  rw [mapping_readi] at he
  rw [length_content] at hres
  refine ⟨r, out, he, hres.imp ?_ ?_⟩
  · rintro ⟨hr, rfl⟩
    exact ⟨hr, (copy_readable dst off n).symm⟩
  · rintro ⟨hr, k, hk, hok, rfl⟩
    have hle := readable_le (Nat.zero_lt_of_lt hk)
    exact ⟨hr, k, hk, hok, (copy_content dst (by omega)).symm⟩

/-- `writei` refuses a stretch that starts beyond the end, wraps or ends beyond the largest
file. -/
theorem writei_refuses (ok : ℕ → Bool) (src : Bytes) {off n : ℕ} (hoff : off < 2 ^ 32)
    (hn : n < 2 ^ 32)
    (hr : (F i).size < off ∨ 2 ^ 32 ≤ off + n ∨ MAXFILE * BSIZE < off + n) :
    Ends (writei (F i) ok src off n) d (-1, F i) d := by
  rw [← mapping_writei]
  exact mapping_lawful.writei_refuses ok src hoff hn hr

/-- `writei` writes the first `tot` bytes; it writes all of them unless a copy fails or
the disk is full. -/
theorem writei_ends [DecidableEq ι] (h : Forest shape base F d) (ok : ℕ → Bool) (src : Bytes)
    {off n : ℕ} (hoff : off ≤ (F i).size) (hmax : off + n ≤ MAXFILE * BSIZE) :
    ∃ (tot : ℕ) (ip : Inode) (d' : Disk),
      Ends (writei (F i) ok src off n) d (tot, ip) d' ∧ tot ≤ n ∧
      mapping.Writes base i off src tot F (Function.update F i ip) d d' ∧
      (tot < n → ok tot = false ∨ (¬ Mapped F d i (off + tot) ∧ d'.free = ∅)) := by
  obtain ⟨tot, ip, d', he, htot, hw, hshort⟩ := mapping_lawful.writei_ends h ok src hoff hmax
  rw [mapping_writei] at he
  refine ⟨tot, ip, d', he, htot, hw, fun hlt => ?_⟩
  refine (hshort hlt).imp_right fun ⟨hnone, hfree⟩ => ⟨fun hm => ?_, hfree⟩
  have hsome := mapping_bytes.mpr ⟨by omega, hm, rfl⟩
  rw [hnone] at hsome
  cases hsome

/-- What every reached state satisfies: the blocks are owned and no inode has holes. -/
structure Sound (base : Set ℕ) (F : ι → Inode) (d : Disk) : Prop where
  forest : Forest shape base F d
  solid : ∀ i, Solid F d i

/-- Soundness and content depend on the sizes, the root addresses and the blocks only. -/
theorem Sound.congr (h : Sound base F d)
    (ha : ∀ j, ∀ r ∈ shape.roots, (F' j).addrs r = (F j).addrs r)
    (hs : ∀ j, (F' j).size = (F j).size) (hd : d'.block = d.block) :
    Sound base F' d' ∧ content F' d' = content F d := by
  have hptr : ∀ x, shape.Valid x → ptrAt F' d' x = ptrAt F d x := by
    intro x hx
    have he : d'.entry = d.entry := by funext b k; rw [Disk.entry, hd, Disk.entry]
    show walk d'.entry ((F' x.1).addrs x.2.1) x.2.2 = walk d.entry ((F x.1).addrs x.2.1) x.2.2
    rw [he, ha x.1 x.2.1 hx.1]
  have hu : d'.used = d.used := by
    ext b
    simp only [Disk.used, Disk.Marked, hd]
  have hpos : ∀ j, ∀ k < (F j).size, ptrAt F' d' (j, position (k / BSIZE)) =
      ptrAt F d (j, position (k / BSIZE)) := fun j k hk =>
    hptr _ (position_valid j (div_lt_maxfile (Nat.lt_of_lt_of_le hk (h.solid j).size_le)))
  refine ⟨⟨⟨h.forest.meta_base, hu ▸ h.forest.owned.congr hptr⟩, fun j => ⟨?_, fun k hk => ?_⟩⟩,
    funext fun j => content_congr (hs j) fun k hk => ?_⟩
  · rw [hs]
    exact (h.solid j).size_le
  · rw [hs] at hk
    rw [Mapped, hpos j k hk]
    exact (h.solid j).mapped k hk
  · rw [byteAt, hpos j k hk, hd, byteAt]

variable [DecidableEq ι] {s s₀ t : Store ι}

omit [DecidableEq ι] in
theorem Sound.holds (h : Sound base F d) : mapping.Holds base F d (content F d) :=
  ⟨h.forest, fun i => ⟨length_content.symm, (h.solid i).shows,
    length_content.trans_le (h.solid i).size_le⟩⟩

omit [DecidableEq ι] in
theorem sound_of_holds {f : ι → List UInt8} (h : mapping.Holds base F d f) :
    Sound base F d ∧ content F d = f := by
  have hbyte : ∀ i k (hk : k < (f i).length), Mapped F d i k ∧ byteAt F d i k = (f i)[k] :=
    fun i k hk => (mapping_bytes.mp (((h.file i).shows k hk).trans (List.getElem?_eq_getElem hk))).2
  refine ⟨⟨h.forest, fun i => ⟨?_, fun k hk => (hbyte i k ?_).1⟩⟩, funext fun i => ?_⟩
  · rw [(h.file i).size]
    exact (h.file i).length_le
  · rwa [← (h.file i).size]
  · refine List.ext_getElem (length_content.trans (h.file i).size) fun k hk hk' => ?_
    simp [content, (hbyte i k hk').2]

theorem Sound.wrote {off tot : ℕ} {src : Bytes} (h : Sound base F d) (hoff : off ≤ (F i).size)
    (hmax : off + tot ≤ MAXFILE * BSIZE) (hw : mapping.Writes base i off src tot F F' d d') :
    Sound base F' d' ∧ content F' d' =
      Function.update (content F d) i (Bytes.overlay (content F d i) off (src.toList tot)) :=
  sound_of_holds (h.holds.wrote (by rwa [length_content]) hmax hw)

theorem truncates_sound {ip : Inode} (h : Sound base F d)
    (ht : Truncates shape base i F d ip d') :
    Sound base (Function.update F i ip) d' ∧
      content (Function.update F i ip) d' = Function.update (content F d) i [] :=
  sound_of_holds (h.holds.truncated mapping_lawful ht)

def call : Call ι → Exec (Store ι) Fault Answer
  | .readi i ok dst off n => onInode i fun ip => do
    let (r, out, ip) ← readi ip ok dst off.toNat n.toNat
    return ((r, some out), ip)
  | .writei i ok src off n => onInode i fun ip => do
    let (r, ip) ← writei ip ok src off.toNat n.toNat
    return ((r, none), ip)
  | .itrunc i => onInode i fun ip => do
    let ip ← itrunc ip
    return ((0, none), ip)

def contents (s : Store ι) : ι → List UInt8 := content s.inodes s.disk

theorem mapping_call : mapping.call (ι := ι) = call := by
  funext c
  cases c with
  | readi i ok dst off n => rw [Mapping.call, call, mapping_readi]
  | writei i ok src off n => rw [Mapping.call, call, mapping_writei]
  | itrunc i => rfl

theorem mapping_contents (h : Sound base s.inodes s.disk) : mapping.contents s = contents s :=
  h.holds.contents_eq

theorem call_sound (h : Sound base s.inodes s.disk) (c : Call ι) :
    ∃ a t, Ends (call c) s a t ∧ Sound base t.inodes t.disk := by
  obtain ⟨a, t, f, he, ht, -⟩ := h.holds.call_ends mapping_lawful c
  rw [mapping_call] at he
  exact ⟨a, t, he, (sound_of_holds ht).1⟩

theorem runs_sound {cs : List (Call ι)} (hr : Runs call s cs t)
    (h : Sound base s.inodes s.disk) : Sound base t.inodes t.disk :=
  hr.invariant (I := fun s => Sound base s.inodes s.disk) (P := fun _ => True)
    (fun s t c a h _ he => by
      obtain ⟨a', t', he', ht⟩ := call_sound h c
      obtain ⟨rfl, rfl⟩ := he.unique he'
      exact ht) (fun _ _ => trivial) h

omit [DecidableEq ι] in
theorem empty_sound (h₀ : s₀.Empty shape) (hs : ∀ i, (s₀.inodes i).size = 0) :
    Sound s₀.disk.used s₀.inodes s₀.disk :=
  ⟨h₀.forest, fun i => ⟨by rw [hs]; exact Nat.zero_le _,
    fun k hk => by rw [hs] at hk; exact absurd hk (Nat.not_lt_zero k)⟩⟩

/-- Over any run of `readi`, `writei` and `itrunc` calls from empty inodes, the next call ends
without a panic and does what it does on arrays of bytes, which started empty and have at most as
many bytes as the largest file. A write stops short only at a copy that fails or on a full disk. A
read and a call that is refused leave the disk and every inode as they were. -/
theorem content_refines (h₀ : s₀.Empty shape) (hs : ∀ i, (s₀.inodes i).size = 0)
    {cs : List (Call ι)} (h : Runs call s₀ cs s) :
    (∀ i, contents s₀ i = []) ∧ (∀ i, (contents s i).length ≤ MAXFILE * BSIZE) ∧
      ∀ c, ∃ a t, Ends (call c) s a t ∧
        Mapping.Serves (MAXFILE * BSIZE) (t.disk.free = ∅) c (contents s) a (contents t) ∧
        (∀ i ok dst off n, c = .readi i ok dst off n → t = s) ∧ (a.1 = -1 → t = s) := by
  have hempty := empty_sound h₀ hs
  have hsound := runs_sound h hempty
  rw [← mapping_call] at h
  obtain ⟨hnil, hlen, hcall⟩ := Mapping.files_refine mapping_lawful h₀ hs h
  rw [mapping_contents hempty] at hnil
  rw [mapping_contents hsound] at hlen hcall
  refine ⟨hnil, hlen, fun c => ?_⟩
  obtain ⟨a, t, he, hserves, hsame⟩ := hcall c
  rw [mapping_call] at he
  have ht : Sound s₀.disk.used t.inodes t.disk := runs_sound (.cons he (.nil t)) hsound
  rw [mapping_contents ht] at hserves
  exact ⟨a, t, he, hserves, hsame⟩

omit sb [DecidableEq ι] in
/-- Two files of the small disk, one written with a copy that fails half-way. -/
theorem content_refines_small :
    letI := smallDisk
    ∃ s t : Store Bool, ∃ a,
      Runs call (.small fun i => if i then 1 else 2)
        [.writei true (fun _ => true) (fun k => .ofNat k) 0 1500,
          .writei false (fun k => k < 1000) (fun _ => 7) 0 3000] s ∧
      Ends (call (.readi true (fun _ => true) (fun _ => 0) 700 5)) s a t ∧ t = s := by
  let _ := smallDisk
  have h₀ := Store.empty_small (fun i : Bool => if i then 1 else 2) shape
  obtain ⟨s, hs, -⟩ := Runs.exists_run (κ := Call Bool)
    (I := fun s : Store Bool => Sound freshDisk.used s.inodes s.disk)
    (fun s c h => call_sound h c) (empty_sound h₀ fun _ => rfl)
    [.writei true (fun _ => true) (fun k => .ofNat k) 0 1500,
      .writei false (fun k => k < 1000) (fun _ => 7) 0 3000]
  obtain ⟨a, t, he, -, hread⟩ := (content_refines h₀ (fun _ => rfl) hs).2.2
    (.readi true (fun _ => true) (fun _ => 0) 700 5)
  exact ⟨s, t, a, hs, he, hread.1 _ _ _ _ _ rfl⟩

end Xv6Sheet.Fs
