import Xv6Sheet.Kernel.CreateSpec
import Xv6Sheet.Kernel.Symlink
import Xv6Sheet.Kernel.WriteThrough

/-! # What following links does

A turn of the loop over links reads a target, gives the link back and walks to the next inode.
The loop holds one reference and one lock between its turns, and none when it gives up.
-/

namespace Xv6Sheet.Kernel

open Exec

/-- The nodes that a path may lead to from the directory `c`. -/
def Tree.Within (T : Tree) (c i : ℕ) : Prop := i = ROOTINO ∨ i = c ∨ T.Named i

def Tree.Lasting (U : ℕ → Prop) (T : Tree) (i : ℕ) : Prop :=
  ∃ n, T i = some n ∧ (n.nlink ≠ 0 ∨ U i)

theorem Drops.lasting {U : ℕ → Prop} {T T' : Tree} (h : Drops U T T') {i : ℕ}
    (hi : T.Lasting U i) : T'.Lasting U i := by
  obtain ⟨n, hn, hl⟩ := hi
  exact ⟨n, h.keep i n hn hl, hl⟩

theorem Tree.Lasting.ne_none {U : ℕ → Prop} {T : Tree} {i : ℕ} (h : T.Lasting U i) :
    T i ≠ none := by
  obtain ⟨n, hn, -⟩ := h
  simp [hn]

theorem Tree.within_startOf (T : Tree) (c : ℕ) (path : Bytes) : T.Within c (startOf c path) := by
  unfold startOf
  split
  · exact .inl rfl
  · exact .inr (.inl rfl)

/-- What is asked of a tree so that no walk after walks comes to a free inode. -/
def Roamable (E : Fault → Prop) (U : ℕ → Prop) (T : Tree) (c : ℕ) : Prop :=
  E noType ∨ T.Tidy ∧ T.Lasting U ROOTINO ∧ T.Lasting U c

theorem Roamable.walkable {E : Fault → Prop} {U : ℕ → Prop} {T : Tree} {c : ℕ}
    (h : Roamable E U T c) : Walkable E T c :=
  h.imp_right fun h => ⟨h.1, h.2.1.ne_none, h.2.2.ne_none⟩

theorem Roamable.drops {E : Fault → Prop} {U : ℕ → Prop} {T T' : Tree} {c : ℕ}
    (h : Roamable E U T c) (hd : Drops U T T') : Roamable E U T' c :=
  h.imp_right fun h => ⟨hd.tidy h.1, hd.lasting h.2.1, hd.lasting h.2.2⟩

/-- What may stop the walk of a path that ends: a full table, and an entry that is cut off. -/
structure Passable [Param] (E : Fault → Prop) (T : Tree) (R : ℕ → ℤ) : Prop where
  full : E (.panic "iget: no inodes") ∨ Spare R
  cut : E (.panic "dirlookup read") ∨ T.Whole

section Path

variable [pm : Param]

theorem Passable.stops {E : Fault → Prop} {T : Tree} {R : ℕ → ℤ} {path : Bytes}
    (h : Passable E T R) (hends : E .overread ∨ ∃ l, Spells path l ∧ l.length < Param.MAXPATH) :
    Stops E path T R :=
  ⟨hends, h.full, h.cut⟩

theorem Passable.of_permits {E : Fault → Prop} [Permits E] (T : Tree) (R : ℕ → ℤ) :
    Passable E T R :=
  ⟨.inl (permits_panic (by decide)), .inl (permits_panic (by decide))⟩

theorem Tree.within_namex {T : Tree} {c j : ℕ} {path name : Bytes} {parent : Bool}
    (h : T.namex c path parent = some (j, name)) : T.Within c j := by
  rcases T.namex_named h with rfl | hj
  · exact T.within_startOf c path
  · exact .inr (.inr hj)

def readOver (data : List UInt8) (path : Bytes) : Bytes :=
  path.copy 0 (Bytes.ofList data) 0 (min Param.MAXPATH data.length)

/-- The path that the loop over links looks up after the node `i`, if it is a link to follow. -/
def Tree.target (T : Tree) (omode : ℤ) (i : ℕ) (path : Bytes) : Option Bytes :=
  match T i with
  | none => none
  | some n =>
    if n.type = T_SYMLINK ∧ hasFlag omode O_NOFOLLOW = false ∧
        0 < min Param.MAXPATH n.data.length then some (readOver n.data path)
    else none

/-- The links that the loop reads from the node `i` on, each with the path buffer before. -/
def Tree.hops (T : Tree) (c : ℕ) (omode : ℤ) : ℕ → ℕ → Bytes → List (ℕ × Bytes)
  | 0, _, _ => []
  | m + 1, i, path =>
    match T.target omode i path with
    | none => []
    | some buf =>
      (i, path) :: match T.namex c buf false with
        | none => []
        | some (j, _) => T.hops c omode m j buf

/-- The links that a call of `sys_open` reads, each with the path buffer before. -/
def Tree.hopsOn (T : Tree) (c : ℕ) (omode : ℤ) (path : StrArg) : List (ℕ × Bytes) :=
  match argstr path Param.MAXPATH with
  | none => []
  | some path =>
    if hasFlag omode O_CREATE then []
    else match T.namex c path false with
      | none => []
      | some (i, _) => T.hops c omode maxDepth i path

theorem Tree.hops_of_target {T : Tree} {omode : ℤ} {c i m : ℕ} {path buf : Bytes}
    (h : T.target omode i path = some buf) :
    T.hops c omode (m + 1) i path = (i, path) :: match T.namex c buf false with
      | none => []
      | some (j, _) => T.hops c omode m j buf := by
  rw [Tree.hops, h]

def Tree.Bounded (T : Tree) (hops : List (ℕ × Bytes)) : Prop :=
  ∀ i before n, (i, before) ∈ hops → T i = some n →
    ∃ l, Spells (readOver n.data before) l ∧ l.length < Param.MAXPATH

omit pm in
theorem argstr_eq_some {a : StrArg} {b : Bytes} {max : ℕ} (h : argstr a max = some b) :
    ∃ n < max, a.mem n = some 0 ∧ (∀ k < n, a.mem k ≠ some 0) ∧
    ∀ k ≤ n, b k = (a.mem k).getD 0 := by
  unfold argstr at h
  split at h
  · cases h
  rename_i n hn
  obtain ⟨hend, hmem, hfirst⟩ := List.find?_range_eq_some.mp hn
  split at h
  · cases h
  rename_i hnone
  obtain rfl := Option.some.inj h
  have h0 : a.mem n = some 0 := by simpa [hnone] using hend
  refine ⟨n, List.mem_range.mp hmem, h0, fun k hk hk0 => ?_, fun k hk => ?_⟩
  · simpa [hk0] using hfirst k hk
  · rw [Bytes.copy_of_mem (by omega), Nat.zero_add, Nat.sub_zero]

theorem spells_argstr {a : StrArg} {b : Bytes} (h : argstr a Param.MAXPATH = some b) :
    ∃ l, Spells b l ∧ l.length < Param.MAXPATH := by
  obtain ⟨n, hn, h0, -, hcopy⟩ := argstr_eq_some h
  have hend : b n = 0 := by
    rw [hcopy n le_rfl, h0]
    rfl
  have hlt := lt_of_le_of_lt (Bytes.str_length_le_of_zero hend Param.MAXPATH) hn
  exact ⟨_, spells_str hlt, hlt⟩

end Path

variable [sb : Superblock] [pm : Param] {base : Set ℕ} {T T₀ : Tree} {U : ℕ → Prop}
  {R : ℕ → ℤ} {L : ℕ → Bool} {s t : FsState} {ip cwd c : ℕ} {path name : Bytes} {omode : ℤ}
  {n : Node} {E : Fault → Prop} [hE : Permits E]

omit sb in
theorem readable_maxpath (hmax : Param.MAXPATH ≤ BSIZE) (size : ℕ) :
    Fs.readable size 0 Param.MAXPATH = min Param.MAXPATH size := by
  unfold Fs.readable
  rw [if_neg (by simp only [BSIZE] at hmax; omega), Nat.sub_zero]

namespace View

omit hE in
theorem readLink (h : View base T R L s) (hl : L ip = true) (hn : T (s.inodes ip).inum = some n)
    (hmax : Param.MAXPATH ≤ BSIZE) (path : Bytes) :
    Wp E (Kernel.readi ip path 0 Param.MAXPATH) (fun r t => t = s ∧
      r.1 = (min Param.MAXPATH n.data.length : ℕ) ∧ r.2 = readOver n.data path) s := by
  refine (h.readi hl hn path (by decide) (by simp only [BSIZE] at hmax; omega)).mono
    fun r t ht => ?_
  rwa [readable_maxpath hmax] at ht

omit hE in
theorem nameiStrict (h : View base T R L s) (hd : Drops U T₀ T) (hcwd : 0 < R cwd)
    (hc : (s.inodes cwd).inum = c) (hU : ∀ i, T₀.Within c i → U i → InUse R s i)
    (hdead : ∀ k, L k = true → (s.inodes k).inum ∈ T₀.nodesOn c path false → E .deadlock)
    (hsafe : Roamable E U T₀ c) (hs : Stops E path T₀ R) :
    Wp E (Kernel.namei cwd path) (fun r t => Pins R s t ∧ Apart L s (T₀.nodesOn c path false) ∧
      ∃ T', Drops U T₀ T' ∧ match r with
      | none => T₀.namex c path false = none ∧ View base T' R L t
      | some ip => ∃ name, T₀.namex c path false = some ((t.inodes ip).inum, name) ∧
          View base T' (R + Pi.single ip 1) L t ∧ (E noType ∨ T' (t.inodes ip).inum ≠ none)) s := by
  subst hc
  refine wp_bind.mpr ((h.namexStrict hd hcwd (fun i hi hu => hU i ?_ hu) hdead
    (hsafe.drops hd).walkable hs).mono fun r t hr => wp_pure.mpr ?_)
  · rcases hi with rfl | hi
    · exact T₀.within_startOf _ path
    · exact .inr (.inr hi.1)
  obtain ⟨hpin, hapart, T', hd', hr⟩ := hr
  refine ⟨hpin, hapart, T', hd', ?_⟩
  rcases r with - | ⟨ip, name⟩
  · exact hr
  · exact ⟨name, hr.1, hr.2.1, hr.2.2.imp_right fun h => h.2⟩

theorem namei (h : View base T R L s) (hd : Drops U T₀ T) (hcwd : 0 < R cwd)
    (hc : (s.inodes cwd).inum = c) (hU : ∀ i, T₀.Within c i → U i → InUse R s i)
    (hdead : ∀ k, L k = true → (s.inodes k).inum ∈ T₀.nodesOn c path false → E .deadlock)
    (hsafe : Roamable E U T₀ c) :
    Wp E (Kernel.namei cwd path) (fun r t => Pins R s t ∧ Apart L s (T₀.nodesOn c path false) ∧
      ∃ T', Drops U T₀ T' ∧ match r with
      | none => T₀.namex c path false = none ∧ View base T' R L t
      | some ip => ∃ name, T₀.namex c path false = some ((t.inodes ip).inum, name) ∧
          View base T' (R + Pi.single ip 1) L t ∧ (E noType ∨ T' (t.inodes ip).inum ≠ none)) s :=
  h.nameiStrict hd hcwd hc hU hdead hsafe (.of_permits path T₀ R)

/-- What the loop over links leaves: at most nodes without links are gone, and the inode found is
locked and not a link to follow. -/
def Followed (base : Set ℕ) (U : ℕ → Prop) (T₀ : Tree) (R : ℕ → ℤ) (L : ℕ → Bool) (c n : ℕ)
    (omode : ℤ) (r : Option (ℕ × ℕ)) (t : FsState) : Prop :=
  ∃ T', Drops U T₀ T' ∧ match r with
    | none => View base T' R L t
    | some (ip, m) => m ≤ n ∧ L ip = false ∧ isLink (t.inodes ip) omode = false ∧
        T₀.Within c (t.inodes ip).inum ∧
        View base T' (R + Pi.single ip 1) (Function.update L ip true) t

omit hE in
theorem followLinks {m : ℕ} (h : View base T (R + Pi.single ip 1) (Function.update L ip true) s)
    (hip : L ip = false) (hd : Drops U T₀ T) (hcwd : 0 < R cwd) (hc : (s.inodes cwd).inum = c)
    (hin : T₀.Within c (s.inodes ip).inum) (hU : ∀ i, T₀.Within c i → U i → InUse R s i)
    (hdead : ∀ k, L k = true → E .deadlock) (hsafe : Roamable E U T₀ c)
    (hpass : Passable E T₀ R)
    (hends : E .overread ∨ T₀.Bounded (T₀.hops c omode m (s.inodes ip).inum path))
    (hmax : Param.MAXPATH ≤ BSIZE) :
    Wp E (Kernel.followLinks cwd omode m ip path) (fun r t => Pins R s t ∧
      Followed base U T₀ R L c m omode r t) s := by
  induction m generalizing ip path s T with
  | zero =>
    unfold Kernel.followLinks
    refine wp_bind.mpr (wp_inode.mpr ?_)
    split
    · refine wp_bind.mpr ((h.giveBack hip fun hu => hU _ hin hu).mono fun _ t ht => wp_pure.mpr ?_)
      obtain ⟨hpin, T', hd', ht⟩ := ht
      exact ⟨hpin, T', hd.trans hd', ht⟩
    · rename_i hlink
      exact wp_pure.mpr ⟨.refl R s, T, hd, le_rfl, hip, by simpa using hlink, hin, h⟩
  | succ m ih =>
    unfold Kernel.followLinks
    refine wp_bind.mpr (wp_inode.mpr ?_)
    split
    swap
    · rename_i hlink
      exact wp_pure.mpr ⟨.refl R s, T, hd, le_rfl, hip, by simpa using hlink, hin, h⟩
    have hl : Function.update L ip true ip = true := Function.update_self ..
    obtain ⟨n, hn, htype, -⟩ := h.node (h.held ip hl).1 (h.held ip hl).2
    refine wp_bind.mpr ((h.readLink hl hn hmax path).mono fun r t hr => ?_)
    obtain ⟨r, buf⟩ := r
    obtain ⟨rfl, rfl, rfl⟩ := hr
    dsimp only
    split
    · refine wp_bind.mpr ((h.giveBack hip fun hu => hU _ hin hu).mono fun _ t ht => wp_pure.mpr ?_)
      obtain ⟨hpin, T', hd', ht⟩ := ht
      exact ⟨hpin, T', hd.trans hd', ht⟩
    rename_i hlink hread
    have hnode := hd.sub _ n hn
    have htarget : T₀.target omode (t.inodes ip).inum path = some (readOver n.data path) := by
      rw [isLink, Bool.and_eq_true, Bool.not_eq_true', decide_eq_true_eq, htype] at hlink
      unfold Tree.target
      rw [hnode]
      exact if_pos ⟨hlink.1, hlink.2, by omega⟩
    rw [Tree.hops_of_target htarget] at hends
    -- the link goes back before the next inode is looked up
    refine wp_bind.mpr ((h.giveBack hip fun hu => hU _ hin hu).mono fun _ u hu => ?_)
    obtain ⟨hpin, T', hd', hu⟩ := hu
    have hcu : (u.inodes cwd).inum = c := (hpin cwd hcwd).1.trans hc
    have hUu : ∀ i, T₀.Within c i → U i → InUse R u i := fun i hi hui => hpin.inUse (hU i hi hui)
    refine wp_bind.mpr ((hu.nameiStrict (hd.trans hd') hcwd hcu hUu (fun k hk _ => hdead k hk)
      hsafe (hpass.stops (hends.imp_right fun hb => hb _ _ n List.mem_cons_self hnode))).mono
      fun r v hv => ?_)
    obtain ⟨hpin', -, T'', hd'', hv⟩ := hv
    have hpinv := hpin.trans hpin'
    rcases r with - | next
    · exact wp_pure.mpr ⟨hpinv, T'', hd'', hv.2⟩
    obtain ⟨name, hwalk, hv, hnext⟩ := hv
    have hpos := hu.single_pos next
    refine wp_bind.mpr ((hv.ilock hpos (fun hnone => ?_) (hdead next)).mono fun _ w hw => ?_)
    · exact hnext.resolve_right fun hne => hne hnone
    obtain ⟨hw, hk, hlock, -⟩ := hw
    have hpinw := hv.pins hw hk le_rfl le_rfl
    have hpins : Pins R t w := hpinv.trans (hpinw.mono (le_add_single R next))
    refine (ih hw hlock hd'' ((hpins cwd hcwd).1.trans hc) ?_ (fun i hi hui => ?_) ?_).mono
      fun r x hx => ⟨hpins.trans hx.1, ?_⟩
    · rw [(hpinw next hpos).1]
      exact Tree.within_namex hwalk
    · exact hpins.inUse (hU i hi hui)
    · rw [hwalk] at hends
      rw [(hpinw next hpos).1]
      exact hends.imp_right fun hb i before n hmem => hb i before n (List.mem_cons_of_mem _ hmem)
    · obtain ⟨T₃, hd₃, hx⟩ := hx.2
      refine ⟨T₃, hd₃, ?_⟩
      rcases r with - | ⟨k, j⟩
      · exact hx
      · exact ⟨hx.1.trans (Nat.le_succ m), hx.2⟩

end View

section Small

omit sb pm

theorem dinode_rootDisk :
    letI := smallDisk
    ∀ i, rootDisk.dinode i =
      if i = 1 then { Dinode.zero with type := 1, nlink := 1 } else Dinode.zero := by
  intro i
  have hslot : (i / IPB + 2 = 2 ∧ i % IPB = 1) ↔ i = 1 := by
    simp only [IPB, BSIZE, dinodeSize]
    omega
  show (if i / IPB + 2 = 2 ∧ i % IPB = 1 then _ else _) = _
  simp only [hslot]

theorem tree_rootDisk :
    letI := smallDisk
    tree rootDisk = fun i => if i = ROOTINO then some ⟨T_DIR, 0, 0, 1, []⟩ else none := by
  let _ := smallDisk
  funext i
  rw [tree, dinode_rootDisk, ROOTINO]
  split
  · rename_i hi
    have hlen : (Fs.content (live rootDisk) rootDisk i).length = 0 := by
      rw [Fs.length_content, live, dinode_rootDisk, if_pos hi]
      rfl
    rw [List.length_eq_zero_iff.mp hlen]
    rfl
  · rfl

def smallFs (block : ℕ → Bytes) : FsState :=
  let _ := smallParam
  { smallMachine.sys.fs with disk := { rootDisk with block := block } }

/-- Where the metadata is in use, it shows the empty root directory and the references of the
processes. -/
theorem view_smallFs {block : ℕ → Bytes}
    (hf : @Disk.Formatted smallDisk { rootDisk with block := block }) :
    letI := smallDisk
    letI := smallParam
    View (smallFs block).disk.used (tree (smallFs block).disk) (fun ip => if ip = 0 then 64 else 0)
      (fun _ => false) (smallFs block) := by
  let _ := smallDisk
  let _ := smallParam
  have hd : ∀ i, (smallFs block).disk.dinode i =
      if i = 1 then { Dinode.zero with type := 1, nlink := 1 } else Dinode.zero := dinode_rootDisk
  have hlive : ∀ i, (live (smallFs block).disk i).size = 0 ∧
      (live (smallFs block).disk i).addrs = fun _ => 0 := by
    intro i
    unfold live
    rw [hd]
    split <;> (split <;> exact ⟨rfl, rfl⟩)
  have hempty : Store.Empty Fs.shape (⟨live (smallFs block).disk, (smallFs block).disk⟩ :
    Store ℕ) :=
    ⟨fun i r _ => by rw [(hlive i).2], hf⟩
  have hsound : Fs.Sound (smallFs block).disk.used (live (smallFs block).disk)
    (smallFs block).disk :=
    Fs.empty_sound hempty fun i => (hlive i).1
  have hzero : ∀ ip : ℕ, 0 < (if ip = 0 then 64 else 0 : ℤ) → ip = 0 := by
    intro ip hip
    by_contra hne
    rw [if_neg hne] at hip
    exact absurd hip (by decide)
  refine ⟨hsound, rfl, fun _ => rfl, fun _ => rfl, fun ip => ?_, fun ip hip => ?_, fun _ _ => rfl,
    fun ip ip' hip hip' _ => (hzero ip hip).trans (hzero ip' hip').symm, fun _ _ hv => ?_,
    fun _ hl => ?_, fun i n hn => ?_⟩
  · show (0 : ℤ) ≤ if ip = 0 then 64 else 0
    split <;> decide
  · rw [hzero ip hip]
    exact Nat.zero_lt_succ 49
  · exact absurd hv Bool.false_ne_true
  · exact absurd hl Bool.false_ne_true
  · obtain ⟨htype, h0, -⟩ := tree_eq_some hn
    rw [hd] at htype
    split at htype
    · rename_i hi
      rw [hi]
      decide
    · exact absurd htype.symm h0

/-- The small machine shows its empty root directory and the references of the processes. -/
theorem view_smallMachine :
    letI := smallDisk
    letI := smallParam
    View smallMachine.sys.fs.disk.used (tree rootDisk) (fun ip => if ip = 0 then 64 else 0)
      (fun _ => false) smallMachine.sys.fs :=
  view_smallFs formatted_freshDisk

end Small

end Xv6Sheet.Kernel
