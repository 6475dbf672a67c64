import Xv6Sheet.Kernel.Components
import Xv6Sheet.Kernel.LostLink
import Xv6Sheet.Kernel.ReadLink
import Xv6Sheet.Kernel.SafeOpen

/-! # The path that is looked up at a link

A link holds its target without a NUL, and the target is read over the path buffer. The string in
the buffer is the target only where the buffer has a NUL behind it already.
-/

namespace Xv6Sheet.Kernel

open Exec

section Chain

variable [pm : Param] {T : Tree} {c i j m : ℕ} {omode : ℤ} {path buf : Bytes} {n : Node}
  {data : List UInt8}

/-- Each link has a NUL-free text that fits the buffer, which has a NUL where the text ends. -/
def Tree.Terminated (T : Tree) (hops : List (ℕ × Bytes)) : Prop :=
  ∀ i before n, (i, before) ∈ hops → T i = some n →
    0 ∉ n.data ∧ n.data.length < Param.MAXPATH ∧ before n.data.length = 0

/-- The node at which one comes out of the links by the targets that they hold. -/
def Tree.follow (T : Tree) (c : ℕ) (omode : ℤ) : ℕ → ℕ → Option ℕ
  | m, i =>
    match T i with
    | none => none
    | some n =>
      if n.type = T_SYMLINK ∧ hasFlag omode O_NOFOLLOW = false then
        match m with
        | 0 => none
        | m + 1 =>
          if n.data = [] then none
          else match T.namex c (Bytes.ofList n.data) false with
            | none => none
            | some (j, _) => T.follow c omode m j
      else some i

theorem Tree.hops_of_not_target (h : T.target omode i path = none) :
    T.hops c omode m i path = [] := by
  cases m with
  | zero => rfl
  | succ m => rw [Tree.hops, h]

theorem Tree.follow_of_not_link (hn : T i = some n)
    (h : ¬ (n.type = T_SYMLINK ∧ hasFlag omode O_NOFOLLOW = false)) :
    T.follow c omode m i = some i := by
  unfold Tree.follow
  rw [hn]
  exact if_neg h

theorem Tree.follow_of_link (hn : T i = some n)
    (h : n.type = T_SYMLINK ∧ hasFlag omode O_NOFOLLOW = false) (hdata : n.data ≠ []) {name : Bytes}
    (hw : T.namex c (Bytes.ofList n.data) false = some (j, name)) :
    T.follow c omode (m + 1) i = T.follow c omode m j := by
  rw [Tree.follow, hn]
  dsimp only
  rw [if_pos h, if_neg hdata, hw]

theorem readOver_length (h : data.length < Param.MAXPATH) :
    readOver data path data.length = path data.length := by
  unfold readOver
  rw [Bytes.copy_of_not_mem (by omega)]

/-- The buffer spells a target read over it exactly when it had a NUL where the target ends. -/
theorem spells_readOver (h : data.length < Param.MAXPATH) :
    Spells (readOver data path) data ↔ 0 ∉ data ∧ path data.length = 0 := by
  have hbyte : ∀ k (hk : k < data.length), readOver data path k = data[k] := fun k hk => by
    rw [readOver_of_lt (by omega)]
    simp [Bytes.ofList, hk]
  have hend : readOver data path data.length = path data.length := readOver_length h
  constructor
  · intro hs
    exact ⟨hs.noNul, by rw [← hend, hs.nul]⟩
  · rintro ⟨hnul, h0⟩
    exact ⟨hbyte, by rw [hend, h0], hnul⟩

end Chain

section Loop

variable [sb : Superblock] [pm : Param] {base : Set ℕ} {T : Tree} {U : ℕ → Prop} {R : ℕ → ℤ}
  {s t : FsState} {ip cwd c k m lp : ℕ} {path buf : Bytes} {omode : ℤ}

/-- The loop over links holds the inode `ip`, to which a path may lead, and at most nodes without
links are gone. -/
structure Roaming (base : Set ℕ) (T : Tree) (U : ℕ → Prop) (R : ℕ → ℤ) (cwd c ip : ℕ)
    (s : FsState) : Prop where
  view : ∃ T', Drops U T T' ∧
    View base T' (R + Pi.single ip 1) (Function.update (fun _ => false) ip true) s
  cwd_pos : 0 < R cwd
  cwd_inum : (s.inodes cwd).inum = c
  within : T.Within c (s.inodes ip).inum
  inUse : ∀ i, T.Within c i → U i → InUse R s i

namespace Roaming

theorem node (h : Roaming base T U R cwd c ip s) : ∃ n, T (s.inodes ip).inum = some n ∧
    tree s.disk (s.inodes ip).inum = some n ∧ (s.inodes ip).type = n.type := by
  obtain ⟨T', hd, hs⟩ := h.view
  have hl : Function.update (fun _ => false) ip true ip = true := Function.update_self ..
  obtain ⟨n, hn, htype, -⟩ := hs.node (hs.held ip hl).1 (hs.held ip hl).2
  exact ⟨n, hd.sub _ n hn, by rw [hs.tree_eq, hn], htype⟩

theorem read (h : Roaming base T U R cwd c ip s) (hmax : Param.MAXPATH ≤ BSIZE) {q : ℤ}
    (hlink : isLink (s.inodes ip) omode = true)
    (hrun : Ends (readi ip path 0 Param.MAXPATH) s (q, buf) t) : t = s ∧ ∃ n,
      T (s.inodes ip).inum = some n ∧ tree s.disk (s.inodes ip).inum = some n ∧
      (n.type = T_SYMLINK ∧ hasFlag omode O_NOFOLLOW = false) ∧
      q = (min Param.MAXPATH n.data.length : ℕ) ∧ buf = readOver n.data path := by
  obtain ⟨n, hn, htree, htype⟩ := h.node
  obtain ⟨T', hd, hs⟩ := h.view
  have hn' : T' (s.inodes ip).inum = some n := by rw [← hs.tree_eq, htree]
  obtain ⟨rfl, hq, hbuf⟩ := (hs.readLink (E := fun _ => True) (Function.update_self ..) hn' hmax
    path).post hrun
  refine ⟨rfl, n, hn, htree, ?_, hq, hbuf⟩
  simpa [isLink, htype] using hlink

theorem target (h : Roaming base T U R cwd c ip s) (hmax : Param.MAXPATH ≤ BSIZE) {q : ℤ}
    (hlink : isLink (s.inodes ip) omode = true)
    (hrun : Ends (readi ip path 0 Param.MAXPATH) s (q, buf) t) (hq : 0 < q) :
    T.target omode (s.inodes ip).inum path = some buf := by
  obtain ⟨-, n, hn, -, hfollow, rfl, rfl⟩ := h.read hmax hlink hrun
  unfold Tree.target
  rw [hn]
  exact if_pos ⟨hfollow.1, hfollow.2, by omega⟩

theorem not_target_of_empty (h : Roaming base T U R cwd c ip s) (hmax : Param.MAXPATH ≤ BSIZE)
    {q : ℤ} (hlink : isLink (s.inodes ip) omode = true)
    (hrun : Ends (readi ip path 0 Param.MAXPATH) s (q, buf) t) (hq : q ≤ 0) :
    T.target omode (s.inodes ip).inum path = none := by
  obtain ⟨-, n, hn, -, -, rfl, -⟩ := h.read hmax hlink hrun
  unfold Tree.target
  rw [hn]
  exact if_neg fun hfollow => absurd hfollow.2.2 (by omega)

theorem not_target (h : Roaming base T U R cwd c ip s)
    (hlink : isLink (s.inodes ip) omode = false) :
    T.target omode (s.inodes ip).inum path = none := by
  obtain ⟨n, hn, -, htype⟩ := h.node
  unfold Tree.target
  rw [hn]
  refine if_neg fun hfollow => ?_
  simp [isLink, htype, hfollow.1, hfollow.2.1] at hlink

theorem lookup (h : Roaming base T U R cwd c ip s) {u v : FsState} {r : Option ℕ}
    (hput : Ends (iunlockput ip) s () u) (hname : Ends (namei cwd buf) u r v) :
    match r with
    | none => T.namex c buf false = none
    | some next => ∀ w, Ends (ilock next) v () w → Roaming base T U R cwd c next w ∧
        ∃ name, T.namex c buf false = some ((w.inodes next).inum, name) := by
  obtain ⟨T', hd, hs⟩ := h.view
  obtain ⟨hpin, T₁, hd₁, hu⟩ := (hs.giveBack (E := fun _ => True) rfl
    fun hi => h.inUse _ h.within hi).post hput
  have hin : ∀ i, T.Within c i → U i → InUse R u i := fun i hi hui => hpin.inUse (h.inUse i hi hui)
  obtain ⟨hpin', -, T₂, hd₂, hr⟩ := (hu.namei (E := fun _ => True) (hd.trans hd₁) h.cwd_pos
    ((hpin cwd h.cwd_pos).1.trans h.cwd_inum) hin (fun _ _ _ => trivial) (.inl trivial)).post hname
  rcases r with - | next
  · exact hr.1
  obtain ⟨name, hw, hv, -⟩ := hr
  intro w hlock
  have hpos := hu.single_pos next
  obtain ⟨hx, hk, -⟩ := (hv.ilock (E := fun _ => True) hpos (fun _ => trivial)
    (fun _ => trivial)).post hlock
  have hpinw := hv.pins hx hk le_rfl le_rfl
  have hpins := (hpin.trans hpin').trans (hpinw.mono (le_add_single R next))
  rw [← (hpinw next hpos).1] at hw
  exact ⟨⟨⟨T₂, hd₂, hx⟩, h.cwd_pos, (hpins cwd h.cwd_pos).1.trans h.cwd_inum,
    Tree.within_namex hw, fun i hi hui => hpins.inUse (h.inUse i hi hui)⟩, name, hw⟩

/-- Each link that the loop reads is one of the tree's, read over the buffer that is there then. -/
theorem hop (h : Roaming base T U R cwd c ip s) (hmax : Param.MAXPATH ≤ BSIZE)
    (hhop : Hop cwd omode m ip path s k lp buf t) : ∃ i before n,
      (i, before) ∈ T.hops c omode m (s.inodes ip).inum path ∧ T i = some n ∧
      tree t.disk (t.inodes lp).inum = some n ∧ buf = readOver n.data before := by
  induction hhop with
  | here hlink hread hq =>
    rw [Tree.hops_of_target (h.target hmax hlink hread hq)]
    obtain ⟨-, n, hn, htree, -, -, hbuf⟩ := h.read hmax hlink hread
    exact ⟨_, _, n, List.mem_cons_self, hn, htree, hbuf⟩
  | later hlink hread hq hput hname hlock _ ih =>
    rw [Tree.hops_of_target (h.target hmax hlink hread hq)]
    obtain ⟨rfl, -⟩ := h.read hmax hlink hread
    obtain ⟨hnext, name, hw⟩ := h.lookup hput hname _ hlock
    obtain ⟨i, before, n, hmem, hrest⟩ := ih hnext
    rw [hw]
    exact ⟨i, before, n, List.mem_cons_of_mem _ hmem, hrest⟩

theorem hop_of_mem (h : Roaming base T U R cwd c ip s) (hmax : Param.MAXPATH ≤ BSIZE)
    {r : Option (ℕ × ℕ)} (hrun : Following cwd omode m ip path s r t) {i : ℕ} {before : Bytes}
    (hmem : (i, before) ∈ T.hops c omode m (s.inodes ip).inum path) : ∃ k lp buf u n,
      Hop cwd omode m ip path s k lp buf u ∧ T i = some n ∧
      tree u.disk (u.inodes lp).inum = some n ∧ buf = readOver n.data before := by
  induction hrun with
  | found hlink =>
    rw [Tree.hops_of_not_target (h.not_target hlink)] at hmem
    cases hmem
  | deep _ => cases hmem
  | empty hlink hread hq =>
    rw [Tree.hops_of_not_target (h.not_target_of_empty hmax hlink hread hq)] at hmem
    cases hmem
  | lost hlink hread hq hput hname =>
    obtain ⟨rfl, n, hn, htree, -, -, hbuf⟩ := h.read hmax hlink hread
    rw [Tree.hops_of_target (h.target hmax hlink hread hq), h.lookup hput hname,
      List.mem_singleton] at hmem
    obtain ⟨rfl, rfl⟩ := Prod.mk.inj hmem
    exact ⟨1, _, _, _, n, .here hlink hread hq, hn, htree, hbuf⟩
  | turn hlink hread hq hput hname hlock _ ih =>
    obtain ⟨rfl, n, hn, htree, -, -, hbuf⟩ := h.read hmax hlink hread
    obtain ⟨hnext, name, hw⟩ := h.lookup hput hname _ hlock
    rw [Tree.hops_of_target (h.target hmax hlink hread hq), hw, List.mem_cons] at hmem
    rcases hmem with hhere | hmem
    · obtain ⟨rfl, rfl⟩ := Prod.mk.inj hhere
      exact ⟨1, _, _, _, n, .here hlink hread hq, hn, htree, hbuf⟩
    · obtain ⟨k, lp, buf, u, n, hhop, hrest⟩ := ih hnext hmem
      exact ⟨k + 1, lp, buf, u, n, .later hlink hread hq hput hname hlock hhop, hrest⟩

theorem follows (h : Roaming base T U R cwd c ip s) (hmax : Param.MAXPATH ≤ BSIZE) {j : ℕ}
    (hrun : Ends (followLinks cwd omode m ip path) s (some (k, j)) t)
    (hnul : T.Terminated (T.hops c omode m (s.inodes ip).inum path)) :
    T.follow c omode m (s.inodes ip).inum = some (t.inodes k).inum := by
  have hturns := followLinks_following hrun
  clear hrun
  generalize hr : some (k, j) = r at hturns
  induction hturns with
  | found hlink =>
    obtain ⟨rfl, rfl⟩ := Prod.mk.inj (Option.some.inj hr)
    obtain ⟨n, hn, -, htype⟩ := h.node
    refine Tree.follow_of_not_link hn fun hfollow => ?_
    simp [isLink, htype, hfollow.1, hfollow.2] at hlink
  | deep _ => cases hr
  | empty _ _ _ => cases hr
  | lost _ _ _ _ _ => cases hr
  | turn hlink hread hq hput hname hlock _ ih =>
    have htarget := h.target hmax hlink hread hq
    obtain ⟨rfl, n, hn, -, hfollow, rfl, rfl⟩ := h.read hmax hlink hread
    obtain ⟨hnext, name, hw⟩ := h.lookup hput hname _ hlock
    rw [Tree.hops_of_target htarget, hw] at hnul
    obtain ⟨-, hlt, h0⟩ := hnul _ _ n List.mem_cons_self hn
    have hsame := sameText_readOver (.inr ((readOver_length hlt).trans h0))
    rw [hsame.namex] at hw
    rw [Tree.follow_of_link hn hfollow (fun hnil => ?_) hw]
    · exact ih hnext (fun i before n hmem => hnul i before n (List.mem_cons_of_mem _ hmem)) hr
    · rw [hnil] at hq
      simp at hq

end Roaming

/-- At each link that the loop reads from the inode `found` on, the string that is looked up is what
the link holds. -/
def TargetsRead (cwd : ℕ) (omode : ℤ) (found : ℕ) (path : Bytes) (s : FsState) : Prop :=
  ∀ k lp buf t n, Hop cwd omode maxDepth found path s k lp buf t →
    tree t.disk (t.inodes lp).inum = some n → n.data.length < Param.MAXPATH ∧ Spells buf n.data

theorem Roaming.targetsRead (h : Roaming base T U R cwd c ip s) (hmax : Param.MAXPATH ≤ BSIZE)
    (hnul : T.Terminated (T.hops c omode maxDepth (s.inodes ip).inum path)) :
    TargetsRead cwd omode ip path s := by
  intro k lp buf t n hhop hn
  obtain ⟨i, before, m, hmem, hm, hlp, rfl⟩ := h.hop hmax hhop
  obtain rfl := Option.some.inj (hlp.symm.trans hn)
  obtain ⟨hno, hlt, h0⟩ := hnul i before m hmem hm
  exact ⟨hlt, (spells_readOver hlt).mpr ⟨hno, h0⟩⟩

theorem Roaming.terminated (h : Roaming base T U R cwd c ip s) (hmax : Param.MAXPATH ≤ BSIZE)
    {r : Option (ℕ × ℕ)} (hrun : Ends (followLinks cwd omode maxDepth ip path) s r t)
    (hread : TargetsRead cwd omode ip path s) :
    T.Terminated (T.hops c omode maxDepth (s.inodes ip).inum path) := by
  intro i before n hmem hn
  obtain ⟨k, lp, buf, u, m, hhop, hm, hlp, rfl⟩ :=
    h.hop_of_mem hmax (followLinks_following hrun) hmem
  obtain rfl := Option.some.inj (hm.symm.trans hn)
  obtain ⟨hlt, hspells⟩ := hread k lp _ u m hhop hlp
  obtain ⟨hno, h0⟩ := (spells_readOver hlt).mp hspells
  exact ⟨hno, hlt, h0⟩

/-- The loop starts at an inode that is no link to follow, or at one that the path leads to. -/
theorem View.roaming (h : View base T R (fun _ => false) s) (hcwd : 0 < R cwd)
    (hused : ∀ i, InUse R s i → T i ≠ none)
    (hrun : Ends (Kernel.openPath cwd path omode) s (some ip) t) :
    if hasFlag omode O_CREATE then isLink (t.inodes ip) omode = false
    else Roaming base T (InUse R s) R cwd (s.inodes cwd).inum ip t ∧
      ∃ name, T.namex (s.inodes cwd).inum path false = some ((t.inodes ip).inum, name) := by
  obtain ⟨hpin, T', ht, hled⟩ :=
    (h.openPath (E := fun _ => True) hcwd hused (.inl trivial)).post hrun
  split at hled
  · rename_i hcreate
    rwa [if_pos hcreate]
  · rename_i hcreate
    rw [if_neg hcreate]
    obtain ⟨hd, name, hw⟩ := hled
    exact ⟨⟨⟨T', hd, ht⟩, hcwd, (hpin cwd hcwd).1, Tree.within_namex hw,
      fun i _ hi => hpin.inUse hi⟩, name, hw⟩

def HoldsTarget (cwd : ℕ) (target path : StrArg) (t : FsState) : Prop :=
  ∃ p i name n, argstr path Param.MAXPATH = some p ∧
    (tree t.disk).namex (t.inodes cwd).inum p false = some (i, name) ∧ tree t.disk i = some n ∧
    n.type = T_SYMLINK ∧ n.data = target.text ∧ 0 ∉ n.data ∧ n.data.length < Param.MAXPATH

theorem Settled.holdsTarget (h : Settled base T R cwd s) (hmax : Param.MAXPATH ≤ BSIZE)
    (hinodes : sb.ninodes ≤ 2 ^ 16) {target path : StrArg}
    (hlink : Ends (Kernel.sysSymlink cwd target path) s 0 t) : HoldsTarget cwd target path t := by
  obtain ⟨T', p, i, name, n, ht, hpath, hw, hn, htype, hdata⟩ := h.symlinked hmax hinodes hlink
  rw [← ht.view.tree_eq] at hw hn
  refine ⟨p, i, name, n, hpath, hw, hn, htype, hdata, ?_, ?_⟩
  · rw [hdata]
    exact target.zero_not_mem_text
  · rw [hdata]
    exact target.length_text_lt (argstr_eq_some hpath).choose_spec.1.pos

variable {χ : Type} {L : FileLayer χ} {a b : Task FilePtr (Sys χ)}

/-- A link is read as its target exactly where the path buffer has a NUL already at the place where
the target ends. What `sys_symlink` stores is the target without its NUL. -/
theorem symlinkOpen_reads_iff (hL : OpenLaws L) (h : View base T R (fun _ => false) a.sys.fs)
    (hcwd : 0 < R a.proc.cwd) (hused : ∀ i, InUse R a.sys.fs i → T i ≠ none)
    (hmax : Param.MAXPATH ≤ BSIZE) (hinodes : sb.ninodes ≤ 2 ^ 16) (path : StrArg) (omode : ℤ) :
    (∀ p found u, argstr path Param.MAXPATH = some p →
      Ends (openPath a.proc.cwd p omode) { a.sys.fs with ops := a.sys.fs.ops + 1 } (some found) u →
      (T.Terminated (T.hopsOn (home a) omode path) → TargetsRead a.proc.cwd omode found p u) ∧
      ∀ r b, Ends (symlinkOpen L path omode) a r b →
        (TargetsRead a.proc.cwd omode found p u ↔ T.Terminated (T.hopsOn (home a) omode path))) ∧
    (T.Terminated (T.hopsOn (home a) omode path) → hasFlag omode O_CREATE = false →
      ∀ fd b, Ends (symlinkOpen L path omode) a fd b → 0 ≤ fd → ∃ p i name ip f,
        argstr path Param.MAXPATH = some p ∧ T.namex (home a) p false = some (i, name) ∧
        Opened ip omode f fd b ∧ T.follow (home a) omode maxDepth i = some
        (b.sys.fs.inodes ip).inum) ∧
    ∀ base T R cwd s t target path, Settled base T R cwd s →
      Ends (sysSymlink cwd target path) s 0 t → HoldsTarget cwd target path t := by
  refine ⟨fun p found u hp hfound => ?_, fun hnul hcreate fd b hrun hfd => ?_,
    fun _ _ _ _ _ _ _ _ hs hlink => hs.holdsTarget hmax hinodes hlink⟩
  · have hroam := (h.ops (a.sys.fs.ops + 1)).roaming hcwd hused hfound
    rw [Tree.hopsOn, hp]
    dsimp only
    split at hroam
    · rename_i hcreate
      rw [if_pos hcreate]
      have hread : TargetsRead a.proc.cwd omode found p u := fun k lp buf t n hhop => by
        rw [hhop.isLink] at hroam
        cases hroam
      have hnul : T.Terminated [] := fun _ _ _ hmem => by cases hmem
      exact ⟨fun _ => hread, fun _ _ _ => iff_of_true hread hnul⟩
    · rename_i hcreate
      obtain ⟨hroam, name, hw⟩ := hroam
      rw [if_neg hcreate]
      have hw' : T.namex (home a) p false = some ((u.inodes found).inum, name) := hw
      rw [hw']
      refine ⟨hroam.targetsRead hmax, fun r b hrun => ⟨fun hread => ?_, hroam.targetsRead hmax⟩⟩
      obtain ⟨x, t, hx⟩ := openFollowing_follows hp hfound hrun
      exact hroam.terminated hmax hx hread
  · obtain ⟨p, found, ip, n, u, v, f, hp, hlead, -, -, hf, ⟨-, hinum⟩, -⟩ :=
      (openFollowing_opened hL).post hrun hfd
    have hroam := (h.ops (a.sys.fs.ops + 1)).roaming hcwd hused hlead.lookup
    rw [hcreate, if_neg Bool.false_ne_true] at hroam
    obtain ⟨hroam, name, hw⟩ := hroam
    have hw' : T.namex (home a) p false = some ((u.inodes found).inum, name) := hw
    rw [Tree.hopsOn, hp] at hnul
    dsimp only at hnul
    rw [hcreate, if_neg Bool.false_ne_true, hw'] at hnul
    refine ⟨p, _, name, ip, f, hp, hw', hf, ?_⟩
    rw [hinum]
    exact hroam.follows hmax hlead.follow hnul

end Loop

section Small

/-- The link `/abc`, whose target is shorter than its path. -/
def shortLink : LinkMade [47, 120] [47, 97, 98, 99] := .make (by decide +kernel)

def pathBuf (path : List UInt8) : Bytes :=
  (pathArg path).buf.copy 0 (fun i => ((pathArg path).mem i).getD 0) 0 (path.length + 1)

theorem argstr_pathArg {path : List UInt8} {max : ℕ} (h : 0 ∉ path) (hlt : path.length < max) :
    argstr (pathArg path) max = some (pathBuf path) := by
  have hfind : (List.range max).find? (fun i => (pathArg path).mem i = none ||
      (pathArg path).mem i = some 0) = some path.length := by
    refine List.find?_range_eq_some.mpr ⟨by simp [pathArg], List.mem_range.mpr hlt, fun k hk => ?_⟩
    have hne : path[k] ≠ 0 := fun h0 => h (h0 ▸ List.getElem_mem hk)
    simp [pathArg, hk, hne]
  unfold argstr
  rw [hfind]
  exact if_neg (by simp [pathArg])

/-- The state in which the process starts to look up the path that it opens. -/
def LinkMade.opening {target path : List UInt8} (l : LinkMade target path) : FsState :=
  let _ := smallParam
  { l.task.sys.fs with ops := l.task.sys.fs.ops + 1 }

def LinkMade.opened {target path : List UInt8} (l : LinkMade target path) : FsState :=
  let _ := smallDisk
  let _ := smallParam
  after (openPath l.task.proc.cwd (pathBuf path) 0) l.opening

/-- The target of `/l` is read as it is, and that of `/abc` with the end of the path behind it. -/
theorem runs_openPath :
    letI := smallDisk
    letI := smallParam
    let T := tree evenLink.task.sys.fs.disk
    (answer (openPath evenLink.task.proc.cwd (pathBuf [47, 108]) 0) evenLink.opening = some
    (some 1) ∧
      isLink (evenLink.opened.inodes 1) 0 = true ∧
      (T.hopsOn (home evenLink.task) 0 (pathArg [47, 108])).map (fun h =>
        (T h.1).map fun n => (n.data, h.2 n.data.length)) = [some ([47, 120], 0)]) ∧
    answer (openPath shortLink.task.proc.cwd (pathBuf [47, 97, 98, 99]) 0) shortLink.opening =
        some (some 1) ∧
      isLink (shortLink.opened.inodes 1) 0 = true ∧
      (answer (readi 1 (pathBuf [47, 97, 98, 99]) 0 Param.MAXPATH) shortLink.opened).map (fun r =>
        (r.1, Bytes.str r.2 Param.MAXPATH)) = some (2, [47, 120, 98, 99]) ∧
      (tree shortLink.opened.disk (shortLink.opened.inodes 1).inum).map (·.data) =
        some [47, 120] := by
  decide +kernel

/-- The link `/l` is read over a buffer that ends where its target ends. -/
theorem symlinkOpen_reads_small :
    letI := smallDisk
    letI := smallParam
    Ends (openPath evenLink.task.proc.cwd (pathBuf [47, 108]) 0) evenLink.opening (some 1)
        evenLink.opened ∧
      isLink (evenLink.opened.inodes 1) 0 = true ∧
      TargetsRead evenLink.task.proc.cwd 0 1 (pathBuf [47, 108]) evenLink.opened := by
  let _ := smallDisk
  let _ := smallParam
  obtain ⟨⟨hanswer, hfollow, hhops⟩, -⟩ := runs_openPath
  have hopen := ends_answer hanswer
  obtain ⟨T, hT, hset⟩ := evenLink.settled
  rw [hT] at hhops
  have hnul : T.Terminated (T.hopsOn (home evenLink.task) 0 (pathArg [47, 108])) := by
    intro i before n hmem hn
    have hmap := List.mem_map_of_mem (f := fun h => (T h.1).map fun n =>
      (n.data, h.2 n.data.length)) hmem
    rw [hhops, hn, List.mem_singleton] at hmap
    obtain ⟨hdata, h0⟩ := Prod.mk.inj (Option.some.inj hmap)
    refine ⟨?_, ?_, h0⟩
    · rw [hdata]
      decide
    · rw [hdata]
      decide
  exact ⟨hopen, hfollow, ((symlinkOpen_reads_iff fileTable_openLaws hset.view hset.cwd_pos hset.used
    (by decide)
    (by decide) (pathArg [47, 108]) 0).1 (pathBuf [47, 108]) 1 evenLink.opened
    (argstr_pathArg (by decide) (by decide)) hopen).1 hnul⟩

/-- The link `/abc` to `/x` is read as `/xbc`. -/
theorem symlinkOpen_reads_stale :
    letI := smallDisk
    letI := smallParam
    let a := shortLink.task
    ∃ lp buf n, Ends (sysSymlink 0 (pathArg [47, 120]) (pathArg [47, 97, 98, 99]))
        smallTask.sys.fs 0 a.sys.fs ∧
      Ends (openPath a.proc.cwd (pathBuf [47, 97, 98, 99]) 0) shortLink.opening (some 1)
        shortLink.opened ∧
      Hop a.proc.cwd 0 maxDepth 1 (pathBuf [47, 97, 98, 99]) shortLink.opened 1 lp buf
        shortLink.opened ∧
      tree shortLink.opened.disk (shortLink.opened.inodes lp).inum = some n ∧ n.data = [47, 120] ∧
      Bytes.str buf Param.MAXPATH = [47, 120, 98, 99] ∧ ¬ Spells buf n.data := by
  let _ := smallDisk
  let _ := smallParam
  obtain ⟨-, hanswer, hfollow, hread, hdata⟩ := runs_openPath
  obtain ⟨⟨q, buf⟩, hbuf, hr⟩ := Option.map_eq_some_iff.mp hread
  obtain ⟨rfl, hstr⟩ := Prod.mk.inj hr
  obtain ⟨n, hn, hdata⟩ := Option.map_eq_some_iff.mp hdata
  refine ⟨1, buf, n, shortLink.made, ends_answer hanswer,
    .here hfollow (ends_answer hbuf) (by decide), hn, hdata, hstr, fun hspells => ?_⟩
  -- the string would end after two bytes
  have hlen := Bytes.str_length_le_of_zero hspells.nul Param.MAXPATH
  rw [hstr, hdata] at hlen
  exact absurd hlen (by decide)

end Small

end Xv6Sheet.Kernel
