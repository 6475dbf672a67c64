import Xv6Sheet.Kernel.LinkSpec
import Xv6Sheet.Kernel.NewEntry

/-! # What a link stores

`sys_symlink` writes the bytes of its target into a new node, and `sys_readlink` copies them to the
caller. The size of the caller's buffer is an `int` that becomes an unsigned number of bytes.
-/

namespace Xv6Sheet

theorem Bytes.toList_str (b : Bytes) (n : ℕ) : b.toList (b.str n).length = b.str n := by
  induction n generalizing b with
  | zero => rfl
  | succ n ih =>
    have ht := ih fun i => b (i + 1)
    unfold Bytes.str
    split
    · rfl
    · unfold Bytes.toList at ht ⊢
      rw [List.length_cons, List.range_succ_eq_map, List.map_cons, List.map_map]
      exact congrArg (b 0 :: ·) ht

namespace Kernel

open Exec

section Argument

variable {a a' : StrArg} {b b' : Bytes} {max : ℕ}

theorem argstr_of_mem (hmem : a'.mem = a.mem) (h : argstr a max = some b) :
    ∃ b', argstr a' max = some b' := by
  unfold argstr at h ⊢
  rw [hmem]
  split at h
  · cases h
  split at h
  · cases h
  rename_i hnone
  exact ⟨_, if_neg hnone⟩

variable [pm : Param]

def StrArg.text (a : StrArg) : List UInt8 :=
  match argstr a Param.MAXPATH with
  | none => []
  | some b => Bytes.str b Param.MAXPATH

theorem StrArg.length_text_le (a : StrArg) : a.text.length ≤ Param.MAXPATH := by
  unfold StrArg.text
  split
  · exact Nat.zero_le _
  · exact Bytes.str_length_le _ _

theorem StrArg.zero_not_mem_text (a : StrArg) : 0 ∉ a.text := by
  unfold StrArg.text
  split
  · exact List.not_mem_nil
  · exact Bytes.zero_not_mem_str _ _

theorem StrArg.length_text_lt (a : StrArg) (hmax : 0 < Param.MAXPATH) :
    a.text.length < Param.MAXPATH := by
  unfold StrArg.text
  split
  · exact hmax
  rename_i b hb
  obtain ⟨n, hn, h0, -, hcopy⟩ := argstr_eq_some hb
  have hend : b n = 0 := by
    rw [hcopy n le_rfl, h0]
    rfl
  exact lt_of_le_of_lt (Bytes.str_length_le_of_zero hend _) hn

theorem sameText_argstr (hmem : a'.mem = a.mem) (h : argstr a Param.MAXPATH = some b)
    (h' : argstr a' Param.MAXPATH = some b') : SameText b b' := by
  obtain ⟨n, -, hn0, hn, hb⟩ := argstr_eq_some h
  obtain ⟨n', -, hn0', hn', hb'⟩ := argstr_eq_some h'
  rw [hmem] at hn0' hn' hb'
  obtain rfl : n = n' := by
    rcases Nat.lt_trichotomy n n' with hlt | heq | hgt
    · exact absurd hn0 (hn' n hlt)
    · exact heq
    · exact absurd hn0' (hn n' hgt)
  intro j _ hin
  rcases Nat.lt_or_ge n j with hlt | hge
  · refine absurd ?_ (hin n hlt)
    rw [hb n le_rfl, hn0]
    rfl
  · rw [hb j hge, hb' j hge]

end Argument

variable [sb : Superblock] [pm : Param] {base : Set ℕ} {T T' : Tree} {R : ℕ → ℤ} {s t u : FsState}
  {ip cwd c d i : ℕ} {name : List UInt8} {nd nd' n : Node} {E : Fault → Prop} [hE : Permits E]

omit pm in
theorem Made.named (h : Made T d i name nd nd' n T') (hdir : n.type ≠ T_DIR)
    (hinodes : sb.ninodes ≤ 2 ^ 16) {j : ℕ} (hj : T'.Named j) : j = i ∨ T.Named j := by
  obtain ⟨k, m, hm, hmdir, e, he, rfl⟩ := hj
  by_cases hki : k = i
  · subst hki
    obtain rfl := Option.some.inj (h.self.symm.trans hm)
    exact absurd hmdir hdir
  by_cases hkd : k = d
  · subst hkd
    obtain rfl := Option.some.inj (h.dir_self.symm.trans hm)
    rcases h.adds.mem_entries he with rfl | hold
    · exact .inl (Nat.mod_eq_of_lt (lt_of_lt_of_le h.lt hinodes))
    · exact .inr ⟨k, nd, h.parent, h.dir, e, hold, rfl⟩
  · rw [h.of_ne hkd hki] at hm
    exact .inr ⟨k, m, hm, hmdir, e, he, rfl⟩

omit pm in
theorem Made.anchored {U : ℕ → Prop} (h : Made T d i name nd nd' n T') (hdir : n.type ≠ T_DIR)
    (hinodes : sb.ninodes ≤ 2 ^ 16) (ha : T.Anchored U c) : T'.Anchored U c := by
  intro j m hm h0 hin
  have hji : j ≠ i := by
    rintro rfl
    obtain rfl := Option.some.inj (h.self.symm.trans hm)
    exact absurd h.nlink (by rw [h0]; decide)
  have hin' : T.Within c j :=
    hin.imp_right (Or.imp_right fun hj => (h.named hdir hinodes hj).resolve_left hji)
  by_cases hjd : j = d
  · subst hjd
    obtain rfl := Option.some.inj (h.dir_self.symm.trans hm)
    refine ha j nd h.parent ?_ hin'
    rw [← h0, h.links, if_neg hdir]
  · rw [h.of_ne hjd hji] at hm
    exact ha j m hm h0 hin'

omit pm sb in
theorem Tree.Anchored.setData {U : ℕ → Prop} (h : T.Anchored U c) (hn : T i = some n)
    (hdir : n.type ≠ T_DIR) (data : List UInt8) :
    Tree.Anchored U (Function.update T i (some { n with data := data })) c := by
  intro j m hm h0 hin
  have hin' : T.Within c j := hin.imp_right (Or.imp_right fun hj => ?_)
  · by_cases hji : j = i
    · subst hji
      rw [Function.update_self] at hm
      obtain rfl := Option.some.inj hm
      exact h j n hn h0 hin'
    · rw [Function.update_of_ne hji] at hm
      exact h j m hm h0 hin'
  · obtain ⟨k, x, hx, hxdir, e, he, hej⟩ := hj
    have hki : k ≠ i := by
      rintro rfl
      rw [Function.update_self] at hx
      obtain rfl := Option.some.inj hx
      exact hdir hxdir
    rw [Function.update_of_ne hki] at hx
    exact ⟨k, x, hx, hxdir, e, he, hej⟩

/-- What a call of `sys_symlink` leaves: the tree as it was, or a new link with its target or,
when there was no room for the target, without it. -/
def Symlinked (base : Set ℕ) (T : Tree) (R : ℕ → ℤ) (c : ℕ) (target path : StrArg) (r : ℤ)
    (t : FsState) : Prop :=
  (r = -1 ∧ View base T R (fun _ => false) t) ∨
    ∃ p d name i nd nd' n T', argstr path Param.MAXPATH = some p ∧
      T.namex c p true = some (d, name) ∧
      Made T d i (Bytes.str name DIRSIZ) nd nd' n T' ∧ n.type = T_SYMLINK ∧
      ((r = 0 ∧ View base (Function.update T' i (some { n with data := target.text })) R
          (fun _ => false) t) ∨
        (r = -1 ∧ target.text ≠ [] ∧ View base T' R (fun _ => false) t))

theorem Settled.sysSymlink (h : Settled base T R cwd s) (hmax : Param.MAXPATH ≤ BSIZE)
    (hE : E noType)
    (target path : StrArg) : Wp E (sysSymlink cwd target path) (fun r t => Pins R s t ∧
      Symlinked base T R (s.inodes cwd).inum target path r t) s := by
  unfold Kernel.sysSymlink
  split
  swap
  · exact wp_pure.mpr ⟨.refl R s, .inl ⟨rfl, h.view⟩⟩
  rename_i tbuf p htarget hpath
  have htext : target.text = Bytes.str tbuf Param.MAXPATH := by
    unfold StrArg.text
    rw [htarget]
  refine wp_bind.mpr (wp_modify.mpr (wp_bind.mpr ?_))
  refine ((h.view.ops (s.ops + 1)).createStill h.cwd_pos rfl h.used h.anchored hE p (by decide)
    (by decide) 0 0).mono fun r t ht => ?_
  obtain ⟨hpin, ht⟩ := ht
  rcases r with - | ip
  · exact wp_bind.mpr (wp_modify.mpr (wp_pure.mpr ⟨hpin, .inl ⟨rfl, View.ops ht _⟩⟩))
  obtain ⟨T', hkept, ht, ⟨hfile, -⟩ | ⟨d, name, nd, nd', n, hw, hmade, htype, -⟩⟩ := ht
  · exact absurd hfile (by decide)
  have hl : Function.update (fun _ => false) ip true ip = true := Function.update_self ..
  have hpos := (ht.held ip hl).1
  have hdir : n.type ≠ T_DIR := by rw [htype]; decide
  have hdata : n.data = [] := by
    have hdata := hmade.data
    rwa [if_neg hdir] at hdata
  dsimp only
  rw [← htext]
  have hlen := target.length_text_le
  -- the link is given back, and the operation ends
  have hdone : ∀ {T₁ : Tree} {m : Node} {v : FsState} (r : ℤ), Pins R s v →
      View base T₁ (R + Pi.single ip 1) (Function.update (fun _ => false) ip true) v →
      T₁ (v.inodes ip).inum = some m → m.nlink = 1 →
      (∀ w, View base T₁ R (fun _ => false) w →
        Symlinked base T R (s.inodes cwd).inum target path r w) → Wp E (do
          Kernel.iunlockput ip
          endOp
          return r) (fun r t => Pins R s t ∧
            Symlinked base T R (s.inodes cwd).inum target path r t) v := by
    intro T₁ m v r hpin hv hm hlink hpost
    refine (hv.returns rfl hm (by rw [hlink]; decide) r).mono fun a w hw => ?_
    obtain ⟨rfl, hpin', hw⟩ := hw
    exact ⟨hpin.trans hpin', hpost w hw⟩
  refine wp_bind.mpr ((ht.writei hl hmade.self tbuf
    (Nat.zero_le _) (by simp only [BSIZE] at hmax; omega)).mono fun r v hv => ?_)
  rcases hv with ⟨rfl, rfl, hlt⟩ | ⟨tot, rfl, hle, hv, hkeep, -, hwhole⟩
  · rw [if_pos (by omega)]
    refine hdone (-1) hpin ht hmade.self hmade.nlink
      fun w hw' => .inr ⟨p, d, name, _, nd, nd', n, T',
      hpath, hw, hmade, htype, .inr ⟨rfl, ?_, hw'⟩⟩
    rintro hnil
    rw [hnil, hdata] at hlt
    exact absurd hlt (by simp)
  have hpins := hpin.trans ((ht.pins hv hkeep le_rfl le_rfl).mono (le_add_single R ip))
  have hi := (ht.pins hv hkeep le_rfl le_rfl ip hpos).1
  rw [hdata] at hv
  split
  · rename_i hshort
    have htot : tot = 0 := by
      refine (hwhole (by simp only [BSIZE] at hmax ⊢; omega)).resolve_right fun heq => hshort ?_
      rw [heq]
    subst htot
    have hsame : Function.update T' (t.inodes ip).inum
        (some { n with data := Bytes.overlay [] 0 (tbuf.toList 0) }) = T' := by
      have hnil : Bytes.overlay [] 0 (tbuf.toList 0) = n.data := by
        rw [hdata]
        rfl
      rw [hnil, ← hmade.self, Function.update_eq_self]
    rw [hsame] at hv
    refine hdone (-1) hpins hv (by rw [hi, hmade.self]) hmade.nlink
      fun w hw' => .inr ⟨p, d, name, _,
      nd, nd', n, T', hpath, hw, hmade, htype, .inr ⟨rfl, ?_, hw'⟩⟩
    rintro hnil
    rw [hnil] at hshort
    exact hshort rfl
  · rename_i hall
    have htot : tot = target.text.length := by omega
    have hover : Bytes.overlay [] 0 (tbuf.toList tot) = target.text := by
      rw [htot, htext, Bytes.toList_str]
      simp [Bytes.overlay]
    rw [hover] at hv
    refine hdone 0 hpins hv (m := { n with data := target.text })
      (by rw [hi, Function.update_self]) hmade.nlink fun w hw' => .inr ⟨p, d,
      name, _, nd, nd', n, T', hpath, hw, hmade, htype, .inl ⟨rfl, hw'⟩⟩

/-- A call of `sys_symlink` that answers 0 leaves a state in which the path leads to the link. -/
theorem Settled.symlinked (h : Settled base T R cwd s) (hmax : Param.MAXPATH ≤ BSIZE)
    (hinodes : sb.ninodes ≤ 2 ^ 16) {target path : StrArg}
    (hlink : Ends (Kernel.sysSymlink cwd target path) s 0 t) : ∃ T' p i name n,
      Settled base T' R cwd t ∧ argstr path Param.MAXPATH = some p ∧
      T'.namex (t.inodes cwd).inum p false = some (i, name) ∧ T' i = some n ∧
      n.type = T_SYMLINK ∧ n.data = target.text := by
  obtain ⟨hpin, hsym⟩ := (h.sysSymlink (E := fun _ => True) hmax trivial target path).1 _ _ hlink
  rcases hsym with ⟨h0, -⟩ |
    ⟨p, d, name, i, nd, nd', n, T', hpath, hw, hmade, htype, ⟨-, ht⟩ | ⟨h0, -⟩⟩
  · exact absurd h0 (by decide)
  swap
  · exact absurd h0 (by decide)
  have hdir : n.type ≠ T_DIR := by rw [htype]; decide
  have hcwd := (hpin cwd h.cwd_pos).1
  have hi : i % 2 ^ 16 = i := Nat.mod_eq_of_lt (lt_of_lt_of_le hmade.lt hinodes)
  have hentry := hmade.adds
  rw [hi] at hentry
  -- the directories have their names, and the new one
  obtain ⟨T₁, hT₁⟩ : ∃ T₁ : Tree, T₁ = Function.update T' i
    (some { n with data := target.text }) := ⟨_, rfl⟩
  rw [← hT₁] at ht
  have hself : T₁ i = some { n with data := target.text } := by rw [hT₁, Function.update_self]
  have hother : ∀ j, j ≠ i → T₁ j = T' j := fun j hj => by rw [hT₁, Function.update_of_ne hj]
  have hnd' : T₁ d = some nd' := by rw [hother d hmade.ne.symm, hmade.dir_self]
  have hdir' : nd'.type = T_DIR := by
    have htype' := congrArg Node.type hentry.fields
    exact htype'.trans hmade.dir
  have hanch : T₁.Anchored (InUse R t) (t.inodes cwd).inum := by
    have ha := (hmade.anchored hdir hinodes h.anchored).setData hmade.self hdir target.text
    rw [hcwd, hT₁]
    exact fun j m hm h0 hin => hpin.inUse (ha j m hm h0 hin)
  have hused : ∀ j, InUse R t j → T₁ j ≠ none := by
    rintro j ⟨k, hk, rfl⟩
    have hj := h.used _ ⟨k, hk, rfl⟩
    rw [← (hpin k hk).1] at hj
    by_cases hji : (t.inodes k).inum = i
    · rw [hji, hself]
      simp
    rw [hother _ hji]
    by_cases hjd : (t.inodes k).inum = d
    · rw [hjd, hmade.dir_self]
      simp
    · rwa [hmade.of_ne hjd hji]
  obtain ⟨o, hnew⟩ := hentry.lookup_self hmade.absent hmade.pos.ne'
  have hkeep : ∀ j m x o r, T j = some m → m.type = T_DIR → m.lookup x = some (o, r) →
      ∃ m' o', T₁ j = some m' ∧ m'.type = T_DIR ∧ m'.lookup x = some (o', r) := by
    intro j m x o r hm hmdir hx
    have hji : j ≠ i := by
      rintro rfl
      rw [hmade.free] at hm
      cases hm
    by_cases hjd : j = d
    · subst hjd
      obtain rfl := Option.some.inj (hmade.parent.symm.trans hm)
      refine ⟨nd', o, hnd', hdir', ?_⟩
      rw [← hx]
      refine hentry.lookup_of_ne fun hname => ?_
      rw [hname, hmade.absent] at hx
      cases hx
    · exact ⟨m, o, by rw [hother j hji, hmade.of_ne hjd hji, hm], hmdir, hx⟩
  obtain ⟨name', hchild⟩ := Tree.walk_child hkeep ⟨nd', o, hnd', hdir', hnew⟩
    (Nat.le_add_right _ 0) hw
  refine ⟨T₁, p, i, name', _, ⟨ht, h.cwd_pos, hused, hanch⟩, hpath, ?_, hself, htype, rfl⟩
  rw [hcwd]
  exact hchild

/-- Where the path leads to a link, its first bytes are copied, as many as the unsigned size
says. -/
theorem Settled.sysReadlink (h : Settled base T R cwd s) (hE : E noType) {path : StrArg}
    {p name : Bytes}
    (hpath : argstr path Param.MAXPATH = some p)
    (hw : T.namex (s.inodes cwd).inum p false = some (i, name)) (hn : T i = some n)
    (htype : n.type = T_SYMLINK) (ubuf : Bytes) (bufsize : Int32) :
    Wp E (sysReadlink cwd path ubuf bufsize) (fun r _ =>
      r.1 = Fs.readable n.data.length 0 bufsize.toUInt32.toNat ∧
      r.2 = ubuf.copy 0 (Bytes.ofList n.data) 0
        (Fs.readable n.data.length 0 bufsize.toUInt32.toNat)) s := by
  unfold Kernel.sysReadlink
  rw [hpath]
  refine wp_bind.mpr (wp_modify.mpr (wp_bind.mpr ?_))
  refine ((h.view.ops (s.ops + 1)).nameiStill h.cwd_pos rfl h.anchored hE
    (by simp)).mono fun r t hr => ?_
  obtain ⟨hpin, -, hr⟩ := hr
  rcases r with - | ip
  · exact absurd (hw.symm.trans hr.1) (by simp)
  obtain ⟨name', hw', ht⟩ := hr
  obtain ⟨hi, -⟩ := Prod.mk.inj (Option.some.inj (hw.symm.trans hw'))
  have hpos := h.view.single_pos ip
  refine wp_bind.mpr ((ht.ilock hpos (fun _ => hE) (by simp)).mono fun _ u hu => ?_)
  obtain ⟨hu, hk, -, -⟩ := hu
  have hl : Function.update (fun _ => false) ip true ip = true := Function.update_self ..
  have hnu : T (u.inodes ip).inum = some n := by
    rw [(ht.pins hu hk le_rfl le_rfl ip hpos).1, ← hi, hn]
  refine wp_bind.mpr (wp_inode.mpr ?_)
  rw [(hu.size_eq hl hnu).1, htype, if_neg (by simp)]
  refine wp_bind.mpr ((hu.readi hl hnu ubuf (by decide) (UInt32.toNat_lt _)).mono fun r v hr => ?_)
  obtain ⟨r, out⟩ := r
  obtain ⟨rfl, hr, hout⟩ := hr
  refine wp_bind.mpr ((hu.iunlockput hl).mono fun _ w _ => ?_)
  exact wp_bind.mpr (wp_modify.mpr (wp_pure.mpr ⟨hr, hout⟩))

omit sb pm in
theorem toNat_toUInt32 (x : Int32) : (0 ≤ x.toInt ∧ (x.toUInt32.toNat : ℤ) = x.toInt) ∨
    (x.toInt < 0 ∧ 2 ^ 31 ≤ x.toUInt32.toNat) := by
  have hint : x.toInt = x.toBitVec.toInt := rfl
  have hnat : x.toUInt32.toNat = x.toBitVec.toNat := rfl
  rw [hint, hnat, BitVec.toInt_eq_toNat_cond]
  have hlt := x.toBitVec.isLt
  split <;> omega

/-- `sys_readlink` answers the first bytes of what `sys_symlink` stored exactly when the size of the
buffer is not negative or there is nothing to copy. -/
theorem sysReadlink_stored (h : Settled base T R cwd s) (hmax : Param.MAXPATH ≤ BSIZE)
    (hinodes : sb.ninodes ≤ 2 ^ 16) {target path path' : StrArg} (hmem : path'.mem = path.mem)
    (hlink : Ends (Kernel.sysSymlink cwd target path) s 0 t) {ubuf out : Bytes} {bufsize : Int32}
    {r : ℤ} (hread : Ends (Kernel.sysReadlink cwd path' ubuf bufsize) t (r, out) u) :
    (r = min (target.text.length : ℤ) (max bufsize.toInt 0) ∧
      out = ubuf.copy 0 (Bytes.ofList target.text) 0
        (min target.text.length (max bufsize.toInt 0).toNat)) ↔
      0 ≤ bufsize.toInt ∨ target.text = [] := by
  obtain ⟨T', p, i, name, n, ht, hpath, hw, hn, htype, hdata⟩ := h.symlinked hmax hinodes hlink
  obtain ⟨p', hpath'⟩ := argstr_of_mem hmem hpath
  rw [(sameText_argstr hmem hpath hpath').namex] at hw
  obtain ⟨hr, hout⟩ := (ht.sysReadlink (E := fun _ => True) trivial hpath' hw hn htype ubuf
    bufsize).1 _ _ hread
  dsimp only at hr hout
  rw [hdata] at hr hout
  have hlen := target.length_text_le
  have hlt := bufsize.toUInt32.toNat_lt
  have hk : Fs.readable target.text.length 0 bufsize.toUInt32.toNat =
      min bufsize.toUInt32.toNat target.text.length := by
    unfold Fs.readable
    rw [if_neg (by omega), Nat.sub_zero]
  rw [hk] at hr hout
  rcases toNat_toUInt32 bufsize with ⟨hpos, heq⟩ | ⟨hneg, hbig⟩
  · refine iff_of_true ⟨?_, ?_⟩ (.inl hpos)
    · rw [hr]
      omega
    · rw [hout]
      congr 1
      omega
  · constructor
    · rintro ⟨hr', -⟩
      refine .inr (List.length_eq_zero_iff.mp ?_)
      simp only [BSIZE] at hmax
      omega
    · rintro (hpos | hnil)
      · omega
      · rw [hr, hout, hnil]
        simp

section Small

omit pm sb

theorem runs_symlink :
    letI := smallDisk
    letI := smallParam
    let t := after (sysSymlink 0 (pathArg [47, 120]) (pathArg [47, 108])) smallTask.sys.fs
    answer (sysSymlink 0 (pathArg [47, 120]) (pathArg [47, 108])) smallTask.sys.fs = some 0 ∧
      (answer (sysReadlink 0 (pathArg [47, 108]) (fun _ => 7) 1) t).map Prod.fst = some 1 ∧
      (answer (sysReadlink 0 (pathArg [47, 108]) (fun _ => 7) (-1)) t).map
        (fun r => (r.1, r.2 0)) = some (2, 47) ∧
      (pathArg [47, 120]).text = [47, 120] := by
  decide +kernel

/-- The state in which the small machine has made a link. -/
structure LinkMade (target path : List UInt8) where
  fs : FsState
  ends :
    letI := smallDisk
    letI := smallParam
    Ends (sysSymlink 0 (pathArg target) (pathArg path)) smallTask.sys.fs 0 fs

def LinkMade.make {target path : List UInt8}
    (h :
      letI := smallDisk
      letI := smallParam
      answer (sysSymlink 0 (pathArg target) (pathArg path)) smallTask.sys.fs = some 0) :
    LinkMade target path :=
  let _ := smallDisk
  let _ := smallParam
  ⟨after (sysSymlink 0 (pathArg target) (pathArg path)) smallTask.sys.fs, ends_answer h⟩

def LinkMade.task {target path : List UInt8} (l : LinkMade target path) :
    @Task (@FilePtr smallParam) (@Sys Unit smallParam) smallParam :=
  let _ := smallParam
  { smallTask with sys.fs := l.fs }

theorem LinkMade.made {target path : List UInt8} (l : LinkMade target path) :
    letI := smallDisk
    letI := smallParam
    Ends (sysSymlink 0 (pathArg target) (pathArg path)) smallTask.sys.fs 0 l.task.sys.fs :=
  l.ends

theorem LinkMade.settled {target path : List UInt8} (l : LinkMade target path) :
    letI := smallDisk
    letI := smallParam
    ∃ T, tree l.task.sys.fs.disk = T ∧ Settled smallMachine.sys.fs.disk.used T
      (fun ip => if ip = 0 then 64 else 0) l.task.proc.cwd l.task.sys.fs := by
  let _ := smallDisk
  let _ := smallParam
  obtain ⟨T, -, -, -, -, hset, -⟩ := settled_smallTask.symlinked (by decide) (by decide) l.made
  exact ⟨T, hset.view.tree_eq, hset⟩

/-- The link `/l`, whose target `/x` is as long as its path and not there. -/
def evenLink : LinkMade [47, 120] [47, 108] := .make runs_symlink.1

/-- The link `/l`, whose target `//` is the root directory. -/
def rootLink : LinkMade [47, 47] [47, 108] := .make (by decide +kernel)

/-- One byte of the target of a link fits the buffer. -/
theorem sysReadlink_stored_small :
    letI := smallDisk
    letI := smallParam
    ∃ t out u, Ends (sysSymlink 0 (pathArg [47, 120]) (pathArg [47, 108])) smallTask.sys.fs 0 t ∧
      Ends (sysReadlink 0 (pathArg [47, 108]) (fun _ => 7) 1) t (1, out) u ∧
      out = Bytes.copy (fun _ => 7) 0 (Bytes.ofList [47, 120]) 0 1 := by
  let _ := smallDisk
  let _ := smallParam
  obtain ⟨hmade, hone, -, htext⟩ := runs_symlink
  have hlink := ends_answer hmade
  obtain ⟨⟨r, out⟩, hanswer, hr⟩ := Option.map_eq_some_iff.mp hone
  obtain rfl : r = 1 := hr
  have hread := ends_answer hanswer
  have hout := ((sysReadlink_stored settled_smallTask (by decide) (by decide) rfl hlink hread).mpr
    (.inl (by decide))).2
  rw [htext] at hout
  exact ⟨_, out, _, hlink, hread, hout⟩

/-- With a negative size the whole target is copied. -/
theorem sysReadlink_negative :
    letI := smallDisk
    letI := smallParam
    ∃ t out u, Ends (sysSymlink 0 (pathArg [47, 120]) (pathArg [47, 108])) smallTask.sys.fs 0 t ∧
      Ends (sysReadlink 0 (pathArg [47, 108]) (fun _ => 7) (-1)) t (2, out) u ∧ out 0 = 47 ∧
      (2 : ℤ) ≠ min ((pathArg [47, 120]).text.length : ℤ) (max (-1) 0) := by
  let _ := smallDisk
  let _ := smallParam
  obtain ⟨hmade, -, hall, htext⟩ := runs_symlink
  obtain ⟨⟨r, out⟩, hanswer, hr⟩ := Option.map_eq_some_iff.mp hall
  obtain ⟨rfl, h0⟩ := Prod.mk.inj hr
  refine ⟨_, out, _, ends_answer hmade, ends_answer hanswer, h0, ?_⟩
  rw [htext]
  decide

end Small

end Kernel

end Xv6Sheet
