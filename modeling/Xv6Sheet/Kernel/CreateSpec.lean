import Xv6Sheet.Kernel.PathSpec
import Xv6Sheet.Kernel.Sysfile

/-! # What `create` does

A new inode with one link and its entry in a directory, or the tree as it was but for nodes
without links that the walk of the path gave up.
-/

namespace Xv6Sheet.Kernel

open Exec

/-- A new directory `m` with the number `i` in the directory `d`: `n` with `.` and `..`. -/
def Dots (d i : ℕ) (n m : Node) : Prop :=
  ∃ m₁, Adds n m₁ ⟨i % 2 ^ 16, Bytes.str dot DIRSIZ⟩ ∧
    Adds m₁ m ⟨d % 2 ^ 16, Bytes.str dotdot DIRSIZ⟩

theorem Dots.fields {d i : ℕ} {n m : Node} (h : Dots d i n m) : m = { n with data := m.data } := by
  obtain ⟨m₁, h₁, h₂⟩ := h
  rw [h₂.fields, h₁.fields]

/-- The tree after the node `n` was made under a name in the directory `d`, which was `nd` and
is now `nd'`. -/
structure Made [Superblock] (T : Tree) (d i : ℕ) (name : List UInt8) (nd nd' n : Node)
    (T' : Tree) : Prop where
  free : T i = none
  pos : 0 < i
  lt : i < Superblock.ninodes
  parent : T d = some nd
  dir : nd.type = T_DIR
  absent : nd.lookup name = none
  adds : Adds nd { nd' with nlink := nd.nlink } ⟨i % 2 ^ 16, name⟩
  links : nd'.nlink = if n.type = T_DIR then toShort (nd.nlink + 1) else nd.nlink
  nlink : n.nlink = 1
  data : if n.type = T_DIR then Dots d i { n with data := [] } n else n.data = []
  tree : T' = Function.update (Function.update T i (some n)) d (some nd')

variable [sb : Superblock] [pm : Param] {base : Set ℕ} {T T₀ : Tree} {U : ℕ → Prop}
  {R : ℕ → ℤ} {L : ℕ → Bool} {s t : FsState} {ip dp cwd d i : ℕ} {n nd : Node} {path name : Bytes}
  {E : Fault → Prop} [hE : Permits E]

/-- What the end of `create` answers for a new inode. -/
def NewInode (base : Set ℕ) (U : ℕ → Prop) (T : Tree) (R : ℕ → ℤ) (L : ℕ → Bool) (ip d i : ℕ)
    (name : List UInt8) (nd : Node) (type major minor : ℤ) : Option ℕ → FsState → Prop
  | none, t => ∃ T', Drops U T T' ∧ View base T' R L t
  | some k, t => k = ip ∧ L ip = false ∧ (t.inodes ip).inum = i ∧ ∃ nd' n T₂ T',
      Made T d i name nd nd' n T₂ ∧ n.type = type ∧ n.major = major ∧ n.minor = minor ∧
      Drops U T₂ T' ∧ View base T' (R + Pi.single ip 1) (Function.update L ip true) t

/-- What `create` answers: a locked inode, which the path named already or which was made, and
otherwise a tree in which at most nodes without links are gone. -/
def Created (base : Set ℕ) (U : ℕ → Prop) (T : Tree) (R : ℕ → ℤ) (L : ℕ → Bool)
    (w : Option (ℕ × Bytes)) (type major minor : ℤ) : Option ℕ → FsState → Prop
  | none, t => ∃ T', Drops U T T' ∧ View base T' R L t
  | some ip, t => L ip = false ∧ ∃ d name T₁ T₂ T', w = some (d, name) ∧ Drops U T T₁ ∧
      Drops U T₂ T' ∧ View base T' (R + Pi.single ip 1) (Function.update L ip true) t ∧
      ((type = T_FILE ∧ T₂ = T₁ ∧ ∃ nd k m, T₁ d = some nd ∧ nd.type = T_DIR ∧
          nd.lookup (Bytes.str name DIRSIZ) = some (k, (t.inodes ip).inum) ∧
          T' (t.inodes ip).inum = some m ∧ (m.type = T_FILE ∨ m.type = T_DEVICE)) ∨
        ∃ nd nd' n, Made T₁ d (t.inodes ip).inum (Bytes.str name DIRSIZ) nd nd' n T₂ ∧
          n.type = type ∧ n.major = major ∧ n.minor = minor)

/-- What `createLinks` answers: all links are there, or the new inode may have its own. -/
def Linked (base : Set ℕ) (T : Tree) (R : ℕ → ℤ) (L : ℕ → Bool) (d i : ℕ) (name : Bytes)
    (n nd : Node) : Bool → FsState → Prop
  | false, t => ∃ m, m = { n with data := m.data } ∧
      View base (Function.update T i (some m)) R L t
  | true, t => nd.type = T_DIR ∧ nd.lookup (Bytes.str name DIRSIZ) = none ∧
      ∃ m nd', (if n.type = T_DIR then Dots d i n m else m = n) ∧
        Adds nd nd' ⟨i % 2 ^ 16, Bytes.str name DIRSIZ⟩ ∧
        View base (Function.update (Function.update T i (some m)) d (some nd')) R L t

omit pm hE in
theorem Made.of_links {name : List UInt8} {nd' m : Node} {type major minor k : ℤ}
    (hfree : T i = none)
    (hpos : 0 < i) (hlt : i < sb.ninodes) (hnd : T d = some nd) (hdir : nd.type = T_DIR)
    (habsent : nd.lookup name = none) (hm : m = ⟨type, major, minor, 1, m.data⟩)
    (hdata : if type = T_DIR then Dots d i ⟨type, major, minor, 1, []⟩ m
      else m = ⟨type, major, minor, 1, []⟩)
    (hadds : Adds nd nd' ⟨i % 2 ^ 16, name⟩)
    (hk : k = if m.type = T_DIR then toShort (nd.nlink + 1) else nd.nlink) :
    Made T d i name nd { nd' with nlink := k } m
      (Function.update (Function.update T i (some m)) d (some { nd' with nlink := k })) := by
  have htype : m.type = type := by rw [hm]
  have hempty : ({ m with data := [] } : Node) = ⟨type, major, minor, 1, []⟩ := by rw [hm]
  have hsame : ({ nd' with nlink := nd.nlink } : Node) = nd' := by rw [hadds.fields]
  refine ⟨hfree, hpos, hlt, hnd, hdir, habsent, hsame.symm ▸ hadds, hk, by rw [hm], ?_, rfl⟩
  rw [hempty, htype]
  split at hdata
  · rename_i hdir'
    rwa [if_pos hdir']
  · rename_i hdir'
    rw [if_neg hdir', hdata]

namespace View

omit hE in
theorem linkName {m : Node} (h : View base (Function.update T i (some m)) R L s)
    (hdp : L dp = true) (hd : (s.inodes dp).inum = d) (hne : i ≠ d) (hnd : T d = some nd)
    (hm : m = { n with data := m.data }) (hdots : if n.type = T_DIR then Dots d i n m else m = n)
    (hs : LookStops E R nd (Bytes.str name DIRSIZ)) :
    Wp E (do if (← Kernel.dirlink dp name i) < 0 then return false else return true)
      (fun r t => Pins R s t ∧ Linked base T R L d i name n nd r t) s := by
  have hnd' : Function.update T i (some m) (s.inodes dp).inum = some nd := by
    rw [hd, Function.update_of_ne (Ne.symm hne), hnd]
  refine wp_bind.mpr ((h.dirlinkStrict hdp hnd' hs i).mono fun r u hr => ?_)
  obtain ⟨hdir, hk, hr⟩ := hr
  rcases hr with ⟨hneg, hu⟩ | ⟨hpos, habsent, nd', hadds, hu⟩
  · rw [if_pos hneg]
    exact wp_pure.mpr ⟨h.pins hu hk le_rfl le_rfl, m, hm, hu⟩
  · rw [if_neg (by omega)]
    rw [hd] at hu
    exact wp_pure.mpr ⟨h.pins hu hk le_rfl le_rfl, hdir, habsent, m, nd', hdots, hadds, hu⟩

omit hE in
theorem createLinksStrict (h : View base T R L s) (hip : L ip = true) (hdp : L dp = true)
    (hi : (s.inodes ip).inum = i) (hd : (s.inodes dp).inum = d) (hne : i ≠ d)
    (hn : T i = some n) (hnd : T d = some nd) (hdirs : n.type = T_DIR → Permits E)
    (hs : LookStops E R nd (Bytes.str name DIRSIZ)) :
    Wp E (Kernel.createLinks ip dp name n.type)
      (fun r t => Pins R s t ∧ Linked base T R L d i name n nd r t) s := by
  have hrip := (h.held ip hip).1
  have hrdp := (h.held dp hdp).1
  have hself : Function.update T i (some n) = T := by rw [← hn, Function.update_eq_self]
  have hfail : ∀ {t : FsState} {m : Node}, Pins R s t → m = { n with data := m.data } →
      View base (Function.update T i (some m)) R L t →
      Wp E (return false) (fun r t => Pins R s t ∧ Linked base T R L d i name n nd r t) t :=
    fun hp hm ht => wp_pure.mpr ⟨hp, _, hm, ht⟩
  refine wp_bind.mpr (wp_inode.mpr ?_)
  dsimp only
  rw [hi]
  split
  swap
  · rename_i hdir
    exact (hself ▸ h).linkName hdp hd hne hnd rfl (by rw [if_neg hdir]) hs
  rename_i hdir
  have := hdirs hdir
  refine wp_bind.mpr ((h.dirlink (n := n) hip (by rwa [hi]) dot i).mono fun r t hr => ?_)
  obtain ⟨-, hk, ⟨hneg, ht⟩ | ⟨hpos, -, m₁, hadds₁, ht⟩⟩ := hr
  · rw [if_pos hneg]
    exact hfail (h.pins ht hk le_rfl le_rfl) rfl (hself.symm ▸ ht)
  rw [if_neg (by omega)]
  rw [hi] at ht
  have hpin := h.pins ht hk le_rfl le_rfl
  refine wp_bind.mpr (wp_inode.mpr (wp_bind.mpr ?_))
  rw [(hpin dp hrdp).1, hd]
  have hn₁ : Function.update T i (some m₁) (t.inodes ip).inum = some m₁ := by
    rw [(hpin ip hrip).1, hi, Function.update_self]
  refine (ht.dirlink hip hn₁ dotdot d).mono fun r u hr => ?_
  obtain ⟨-, hk', ⟨hneg, hu⟩ | ⟨hpos, -, m₂, hadds₂, hu⟩⟩ := hr
  · rw [if_pos hneg]
    exact hfail (hpin.trans (ht.pins hu hk' le_rfl le_rfl)) hadds₁.fields hu
  rw [if_neg (by omega)]
  rw [(hpin ip hrip).1, hi, Function.update_idem] at hu
  have hpin' := hpin.trans (ht.pins hu hk' le_rfl le_rfl)
  refine (hu.linkName hdp ((hpin' dp hrdp).1.trans hd) hne hnd ?_ ?_ hs).mono fun r v hv =>
    ⟨hpin'.trans hv.1, hv.2⟩
  · rw [hadds₂.fields, hadds₁.fields]
  · rw [if_pos hdir]
    exact ⟨m₁, hadds₁, hadds₂⟩

theorem createLinks (h : View base T R L s) (hip : L ip = true) (hdp : L dp = true)
    (hi : (s.inodes ip).inum = i) (hd : (s.inodes dp).inum = d) (hne : i ≠ d)
    (hn : T i = some n) (hnd : T d = some nd) :
    Wp E (createLinks ip dp name n.type)
      (fun r t => Pins R s t ∧ Linked base T R L d i name n nd r t) s :=
  h.createLinksStrict hip hdp hi hd hne hn hnd (fun _ => hE) (.of_permits ..)

omit hE in
theorem single_pos (h : View base T R L s) (k : ℕ) : 0 < (R + Pi.single k 1 : ℕ → ℤ) k := by
  have h0 := h.nonneg k
  simp only [Pi.add_apply, Pi.single_eq_same]
  omega

omit hE in
theorem setNlink (h : View base T R L s) (hl : L ip = true) (hi : (s.inodes ip).inum = i)
    (hn : T i = some n) (g : ℤ → ℤ) : Wp E (do
      modifyInode ip fun i => { i with nlink := g i.nlink }
      iupdate ip) (fun _ t => View base (Function.update T i (some { n with nlink := g n.nlink }))
        R L t ∧ Pins R s t) s := by
  subst hi
  obtain ⟨hr, hv⟩ := h.held ip hl
  obtain ⟨m, hm, -, hmajor, hminor, hnlink, -⟩ := h.node hr hv
  obtain rfl : n = m := Option.some.inj (hn.symm.trans hm)
  refine (h.setFields hl hn _ { n with nlink := g n.nlink } ?_ rfl).mono fun _ t ht =>
    ⟨ht.1, h.pins ht.1 ht.2 le_rfl le_rfl⟩
  rw [hmajor.symm, hminor.symm, hnlink]

omit hE in
theorem createExisting (hR : ∀ k, 0 ≤ R k) {type : ℤ}
    (h : View base T (R + Pi.single ip 1 + Pi.single dp 1) (Function.update L dp true) s)
    (hdp : L dp = false) (hdead : ∀ k, L k = true → E .deadlock)
    (hUd : U (s.inodes dp).inum → InUse R s (s.inodes dp).inum)
    (hUi : U (s.inodes ip).inum → InUse R s (s.inodes ip).inum)
    (hsafe : E noType ∨ T.Tidy ∧ T (s.inodes ip).inum ≠ none) :
    Wp E (do
      Kernel.iunlockput dp
      Kernel.ilock ip
      let t := (← inode ip).type
      if type = T_FILE ∧ (t = T_FILE ∨ t = T_DEVICE) then return some ip
      else do
        Kernel.iunlockput ip
        return none) (fun r t => Pins R s t ∧ ∃ T', Drops U T T' ∧ match r with
          | none => View base T' R L t
          | some k => k = ip ∧ L ip = false ∧ type = T_FILE ∧
              (t.inodes ip).inum = (s.inodes ip).inum ∧
              View base T' (R + Pi.single ip 1) (Function.update L ip true) t ∧
              ∃ m, T' (t.inodes ip).inum = some m ∧ (m.type = T_FILE ∨ m.type = T_DEVICE)) s := by
  have hle := le_add_single R ip
  have hpos : 0 < (R + Pi.single ip 1 : ℕ → ℤ) ip := by
    have h0 := hR ip
    simp only [Pi.add_apply, Pi.single_eq_same]
    omega
  -- the inode found is in use while the directory goes back
  have hkeep : U (s.inodes dp).inum ∨ (s.inodes dp).inum = (s.inodes ip).inum →
      InUse (R + Pi.single ip 1) s (s.inodes dp).inum := by
    rintro (hu | hi)
    · exact (hUd hu).mono hle
    · exact ⟨ip, hpos, hi.symm⟩
  refine wp_bind.mpr ((h.giveBack (U := fun i => U i ∨ i = (s.inodes ip).inum) hdp hkeep).mono
    fun _ t ht => ?_)
  obtain ⟨hpin, T₁, hd₁, ht⟩ := ht
  have hi := (hpin ip hpos).1
  have hdU := hd₁.mono (U := U) fun _ => .inl
  refine wp_bind.mpr ((ht.ilock hpos (fun hn => ?_) (hdead ip)).mono fun _ u hu => ?_)
  · refine hsafe.resolve_right fun hs => hd₁.ne_none hs.2 (.inr rfl) ?_
    rwa [hi] at hn
  obtain ⟨hu, hk, hlock, hv⟩ := hu
  have hpin' := hpin.trans (ht.pins hu hk le_rfl le_rfl)
  obtain ⟨m, hm, htype, -⟩ := hu.node hpos hv
  refine wp_bind.mpr (wp_inode.mpr ?_)
  dsimp only
  rw [htype]
  split
  · rename_i hfile
    exact wp_pure.mpr ⟨hpin'.mono hle, T₁, hdU, rfl, hlock, hfile.1, (hpin' ip hpos).1, hu, m, hm,
      hfile.2⟩
  · have hU' : U (u.inodes ip).inum → InUse R u (u.inodes ip).inum := by
      rw [(hpin' ip hpos).1]
      exact fun hi => (hpin'.mono hle).inUse (hUi hi)
    refine wp_bind.mpr ((hu.giveBack hlock hU').mono fun _ v hv => wp_pure.mpr ?_)
    obtain ⟨hpin'', T₂, hd₂, hv⟩ := hv
    exact ⟨(hpin'.mono hle).trans hpin'', T₂, hdU.trans hd₂, hv⟩

omit hE in
/-- The way back of `create`: without its links, a new inode goes away with its last reference. -/
theorem undoNew {m : Node} (hR : ∀ k, 0 ≤ R k)
    (h : View base (Function.update T i (some m)) (R + Pi.single dp 1 + Pi.single ip 1)
      (Function.update (Function.update L dp true) ip true) s)
    (hdp : L dp = false) (hlock : L ip = false) (hip : R ip = 0) (hne : ip ≠ dp)
    (hi : (s.inodes ip).inum = i) (hfree : T i = none)
    (hU : U (s.inodes dp).inum → InUse R s (s.inodes dp).inum) : Wp E (do
      modifyInode ip fun i => { i with nlink := 0 }
      iupdate ip
      Kernel.iunlockput ip
      Kernel.iunlockput dp
      return (none : Option ℕ)) (fun r t => r = none ∧ Pins R s t ∧
        ∃ T', Drops U T T' ∧ View base T' R L t) s := by
  have hlip : Function.update (Function.update L dp true) ip true ip = true :=
    Function.update_self ..
  have hip1 : (R + Pi.single dp 1 + Pi.single ip 1 : ℕ → ℤ) ip = 1 := by
    simp [hip, hne]
  have hdp1 : 0 < (R + Pi.single dp 1 : ℕ → ℤ) dp := by
    have h0 := hR dp
    simp only [Pi.add_apply, Pi.single_eq_same]
    omega
  have hle : R ≤ R + Pi.single dp 1 + Pi.single ip 1 :=
    (le_add_single R dp).trans (le_add_single _ ip)
  refine .seq (h.setNlink hlip hi (Function.update_self ..) fun _ => 0) fun _ t ht => ?_
  obtain ⟨ht, hpin⟩ := ht
  rw [Function.update_idem] at ht
  have hti := (hpin ip (by omega)).1.trans hi
  -- the last reference to an inode without links
  refine wp_bind.mpr ((ht.iunlockput hlip).mono fun _ u hu => ?_)
  obtain ⟨hu, hk⟩ := hu
  have hput : Tree.put (Function.update T i (some { m with nlink := 0 })) (t.inodes ip).inum
      ((R + Pi.single dp 1 + Pi.single ip 1 : ℕ → ℤ) ip) = T := by
    rw [hip1, hti, Tree.put, if_pos ⟨rfl, by simp⟩, Function.update_idem, ← hfree,
      Function.update_eq_self]
  have hself : Function.update (Function.update L dp true) ip false =
    Function.update L dp true := by
    rw [← hlock]
    exact Function.update_of_ne hne true L ▸ Function.update_eq_self ..
  rw [hput, add_sub_cancel_right, Function.update_idem, hself] at hu
  have hpinu := (hpin.mono hle).trans (ht.pins hu hk hle (le_add_single R dp))
  have hud : (u.inodes dp).inum = (s.inodes dp).inum :=
    (ht.pins hu hk (le_add_single _ ip) le_rfl dp hdp1).1.trans
      (hpin dp (lt_of_lt_of_le hdp1 (le_add_single _ ip dp))).1
  have hU' : U (u.inodes dp).inum → InUse R u (u.inodes dp).inum := by
    rw [hud]
    exact fun hui => hpinu.inUse (hU hui)
  refine wp_bind.mpr ((hu.giveBack hdp hU').mono fun _ v hv => wp_pure.mpr ?_)
  obtain ⟨hpinv, T', hd', hv⟩ := hv
  exact ⟨rfl, hpinu.trans hpinv, T', hd', hv⟩

omit hE in
theorem keepNew {type major minor k : ℤ} {nd' m : Node}
    (h : View base (Function.update (Function.update T i (some m)) d (some { nd' with nlink := k }))
      (R + Pi.single ip 1 + Pi.single dp 1) (Function.update (Function.update L ip true) dp true) s)
    (hdp : L dp = false) (hlock : L ip = false) (hip : R ip = 0) (hne : ip ≠ dp)
    (hU : U d → InUse R s d) (hi : (s.inodes ip).inum = i) (hd : (s.inodes dp).inum = d)
    (hmade : Made T d i (Bytes.str name DIRSIZ) nd { nd' with nlink := k } m
      (Function.update (Function.update T i (some m)) d (some { nd' with nlink := k })))
    (hm : m = ⟨type, major, minor, 1, m.data⟩) :
    Wp E (do
      Kernel.iunlockput dp
      return some ip) (fun r t => Pins R s t ∧
        NewInode base U T R L ip d i (Bytes.str name DIRSIZ) nd type major minor r t) s := by
  have hldp : Function.update L ip true dp = false := by
    rwa [Function.update_of_ne (Ne.symm hne)]
  have hU' : U (s.inodes dp).inum → InUse (R + Pi.single ip 1) s (s.inodes dp).inum := by
    rw [hd]
    exact fun hu => (hU hu).mono (le_add_single R ip)
  refine wp_bind.mpr ((h.giveBack hldp hU').mono fun _ t ht => wp_pure.mpr ?_)
  obtain ⟨hpin, T', hd', ht⟩ := ht
  refine ⟨hpin.mono (le_add_single R ip), rfl, hlock, ?_, _, m, _, T', hmade, ?_, ?_, ?_, hd', ht⟩
  · exact (hpin ip (by simp [hip])).1.trans hi
  all_goals rw [hm]

omit hE in
/-- The end of `create` with all links of the new inode: a directory is counted in its parent. -/
theorem countNew {type major minor : ℤ} {nd' m : Node}
    (h : View base (Function.update (Function.update T i (some m)) d (some nd'))
      (R + Pi.single dp 1 + Pi.single ip 1) (Function.update (Function.update L dp true) ip true) s)
    (hdp : L dp = false) (hlock : L ip = false) (hip : R ip = 0) (hne : ip ≠ dp)
    (hU : U d → InUse R s d) (hi : (s.inodes ip).inum = i) (hd : (s.inodes dp).inum = d)
    (hfree : T i = none) (hpos : 0 < i) (hlt : i < sb.ninodes) (hnd : T d = some nd)
    (hdir : nd.type = T_DIR) (habsent : nd.lookup (Bytes.str name DIRSIZ) = none)
    (hdata : if type = T_DIR then Dots d i ⟨type, major, minor, 1, []⟩ m
      else m = ⟨type, major, minor, 1, []⟩)
    (hadds : Adds nd nd' ⟨i % 2 ^ 16, Bytes.str name DIRSIZ⟩) :
    Wp E (if type = T_DIR then do
        modifyInode dp fun i => { i with nlink := toShort (i.nlink + 1) }
        iupdate dp
        Kernel.iunlockput dp
        return some ip
      else do
        Kernel.iunlockput dp
        return some ip) (fun r t => Pins R s t ∧
          NewInode base U T R L ip d i (Bytes.str name DIRSIZ) nd type major minor r t) s := by
  have hm : m = ⟨type, major, minor, 1, m.data⟩ := by
    split at hdata
    · exact hdata.fields
    · rw [hdata]
  have htype : m.type = type := by rw [hm]
  have hnlink : nd'.nlink = nd.nlink := by rw [hadds.fields]
  have hle : R ≤ R + Pi.single ip 1 + Pi.single dp 1 :=
    (le_add_single R ip).trans (le_add_single _ dp)
  have hdp1 := h.single_pos dp
  rw [add_right_comm, Function.update_comm (Ne.symm hne)] at h
  split
  · rename_i hdir'
    refine .seq (h.setNlink (Function.update_self ..) hd (Function.update_self ..)
      fun x => toShort (x + 1)) fun _ t ht => ?_
    obtain ⟨ht, hpin⟩ := ht
    rw [Function.update_idem] at ht
    refine (ht.keepNew hdp hlock hip hne (fun hu => (hpin.mono hle).inUse (hU hu))
      ((hpin ip ?_).1.trans hi) ((hpin dp ?_).1.trans hd)
      (.of_links hfree hpos hlt hnd hdir habsent hm hdata hadds ?_) hm).mono
      fun r u hu => ⟨(hpin.mono hle).trans hu.1, hu.2⟩
    · simp [hip, hne]
    · simpa [add_right_comm] using (h.held dp (Function.update_self ..)).1
    · rw [if_pos (htype.trans hdir'), hnlink]
  · rename_i hdir'
    have hsame : ({ nd' with nlink := nd.nlink } : Node) = nd' := by rw [← hnlink]
    refine (hsame.symm ▸ h).keepNew hdp hlock hip hne hU hi hd
      (.of_links hfree hpos hlt hnd hdir habsent hm hdata hadds ?_) hm
    rw [if_neg fun hd => hdir' (htype.symm.trans hd)]

omit hE in
theorem createNew (hR : ∀ k, 0 ≤ R k) {type major minor : ℤ}
    (h : View base (Function.update T i (some ⟨type, 0, 0, 0, []⟩))
      (R + Pi.single dp 1 + Pi.single ip 1) (Function.update L dp true) s)
    (hdp : L dp = false) (hip : R ip = 0) (hne : ip ≠ dp) (hdead : ∀ k, L k = true → E .deadlock)
    (hU : U (s.inodes dp).inum → InUse R s (s.inodes dp).inum)
    (hi : (s.inodes ip).inum = i) (hfree : T i = none) (hpos : 0 < i) (hlt : i < sb.ninodes)
    (hnd : T (s.inodes dp).inum = some nd) (hdirs : type = T_DIR → Permits E)
    (hs : LookStops E (R + Pi.single dp 1 + Pi.single ip 1) nd (Bytes.str name DIRSIZ)) :
    Wp E (do
      Kernel.ilock ip
      modifyInode ip fun i => { i with major := major, minor := minor, nlink := 1 }
      iupdate ip
      if ← Kernel.createLinks ip dp name type then do
        if type = T_DIR then do
          modifyInode dp fun i => { i with nlink := toShort (i.nlink + 1) }
          iupdate dp
          Kernel.iunlockput dp
          return some ip
        else do
          Kernel.iunlockput dp
          return some ip
      else do
        modifyInode ip fun i => { i with nlink := 0 }
        iupdate ip
        Kernel.iunlockput ip
        Kernel.iunlockput dp
        return none) (fun r t => Pins R s t ∧ NewInode base U T R L ip (s.inodes dp).inum i
          (Bytes.str name DIRSIZ) nd type major minor r t) s := by
  have hip1 : (R + Pi.single dp 1 + Pi.single ip 1 : ℕ → ℤ) ip = 1 := by
    simp [hip, hne]
  have hdp1 : 0 < (R + Pi.single dp 1 + Pi.single ip 1 : ℕ → ℤ) dp := by
    have h0 := hR dp
    simp only [Pi.add_apply, Pi.single_eq_same, Pi.single_eq_of_ne (Ne.symm hne)]
    omega
  have hle : R ≤ R + Pi.single dp 1 + Pi.single ip 1 :=
    (le_add_single R dp).trans (le_add_single _ ip)
  have hid : i ≠ (s.inodes dp).inum := by
    rintro he
    rw [← he, hfree] at hnd
    cases hnd
  refine wp_bind.mpr ((h.ilock (by omega) (fun hn => ?_) fun hl => ?_).mono fun _ t ht => ?_)
  · rw [hi, Function.update_self] at hn
    cases hn
  · rw [Function.update_of_ne hne] at hl
    exact hdead ip hl
  obtain ⟨ht, hk, hlock, -⟩ := ht
  rw [Function.update_of_ne hne] at hlock
  have hpin := h.pins ht hk le_rfl le_rfl
  have hti := (hpin ip (by omega)).1.trans hi
  have hlip : Function.update (Function.update L dp true) ip true ip = true :=
    Function.update_self ..
  have hldp : Function.update (Function.update L dp true) ip true dp = true := by
    rw [Function.update_of_ne (Ne.symm hne), Function.update_self]
  refine .seq (ht.setFields (n := ⟨type, 0, 0, 0, []⟩) hlip ?_ _ ⟨type, major, minor, 1, []⟩
    rfl rfl) fun _ u hu => ?_
  · rw [hti, Function.update_self]
  obtain ⟨hu, hk⟩ := hu
  rw [hti, Function.update_idem] at hu
  have hpin := hpin.trans (ht.pins hu hk le_rfl le_rfl)
  have hnd' : Function.update T i (some ⟨type, major, minor, 1, []⟩) (s.inodes dp).inum =
      some nd := by rw [Function.update_of_ne (Ne.symm hid), hnd]
  refine wp_bind.mpr ((hu.createLinksStrict (n := ⟨type, major, minor, 1, []⟩) hlip hldp
    ((hpin ip (by omega)).1.trans hi) (hpin dp hdp1).1 hid (Function.update_self ..) hnd' hdirs
    hs).mono fun r v hv => ?_)
  obtain ⟨hpin', hv⟩ := hv
  have hpin := hpin.trans hpin'
  have hvi := (hpin ip (by omega)).1.trans hi
  have hvd := (hpin dp hdp1).1
  have hU' : U (s.inodes dp).inum → InUse R v (s.inodes dp).inum :=
    fun hu => (hpin.mono hle).inUse (hU hu)
  cases r with
  | true =>
    obtain ⟨hdir, habsent, m, nd', hdata, hadds, hv⟩ := hv
    rw [Function.update_idem] at hv
    rw [if_pos rfl]
    exact (hv.countNew hdp hlock hip hne hU' hvi hvd hfree hpos hlt hnd hdir habsent hdata
      hadds).mono fun r x hx => ⟨(hpin.mono hle).trans hx.1, hx.2⟩
  | false =>
    obtain ⟨m, hm, hv⟩ := hv
    rw [Function.update_idem] at hv
    rw [if_neg Bool.false_ne_true]
    rw [← hvd] at hU'
    refine (hv.undoNew hR hdp hlock hip hne hvi hfree hU').mono fun r x hx => ?_
    obtain ⟨rfl, hpinx, hx⟩ := hx
    exact ⟨(hpin.mono hle).trans hpinx, hx⟩

omit hE in
theorem createStrict (h : View base T R L s) (hcwd : 0 < R cwd)
    (hU : ∀ i, i = startOf (s.inodes cwd).inum path ∨ T.Named i → U i → InUse R s i)
    (hdead : ∀ k, L k = true → E .deadlock) (hsafe : Walkable E T (s.inodes cwd).inum)
    (hused : ∀ i, InUse R s i → T i ≠ none ∧ U i) {type : ℤ} (htype : type ≠ 0)
    (hdirs : type = T_DIR → Permits E) (hs : Stops E path T R) (major minor : ℤ) :
    Wp E (Kernel.create cwd path type major minor) (fun r t => Pins R s t ∧
      Created base U T R L (T.namex (s.inodes cwd).inum path true) type major minor r t) s := by
  refine wp_bind.mpr ((h.namexStrict (.refl U T) hcwd (fun i hi => hU i (hi.imp_right And.left))
    (fun k hk _ => hdead k hk) hsafe hs).mono fun r t hr => ?_)
  obtain ⟨hpin, -, T₁, hd₁, hr⟩ := hr
  rcases r with - | ⟨dp, name⟩
  · exact wp_pure.mpr ⟨hpin, T₁, hd₁, hr.2⟩
  obtain ⟨hw, ht, hsafe₁⟩ := hr
  have hle := le_add_single R dp
  have hpos := h.single_pos dp
  refine wp_bind.mpr ((ht.ilock hpos (fun hn => ?_) (hdead dp)).mono fun _ u hu => ?_)
  · exact hsafe₁.resolve_right fun hs => hs.2 hn
  obtain ⟨hu, hk, hdp, hv⟩ := hu
  have hpin' := ht.pins hu hk le_rfl le_rfl
  have hdu := (hpin' dp hpos).1
  have hpinu := hpin.trans (hpin'.mono hle)
  have hUu : ∀ i, i = startOf (s.inodes cwd).inum path ∨ T.Named i → U i → InUse R u i :=
    fun i hi hui => hpinu.inUse (hU i hi hui)
  have hdnamed := Tree.namex_named hw
  obtain ⟨nd, hnd, -⟩ := hu.node hpos hv
  have hs₁ := hs.drops hd₁
  have hdir : nd.type = T_DIR := by
    obtain ⟨nd', hnd', hdir⟩ := Tree.walk_parent hw
    rw [← hdu, hd₁.sub _ _ hnd] at hnd'
    rwa [Option.some.inj hnd']
  refine wp_bind.mpr ((hu.dirlookupStrict (Function.update_self ..) hnd
    (hs₁.look hnd hdir dp _)).mono fun r v hr => ?_)
  obtain ⟨-, hr⟩ := hr
  rcases r with - | ⟨ip, off⟩
  · obtain ⟨rfl, habsent, hwhole⟩ := hr
    refine wp_bind.mpr (wp_inode.mpr (wp_bind.mpr ?_))
    rw [hu.dev dp hpos]
    refine (hu.iallocStrict htype (fun k hk => ?_) fun hall => ?_).mono fun r x hx => ?_
    · -- what is in use is allocated
      by_cases hkd : k = dp
      · rw [hkd, hnd]
        simp
      · have hRk : 0 < R k := by simpa [hkd] using hk
        rw [(hpinu k hRk).1]
        obtain ⟨hnone, hUk⟩ := hused _ ⟨k, hRk, rfl⟩
        exact hd₁.ne_none hnone hUk
    · refine hs.full.resolve_right fun hspare => ?_
      obtain ⟨k, hk, h0⟩ := hspare.single dp
      exact hall k hk h0
    rcases r with - | ip
    · subst hx
      have hU' : U (x.inodes dp).inum → InUse R x (x.inodes dp).inum := by
        rw [hdu]
        exact hUu _ hdnamed
      refine wp_bind.mpr ((hu.giveBack hdp hU').mono fun _ w hw' => wp_pure.mpr ?_)
      obtain ⟨hpinw, T', hd', hw'⟩ := hw'
      exact ⟨hpinu.trans hpinw, T', hd₁.trans hd', hw'⟩
    obtain ⟨i, hfree, hi0, hilt, hip, hxi, hkx, hx⟩ := hx
    have hne : ip ≠ dp := by
      rintro rfl
      exact absurd hip hpos.ne'
    have hR0 : R ip = 0 := by simpa [hne] using hip
    have hpin₂ := hu.pins hx hkx le_rfl (le_add_single _ ip)
    have hpinx := hpinu.trans (hpin₂.mono hle)
    have hdx : (x.inodes dp).inum = (t.inodes dp).inum := (hpin₂ dp hpos).1.trans hdu
    have hndx : T₁ (x.inodes dp).inum = some nd := by rw [hdx, ← hdu, hnd]
    have hU' : U (x.inodes dp).inum → InUse R x (x.inodes dp).inum := by
      rw [hdx]
      exact fun hui => (hpin₂.mono hle).inUse (hUu _ hdnamed hui)
    refine (hx.createNew h.nonneg hdp hR0 hne hdead hU' hxi hfree hi0 hilt hndx hdirs
      (.of_absent _ hdir hwhole habsent)).mono fun r y hy => ?_
    obtain ⟨hpiny, hy⟩ := hy
    refine ⟨hpinx.trans hpiny, ?_⟩
    cases r with
    | none =>
      obtain ⟨T', hd', hy⟩ := hy
      exact ⟨T', hd₁.trans hd', hy⟩
    | some q =>
      obtain ⟨rfl, hlock, hyi, nd', n, T₂, T', hmade, hntype, hmajor, hminor, hd', hy⟩ := hy
      rw [hdx] at hmade
      refine ⟨hlock, _, name, T₁, T₂, T', hw, hd₁, hd', hy, .inr ⟨nd, nd', n, ?_, hntype, hmajor,
        hminor⟩⟩
      rwa [hyi]
  · obtain ⟨k, j, hlookup, -, hv', hk', hj, -⟩ := hr
    have hpin₂ := hu.pins hv' hk' le_rfl (le_add_single _ ip)
    have hpinv := hpinu.trans (hpin₂.mono hle)
    have hdv : (v.inodes dp).inum = (t.inodes dp).inum := (hpin₂ dp hpos).1.trans hdu
    have hndt : T (t.inodes dp).inum = some nd := hd₁.sub _ _ (by rw [← hdu, hnd])
    have hnamed := Tree.named_of_lookup hndt hdir hlookup
    rw [add_right_comm] at hv'
    refine (hv'.createExisting (U := U) h.nonneg hdp hdead ?_ ?_ ?_).mono
      fun r w hr => ?_
    · rw [hdv]
      exact fun hui => (hpin₂.mono hle).inUse (hUu _ hdnamed hui)
    · rw [hj]
      exact fun hui => (hpin₂.mono hle).inUse (hUu _ (.inr hnamed) hui)
    · refine hsafe₁.imp_right fun hs => ⟨hs.1, ?_⟩
      rw [hj]
      exact hs.1.closed.lookup hnd hdir hlookup
    · obtain ⟨hpinw, T', hd', hr⟩ := hr
      refine ⟨hpinv.trans hpinw, ?_⟩
      cases r with
      | none => exact ⟨T', hd₁.trans hd', hr⟩
      | some q =>
        obtain ⟨rfl, hlock, hfile, hi, hw', m, hm, hmt⟩ := hr
        refine ⟨hlock, _, name, T₁, T₁, T', hw, hd₁, hd', hw', .inl ⟨hfile, rfl, nd, k, m, ?_, hdir,
          ?_, hm, hmt⟩⟩
        · rw [← hdu, hnd]
        · rw [hi, hj, hlookup]

theorem create (h : View base T R L s) (hcwd : 0 < R cwd)
    (hU : ∀ i, i = startOf (s.inodes cwd).inum path ∨ T.Named i → U i → InUse R s i)
    (hdead : ∀ k, L k = true → E .deadlock) (hsafe : Walkable E T (s.inodes cwd).inum)
    (hused : ∀ i, InUse R s i → T i ≠ none ∧ U i)
    {type : ℤ} (htype : type ≠ 0) (major minor : ℤ) :
    Wp E (create cwd path type major minor) (fun r t => Pins R s t ∧
      Created base U T R L (T.namex (s.inodes cwd).inum path true) type major minor r t) s :=
  h.createStrict hcwd hU hdead hsafe hused htype (fun _ => hE) (.of_permits path T R) major minor

end View

end Xv6Sheet.Kernel
