import Xv6Sheet.Kernel.FailedCall
import Xv6Sheet.Kernel.NamespaceSteps

/-! # Calls on a proper tree

On a proper tree the calls that make and remove entries come to no free inode and to no lock of
their own, and each leaves the tree of one step, or the tree as it was when it answers `-1`.
-/

namespace Xv6Sheet.Kernel

open Exec

variable [sb : Superblock] [pm : Param] {base : Set ℕ} {T T' : Tree} {R : ℕ → ℤ} {s t : FsState}
  {ip cwd c : ℕ} {n : Node} {path name : Bytes} {E : Fault → Prop} [hE : Permits E]

/-- A file system between calls: its tree is proper, what is in use is allocated, and a node
without links is in use. -/
structure Orderly (base : Set ℕ) (T : Tree) (R : ℕ → ℤ) (s : FsState) : Prop where
  view : View base T R (fun _ => false) s
  proper : T.Proper
  used : ∀ i, InUse R s i → T i ≠ none
  held : ∀ i n, T i = some n → n.nlink = 0 →
    ∃ ip, 0 < R ip ∧ (s.inodes ip).inum = i ∧ (s.inodes ip).valid = true

namespace Orderly

omit hE

theorem inUse (h : Orderly base T R s) (i : ℕ) (n : Node) (hi : T i = some n) (h0 : n.nlink = 0) :
    InUse R s i := by
  obtain ⟨ip, hip, hinum, -⟩ := h.held i n hi h0
  exact ⟨ip, hip, hinum⟩

theorem settled (h : Orderly base T R s) (hcwd : 0 < R cwd) : Settled base T R cwd s :=
  ⟨h.view, hcwd, h.used, fun i n hi h0 _ => h.inUse i n hi h0⟩

theorem ops (h : Orderly base T R s) (k : ℤ) : Orderly base T R { s with ops := k } :=
  ⟨h.view.ops k, h.proper, h.used, h.held⟩

theorem next (h : Orderly base T R s) (ht : View base T' R (fun _ => false) t) (hpin : Pins R s t)
    (hproper : T'.Proper) (hkeep : ∀ i, InUse R s i → T' i ≠ none)
    (hheld : ∀ i n, T' i = some n → n.nlink = 0 → (∃ m, T i = some m ∧ m.nlink = 0) ∨
      ∃ ip, 0 < R ip ∧ (t.inodes ip).inum = i ∧ (t.inodes ip).valid = true) :
    Orderly base T' R t := by
  refine ⟨ht, hproper, ?_, fun i n hi h0 => ?_⟩
  · rintro i ⟨ip, hip, rfl⟩
    rw [(hpin ip hip).1]
    exact hkeep _ ⟨ip, hip, rfl⟩
  · rcases hheld i n hi h0 with ⟨m, hm, hm0⟩ | hheld
    · obtain ⟨ip, hip, hinum, hv⟩ := h.held i m hm hm0
      exact ⟨ip, hip, (hpin ip hip).1.trans hinum, (hpin ip hip).2 hv⟩
    · exact hheld

theorem revised (h : Orderly base T R s) {i d : ℕ} {x : Option Node} {nd' : Node}
    (ht : View base (T.revise i x d nd') R (fun _ => false) t) (hpin : Pins R s t)
    (hproper : (T.revise i x d nd').Proper) (hne : i ≠ d) (hdir : nd'.type = T_DIR)
    (hfree : x = none → ¬ InUse R s i)
    (hheld : ∀ m, x = some m → m.nlink = 0 →
      ∃ ip, 0 < R ip ∧ (t.inodes ip).inum = i ∧ (t.inodes ip).valid = true) :
    Orderly base (T.revise i x d nd') R t := by
  have hd : T.revise i x d nd' d = some nd' := Function.update_self ..
  have hi : T.revise i x d nd' i = x := by
    rw [Tree.revise, Function.update_of_ne hne, Function.update_self]
  have hother : ∀ j, j ≠ d → j ≠ i → T.revise i x d nd' j = T j := fun j hjd hji => by
    rw [Tree.revise, Function.update_of_ne hjd, Function.update_of_ne hji]
  refine h.next ht hpin hproper (fun j hj => ?_) fun j m hj h0 => ?_
  · by_cases hjd : j = d
    · rw [hjd, hd]
      simp
    by_cases hji : j = i
    · rw [hji, hi]
      exact fun hnone => hfree hnone (hji ▸ hj)
    · rw [hother j hjd hji]
      exact h.used j hj
  · by_cases hjd : j = d
    · subst hjd
      obtain rfl := Option.some.inj (hd.symm.trans hj)
      exact absurd h0 (hproper.nlink_ne_zero hj hdir)
    by_cases hji : j = i
    · subst hji
      exact .inr (hheld m (hi.symm.trans hj) h0)
    · rw [hother j hjd hji] at hj
      exact .inl ⟨m, hj, h0⟩

theorem same (h : Orderly base T R s) (ht : View base T R (fun _ => false) t) (hpin : Pins R s t) :
    Orderly base T R t :=
  h.next ht hpin h.proper h.used fun _ n hi h0 => .inl ⟨n, hi, h0⟩

end Orderly

theorem Settled.namexTidy {parent : Bool} (h : Settled base T R cwd s) (htidy : T.Tidy)
    (hroot : T ROOTINO ≠ none) :
    Wp E (namex cwd path parent) (fun r t => Pins R s t ∧ match r with
      | none => T.namex (s.inodes cwd).inum path parent = none ∧ View base T R (fun _ => false) t
      | some (ip, name) => T.namex (s.inodes cwd).inum path parent = some
          ((t.inodes ip).inum, name) ∧
          View base T (R + Pi.single ip 1) (fun _ => false) t ∧
          (T (t.inodes ip).inum = none → E noType)) s := by
  obtain ⟨c, hc⟩ : ∃ c, c = (s.inodes cwd).inum := ⟨_, rfl⟩
  have hcwd := h.used _ ⟨cwd, h.cwd_pos, rfl⟩
  have hanch := h.anchored
  rw [← hc] at hanch hcwd ⊢
  refine (h.view.namex (U := fun i => T.Within c i → InUse R s i) (.refl _ T) h.cwd_pos
    (fun i hi hu => hu ?_) (by simp) (.inr ⟨htidy, hroot, hc ▸ hcwd⟩)).mono fun r t hr => ?_
  · rw [← hc] at hi
    rcases hi with rfl | hi
    · exact T.within_startOf _ path
    · exact .inr (.inr hi)
  rw [← hc] at hr
  obtain ⟨hpin, -, T', hd, hr⟩ := hr
  obtain rfl := hd.still hanch
  refine ⟨hpin, ?_⟩
  rcases r with - | ⟨ip, name⟩
  · exact hr
  · exact ⟨hr.1, hr.2.1, fun hnone => hr.2.2.resolve_right fun hs => hs.2 hnone⟩

theorem Orderly.namex {parent : Bool} (h : Orderly base T R s) (hcwd : 0 < R cwd) :
    Wp E (namex cwd path parent) (fun r t => Pins R s t ∧ match r with
      | none => T.namex (s.inodes cwd).inum path parent = none ∧ View base T R (fun _ => false) t
      | some (ip, name) => T.namex (s.inodes cwd).inum path parent = some
          ((t.inodes ip).inum, name) ∧
          View base T (R + Pi.single ip 1) (fun _ => false) t ∧
          (T (t.inodes ip).inum = none → E noType)) s := by
  obtain ⟨m, hm, -⟩ := h.proper.root
  exact (h.settled hcwd).namexTidy h.proper.tidy (by simp [hm])

/-- What `create` answers on a proper tree: a node that was there, or one it made. -/
def Stood (base : Set ℕ) (T : Tree) (R : ℕ → ℤ) (w : Option (ℕ × Bytes)) (type major minor : ℤ)
    (ip : ℕ) (T' : Tree) (t : FsState) : Prop :=
  View base T' (R + Pi.single ip 1) (Function.update (fun _ => false) ip true) t ∧
    ((type = T_FILE ∧ T' = T ∧ ∃ m, T (t.inodes ip).inum = some m ∧ m.nlink ≠ 0 ∧
        (m.type = T_FILE ∨ m.type = T_DEVICE)) ∨
      ∃ d name nd nd' n, w = some (d, name) ∧
        Made T d (t.inodes ip).inum (Bytes.str name DIRSIZ) nd nd' n T' ∧
        n.type = type ∧ n.major = major ∧ n.minor = minor)

theorem Orderly.create (h : Orderly base T R s) (hcwd : 0 < R cwd) (hN : sb.ninodes ≤ 2 ^ 16)
    (hroom : T.Roomy) (path : Bytes) {type : ℤ} (h0 : type ≠ 0) (major minor : ℤ) :
    Wp E (create cwd path type major minor) (fun r t => Pins R s t ∧ match r with
      | none => View base T R (fun _ => false) t
      | some ip => ∃ T', Stood base T R (T.namex (s.inodes cwd).inum path true) type major minor ip
          T' t) s := by
  obtain ⟨r, hroot, -⟩ := h.proper.root
  have hcwd' := h.used _ ⟨cwd, hcwd, rfl⟩
  refine (h.view.create (U := InUse R s) hcwd (fun _ _ hi => hi) (by simp)
    (.inr ⟨h.proper.tidy, by simp [hroot], hcwd'⟩) (fun i hi => ⟨h.used i hi, hi⟩) h0 major
    minor).mono
    fun r t hr => ⟨hr.1, ?_⟩
  obtain ⟨-, hr⟩ := hr
  rcases r with - | ip
  · obtain ⟨T', hd, ht⟩ := hr
    rwa [hd.eq h.inUse] at ht
  obtain ⟨-, d, name, T₁, T₂, T', hw, hd, hd', ht, hkind⟩ := hr
  obtain rfl := hd.eq h.inUse
  rcases hkind with ⟨hfile, rfl, nd, k, m, hnd, hdir, hlookup, hm, hmt⟩ | ⟨nd, nd', n, hmade, hkind⟩
  · obtain rfl := hd'.eq h.inUse
    refine ⟨T', ht, .inl ⟨hfile, rfl, m, hm, ?_, hmt⟩⟩
    -- what an entry names has links, but for the directory itself
    obtain ⟨e, he, hei, h0, -⟩ := Node.lookup_eq_some hlookup
    rcases h.proper.tidy d nd hnd hdir e (List.mem_of_getElem? he)
      (hei ▸ h0) with hself | ⟨m', hm', hl⟩
    · rw [← hei, hself, hnd] at hm
      obtain rfl := Option.some.inj hm
      rw [hdir] at hmt
      exact absurd hmt (by decide)
    · rw [hei, hm] at hm'
      obtain rfl := Option.some.inj hm'
      exact hl
  · have hproper := h.proper.made hN hroom hmade
    obtain rfl : T' = T₂ := by
      refine hd'.eq fun i m hi h0 => ?_
      by_cases hid : i = d
      · subst hid
        obtain rfl := Option.some.inj (hmade.dir_self.symm.trans hi)
        exact absurd h0 (hproper.nlink_ne_zero hi hmade.dir_type)
      by_cases hit : i = (t.inodes ip).inum
      · subst hit
        obtain rfl := Option.some.inj (hmade.self.symm.trans hi)
        exact absurd (hmade.nlink.symm.trans h0) (by decide)
      · rw [hmade.of_ne hid hit] at hi
        exact h.inUse i m hi h0
    exact ⟨T', ht, .inr ⟨d, name, nd, nd', n, hw, hmade, hkind⟩⟩

/-- What a call does to the tree in the directory `c`, by its answer. -/
def EntryCall.Does (T : Tree) (c : ℕ) (r : ℤ) (T' : Tree) : EntryCall → Prop
  | .link old new => r = -1 ∧ T' = T ∨ r = 0 ∧ ∃ p q d name i name' nd nd' n,
      argstr old Param.MAXPATH = some p ∧ argstr new Param.MAXPATH = some q ∧
      T.namex c p false = some (i, name') ∧ T.namex c q true = some (d, name) ∧
      Entered T d i (Bytes.str name DIRSIZ) nd nd' n T'
  | .mkdir path => r = -1 ∧ T' = T ∨ r = 0 ∧ ∃ d name i nd nd' n, T.place c path = some (d, name) ∧
      Made T d i (Bytes.str name DIRSIZ) nd nd' n T' ∧ n.type = T_DIR
  | .mknod path major minor => r = -1 ∧ T' = T ∨ r = 0 ∧ ∃ d name i nd nd' n,
      T.place c path = some (d, name) ∧ Made T d i (Bytes.str name DIRSIZ) nd nd' n T' ∧
      n.type = T_DEVICE ∧ n.major = toShort major ∧ n.minor = toShort minor
  | .unlink path => r = -1 ∧ T' = T ∨ r = 0 ∧
      ∃ d name i nd nd' n x, T.place c path = some (d, name) ∧
      Removed T d i (Bytes.str name DIRSIZ) nd nd' n x T' ∧ (n.type = T_DIR → x = none)

theorem Orderly.made (h : Orderly base T R s) (hN : sb.ninodes ≤ 2 ^ 16) (hroom : T.Roomy)
    {d i : ℕ} {name : List UInt8} {nd nd' : Node} (hm : Made T d i name nd nd' n T')
    (ht : View base T' R (fun _ => false) t) (hpin : Pins R s t) : Orderly base T' R t := by
  have hproper := h.proper.made hN hroom hm
  rw [hm.tree] at ht hproper ⊢
  refine h.revised ht hpin hproper hm.ne hm.dir_type (by simp) fun m hx h0 => ?_
  obtain rfl := Option.some.inj hx
  exact absurd (hm.nlink.symm.trans h0) (by decide)

theorem Orderly.makes (h : Orderly base T R s) (hcwd : 0 < R cwd) (hN : sb.ninodes ≤ 2 ^ 16)
    (hroom : T.Roomy) (path : StrArg) {type : ℤ} (h0 : type ≠ 0) (hfile : type ≠ T_FILE)
    (major minor : ℤ) :
    Wp E (do
      beginOp
      match argstr path Param.MAXPATH with
      | none => do
        endOp
        return (-1 : ℤ)
      | some path =>
        match ← Kernel.create cwd path type major minor with
        | none => do
          endOp
          return -1
        | some ip => do
          iunlockput ip
          endOp
          return 0) (fun r t => Pins R s t ∧ ∃ T', Orderly base T' R t ∧ (r = -1 ∧ T' = T ∨
            r = 0 ∧ ∃ d name i nd nd' n, T.place (s.inodes cwd).inum path = some (d, name) ∧
              Made T d i (Bytes.str name DIRSIZ) nd nd' n T' ∧ n.type = type ∧ n.major = major ∧
              n.minor = minor)) s := by
  unfold Tree.place
  refine wp_bind.mpr (wp_modify.mpr ?_)
  have hfail : ∀ {t : FsState}, View base T R (fun _ => false) t → Pins R s t → Wp E (do
      endOp
      return (-1 : ℤ)) (fun r t => Pins R s t ∧ ∃ T', Orderly base T' R t ∧ (r = -1 ∧ T' = T ∨
        r = 0 ∧ ∃ d name i nd nd' n, (argstr path Param.MAXPATH).bind
          (fun path => T.namex (s.inodes cwd).inum path true) = some (d, name) ∧
          Made T d i (Bytes.str name DIRSIZ) nd nd' n T' ∧ n.type = type ∧ n.major = major ∧
          n.minor = minor)) t := fun ht hpin =>
    wp_bind.mpr (wp_modify.mpr (wp_pure.mpr ⟨hpin, T, (h.same ht hpin).ops _, .inl ⟨rfl, rfl⟩⟩))
  cases hp : argstr path Param.MAXPATH with
  | none =>
    rw [hp] at hfail
    exact hfail (h.view.ops _) (.refl R s)
  | some p =>
    rw [hp] at hfail
    refine wp_bind.mpr (((h.ops (s.ops + 1)).create hcwd hN hroom p h0 major minor).mono
      fun r t hr => ?_)
    obtain ⟨hpin, hr⟩ := hr
    have hpin : Pins R s t := hpin
    rcases r with - | ip
    · exact hfail hr hpin
    obtain ⟨T', ht, ⟨hf, -⟩ | ⟨d, name, nd, nd', n, hw, hmade, hkind⟩⟩ := hr
    · exact absurd hf hfile
    refine wp_bind.mpr ((ht.giveBackKept rfl hmade.self fun h0 => ?_).mono fun _ u hu => ?_)
    · exact absurd (hmade.nlink.symm.trans h0) (by decide)
    obtain ⟨hpinu, hu⟩ := hu
    have hpins := hpin.trans hpinu
    exact wp_bind.mpr (wp_modify.mpr (wp_pure.mpr
      ⟨hpins, T', (h.made hN hroom hmade hu hpins).ops _,
      .inr ⟨rfl, d, name, _, nd, nd', n, hw, hmade, hkind⟩⟩))

def Tree.Idle (T : Tree) (U : ℕ → Prop) (c : ℕ) (path : StrArg) : Prop :=
  ∀ d name nd k i n, T.place c path = some (d, name) → T d = some nd →
    nd.lookup (Bytes.str name DIRSIZ) = some (k, i) → T i = some n → n.type = T_DIR → ¬ U i

omit sb pm in
theorem namecmp_eq_zero_iff (name s : Bytes) :
    namecmp name s = 0 ↔ Bytes.str name DIRSIZ = Bytes.str s DIRSIZ := Bytes.strncmp_eq_zero_iff ..

theorem Orderly.removed (h : Orderly base T R s) (hroom : T.Roomy) {d i : ℕ} {name : List UInt8}
    {nd nd' : Node} {x : Option Node} (hr : Removed T d i name nd nd' n x T')
    (hx : n.type = T_DIR → x = none) (hidle : x = none → ¬ InUse R s i)
    (hheld : x ≠ none → toShort (n.nlink - 1) = 0 →
      ∃ ip, 0 < R ip ∧ (t.inodes ip).inum = i ∧ (t.inodes ip).valid = true)
    (ht : View base T' R (fun _ => false) t) (hpin : Pins R s t) : Orderly base T' R t := by
  have hproper := h.proper.removed hroom hr hx
  obtain ⟨k, hfound, hclears⟩ := hr.found
  obtain ⟨p, hp⟩ := h.proper.directory d nd hr.parent hr.dir
  have hne := h.proper.child_ne hr.parent (hp.mem_children_of_lookup hfound hr.dot hr.dotdot)
  rw [hr.tree] at ht hproper ⊢
  refine h.revised ht hpin hproper hne (hclears.type.trans hr.dir) hidle fun m hm h0 => ?_
  rcases hr.left with hl | ⟨hl, -⟩
  · obtain rfl := Option.some.inj (hm.symm.trans hl)
    exact hheld (by simp [hl]) h0
  · simp [hl] at hm

omit hE in
theorem Orderly.unlinkBad {dp : ℕ} {nd : Node} {c : ℕ} {path : StrArg} {s₀ : FsState}
    (h₀ : Orderly base T R s₀) (hpin : Pins R s₀ s)
    (h : View base T (R + Pi.single dp 1) (Function.update (fun _ => false) dp true) s)
    (hnd : T (s.inodes dp).inum = some nd) (h0 : nd.nlink ≠ 0) :
    Wp E (unlinkBad dp) (fun r t => Pins R s₀ t ∧ ∃ T', Orderly base T' R t ∧
      (EntryCall.unlink path).Does T c r T') s := by
  refine wp_bind.mpr ((h.giveBackKept rfl hnd fun hz => absurd hz h0).mono fun _ t ht => ?_)
  have hpins := hpin.trans ht.1
  exact wp_bind.mpr (wp_modify.mpr (wp_pure.mpr
    ⟨hpins, T, (h₀.same ht.2 hpins).ops _, .inl ⟨rfl, rfl⟩⟩))

omit hE in
theorem Orderly.unlinkDone (h : Orderly base T R s) (hroom : T.Roomy) {dp d j : ℕ} {nd nd' : Node}
    {x : Option Node} {path : StrArg} (hw : T.place c path = some (d, name))
    (hr : Removed T d j (Bytes.str name DIRSIZ) nd nd' n x T') (hx : n.type = T_DIR → x = none)
    (hleft : x = if R ip = 0 ∧ toShort (n.nlink - 1) = 0 then none
      else some { n with nlink := toShort (n.nlink - 1) })
    (hpin : Pins R s t) (hne : ip ≠ dp)
    (ht : View base (Function.update T d (some nd')) (R + Pi.single dp 1 + Pi.single ip 1)
      (Function.update (Function.update (fun _ => false) dp true) ip true) t)
    (hd : (t.inodes dp).inum = d) (hj : (t.inodes ip).inum = j) :
    Wp E (do
      iunlockput dp
      modifyInode ip fun i => { i with nlink := toShort (i.nlink - 1) }
      iupdate ip
      iunlockput ip
      endOp
      return 0) (fun r t => Pins R s t ∧ ∃ T', Orderly base T' R t ∧
      (EntryCall.unlink path).Does T c r T') t := by
  have hproper := h.proper.removed hroom hr hx
  obtain ⟨k, hfound, hclears⟩ := hr.found
  obtain ⟨p, hp⟩ := h.proper.directory d nd hr.parent hr.dir
  have hjd := h.proper.child_ne hr.parent (hp.mem_children_of_lookup hfound hr.dot hr.dotdot)
  have hnd0 : nd'.nlink ≠ 0 := by
    refine hproper.nlink_ne_zero (d := d) ?_ (hclears.type.trans hr.dir)
    rw [hr.tree, Tree.revise, Function.update_self]
  have hR0 := h.view.nonneg ip
  have hpos : 0 < (R + Pi.single ip 1 : ℕ → ℤ) ip := h.view.single_pos ip
  have hvt := (ht.held ip (Function.update_self ..)).2
  have hidle : x = none → ¬ InUse R s j := by
    rintro hnone ⟨q, hq, hqj⟩
    have hRq : 0 < (R + Pi.single dp 1 + Pi.single ip 1 : ℕ → ℤ) q :=
      lt_of_lt_of_le hq ((le_add_single R dp).trans (le_add_single _ ip) q)
    have hRip : 0 < (R + Pi.single dp 1 + Pi.single ip 1 : ℕ → ℤ) ip := by simp [hne]; omega
    obtain rfl := ht.unique q ip hRq hRip (((hpin q hq).1.trans hqj).trans hj.symm)
    rw [hleft] at hnone
    split at hnone
    · rename_i hz
      exact hq.ne' hz.1
    · cases hnone
  -- the directory goes back
  rw [add_right_comm, Function.update_comm hne.symm] at ht
  refine wp_bind.mpr ((ht.giveBackKept (n := nd') (Function.update_of_ne hne.symm ..) ?_
    fun h0 => absurd h0 hnd0).mono fun _ u hu => ?_)
  · rw [hd, Function.update_self]
  obtain ⟨hpinu, hu⟩ := hu
  have hju := (hpinu ip hpos).1.trans hj
  have hvu := (hpinu ip hpos).2 hvt
  replace hpinu := hpin.trans (hpinu.mono (le_add_single R ip))
  -- the node loses the link, and with it itself where that was the last one
  refine .seq (hu.setNlink (n := n) (Function.update_self ..) hju ?_ fun x => toShort (x - 1))
    fun _ v hv => ?_
  · rw [Function.update_of_ne hjd, hr.node]
  obtain ⟨hv, hpinv⟩ := hv
  have hjv := (hpinv ip hpos).1.trans hju
  have hvv := (hpinv ip hpos).2 hvu
  replace hpinv := hpinu.trans (hpinv.mono (le_add_single R ip))
  refine wp_bind.mpr ((hv.iunlockput (Function.update_self ..)).mono fun _ w hw' => ?_)
  obtain ⟨hw', hk⟩ := hw'
  have hput : Tree.put (Function.update (Function.update T d (some nd')) j
      (some { n with nlink := toShort (n.nlink - 1) })) j
      ((R + Pi.single ip 1 : ℕ → ℤ) ip) = T' := by
    rw [hr.tree, hleft, Tree.revise, Tree.put, Function.update_self]
    have hone : ((R + Pi.single ip 1 : ℕ → ℤ) ip = 1 ∧
        (some ({ n with nlink := toShort (n.nlink - 1) } : Node)).map Node.nlink = some 0) ↔
        R ip = 0 ∧ toShort (n.nlink - 1) = 0 := by
      simp
    simp only [hone]
    split
    · rw [Function.update_idem, Function.update_comm hjd]
    · rw [Function.update_comm hjd]
  rw [hjv, hput, add_sub_cancel_right, Function.update_idem, Function.update_eq_self] at hw'
  have hkeep := hv.pins hw' hk (le_add_single R ip) le_rfl
  have hpins := hpinv.trans hkeep
  refine wp_bind.mpr (wp_modify.mpr (wp_pure.mpr
    ⟨hpins, T', ?_, .inr ⟨rfl, d, name, j, nd, nd', n, x, hw, hr,
    hx⟩⟩))
  refine (h.removed hroom hr hx hidle (fun hne' hz => ?_) hw' hpins).ops _
  have hRpos : 0 < R ip := by
    by_contra hlt
    exact hne' (by rw [hleft, if_pos ⟨by omega, hz⟩])
  exact ⟨ip, hRpos, (hkeep ip hRpos).1.trans hjv, (hkeep ip hRpos).2 hvv⟩

omit hE in
theorem View.uncountParent {nd : Node} {dp d : ℕ} {L : ℕ → Bool}
    (h : View base (Function.update T d (some nd)) R L s) (hl : L dp = true)
    (hd : (s.inodes dp).inum = d) (gone : Prop) [Decidable gone] : Wp E (if gone then do
      modifyInode dp fun i => { i with nlink := toShort (i.nlink - 1) }
      iupdate dp
    else return ()) (fun _ t => View base (Function.update T d (some { nd with
        nlink := if gone then toShort (nd.nlink - 1) else nd.nlink })) R L t ∧ Pins R s t) s := by
  split
  · refine (h.setNlink hl hd (Function.update_self ..) fun x => toShort (x - 1)).mono
      fun _ t ht => ⟨?_, ht.2⟩
    have hview := ht.1
    rwa [Function.update_idem] at hview
  · exact wp_pure.mpr ⟨h, .refl R s⟩

theorem View.emptyIfDir {L : ℕ → Bool} (h : View base T R L s) (hl : L ip = true)
    (hn : T (s.inodes ip).inum = some n) :
    Wp E (if n.type = T_DIR then Kernel.isdirempty ip else return true) (fun b t => t = s ∧
      (b = true → n.type = T_DIR → ∀ k, 2 ≤ k → ∀ e, n.entries[k]? = some e → e.inum = 0)) s := by
  split
  · exact (h.isdirempty hl hn).mono fun b t ht => ⟨ht.1, fun hb _ => ht.2.1 hb⟩
  · rename_i hfile
    exact wp_pure.mpr ⟨rfl, fun _ hdir => absurd hdir hfile⟩

omit hE in
theorem Orderly.unlinkEntry (h : Orderly base T R s) (hroom : T.Roomy) {dp d j k : ℕ} {nd : Node}
    {path : StrArg} (hw : T.place c path = some (d, name)) (hpin : Pins R s t)
    (ht : View base T (R + Pi.single dp 1 + Pi.single ip 1)
      (Function.update (Function.update (fun _ => false) dp true) ip true) t) (hne : ip ≠ dp)
    (hd : (t.inodes dp).inum = d) (hnd : T d = some nd) (hdir : nd.type = T_DIR)
    (hj : (t.inodes ip).inum = j) (hlookup : nd.lookup (Bytes.str name DIRSIZ) = some (k, j))
    (hdot : Bytes.str name DIRSIZ ≠ Bytes.str dot DIRSIZ)
    (hdotdot : Bytes.str name DIRSIZ ≠ Bytes.str dotdot DIRSIZ) (hn : T j = some n)
    (hempty : n.type = T_DIR → ∀ k, 2 ≤ k → ∀ e, n.entries[k]? = some e → e.inum = 0)
    (hidle : n.type = T_DIR → ¬ InUse R s j) :
    Wp E (do
      let r ← writei dp (fun _ => 0) (direntSize * k) direntSize
      if r ≠ direntSize then panicAt "unlink: writei"
      else do
        (if n.type = T_DIR then do
          modifyInode dp fun d => { d with nlink := toShort (d.nlink - 1) }
          iupdate dp
        else return ())
        iunlockput dp
        modifyInode ip fun i => { i with nlink := toShort (i.nlink - 1) }
        iupdate ip
        iunlockput ip
        endOp
        return 0) (fun r t => Pins R s t ∧ ∃ T', Orderly base T' R t ∧
      (EntryCall.unlink path).Does T c r T') t := by
  obtain ⟨p, hp⟩ := h.proper.directory d nd hnd hdir
  have hmem := hp.mem_children_of_lookup hlookup hdot hdotdot
  have hRip : (R + Pi.single dp 1 + Pi.single ip 1 : ℕ → ℤ) ip = R ip + 1 := by simp [hne]
  have hR0 := h.view.nonneg ip
  have hldp : Function.update (Function.update (fun _ => false) dp true) ip true dp = true := by
    rw [Function.update_of_ne hne.symm, Function.update_self]
  have hRdp := (ht.held dp hldp).1
  have hle : R ≤ R + Pi.single dp 1 + Pi.single ip 1 :=
    (le_add_single R dp).trans (le_add_single _ ip)
  obtain ⟨e, he, hei, h0, hname⟩ := Node.lookup_eq_some hlookup
  have hk := (List.getElem?_eq_some_iff.mp he).1
  have hfit : direntSize * k + direntSize ≤ nd.data.length := by
    rw [Node.length_entries] at hk
    simp only [direntSize] at *
    omega
  refine wp_bind.mpr ((ht.writei (n := nd) hldp (by rwa [hd]) (fun _ => 0) (by omega)
    (by decide)).mono fun r u hr => ?_)
  rcases hr with ⟨-, -, hshort⟩ | ⟨tot, rfl, -, hu, hku, hall, -⟩
  · omega
  obtain rfl := hall hfit
  rw [if_neg (by simp)]
  rw [hd] at hu
  have hpinu := ht.pins hu hku le_rfl le_rfl
  have hdu := (hpinu dp hRdp).1.trans hd
  have hju := (hpinu ip (by omega)).1.trans hj
  replace hpinu := hpin.trans (hpinu.mono hle)
  have hr : Removed T d j (Bytes.str name DIRSIZ) nd { nd with
      nlink := if n.type = T_DIR then toShort (nd.nlink - 1) else nd.nlink
      data := Bytes.overlay nd.data (direntSize * k) (Bytes.toList (fun _ => 0) direntSize) } n
      (if R ip = 0 ∧ toShort (n.nlink - 1) = 0 then none
        else some { n with nlink := toShort (n.nlink - 1) }) _ :=
    ⟨hnd, hdir, ⟨k, hlookup, Node.clears_overlay hk _⟩, hdot, hdotdot, hn, hempty, rfl, by
      split
      · rename_i hz
        exact .inr ⟨rfl, hz.2⟩
      · exact .inl rfl, rfl⟩
  -- a directory goes away with its name, for nothing uses it
  have hx : n.type = T_DIR → (if R ip = 0 ∧ toShort (n.nlink - 1) = 0 then none
      else some { n with nlink := toShort (n.nlink - 1) }) = none := by
    intro hdirn
    have hone := h.proper.nlink_of_empty hnd hmem hn hdirn (Node.children_eq_nil (hempty hdirn))
    refine if_pos ⟨?_, by rw [hone]; rfl⟩
    by_contra hRne
    have hRpos : 0 < R ip := by omega
    exact hidle hdirn ⟨ip, hRpos, (hpin ip hRpos).1.symm.trans hj⟩
  refine wp_bind.mpr ((hu.uncountParent hldp hdu (n.type = T_DIR)).mono fun _ v hv => ?_)
  obtain ⟨hv, hpinv⟩ := hv
  exact h.unlinkDone hroom hw hr hx rfl (hpinu.trans (hpinv.mono hle)) hne hv
    ((hpinv dp hRdp).1.trans hdu) ((hpinv ip (by omega)).1.trans hju)

theorem Orderly.unlinkFound (h : Orderly base T R s) (hroom : T.Roomy) {dp d j k : ℕ} {nd : Node}
    {path : StrArg} (hw : T.place c path = some (d, name)) (hpin : Pins R s t)
    (ht : View base T (R + Pi.single dp 1 + Pi.single ip 1)
      (Function.update (fun _ => false) dp true) t)
    (hd : (t.inodes dp).inum = d) (hnd : T d = some nd) (hdir : nd.type = T_DIR)
    (hj : (t.inodes ip).inum = j) (hlookup : nd.lookup (Bytes.str name DIRSIZ) = some (k, j))
    (hdot : Bytes.str name DIRSIZ ≠ Bytes.str dot DIRSIZ)
    (hdotdot : Bytes.str name DIRSIZ ≠ Bytes.str dotdot DIRSIZ)
    (hidle : ∀ n, T j = some n → n.type = T_DIR → ¬ InUse R s j) :
    Wp E (do
      ilock ip
      let i ← inode ip
      if i.nlink < 1 then panicAt "unlink: nlink < 1"
      else if ← (if i.type = T_DIR then isdirempty ip else return true) then do
        let r ← writei dp (fun _ => 0) (direntSize * k) direntSize
        if r ≠ direntSize then panicAt "unlink: writei"
        else do
          (if i.type = T_DIR then do
            modifyInode dp fun d => { d with nlink := toShort (d.nlink - 1) }
            iupdate dp
          else return ())
          iunlockput dp
          modifyInode ip fun i => { i with nlink := toShort (i.nlink - 1) }
          iupdate ip
          iunlockput ip
          endOp
          return 0
      else do
        iunlockput ip
        Kernel.unlinkBad dp) (fun r t => Pins R s t ∧ ∃ T', Orderly base T' R t ∧
      (EntryCall.unlink path).Does T c r T') t := by
  obtain ⟨p, hp⟩ := h.proper.directory d nd hnd hdir
  have hmem := hp.mem_children_of_lookup hlookup hdot hdotdot
  have hnd0 := h.proper.nlink_ne_zero hnd hdir
  have hne : ip ≠ dp := by
    rintro rfl
    exact h.proper.child_ne hnd hmem (hj.symm.trans hd)
  have hRip : (R + Pi.single dp 1 + Pi.single ip 1 : ℕ → ℤ) ip = R ip + 1 := by simp [hne]
  have hR0 := h.view.nonneg ip
  have hdpos := h.view.single_pos dp
  have hle : R ≤ R + Pi.single dp 1 + Pi.single ip 1 :=
    (le_add_single R dp).trans (le_add_single _ ip)
  refine wp_bind.mpr ((ht.ilock (by omega) (fun hnone => ?_) fun hl => ?_).mono fun _ u hu => ?_)
  · rw [hj] at hnone
    exact absurd hnone (h.proper.child hnd (Node.mem_links_of_mem_children hmem))
  · rw [Function.update_of_ne hne] at hl
    cases hl
  obtain ⟨hu, hk, -, hv⟩ := hu
  have hpinu := ht.pins hu hk le_rfl le_rfl
  have hju := (hpinu ip (by omega)).1.trans hj
  have hdu := (hpinu dp (lt_of_lt_of_le hdpos (le_add_single _ ip dp))).1.trans hd
  replace hpinu := hpin.trans (hpinu.mono hle)
  obtain ⟨n, hn, htype, -⟩ := hu.node (by omega) hv
  rw [hju] at hn
  have hn0 := h.proper.nlink_of_links hnd (Node.mem_links_of_mem_children hmem) hn
  refine wp_bind.mpr (wp_inode.mpr ?_)
  rw [htype]
  split
  · exact wp_panicAt.mpr (permits_panic (by decide))
  refine wp_bind.mpr ((hu.emptyIfDir (Function.update_self ..) (by rwa [hju])).mono
    fun b v hv => ?_)
  obtain ⟨rfl, hempty⟩ := hv
  cases b with
  | false =>
    rw [if_neg Bool.false_ne_true]
    refine wp_bind.mpr ((hu.giveBackKept (Function.update_of_ne hne ..) (by rwa [hju])
      fun h0 => absurd h0 hn0).mono fun _ x hx => ?_)
    obtain ⟨hpinx, hx⟩ := hx
    have hdx := (hpinx dp hdpos).1.trans hdu
    exact h.unlinkBad (hpinu.trans (hpinx.mono (le_add_single R dp))) hx (by rwa [hdx]) hnd0
  | true =>
    rw [if_pos rfl]
    exact h.unlinkEntry hroom hw hpinu hu hne hdu hnd hdir hju hlookup hdot hdotdot hn (hempty rfl)
      (hidle n hn)

theorem Orderly.sysUnlink (h : Orderly base T R s) (hcwd : 0 < R cwd) (hroom : T.Roomy)
    (path : StrArg)
    (hidle : T.Idle (InUse R s) (s.inodes cwd).inum path) :
    Wp E (sysUnlink cwd path) (fun r t => Pins R s t ∧ ∃ T', Orderly base T' R t ∧
      (EntryCall.unlink path).Does T (s.inodes cwd).inum r T') s := by
  obtain ⟨c, hc⟩ : ∃ c, c = (s.inodes cwd).inum := ⟨_, rfl⟩
  rw [← hc] at hidle ⊢
  unfold Kernel.sysUnlink
  split
  · exact wp_pure.mpr ⟨.refl R s, T, h, .inl ⟨rfl, rfl⟩⟩
  rename_i p hp
  have hplace : T.place c path = T.namex c p true := by rw [Tree.place, hp, Option.bind_some]
  refine wp_bind.mpr (wp_modify.mpr (wp_bind.mpr ?_))
  refine ((h.ops (s.ops + 1)).namex hcwd).mono fun r t hr => ?_
  obtain ⟨hpin, hr⟩ := hr
  have hpin : Pins R s t := hpin
  rcases r with - | ⟨dp, name⟩
  · exact wp_bind.mpr (wp_modify.mpr (wp_pure.mpr
      ⟨hpin, T, (h.same hr.2 hpin).ops _, .inl ⟨rfl, rfl⟩⟩))
  obtain ⟨hwalk, ht, hthere⟩ := hr
  have hwalk : T.namex (s.inodes cwd).inum p true = some ((t.inodes dp).inum, name) := hwalk
  rw [← hc, ← hplace] at hwalk
  have hpos := h.view.single_pos dp
  refine wp_bind.mpr ((ht.ilock hpos hthere (by simp)).mono fun _ u hu => ?_)
  obtain ⟨hu, hk, -, hv⟩ := hu
  have hpinu := ht.pins hu hk le_rfl le_rfl
  have hdu := (hpinu dp hpos).1
  replace hpinu := hpin.trans (hpinu.mono (le_add_single R dp))
  obtain ⟨nd, hnd, -⟩ := hu.node hpos hv
  have hl : Function.update (fun _ => false) dp true dp = true := Function.update_self ..
  have hnd' : T (t.inodes dp).inum = some nd := hdu ▸ hnd
  have hdirnd : nd.type = T_DIR := by
    obtain ⟨m, hm, htype⟩ := Tree.walk_parent (hplace ▸ hwalk)
    obtain rfl := Option.some.inj (hnd'.symm.trans hm)
    exact htype
  have hnd0 := h.proper.nlink_ne_zero hnd' hdirnd
  split
  · exact h.unlinkBad hpinu hu hnd hnd0
  rename_i hdots
  rw [namecmp_eq_zero_iff, namecmp_eq_zero_iff, not_or] at hdots
  refine wp_bind.mpr ((hu.dirlookup hl hnd name).mono fun r v hr => ?_)
  obtain ⟨-, hr⟩ := hr
  rcases r with - | ⟨ip, off⟩
  · obtain ⟨rfl, -⟩ := hr
    exact h.unlinkBad hpinu hu hnd hnd0
  obtain ⟨k, j, hlookup, rfl, hv, hk', hj, -⟩ := hr
  have hpinv := hu.pins hv hk' le_rfl (le_add_single _ ip)
  exact h.unlinkFound hroom hwalk (hpinu.trans (hpinv.mono (le_add_single R dp))) hv
    ((hpinv dp hpos).1.trans hdu) hnd' hdirnd hj hlookup hdots.1 hdots.2
    fun n hn htype => hidle _ _ nd k j n hwalk hnd' hlookup hn htype

section Link

variable {i : ℕ} {old new : StrArg}

omit hE in
theorem Orderly.last {L : ℕ → Bool} (h : Orderly base T R s) (hpin : Pins R s t)
    (ht : View base T' (R + Pi.single ip 1) L t) (hi : (t.inodes ip).inum = i) (hn : T i = some n)
    (h0 : n.nlink = 0) : 0 < R ip := by
  obtain ⟨k, hk, hki, -⟩ := h.held i n hn h0
  obtain rfl := ht.unique k ip (lt_of_lt_of_le hk (le_add_single R ip k)) (h.view.single_pos ip)
    (((hpin k hk).1.trans hki).trans hi.symm)
  exact hk

omit pm hE in
theorem Tree.Proper.toShort_succ (h : T.Proper) (hroom : T.Roomy) (hn : T i = some n) :
    toShort (n.nlink + 1) = n.nlink + 1 := by
  have hlt := hroom i n hn
  have hle := h.nlink_eq hn
  exact toShort_eq (by omega) (by omega)

omit hE in
theorem Orderly.linkBad (h : Orderly base T R s) (hroom : T.Roomy) (hn : T i = some n)
    (hpin : Pins R s t) (ht : View base (Function.update T i
    (some { n with nlink := toShort (n.nlink + 1) }))
      (R + Pi.single ip 1) (fun _ => false) t) (hi : (t.inodes ip).inum = i) :
    Wp E (Kernel.linkBad ip) (fun r t => Pins R s t ∧ ∃ T', Orderly base T' R t ∧
      (EntryCall.link old new).Does T c r T') t := by
  have hpos : 0 < (R + Pi.single ip 1 : ℕ → ℤ) ip := h.view.single_pos ip
  refine wp_bind.mpr ((ht.ilock hpos (by rw [hi, Function.update_self]; simp) (by simp)).mono
    fun _ u hu => ?_)
  obtain ⟨hu, hk, -, -⟩ := hu
  have hpinu := ht.pins hu hk le_rfl le_rfl
  have hui := (hpinu ip hpos).1.trans hi
  replace hpinu := hpin.trans (hpinu.mono (le_add_single R ip))
  have hl : Function.update (fun _ => false) ip true ip = true := Function.update_self ..
  refine .seq (hu.setNlink hl hui (Function.update_self ..) fun x => toShort (x - 1))
    fun _ v hv => ?_
  obtain ⟨hv, hpinv⟩ := hv
  have hvi := (hpinv ip hpos).1.trans hui
  replace hpinv := hpinu.trans (hpinv.mono (le_add_single R ip))
  have hback : Function.update (Function.update T i
    (some { n with nlink := toShort (n.nlink + 1) })) i
      (some { n with nlink := toShort (toShort (n.nlink + 1) - 1) }) = T := by
    have hlt := hroom i n hn
    have hle := h.proper.nlink_eq hn
    rw [h.proper.toShort_succ hroom hn, Int.add_sub_cancel, toShort_eq (by omega) (by omega),
      Function.update_idem, ← hn, Function.update_eq_self]
  dsimp only at hv
  rw [hback] at hv
  refine wp_bind.mpr ((hv.giveBackKept rfl (hvi ▸ hn) fun h0 => h.last hpinv hv hvi hn h0).mono
    fun _ w hw => ?_)
  have hpins := hpinv.trans hw.1
  exact wp_bind.mpr (wp_modify.mpr (wp_pure.mpr
    ⟨hpins, T, (h.same hw.2 hpins).ops _, .inl ⟨rfl, rfl⟩⟩))

theorem Orderly.counted (h : Orderly base T R s) (hroom : T.Roomy) (hn : T i = some n)
    (htype : n.type ≠ T_DIR) (hcwd : 0 < R cwd) (hpin : Pins R s t)
    (ht : View base (Function.update T i (some { n with nlink := toShort (n.nlink + 1) }))
      (R + Pi.single ip 1) (fun _ => false) t) (hi : (t.inodes ip).inum = i) :
    Settled base (Function.update T i (some { n with nlink := toShort (n.nlink + 1) }))
      (R + Pi.single ip 1) cwd t ∧
    Tree.Tidy (Function.update T i (some { n with nlink := toShort (n.nlink + 1) })) ∧
    Function.update T i (some { n with nlink := toShort (n.nlink + 1) }) ROOTINO ≠ none := by
  have hle := h.proper.nlink_eq hn
  have hsucc := h.proper.toShort_succ hroom hn
  refine ⟨⟨ht, lt_of_lt_of_le hcwd (le_add_single R ip cwd), ?_, fun j m hj h0 _ => ?_⟩, ?_, ?_⟩
  · rintro j ⟨k, hk, rfl⟩
    by_cases hki : (t.inodes k).inum = i
    · rw [hki, Function.update_self]
      simp
    · have hkip : k ≠ ip := by
        rintro rfl
        exact hki hi
      have hRk : 0 < R k := by simpa [hkip] using hk
      rw [Function.update_of_ne hki, (hpin k hRk).1]
      exact h.used _ ⟨k, hRk, rfl⟩
  · by_cases hji : j = i
    · subst hji
      rw [Function.update_self] at hj
      obtain rfl := Option.some.inj hj
      have hz : toShort (n.nlink + 1) = 0 := h0
      omega
    · rw [Function.update_of_ne hji] at hj
      exact (hpin.inUse (h.inUse j m hj h0)).mono (le_add_single R ip)
  · intro d m hd hdir e he h0
    have hdi : d ≠ i := by
      rintro rfl
      rw [Function.update_self] at hd
      obtain rfl := Option.some.inj hd
      exact htype hdir
    rw [Function.update_of_ne hdi] at hd
    refine (h.proper.tidy d m hd hdir e he h0).imp_right ?_
    rintro ⟨m', hm', hl⟩
    by_cases hei : e.inum = i
    · refine ⟨_, by rw [hei, Function.update_self], ?_⟩
      show toShort (n.nlink + 1) ≠ 0
      omega
    · exact ⟨m', by rw [Function.update_of_ne hei, hm'], hl⟩
  · rw [Function.update_of_ne (h.proper.ne_root hn htype).symm]
    obtain ⟨m, hm, -⟩ := h.proper.root
    simp [hm]

theorem Orderly.linkCounted (h : Orderly base T R s) (hN : sb.ninodes ≤ 2 ^ 16) (hroom : T.Roomy)
    (hcwd : 0 < R cwd) {p q name' : Bytes} (hp : argstr old Param.MAXPATH = some p)
    (hq : argstr new Param.MAXPATH = some q)
    (hw : T.namex (s.inodes cwd).inum p false = some (i, name')) (hn : T i = some n)
    (htype : n.type ≠ T_DIR) (hpin : Pins R s t)
    (ht : View base (Function.update T i (some { n with nlink := toShort (n.nlink + 1) }))
      (R + Pi.single ip 1) (fun _ => false) t) (hi : (t.inodes ip).inum = i) :
    Wp E (do
      match ← nameiparent cwd q with
      | none => Kernel.linkBad ip
      | some (dp, name) => do
        ilock dp
        let d ← inode dp
        let i ← inode ip
        if d.dev ≠ i.dev then do
          iunlockput dp
          Kernel.linkBad ip
        else if (← dirlink dp name i.inum) < 0 then do
          iunlockput dp
          Kernel.linkBad ip
        else do
          iunlockput dp
          iput ip
          endOp
          return 0) (fun r t => Pins R s t ∧ ∃ T', Orderly base T' R t ∧
      (EntryCall.link old new).Does T (s.inodes cwd).inum r T') t := by
  have hpos : 0 < (R + Pi.single ip 1 : ℕ → ℤ) ip := h.view.single_pos ip
  have hc := (hpin cwd hcwd).1
  obtain ⟨hset, htidy, hroot⟩ := h.counted hroom hn htype hcwd hpin ht hi
  refine wp_bind.mpr ((hset.namexTidy htidy hroot).mono fun r u hr => ?_)
  obtain ⟨hpinu, hr⟩ := hr
  have hiu := (hpinu ip hpos).1.trans hi
  have hpinu' := hpin.trans (hpinu.mono (le_add_single R ip))
  rcases r with - | ⟨dp, name⟩
  · exact h.linkBad hroom hn hpinu' hr.2 hiu
  obtain ⟨hwalk, hu, hthere⟩ := hr
  rw [Tree.namex_nlink hn, hc] at hwalk
  have hdpos : 0 < (R + Pi.single ip 1 + Pi.single dp 1 : ℕ → ℤ) dp := ht.single_pos dp
  have hipos := lt_of_lt_of_le hpos (le_add_single (R + Pi.single ip 1) dp ip)
  refine wp_bind.mpr ((hu.ilock hdpos hthere (by simp)).mono fun _ v hv => ?_)
  obtain ⟨hv, hk, -, hvalid⟩ := hv
  have hpinv := hu.pins hv hk le_rfl le_rfl
  have hdv := (hpinv dp hdpos).1
  have hiv := (hpinv ip hipos).1.trans hiu
  replace hpinv := hpinu'.trans (hpinv.mono ((le_add_single R ip).trans (le_add_single _ dp)))
  have hl : Function.update (fun _ => false) dp true dp = true := Function.update_self ..
  -- the parent is another node, and a directory
  obtain ⟨d, hd⟩ : ∃ d, d = (u.inodes dp).inum := ⟨_, rfl⟩
  rw [← hd] at hwalk hdv
  obtain ⟨nd, hnd, hdir⟩ := Tree.walk_parent hwalk
  have hid : i ≠ d := by
    rintro rfl
    obtain rfl := Option.some.inj (hn.symm.trans hnd)
    exact htype hdir
  have hnd₁ : Function.update T i (some { n with nlink := toShort (n.nlink + 1) }) d = some nd := by
    rw [Function.update_of_ne hid.symm, hnd]
  have hnd0 := h.proper.nlink_ne_zero hnd hdir
  -- the directory goes back before the link is taken back
  have hbad : ∀ {w : FsState}, View base
    (Function.update T i (some { n with nlink := toShort (n.nlink + 1) }))
      (R + Pi.single ip 1 + Pi.single dp 1) (Function.update (fun _ => false) dp true) w →
      Pins R s w → (w.inodes dp).inum = d → (w.inodes ip).inum = i → Wp E (do
        iunlockput dp
        Kernel.linkBad ip) (fun r t => Pins R s t ∧ ∃ T', Orderly base T' R t ∧
          (EntryCall.link old new).Does T (s.inodes cwd).inum r T') w := fun hw' hpinw hdw hiw =>
    wp_bind.mpr ((hw'.giveBackKept rfl (hdw ▸ hnd₁) fun h0 => absurd h0 hnd0).mono fun _ x hx =>
      h.linkBad hroom hn (hpinw.trans (hx.1.mono (le_add_single R ip))) hx.2
      ((hx.1 ip hpos).1.trans hiw))
  refine wp_bind.mpr (wp_inode.mpr (wp_bind.mpr (wp_inode.mpr ?_)))
  rw [hv.dev dp hdpos, hv.dev ip hipos, if_neg (by simp), hiv]
  refine wp_bind.mpr ((hv.dirlink (n := nd) hl (hdv ▸ hnd₁) name i).mono fun r w hw' => ?_)
  obtain ⟨-, hkw, hw'⟩ := hw'
  rcases hw' with ⟨hneg, hw'⟩ | ⟨hnonneg, habsent, nd', hadds, hw'⟩
  · rw [if_pos hneg]
    have hpinw := hv.pins hw' hkw le_rfl le_rfl
    exact hbad hw' (hpinv.trans (hpinw.mono ((le_add_single R ip).trans (le_add_single _ dp))))
      ((hpinw dp hdpos).1.trans hdv) ((hpinw ip hipos).1.trans hiv)
  rw [if_neg (by omega)]
  have hpinw := hv.pins hw' hkw le_rfl le_rfl
  have hdw := (hpinw dp hdpos).1.trans hdv
  have hiw := (hpinw ip hipos).1.trans hiv
  replace hpinw := hpinv.trans (hpinw.mono ((le_add_single R ip).trans (le_add_single _ dp)))
  have he : Entered T d i (Bytes.str name DIRSIZ) nd nd' n
      (T.revise i (some { n with nlink := toShort (n.nlink + 1) }) d nd') :=
    ⟨hn, htype, hnd, hdir, habsent, hadds, rfl⟩
  have hproper := h.proper.entered hN hroom he
  rw [hdv] at hw'
  have hself : T.revise i (some { n with nlink := toShort (n.nlink + 1) }) d nd' d = some nd' :=
    Function.update_self ..
  have hself' : T.revise i (some { n with nlink := toShort (n.nlink + 1) }) d nd' i =
      some { n with nlink := toShort (n.nlink + 1) } := by
    rw [Tree.revise, Function.update_of_ne hid, Function.update_self]
  have hnd0' : nd'.nlink ≠ 0 := by
    have hlinks : nd'.nlink = nd.nlink := by rw [hadds.fields]
    rwa [hlinks]
  have hn0 : toShort (n.nlink + 1) ≠ 0 := by
    have hle := h.proper.nlink_eq hn
    rw [h.proper.toShort_succ hroom hn]
    omega
  refine wp_bind.mpr ((hw'.giveBackKept rfl (hdw ▸ hself) fun h0 => absurd h0 hnd0').mono
    fun _ x hx => ?_)
  obtain ⟨hpinx, hx⟩ := hx
  have hix := (hpinx ip hpos).1.trans hiw
  replace hpinx := hpinw.trans (hpinx.mono (le_add_single R ip))
  refine wp_bind.mpr ((hx.iput ip hpos fun _ => rfl).mono fun _ y hy => ?_)
  obtain ⟨hy, hky⟩ := hy
  have hput : Tree.put (T.revise i (some { n with nlink := toShort (n.nlink + 1) }) d nd') i
      ((R + Pi.single ip 1 : ℕ → ℤ) ip) = T.revise i
      (some { n with nlink := toShort (n.nlink + 1) }) d nd' := by
    rw [Tree.put, hself', if_neg]
    simpa using fun _ => hn0
  have htree : (if (x.inodes ip).valid = true then Tree.put (Function.update (Function.update T i
      (some { n with nlink := toShort (n.nlink + 1) })) d (some nd')) (x.inodes ip).inum
        ((R + Pi.single ip 1 : ℕ → ℤ) ip) else Function.update (Function.update T i
      (some { n with nlink := toShort (n.nlink + 1) })) d (some nd')) =
      T.revise i (some { n with nlink := toShort (n.nlink + 1) }) d nd' := by
    rw [hix]
    exact ite_eq_iff'.mpr ⟨fun _ => hput, fun _ => rfl⟩
  rw [htree, add_sub_cancel_right] at hy
  have hpiny := hpinx.trans (hx.pins hy hky (le_add_single R ip) le_rfl)
  refine wp_bind.mpr (wp_modify.mpr (wp_pure.mpr
    ⟨hpiny, _, ?_, .inr ⟨rfl, p, q, d, name, i, name', nd, nd', n,
    hp, hq, hw, hwalk, he⟩⟩))
  refine (h.revised hy hpiny hproper hid ?_ (by simp) fun m hm h0 => ?_).ops _
  · rw [hadds.fields]
    exact hdir
  · obtain rfl := Option.some.inj hm
    exact absurd h0 hn0

theorem Orderly.sysLink (h : Orderly base T R s) (hcwd : 0 < R cwd) (hN : sb.ninodes ≤ 2 ^ 16)
    (hroom : T.Roomy) (old new : StrArg) :
    Wp E (sysLink cwd old new) (fun r t => Pins R s t ∧ ∃ T', Orderly base T' R t ∧
      (EntryCall.link old new).Does T (s.inodes cwd).inum r T') s := by
  unfold Kernel.sysLink
  split
  swap
  · exact wp_pure.mpr ⟨.refl R s, T, h, .inl ⟨rfl, rfl⟩⟩
  rename_i p q hp hq
  have hfail : ∀ {t : FsState}, View base T R (fun _ => false) t → Pins R s t → Wp E (do
      endOp
      return (-1 : ℤ)) (fun r t => Pins R s t ∧ ∃ T', Orderly base T' R t ∧
        (EntryCall.link old new).Does T (s.inodes cwd).inum r T') t := fun ht hpin =>
    wp_bind.mpr (wp_modify.mpr (wp_pure.mpr ⟨hpin, T, (h.same ht hpin).ops _, .inl ⟨rfl, rfl⟩⟩))
  refine wp_bind.mpr (wp_modify.mpr (wp_bind.mpr (wp_bind.mpr ?_)))
  refine ((h.ops (s.ops + 1)).namex hcwd).mono fun r t hr => wp_pure.mpr ?_
  obtain ⟨hpin, hr⟩ := hr
  have hpin : Pins R s t := hpin
  rcases r with - | ⟨ip, name⟩
  · exact hfail hr.2 hpin
  obtain ⟨hwalk, ht, hthere⟩ := hr
  have hpos : 0 < (R + Pi.single ip 1 : ℕ → ℤ) ip := h.view.single_pos ip
  refine wp_bind.mpr ((ht.ilock hpos hthere (by simp)).mono fun _ u hu => ?_)
  obtain ⟨hu, hk, -, hv⟩ := hu
  have hpinu := ht.pins hu hk le_rfl le_rfl
  obtain ⟨i, hi⟩ : ∃ i, i = (t.inodes ip).inum := ⟨_, rfl⟩
  have hiu := (hpinu ip hpos).1.trans hi.symm
  replace hpinu := hpin.trans (hpinu.mono (le_add_single R ip))
  obtain ⟨n, hn, htype, -⟩ := hu.node hpos hv
  rw [hiu] at hn
  have hl : Function.update (fun _ => false) ip true ip = true := Function.update_self ..
  refine wp_bind.mpr (wp_inode.mpr ?_)
  rw [htype]
  split
  · exact wp_bind.mpr ((hu.giveBackKept rfl (hiu ▸ hn) fun h0 => h.last hpinu hu hiu hn h0).mono
      fun _ v hv => hfail hv.2 (hpinu.trans hv.1))
  -- the link is counted
  rename_i hfile
  refine .seq (hu.setNlink hl hiu hn fun x => toShort (x + 1)) fun _ v hv => ?_
  obtain ⟨hv, hpinv⟩ := hv
  refine wp_bind.mpr ((hv.iunlock hl).mono fun _ x hx => ?_)
  obtain ⟨hx, hkx⟩ := hx
  rw [Function.update_idem, Function.update_eq_self] at hx
  have hpinx := hpinv.trans (hv.pins hx hkx le_rfl le_rfl)
  exact h.linkCounted hN hroom hcwd hp hq (hi ▸ hwalk) hn hfile
    (hpinu.trans (hpinx.mono (le_add_single R ip))) hx ((hpinx ip hpos).1.trans hiu)

end Link

theorem Orderly.entryCall (h : Orderly base T R s) (hcwd : 0 < R cwd) (hN : sb.ninodes ≤ 2 ^ 16)
    (hroom : T.Roomy) (c : EntryCall)
    (hidle : ∀ path, c = .unlink path → T.Idle (InUse R s) (s.inodes cwd).inum path) :
    Wp E (c.run cwd) (fun r t => Pins R s t ∧ ∃ T', Orderly base T' R t ∧
      c.Does T (s.inodes cwd).inum r T') s := by
  cases c with
  | link old new => exact h.sysLink hcwd hN hroom old new
  | mkdir path =>
    refine (h.makes hcwd hN hroom path (by decide) (by decide) 0 0).mono fun r t ht => ?_
    obtain ⟨hpin, T', ht, hsame | ⟨hr, d, name, i, nd, nd', n, hw, hm, htype, -⟩⟩ := ht
    · exact ⟨hpin, T', ht, .inl hsame⟩
    · exact ⟨hpin, T', ht, .inr ⟨hr, d, name, i, nd, nd', n, hw, hm, htype⟩⟩
  | mknod path major minor => exact h.makes hcwd hN hroom path (by decide) (by decide) _ _
  | unlink path => exact h.sysUnlink hcwd hroom path (hidle path rfl)

end Xv6Sheet.Kernel
