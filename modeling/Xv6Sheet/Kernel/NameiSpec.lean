import Xv6Sheet.Kernel.NamespaceRun

/-! # The two modes of path walks

`namei` walks down the whole list of components, `nameiparent` stops at the last one. What the
latter finds, followed by a lookup of the last component, is what the former finds.
-/

namespace Xv6Sheet.Kernel

open Exec

def Tree.Linked (T : Tree) : Prop :=
  ∀ d n, T d = some n → n.type = T_DIR → ∀ e ∈ n.entries, e.inum ≠ 0 →
    ∃ m, T e.inum = some m ∧ 0 < m.nlink

instance (T : Tree) : DecidablePred T.IsDir := fun i => match h : T i with
  | none => isFalse (by simp [Tree.IsDir, h])
  | some n => decidable_of_iff (n.type = T_DIR) (by simp [Tree.IsDir, h])

variable [pm : Param] {T : Tree} {R : ℕ → ℤ} {c d : ℕ} {path : Bytes} {last : List UInt8}
  {cs : List (List UInt8)}

omit pm in
theorem Tree.Linked.tidy (h : T.Linked) : T.Tidy := fun d n hd hdir e he h0 => by
  obtain ⟨m, hm, hpos⟩ := h d n hd hdir e he h0
  exact .inr ⟨m, hm, hpos.ne'⟩

def components (path : Bytes) : List (List UInt8) := names (Bytes.str path Param.MAXPATH)

theorem Tree.namex_eq_resolve (h : (Bytes.str path Param.MAXPATH).length < Param.MAXPATH)
    (T : Tree) (c : ℕ) :
    (T.namex c path false).map (·.1) = T.resolve (startOf c path) (components path) :=
  (spells_str h).walk h T (Nat.zero_le _) (by omega) _

/-- The parent is what all components but the last lead to, if that is a directory. -/
theorem Tree.namex_parent (h : (Bytes.str path Param.MAXPATH).length < Param.MAXPATH)
    (hcs : components path = cs ++ [last]) (T : Tree) (c : ℕ) :
    (T.namex c path true).map (fun r => (r.1, Bytes.str r.2 DIRSIZ)) =
      ((T.resolve (startOf c path) cs).filter (T.IsDir ·)).map fun d => (d, last) := by
  refine Option.ext ?_
  rintro ⟨d, w⟩
  refine ((spells_str h).walk_parent h T (Nat.zero_le _) (by omega) _).trans ?_
  simp only [Option.map_eq_some_iff, Option.filter_eq_some_iff, decide_eq_true_eq, Prod.mk.injEq]
  constructor
  · rintro ⟨cs', hcs', hres, hdir⟩
    obtain ⟨rfl, hlast⟩ := List.append_inj' (hcs.symm.trans hcs') rfl
    obtain rfl := List.singleton_inj.mp hlast
    exact ⟨d, ⟨hres, hdir⟩, rfl, rfl⟩
  · rintro ⟨d, ⟨hres, hdir⟩, rfl, rfl⟩
    exact ⟨cs, hcs, hres, hdir⟩

/-- What stops a walk: the table is full, or an entry of a directory is cut off. -/
def WalkFault (T : Tree) (R : ℕ → ℤ) (e : Fault) : Prop :=
  e = .panic "iget: no inodes" ∧ ¬ Spare R ∨ e = .panic "dirlookup read" ∧ ¬ T.Whole

theorem stops_walkFault (h : (Bytes.str path Param.MAXPATH).length < Param.MAXPATH) :
    Stops (WalkFault T R) path T R where
  ends := .inr ⟨_, spells_str h, h⟩
  full := by
    by_cases hs : Spare R
    · exact .inr hs
    · exact .inl (.inl ⟨rfl, hs⟩)
  cut := by
    by_cases hw : T.Whole
    · exact .inr hw
    · exact .inl (.inr ⟨rfl, hw⟩)

variable [sb : Superblock] {base : Set ℕ} {s t : FsState} {ip cwd : ℕ}

/-- A state that shows the tree as before, with no lock held and one reference more when there is
an answer: to the inode answered, which is the node `w`. -/
def Reaches (base : Set ℕ) (T : Tree) (R : ℕ → ℤ) (w r : Option ℕ) (t : FsState) : Prop :=
  r.map (fun ip => (t.inodes ip).inum) = w ∧
    View base T (r.elim R fun ip => R + Pi.single ip 1) (fun _ => false) t

namespace View

theorem namexReaches (h : View base T R (fun _ => false) s) (hcwd : 0 < R cwd)
    (hroot : ∃ n, T ROOTINO = some n ∧ 0 < n.nlink) (hc : T (s.inodes cwd).inum ≠ none)
    (hlinked : T.Linked) (hpath : (Bytes.str path Param.MAXPATH).length < Param.MAXPATH)
    (parent : Bool) :
    Wp (WalkFault T R) (Kernel.namex cwd path parent) (fun r t =>
      Reaches base T R ((T.namex (s.inodes cwd).inum path parent).map (·.1)) (r.map (·.1)) t ∧
        r.map (·.2) = (T.namex (s.inodes cwd).inum path parent).map (·.2)) s := by
  obtain ⟨root, hroot, hlinks⟩ := hroot
  -- what has no links is in use when the walk comes to it
  have hkeep : ∀ i n, T i = some n → n.nlink = 0 → (i ≠ 0 ∧ T.Named i ∨
      i = startOf (s.inodes cwd).inum path) → InUse R s i := by
    rintro i n hn h0 (⟨hi, d, nd, hd, hdir, e, he, rfl⟩ | rfl)
    · obtain ⟨m, hm, hpos⟩ := hlinked d nd hd hdir e he hi
      obtain rfl := Option.some.inj (hn.symm.trans hm)
      omega
    · unfold startOf at hn ⊢
      split at hn
      · obtain rfl := Option.some.inj (hroot.symm.trans hn)
        omega
      · rename_i hrel
        rw [if_neg hrel]
        exact ⟨cwd, hcwd, rfl⟩
  refine (h.namexStrict (U := fun i => (i ≠ 0 ∧ T.Named i ∨ i = startOf (s.inodes cwd).inum path) →
    InUse R s i) (.refl _ T) hcwd (fun i hi hu => hu ?_) (fun k hk => by cases hk)
    (.inr ⟨hlinked.tidy, by simp [hroot], hc⟩) (stops_walkFault hpath)).mono fun r t hr => ?_
  · exact hi.elim .inr fun hi => .inl ⟨hi.2, hi.1⟩
  obtain ⟨-, -, T', hd, hr⟩ := hr
  obtain rfl : T' = T := hd.eq hkeep
  rcases r with - | ⟨ip, name⟩
  · obtain ⟨hw, ht⟩ := hr
    rw [hw]
    exact ⟨⟨rfl, ht⟩, rfl⟩
  · obtain ⟨hw, ht, -⟩ := hr
    rw [hw]
    exact ⟨⟨rfl, ht⟩, rfl⟩

theorem lookupChild (h : View base T (R + Pi.single ip 1) (fun _ => false) s)
    (hR : ∀ k, 0 ≤ R k) (hdir : T.IsDir (s.inodes ip).inum) (name : Bytes) :
    Wp (WalkFault T R) (do Kernel.ilock ip; Kernel.dirlookup ip name) (fun r t =>
      r.map (fun found => (t.inodes found.1).inum) =
        T.child (s.inodes ip).inum (Bytes.str name DIRSIZ)) s := by
  obtain ⟨n, hn, htype⟩ := hdir
  have hpos : 0 < (R + Pi.single ip 1 : ℕ → ℤ) ip := by
    have h0 := hR ip
    simp only [Pi.add_apply, Pi.single_eq_same]
    omega
  refine wp_bind.mpr ((h.ilock hpos (by simp [hn]) (by simp)).mono fun _ t ht => ?_)
  obtain ⟨ht, hk, -, -⟩ := ht
  rw [← ((h.pins ht hk le_rfl le_rfl) ip hpos).1] at hn ⊢
  rw [Tree.child_of_dir hn htype]
  refine (ht.dirlookupStrict (Function.update_self ..) hn
    ⟨absurd htype, fun hcut => ?_, fun _ hall => ?_⟩).mono fun r u hr => ?_
  · exact .inr ⟨rfl, fun hw => hcut (hw _ n hn htype)⟩
  · refine .inl ⟨rfl, fun hspare => ?_⟩
    obtain ⟨k, hk, h0⟩ := hspare.single ip
    exact hall k hk h0
  · rcases r with - | ⟨next, off⟩
    · rw [hr.2.2.1]
      rfl
    · obtain ⟨-, k, j, hlookup, -, -, -, hj, -⟩ := hr
      rw [hlookup, Option.map_some, Option.map_some, hj]

end View

/-- `namei` and `nameiparent` agree with the walk down the list of components, and with each other:
where the components but the last lead to a directory, `nameiparent` answers it, and looking up the
last one there finds what `namei` finds; otherwise neither has an answer. -/
theorem namei_agrees (h : View base T R (fun _ => false) s) (hcwd : 0 < R cwd)
    (hroot : ∃ n, T ROOTINO = some n ∧ 0 < n.nlink) (hc : T (s.inodes cwd).inum ≠ none)
    (hlinked : T.Linked) (hpath : (Bytes.str path Param.MAXPATH).length < Param.MAXPATH)
    (hcs : components path = cs ++ [last]) :
    Wp (WalkFault T R) (namei cwd path) (fun r t =>
      Reaches base T R (T.resolve (startOf (s.inodes cwd).inum path) (cs ++ [last])) r t) s ∧
    Wp (WalkFault T R) (nameiparent cwd path) (fun r t =>
      Reaches base T R ((T.resolve (startOf (s.inodes cwd).inum path) cs).filter (T.IsDir ·))
        (r.map (·.1)) t ∧
      match r with
      | none => T.resolve (startOf (s.inodes cwd).inum path) (cs ++ [last]) = none
      | some (dp, name) => Bytes.str name DIRSIZ = last ∧
          Wp (WalkFault T R) (do ilock dp; dirlookup dp name) (fun found u =>
            found.map (fun x => (u.inodes x.1).inum) =
              T.resolve (startOf (s.inodes cwd).inum path) (cs ++ [last])) t) s := by
  refine ⟨wp_bind.mpr ((h.namexReaches hcwd hroot hc hlinked hpath false).mono fun r t hr =>
    wp_pure.mpr ?_), (h.namexReaches hcwd hroot hc hlinked hpath true).mono fun r t hr => ?_⟩
  · have hres := hr.1
    rwa [Tree.namex_eq_resolve hpath, hcs] at hres
  obtain ⟨hres, hname⟩ := hr
  have hpar := Tree.namex_parent hpath hcs T (s.inodes cwd).inum
  have hfst := congrArg (Option.map Prod.fst) hpar
  simp only [Option.map_map, Function.comp_def, Option.map_id'] at hfst
  rw [hfst] at hres
  refine ⟨hres, ?_⟩
  rw [Tree.resolve_concat]
  obtain ⟨hinum, ht⟩ := hres
  rcases r with - | ⟨dp, name⟩
  · refine Option.bind_eq_none_iff.mpr fun d hd => Tree.child_of_not_dir fun hdir => ?_
    rw [hd, Option.filter_some, if_pos (by simpa using hdir)] at hinum
    cases hinum
  · obtain ⟨hres, hdir⟩ := Option.filter_eq_some_iff.mp hinum.symm
    have hdir : T.IsDir (t.inodes dp).inum := by simpa using hdir
    have hsnd := congrArg (Option.map Prod.snd) hpar
    simp only [Option.map_map, Function.comp_def] at hsnd
    have hlast : Bytes.str name DIRSIZ = last := by
      have heq := congrArg (Option.map fun w => Bytes.str w DIRSIZ) hname
      simp only [Option.map_map, Function.comp_def, Option.map_some] at heq
      rw [hsnd, ← hinum] at heq
      simpa using heq
    rw [hres, Option.bind_some, ← hlast]
    exact ⟨rfl, ht.lookupChild h.nonneg hdir name⟩

theorem Tree.Proper.linked {T : Tree} (h : T.Proper) : T.Linked := by
  intro d n hd hdir e he h0
  obtain ⟨m, hm, hlinks⟩ : ∃ m, T e.inum = some m ∧ m.nlink ≠ 0 := by
    rcases h.tidy d n hd hdir e he h0 with hself | hthere
    · exact ⟨n, hself ▸ hd, h.nlink_ne_zero hd hdir⟩
    · exact hthere
  have hcount := h.counted e.inum
  rw [hm, Option.elim_some] at hcount
  exact ⟨m, hm, by omega⟩

section Small

omit sb pm

/-- The path `/a//f` leads to the inode 3, and `f` is found in the directory that `nameiparent`
answers. -/
theorem runs_namei :
    letI := smallDisk
    letI := smallParam
    let path := Bytes.ofList [47, 97, 47, 47, 102]
    let s := usedMachine.sys.fs
    let t := after (nameiparent 0 path) s
    (tree s.disk).resolve 1 [[97], [102]] = some 3 ∧ (tree s.disk).resolve 1 [[97]] = some 2 ∧
      (answer (namei 0 path) s).map Option.isSome = some true ∧
      (answer (nameiparent 0 path) s).map (Option.map fun r =>
        (answer (do ilock r.1; dirlookup r.1 r.2) t).map Option.isSome) = some (some (some true)) ∧
      (usedMachine.procs ⟨1, by decide⟩).cwd = 0 ∧ (s.inodes 0).inum = 1 ∧
        (Bytes.str path Param.MAXPATH).length = 5 ∧
      components path = [[97]] ++ [[102]] ∧ (tree s.disk 2).map Node.type = some T_DIR := by
  decide +kernel

theorem namei_agrees_small :
    letI := smallDisk
    letI := smallParam
    let path := Bytes.ofList [47, 97, 47, 47, 102]
    let s := usedMachine.sys.fs
    (∃ ip t, Ends (namei 0 path) s (some ip) t ∧ (t.inodes ip).inum = 3) ∧
      ∃ dp name t found off u, Ends (nameiparent 0 path) s (some (dp, name)) t ∧
        (t.inodes dp).inum = 2 ∧ Bytes.str name DIRSIZ = [102] ∧
        Ends (do ilock dp; dirlookup dp name) t (some (found, off)) u ∧
        (u.inodes found).inum = 3 := by
  let _ := smallDisk
  let _ := smallParam
  obtain ⟨hwhole, hdir, hnamei, hparent, hproc, hcwd, hlen, hcs, htype⟩ := runs_namei
  obtain ⟨base, hs⟩ :=
    (standing_of_reached closeLaws_small (by decide) (by decide) reached_usedMachine).orderly
  generalize usedMachine = m at hs hwhole hdir hnamei hparent hproc hcwd htype ⊢
  obtain ⟨T, hT⟩ : ∃ T, tree m.sys.fs.disk = T := ⟨_, rfl⟩
  rw [hT] at hs hwhole hdir htype
  obtain ⟨root, hroot, hrdir⟩ := hs.proper.root
  have hlinks : 0 < root.nlink := by
    have hcount := hs.proper.counted ROOTINO
    have hne := hs.proper.nlink_ne_zero hroot hrdir.type
    rw [hroot, Option.elim_some] at hcount
    omega
  have hpos : 0 < ((fun ip => (cwds m.procs ip : ℤ)) +
      fileHolds m.sys.ftable) 0 := by
    refine Int.add_pos_of_pos_of_nonneg ?_ (fileHolds_nonneg ..)
    have hin := cwds_pos m.procs ⟨1, by decide⟩
    rw [hproc] at hin
    exact Int.natCast_pos.mpr hin
  have hc : T (m.sys.fs.inodes 0).inum ≠ none := by
    rw [hcwd]
    exact fun hn => by cases hroot.symm.trans hn
  have hstart : startOf (m.sys.fs.inodes 0).inum (Bytes.ofList [47, 97, 47, 47, 102]) = 1 :=
    if_pos rfl
  obtain ⟨hall, hsplit⟩ := namei_agrees hs.view hpos ⟨root, hroot, hlinks⟩ hc hs.proper.linked
    (by rw [hlen]; decide) hcs
  rw [hstart] at hall hsplit
  constructor
  · obtain ⟨r, hr, hsome⟩ := Option.map_eq_some_iff.mp hnamei
    obtain ⟨ip, rfl⟩ := Option.isSome_iff_exists.mp hsome
    have hrun := ends_answer hr
    obtain ⟨hinum, -⟩ := hall.1 _ _ hrun
    exact ⟨ip, _, hrun, Option.some.inj (hinum.trans hwhole)⟩
  · obtain ⟨r, hr, hfound⟩ := Option.map_eq_some_iff.mp hparent
    obtain ⟨⟨dp, name⟩, rfl, hlooked⟩ := Option.map_eq_some_iff.mp hfound
    obtain ⟨x, hx, hsome⟩ := Option.map_eq_some_iff.mp hlooked
    obtain ⟨⟨found, off⟩, rfl⟩ := Option.isSome_iff_exists.mp hsome
    have hrun := ends_answer hr
    have hlook := ends_answer hx
    obtain ⟨⟨hinum, -⟩, hname, hchild⟩ := hsplit.1 _ _ hrun
    refine ⟨dp, name, _, found, off, _, hrun, ?_, hname, hlook, ?_⟩
    · have hres := hinum.trans (congrArg _ hdir)
      rw [Option.filter_some] at hres
      split at hres
      · exact Option.some.inj hres
      · cases hres
    · exact Option.some.inj ((hchild.1 _ _ hlook).trans hwhole)

end Small

end Xv6Sheet.Kernel
