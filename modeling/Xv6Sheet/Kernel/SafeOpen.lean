import Xv6Sheet.Kernel.OpenSpec
import Xv6Sheet.Kernel.WriteThrough

/-! # What links lead to

The variant of `sys_open` that refuses devices behind links opens a device only where its path
names it, and no variant opens a directory for writing. The names inside a path are looked up in
directories only.
-/

namespace Xv6Sheet.Kernel

open Exec

section Walk

variable [sb : Superblock] [pm : Param] {path name : Bytes} {parent : Bool} {s t : FsState}
  {ip : ℕ}

/-- The turns of `namex` from the inode `ip`, the position `p` in the path and the state `s`. Each
name is looked up in a locked directory, and the walk ends where one is not. -/
inductive Walk (path : Bytes) (parent : Bool) : ℕ → ℕ → Bytes → FsState → Option ℕ → Prop
  | last {ip p name s} : skipelem path p name = some .last →
      Walk path parent ip p name s (if parent then none else some ip)
  | notDir {ip p name s q name' u} : skipelem path p name = some (.elem q name') →
      Ends (ilock ip) s () u → (u.inodes ip).type ≠ T_DIR → Walk path parent ip p name s none
  | parent {ip p name s q name' u} : skipelem path p name = some (.elem q name') →
      parent = true → path q = 0 → Ends (ilock ip) s () u → (u.inodes ip).type = T_DIR →
      Walk path parent ip p name s (some ip)
  | absent {ip p name s q name' u v} : skipelem path p name = some (.elem q name') →
      Ends (ilock ip) s () u → (u.inodes ip).type = T_DIR → Ends (dirlookup ip name') u none v →
      Walk path parent ip p name s none
  | next {ip p name s q name' u v w next off r} : skipelem path p name = some (.elem q name') →
      Ends (ilock ip) s () u → (u.inodes ip).type = T_DIR →
      Ends (dirlookup ip name') u (some (next, off)) v → Ends (iunlockput ip) v () w →
      Walk path parent next q name' w r → Walk path parent ip p name s r

theorem namexLoop_walk {fuel p : ℕ} {r : Option (ℕ × Bytes)}
    (h : Ends (namexLoop path parent fuel ip p name) s r t) :
    Walk path parent ip p name s (r.map (·.1)) := by
  induction fuel generalizing ip p name s with
  | zero => exact absurd h ends_throw
  | succ fuel ih =>
    unfold namexLoop at h
    split at h
    · exact absurd h ends_throw
    · rename_i hskip
      have hlast : Walk path parent ip p name s (if parent then none else some ip) := .last hskip
      split at h
      · rename_i hparent
        rw [if_pos hparent] at hlast
        obtain ⟨_, u, -, hpure⟩ := ends_bind.mp h
        obtain ⟨rfl, -⟩ := ends_pure.mp hpure
        exact hlast
      · rename_i hparent
        rw [if_neg hparent] at hlast
        obtain ⟨rfl, -⟩ := ends_pure.mp h
        exact hlast
    · rename_i q name' hskip
      obtain ⟨_, u, hlock, h⟩ := ends_bind.mp h
      obtain ⟨i, u', hi, h⟩ := ends_bind.mp h
      obtain ⟨rfl, rfl⟩ : u' = u ∧ i = u.inodes ip := by simpa [inode] using hi
      split at h
      · rename_i hdir
        obtain ⟨_, v, -, hpure⟩ := ends_bind.mp h
        obtain ⟨rfl, -⟩ := ends_pure.mp hpure
        exact .notDir hskip hlock hdir
      rename_i hdir
      have hdir := not_not.mp hdir
      split at h
      · rename_i hend
        obtain ⟨_, v, -, hpure⟩ := ends_bind.mp h
        obtain ⟨rfl, -⟩ := ends_pure.mp hpure
        exact .parent hskip hend.1 hend.2 hlock hdir
      obtain ⟨found, v, hlookup, h⟩ := ends_bind.mp h
      rcases found with - | ⟨next, off⟩
      · obtain ⟨_, w, -, hpure⟩ := ends_bind.mp h
        obtain ⟨rfl, -⟩ := ends_pure.mp hpure
        exact .absent hskip hlock hdir hlookup
      · obtain ⟨_, w, hput, h⟩ := ends_bind.mp h
        exact .next hskip hlock hdir hlookup hput (ih h)

theorem namex_walk {cwd : ℕ} {r : Option (ℕ × Bytes)} (h : Ends (namex cwd path parent) s r t) :
    ∃ ip u, Ends (if path 0 = 47 then iget ROOTDEV ROOTINO else idup cwd) s ip u ∧
      Walk path parent ip 0 (fun _ => 0) u (r.map (·.1)) := by
  unfold namex at h
  split at h
  all_goals
    rename_i hroot
    obtain ⟨ip, u, hu, hloop⟩ := ends_bind.mp h
    refine ⟨ip, u, ?_, namexLoop_walk hloop⟩
  · rwa [if_pos hroot]
  · rwa [if_neg hroot]

end Walk

section Turns

variable [pm : Param] [sb : Superblock] {cwd n ip : ℕ} {omode : ℤ} {path : Bytes} {s t : FsState}

/-- The turns of the loop over links, with how it ends. -/
inductive Following (cwd : ℕ) (omode : ℤ) :
    ℕ → ℕ → Bytes → FsState → Option (ℕ × ℕ) → FsState → Prop
  | found {n ip : ℕ} {path : Bytes} {s : FsState} : isLink (s.inodes ip) omode = false →
      Following cwd omode n ip path s (some (ip, n)) s
  | deep {ip : ℕ} {path : Bytes} {s t : FsState} : isLink (s.inodes ip) omode = true →
      Following cwd omode 0 ip path s none t
  | empty {n ip path s q buf t u} : isLink (s.inodes ip) omode = true →
      Ends (readi ip path 0 Param.MAXPATH) s (q, buf) t → q ≤ 0 →
      Following cwd omode (n + 1) ip path s none u
  | lost {n ip path s q buf t u v} : isLink (s.inodes ip) omode = true →
      Ends (readi ip path 0 Param.MAXPATH) s (q, buf) t → 0 < q → Ends (iunlockput ip) t () u →
      Ends (namei cwd buf) u none v → Following cwd omode (n + 1) ip path s none v
  | turn {n ip path s q buf t u next v w r x} : isLink (s.inodes ip) omode = true →
      Ends (readi ip path 0 Param.MAXPATH) s (q, buf) t → 0 < q → Ends (iunlockput ip) t () u →
      Ends (namei cwd buf) u (some next) v → Ends (ilock next) v () w →
      Following cwd omode n next buf w r x → Following cwd omode (n + 1) ip path s r x

theorem followLinks_following {r : Option (ℕ × ℕ)}
    (h : Ends (followLinks cwd omode n ip path) s r t) : Following cwd omode n ip path s r t := by
  induction n generalizing ip path s with
  | zero =>
    unfold followLinks at h
    obtain ⟨i, u, hi, h⟩ := ends_bind.mp h
    obtain ⟨rfl, rfl⟩ : u = s ∧ i = s.inodes ip := by simpa [inode] using hi
    split at h
    · rename_i hlink
      obtain ⟨_, v, -, hpure⟩ := ends_bind.mp h
      obtain ⟨rfl, -⟩ := ends_pure.mp hpure
      exact .deep hlink
    · rename_i hlink
      obtain ⟨rfl, rfl⟩ := ends_pure.mp h
      exact .found (by simpa using hlink)
  | succ n ih =>
    unfold followLinks at h
    obtain ⟨i, u, hi, h⟩ := ends_bind.mp h
    obtain ⟨rfl, rfl⟩ : u = s ∧ i = s.inodes ip := by simpa [inode] using hi
    split at h
    swap
    · rename_i hlink
      obtain ⟨rfl, rfl⟩ := ends_pure.mp h
      exact .found (by simpa using hlink)
    rename_i hlink
    obtain ⟨⟨q, buf⟩, v, hread, h⟩ := ends_bind.mp h
    dsimp only at h
    split at h
    · rename_i hq
      obtain ⟨_, w, -, hpure⟩ := ends_bind.mp h
      obtain ⟨rfl, -⟩ := ends_pure.mp hpure
      exact .empty hlink hread hq
    rename_i hq
    have hq := not_le.mp hq
    obtain ⟨_, w, hput, h⟩ := ends_bind.mp h
    obtain ⟨found, x, hname, h⟩ := ends_bind.mp h
    rcases found with - | next
    · obtain ⟨rfl, rfl⟩ := ends_pure.mp h
      exact .lost hlink hread hq hput hname
    · obtain ⟨_, y, hlock, h⟩ := ends_bind.mp h
      exact .turn hlink hread hq hput hname hlock (ih h)

/-- The loop ends at an inode that it does not follow. Without a turn it stays at the first. -/
theorem followLinks_found {k ip' : ℕ} (h : Ends (followLinks cwd omode n ip path) s
    (some (ip', k)) t) : isLink (t.inodes ip') omode = false ∧ k ≤ n ∧
      (k = n → ip' = ip ∧ t = s) := by
  have hturns := followLinks_following h
  clear h
  generalize hr : some (ip', k) = r at hturns
  induction hturns with
  | found hlink =>
    obtain ⟨rfl, rfl⟩ := Prod.mk.inj (Option.some.inj hr)
    exact ⟨hlink, le_rfl, fun _ => ⟨rfl, rfl⟩⟩
  | deep _ => cases hr
  | empty _ _ _ => cases hr
  | lost _ _ _ _ _ => cases hr
  | turn _ _ _ _ _ _ _ ih =>
    obtain ⟨hlink, hk, -⟩ := ih hr
    exact ⟨hlink, by omega, fun he => by omega⟩

end Turns

variable {χ : Type} [pm : Param] [sb : Superblock] {L : FileLayer χ}
  {a b : Task FilePtr (Sys χ)} {path : Bytes} {omode : ℤ} {ip n : ℕ} {s t : FsState}

/-- The path leads to the inode `found`, and links lead from there to `ip` with `n` turns of the
loop left. -/
structure LeadsTo (cwd : ℕ) (path : Bytes) (omode : ℤ) (s : FsState) (found ip n : ℕ)
    (u v : FsState) : Prop where
  lookup : Ends (openPath cwd path omode) s (some found) u
  follow : Ends (followLinks cwd omode maxDepth found path) u (some (ip, n)) v

/-- The descriptor `fd` stands for a file on the inode `ip`. -/
structure Opened (ip : ℕ) (omode : ℤ) (f : FilePtr) (fd : ℤ) (b : Task FilePtr (Sys χ)) : Prop where
  ofile : ∃ k : Fin Param.NOFILE, fd = k ∧ b.proc.ofile k = some f
  ip : (b.sys.ftable f).ip = ip
  writable : (b.sys.ftable f).writable = (hasFlag omode O_WRONLY || hasFlag omode O_RDWR)

omit pm in
theorem wp_itrunc_type : Wp (fun _ => True) (itrunc ip) (fun _ t =>
    (t.inodes ip).type = (s.inodes ip).type ∧ (t.inodes ip).inum = (s.inodes ip).inum) s := by
  refine wp_onInode.mpr (wp_bind.mpr ⟨fun i d he => wp_pure.mpr ?_, fun _ _ => trivial⟩)
  obtain ⟨⟨x, rfl⟩, -⟩ := Fs.itrunc_record he
  simp only [Function.update_self, and_self]

omit sb pm in
theorem wp_iunlock_type : Wp (fun _ => True) (iunlock ip) (fun _ t =>
    ((t.inodes ip).type = (s.inodes ip).type ∧ (t.inodes ip).inum = (s.inodes ip).inum) ∧
      t.disk = s.disk) s := by
  refine wp_bind.mpr (wp_inode.mpr ?_)
  split
  · exact wp_panicAt.mpr trivial
  · exact wp_modifyInode.mpr (by simp)

theorem openInode_opened (hL : OpenLaws L) : Wp (fun _ => True) (openInode L ip omode)
    (fun fd b => 0 ≤ fd → ∃ f, Opened ip omode f fd b ∧
      ((b.sys.fs.inodes ip).type = (a.sys.fs.inodes ip).type ∧
        (b.sys.fs.inodes ip).inum = (a.sys.fs.inodes ip).inum) ∧
      ((a.sys.fs.inodes ip).type ≠ T_FILE → b.sys.fs.disk = a.sys.fs.disk)) a := by
  refine wp_openInode hL (fun _ _ => trivial)
    (fun b _ _ => wp_giveUp fun _ h => absurd h (by decide)) fun f k c _ hc => ?_
  have hopened : ∀ u : FsState, Opened ip omode f k
      (⟨c.proc, { c.sys with fs := u }⟩ : Task FilePtr (Sys χ)) := by
    refine fun u => ⟨⟨k, rfl, ?_⟩, ?_, ?_⟩
    · rw [hc.proc]
      exact Proc.setFile_ofile_self ..
    all_goals
      dsimp only
      rw [hc.ftable, Function.update_self]
      rfl
  -- an inode of another type is left as it was on the disk
  have htrunc : Wp (fun _ => True)
      (if hasFlag omode O_TRUNC ∧ (a.sys.fs.inodes ip).type = T_FILE then onFs (itrunc ip)
        else return ()) (fun _ b => (∀ u, Opened ip omode f k
          (⟨b.proc, { b.sys with fs := u }⟩ : Task FilePtr (Sys χ))) ∧
        ((b.sys.fs.inodes ip).type = (a.sys.fs.inodes ip).type ∧
          (b.sys.fs.inodes ip).inum = (a.sys.fs.inodes ip).inum) ∧
        ((a.sys.fs.inodes ip).type ≠ T_FILE → b.sys.fs.disk = a.sys.fs.disk))
      c := by
    rw [← hc.fs]
    split
    · rename_i hfile
      exact wp_onFs.mpr (wp_itrunc_type.mono fun _ u hu =>
        ⟨hopened, hu, fun hne => absurd hfile.2 hne⟩)
    · exact wp_pure.mpr ⟨hopened, ⟨rfl, rfl⟩, fun _ => rfl⟩
  refine wp_bind.mpr (htrunc.mono fun _ b hb => wp_bind.mpr (wp_onFs.mpr ?_))
  obtain ⟨hfile, ⟨htype, hinum⟩, hdisk⟩ := hb
  refine wp_iunlock_type.mono fun _ u hu => wp_bind.mpr (wp_onFs.mpr (wp_modify.mpr ?_))
  exact wp_pure.mpr fun _ => ⟨f, hfile _, ⟨hu.1.1.trans htype, hu.1.2.trans hinum⟩,
    fun hne => hu.2.trans (hdisk hne)⟩

/-- The descriptor is for an inode to which the path leads: for a device only when no link was
followed, and for a directory not for writing and with nothing changed on the disk. -/
def SafelyOpened (path : StrArg) (omode : ℤ) (a : Task FilePtr (Sys χ)) (fd : ℤ)
    (b : Task FilePtr (Sys χ)) : Prop :=
  ∃ p found ip n u v f, argstr path Param.MAXPATH = some p ∧
    LeadsTo a.proc.cwd p omode { a.sys.fs with ops := a.sys.fs.ops + 1 } found ip n u v ∧
    Opened ip omode f fd b ∧ (b.sys.fs.inodes ip).type = (v.inodes ip).type ∧
    ((b.sys.fs.inodes ip).type = T_DEVICE → n = maxDepth ∧ ip = found ∧ v = u) ∧
    ((b.sys.fs.inodes ip).type = T_DIR →
      (b.sys.ftable f).writable = false ∧ b.sys.fs.disk = v.disk)

theorem openFollowing_opened (hL : OpenLaws L) {refused : Inode → ℕ → Bool} {path : StrArg} :
    Wp (fun _ => True) (openFollowing L followLinks refused path omode)
      (fun fd b => 0 ≤ fd → ∃ p found ip n u v f, argstr path Param.MAXPATH = some p ∧
        LeadsTo a.proc.cwd p omode { a.sys.fs with ops := a.sys.fs.ops + 1 } found ip n u v ∧
        refused (v.inodes ip) (maxDepth - n) = false ∧
        ((v.inodes ip).type = T_DIR → omode = O_RDONLY) ∧ Opened ip omode f fd b ∧
        ((b.sys.fs.inodes ip).type = (v.inodes ip).type ∧
          (b.sys.fs.inodes ip).inum = (v.inodes ip).inum) ∧
        ((v.inodes ip).type ≠ T_FILE → b.sys.fs.disk = v.disk)) a := by
  -- what ends has the runs that led there
  have hself : ∀ {α : Type} (m : FsM α) (s : FsState),
      Wp (fun _ => True) m (fun r t => Ends m s r t) s :=
      fun _ _ => ⟨fun _ _ h => h, fun _ _ => trivial⟩
  refine wp_bind.mpr (wp_get.mpr ?_)
  dsimp only
  split
  · exact wp_pure.mpr fun h => absurd h (by decide)
  rename_i p hp
  refine wp_bind.mpr (wp_onFs.mpr (wp_modify.mpr (wp_bind.mpr (wp_onFs.mpr ?_))))
  refine (hself _ _).mono fun r u hu => ?_
  rcases r with - | found
  · exact wp_bind.mpr (wp_trivial.mono fun _ _ _ => wp_pure.mpr fun h => absurd h (by decide))
  refine wp_bind.mpr (wp_onFs.mpr ((hself _ _).mono fun r v hv => ?_))
  rcases r with - | ⟨ip, n⟩
  · exact wp_bind.mpr (wp_trivial.mono fun _ _ _ => wp_pure.mpr fun h => absurd h (by decide))
  refine wp_bind.mpr (wp_onFs.mpr (wp_inode.mpr ?_))
  split
  · exact wp_giveUp fun _ h => absurd h (by decide)
  rename_i hrefused
  split
  · exact wp_giveUp fun _ h => absurd h (by decide)
  rename_i hdir
  refine (openInode_opened hL).mono fun fd b hb hfd => ?_
  obtain ⟨f, hf, hsame, hdisk⟩ := hb hfd
  exact ⟨p, found, ip, n, u, v, f, hp, ⟨hu, hv⟩, by simpa using hrefused,
    fun hd => not_not.mp fun hne => hdir ⟨hd, hne⟩, hf, hsame, hdisk⟩

theorem openFollowing_follows {follow : ℕ → ℤ → ℕ → ℕ → Bytes → FsM (Option (ℕ × ℕ))}
    {refused : Inode → ℕ → Bool} {arg : StrArg} {found : ℕ} {r : ℤ}
    (hp : argstr arg Param.MAXPATH = some path)
    (hfound : Ends (openPath a.proc.cwd path omode) { a.sys.fs with ops := a.sys.fs.ops + 1 }
      (some found) s) (h : Ends (openFollowing L follow refused arg omode) a r b) :
    ∃ x t, Ends (follow a.proc.cwd omode maxDepth found path) s x t := by
  suffices hwp : Wp (fun _ => True) (openFollowing L follow refused arg omode)
      (fun _ _ => ∃ x t, Ends (follow a.proc.cwd omode maxDepth found path) s x t) a from hwp.post h
  refine wp_bind.mpr (wp_get.mpr ?_)
  dsimp only
  rw [hp]
  refine wp_bind.mpr (wp_onFs.mpr (wp_modify.mpr (wp_bind.mpr (wp_onFs.mpr (.of_ends hfound ?_)))))
  refine wp_bind.mpr (wp_onFs.mpr ⟨fun x t hx => ?_, fun _ _ => trivial⟩)
  exact wp_trivial.mono fun _ _ _ => ⟨x, t, hx⟩

/-- The variant that refuses devices behind links makes safe descriptors only, and the names in a
path are looked up in directories. -/
theorem securityOpen_safe (hL : OpenLaws L) (path : StrArg) (omode : ℤ) :
    (∀ (a b : Task FilePtr (Sys χ)) (fd : ℤ), Ends (securityOpen L path omode) a fd b →
      0 ≤ fd → SafelyOpened path omode a fd b) ∧
    ∀ cwd path parent s r t, Ends (namex cwd path parent) s r t → ∃ ip u,
      Ends (if path 0 = 47 then iget ROOTDEV ROOTINO else idup cwd) s ip u ∧
        Walk path parent ip 0 (fun _ => 0) u (r.map (·.1)) := by
  refine ⟨fun a b fd h hfd => ?_, fun _ _ _ _ _ _ h => namex_walk h⟩
  obtain ⟨p, found, ip, n, u, v, f, hp, hlead, hrefused, hdir, hf, ⟨htype, -⟩, hdisk⟩ :=
    (openFollowing_opened hL).post h hfd
  obtain ⟨-, hn, hstay⟩ := followLinks_found hlead.follow
  refine ⟨p, found, ip, n, u, v, f, hp, hlead, hf, htype, fun hdev => ?_, fun hd => ?_⟩
  · -- without a turn the loop stays at the inode found
    rw [htype] at hdev
    have hnone : ¬ 0 < maxDepth - n := fun hlt => by simp [hlt, hdev] at hrefused
    have hfirst : n = maxDepth := by omega
    exact ⟨hfirst, hstay hfirst⟩
  · rw [htype] at hd
    refine ⟨?_, hdisk ?_⟩
    · rw [hf.writable, hdir hd]
      decide
    · rw [hd]
      decide

section Small

omit pm sb

/-- The small machine with the device `/c` and the link `/l` to it. -/
def deviceTask : @Task (@FilePtr smallParam) (@Sys Unit smallParam) smallParam :=
  let _ := smallDisk
  let _ := smallParam
  let s := after (sysMknod 0 (pathArg [47, 99]) 1 0) smallMachine.sys.fs
  { proc := smallMachine.procs ⟨0, by decide⟩
    sys.fs := after (sysSymlink 0 (pathArg [47, 99]) (pathArg [47, 108])) s
    sys.ftable := smallMachine.sys.ftable
    sys.rest := () }

/-- The device is opened by its own path only, and the link by the variant that refuses nothing. -/
theorem runs_deviceTask :
    letI := smallDisk
    letI := smallParam
    let b := after (securityOpen fileTable (pathArg [47, 99]) 0) deviceTask
    answer (securityOpen fileTable (pathArg [47, 99]) 0) deviceTask = some 0 ∧
      (b.sys.ftable ⟨0, by decide⟩).type = .device ∧
      answer (securityOpen fileTable (pathArg [47, 108]) 0) deviceTask = some (-1) ∧
      answer (symlinkOpen fileTable (pathArg [47, 108]) 0) deviceTask = some 0 := by
  decide +kernel

theorem securityOpen_safe_small :
    letI := smallDisk
    letI := smallParam
    ∃ b, Ends (securityOpen fileTable (pathArg [47, 99]) 0) deviceTask 0 b ∧
      (b.sys.ftable ⟨0, by decide⟩).type = .device ∧
      SafelyOpened (pathArg [47, 99]) 0 deviceTask 0 b ∧
      ∃ c, Ends (securityOpen fileTable (pathArg [47, 108]) 0) deviceTask (-1) c := by
  let _ := smallDisk
  let _ := smallParam
  obtain ⟨hanswer, htype, hrefused, -⟩ := runs_deviceTask
  have h := ends_answer hanswer
  exact ⟨_, h, htype, (securityOpen_safe fileTable_openLaws (pathArg [47, 99]) 0).1 _ _ _ h le_rfl,
    _, ends_answer hrefused⟩

end Small

end Xv6Sheet.Kernel
