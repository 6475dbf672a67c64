import Xv6Sheet.Disk.Store
import Xv6Sheet.Fs.Content
import Xv6Sheet.Kernel.Proc

/-! # The inode table

The in-memory inodes with their reference counts and locks, over the disk. A pointer to an
inode is the number of its entry in the table.
-/

namespace Xv6Sheet.Kernel

open Exec

/-- The inode table, the disk, and the number of operations begun and not yet ended. -/
structure FsState extends Store ℕ where
  ops : ℤ

abbrev FsM (α : Type) := Exec FsState Fault α

variable {α : Type}

def beginOp : FsM Unit := modify fun s => { s with ops := s.ops + 1 }

def endOp : FsM Unit := modify fun s => { s with ops := s.ops - 1 }

def inode (ip : ℕ) : FsM Inode := do return (← get).inodes ip

def modifyInode (ip : ℕ) (g : Inode → Inode) : FsM Unit :=
  modify fun s => { s with inodes := Function.update s.inodes ip (g (s.inodes ip)) }

def onInode (ip : ℕ) (m : Inode → DiskM (α × Inode)) : FsM α :=
  zoom FsState.toStore (fun st s => { s with toStore := st }) (Store.onInode ip m)

section Wp

variable {E : Fault → Prop} {ip : ℕ} {s t : FsState}

theorem ends_onInode {m : Inode → DiskM (α × Inode)} {a : α} : Ends (onInode ip m) s a t ↔
    ∃ i d, Ends (m (s.inodes ip)) s.disk (a, i) d ∧
      t = { s with inodes := Function.update s.inodes ip i, disk := d } := by
  simp only [onInode, ends_zoom, Store.ends_onInode]
  constructor
  · rintro ⟨_, ⟨i, d, h, rfl⟩, rfl⟩
    exact ⟨i, d, h, rfl⟩
  · rintro ⟨i, d, h, rfl⟩
    exact ⟨_, ⟨i, d, h, rfl⟩, rfl⟩

@[simp] theorem wp_panicAt {σ : Type} {msg : String} {s : σ} {Q : α → σ → Prop} :
    Wp E (panicAt msg : Exec σ Fault α) Q s ↔ E (.panic msg) := wp_throw

theorem wp_inode {Q : Inode → FsState → Prop} :
    Wp E (inode ip) Q s ↔ Q (s.inodes ip) s := by
  simp only [inode, wp_bind, wp_get, wp_pure]

theorem wp_modifyInode {g : Inode → Inode} {Q : Unit → FsState → Prop} :
    Wp E (modifyInode ip g) Q s ↔
      Q () { s with inodes := Function.update s.inodes ip (g (s.inodes ip)) } := wp_modify

theorem wp_onInode {m : Inode → DiskM (α × Inode)} {Q : α → FsState → Prop} :
    Wp E (onInode ip m) Q s ↔ Wp E (m (s.inodes ip)) (fun r d => Q r.1
      { s with inodes := Function.update s.inodes ip r.2, disk := d }) s.disk := by
  simp only [onInode, Store.onInode, Store.onDisk, wp_zoom, wp_bind, wp_get, wp_modify, wp_pure]

end Wp

variable [sb : Superblock]

def iupdate (ip : ℕ) : FsM Unit := onInode ip fun i => do
  iupdateDisk i
  return ((), i)

def readi (ip : ℕ) (dst : Bytes) (off n : ℕ) : FsM (ℤ × Bytes) := onInode ip fun i => do
  let (r, out, i) ← Fs.readi i (fun _ => true) dst off n
  return ((r, out), i)

def writei (ip : ℕ) (src : Bytes) (off n : ℕ) : FsM ℤ :=
  onInode ip fun i => Fs.writei i (fun _ => true) src off n

def itrunc (ip : ℕ) : FsM Unit := onInode ip fun i => do
  let i ← Fs.itrunc i
  return ((), i)

/-- Increment reference count for `ip`. -/
def idup (ip : ℕ) : FsM ℕ := do
  modifyInode ip fun i => { i with ref := i.ref + 1 }
  return ip

def ilock (ip : ℕ) : FsM Unit := do
  let i ← inode ip
  if i.ref < 1 then panicAt "ilock"
  else if i.locked then throw .deadlock
  else if i.valid then modifyInode ip fun i => { i with locked := true }
  else do
    let dip := (← get).disk.dinode i.inum
    modifyInode ip fun i => { i with toDinode := dip, locked := true, valid := true }
    if dip.type = 0 then panicAt "ilock: no type"
    else return ()

omit sb in
def iunlock (ip : ℕ) : FsM Unit := do
  let i ← inode ip
  if i.locked = false ∨ i.ref < 1 then panicAt "iunlock"
  else modifyInode ip fun i => { i with locked := false }

def ifree (ip : ℕ) : FsM Unit := do
  itrunc ip
  modifyInode ip fun i => { i with type := 0 }
  iupdate ip
  modifyInode ip fun i => { i with valid := false }

/-- Drop a reference to an in-memory inode. The last reference to an inode without links
frees it on disk. -/
def iput (ip : ℕ) : FsM Unit := do
  let i ← inode ip
  if i.ref = 1 ∧ i.valid ∧ i.nlink = 0 then do
    if i.locked then throw .deadlock
    else do
      ifree ip
      modifyInode ip fun i => { i with ref := i.ref - 1 }
  else modifyInode ip fun i => { i with ref := i.ref - 1 }

def iunlockput (ip : ℕ) : FsM Unit := do
  iunlock ip
  iput ip

variable [pm : Param]

omit sb in
/-- Find the inode with number `inum` on device `dev` and return its entry in the table. -/
def iget (dev inum : ℕ) : FsM ℕ := do
  let s ← get
  match (List.range Param.NINODE).find? fun ip =>
    decide (0 < (s.inodes ip).ref ∧ (s.inodes ip).dev = dev ∧ (s.inodes ip).inum = inum) with
  | some ip => idup ip
  | none =>
    -- recycle an inode entry
    match (List.range Param.NINODE).find? fun ip => decide ((s.inodes ip).ref = 0) with
    | some ip => do
      modifyInode ip fun i => { i with dev := dev, inum := inum, ref := 1, valid := false }
      return ip
    | none => panicAt "iget: no inodes"

/-- Allocate an inode on device `dev` by giving it a type. -/
def ialloc (dev : ℕ) (type : ℤ) : FsM (Option ℕ) :=
  search (fun inum => do
    let s ← get
    if (s.disk.dinode inum).type = 0 then do
      set { s with disk := s.disk.setDinode inum { Dinode.zero with type := type } }
      let ip ← iget dev inum
      return some ip
    else return none) 1 (sb.ninodes - 1)

end Xv6Sheet.Kernel
