import Xv6Sheet.Kernel.Components
import Xv6Sheet.Kernel.DirSpec

/-! # What path walks do

A walk takes a reference to each directory on its way and gives it back. That may free nodes
without links that nothing else refers to. In a tidy tree no entry leads to a node that can go
away like this, and a walk meets no free inode.
-/

namespace Xv6Sheet.Kernel

open Exec

/-- Every entry names a node with links, or the directory that it is in. -/
def Tree.Tidy (T : Tree) : Prop :=
  ∀ d n, T d = some n → n.type = T_DIR → ∀ e ∈ n.entries, e.inum ≠ 0 →
    e.inum = d ∨ ∃ m, T e.inum = some m ∧ m.nlink ≠ 0

theorem Tree.Tidy.closed {T : Tree} (h : T.Tidy) : T.Closed := by
  intro d n hd hdir e he h0
  rcases h d n hd hdir e he h0 with hself | ⟨m, hm, -⟩
  · rw [hself, hd]
    simp
  · rw [hm]
    simp

/-- Of the nodes of `T` at most some without links that are not in use are gone. -/
structure Drops (U : ℕ → Prop) (T T' : Tree) : Prop where
  sub : ∀ i n, T' i = some n → T i = some n
  keep : ∀ i n, T i = some n → n.nlink ≠ 0 ∨ U i → T' i = some n

namespace Drops

variable {U U' : ℕ → Prop} {T T' T'' : Tree}

theorem refl (U : ℕ → Prop) (T : Tree) : Drops U T T := ⟨fun _ _ h => h, fun _ _ h _ => h⟩

theorem trans (h : Drops U T T') (h' : Drops U T' T'') : Drops U T T'' :=
  ⟨fun i n hi => h.sub i n (h'.sub i n hi), fun i n hi hu => h'.keep i n (h.keep i n hi hu) hu⟩

theorem mono (h : Drops U' T T') (hU : ∀ i, U i → U' i) : Drops U T T' :=
  ⟨h.sub, fun i n hi hu => h.keep i n hi (hu.imp_right (hU i))⟩

theorem put {i : ℕ} {r : ℤ} (hU : r = 1 → ¬ U i) : Drops U T (T.put i r) := by
  unfold Tree.put
  split
  · rename_i hfree
    constructor
    · intro j n hj
      by_cases hji : j = i
      · simp [hji] at hj
      · rwa [Function.update_of_ne hji] at hj
    · intro j n hj hu
      by_cases hji : j = i
      · subst hji
        rcases hu with h0 | hu
        · exact absurd (by simpa [hj] using hfree.2) h0
        · exact absurd hu (hU hfree.1)
      · rwa [Function.update_of_ne hji]
  · exact refl U T

theorem tidy (h : Drops U T T') (hT : T.Tidy) : T'.Tidy := by
  intro d n hd hdir e he h0
  refine (hT d n (h.sub d n hd) hdir e he h0).imp_right ?_
  rintro ⟨m, hm, hm0⟩
  exact ⟨m, h.keep _ m hm (Or.inl hm0), hm0⟩

theorem ne_none (h : Drops U T T') {i : ℕ} (hi : T i ≠ none) (hu : U i) : T' i ≠ none := by
  obtain ⟨n, hn⟩ := Option.ne_none_iff_exists'.mp hi
  rw [h.keep i n hn (Or.inr hu)]
  simp

theorem eq (h : Drops U T T') (hU : ∀ i n, T i = some n → n.nlink = 0 → U i) : T' = T := by
  funext i
  cases hi : T i with
  | none =>
    cases hi' : T' i with
    | none => rfl
    | some n =>
      have hs := h.sub i n hi'
      rw [hi] at hs
      cases hs
  | some n =>
    refine h.keep i n hi ?_
    by_cases h0 : n.nlink = 0
    · exact Or.inr (hU i n hi h0)
    · exact Or.inl h0

end Drops

variable [sb : Superblock] [pm : Param] {base : Set ℕ} {T T₀ : Tree} {U : ℕ → Prop}
  {R R' R₁ R₂ : ℕ → ℤ} {L L' : ℕ → Bool} {s t u : FsState} {ip cwd : ℕ} {path name : Bytes}
  {parent : Bool} {E : Fault → Prop} [hE : Permits E]

/-- The entries with references `R` keep their inodes. -/
def Pins (R : ℕ → ℤ) (s t : FsState) : Prop :=
  ∀ ip, 0 < R ip → (t.inodes ip).inum = (s.inodes ip).inum ∧
    ((s.inodes ip).valid = true → (t.inodes ip).valid = true)

/-- Some entry with references `R` is the inode with a number. -/
def InUse (R : ℕ → ℤ) (s : FsState) (i : ℕ) : Prop := ∃ ip, 0 < R ip ∧ (s.inodes ip).inum = i

section Pins

omit sb pm

theorem Pins.refl (R : ℕ → ℤ) (s : FsState) : Pins R s s := fun _ _ => ⟨rfl, id⟩

theorem Pins.trans (h : Pins R s t) (h' : Pins R t u) : Pins R s u := fun ip hip =>
  ⟨(h' ip hip).1.trans (h ip hip).1, fun hv => (h' ip hip).2 ((h ip hip).2 hv)⟩

theorem Pins.mono (h : Pins R' s t) (hle : R ≤ R') : Pins R s t :=
  fun ip hip => h ip (lt_of_lt_of_le hip (hle ip))

theorem Pins.inUse (h : Pins R s t) {i : ℕ} (hi : InUse R s i) : InUse R t i := by
  obtain ⟨ip, hip, rfl⟩ := hi
  exact ⟨ip, hip, (h ip hip).1⟩

theorem InUse.mono {i : ℕ} (h : InUse R s i) (hle : R ≤ R') : InUse R' s i := by
  obtain ⟨ip, hip, hi⟩ := h
  exact ⟨ip, lt_of_lt_of_le hip (hle ip), hi⟩

theorem le_add_single (R : ℕ → ℤ) (ip : ℕ) : R ≤ R + Pi.single ip 1 := by
  intro k
  simp only [Pi.add_apply, Pi.single_apply]
  split <;> omega

end Pins

namespace View

omit hE

theorem pins (h : View base T R₁ L s) {T' : Tree} (ht : View base T' R₂ L' t) (hk : Keeps s t)
    (h₁ : R ≤ R₁) (h₂ : R ≤ R₂) : Pins R s t := fun ip hip =>
  hk ip (by rw [h.ref_eq]; exact lt_of_lt_of_le hip (h₁ ip))
    (by rw [ht.ref_eq]; exact lt_of_lt_of_le hip (h₂ ip))

/-- Giving back a reference beside `R` leaves the nodes that are in use without it. -/
theorem drops (h : View base T (R + Pi.single ip 1) L s)
    (hU : U (s.inodes ip).inum → InUse R s (s.inodes ip).inum) :
    Drops U T (T.put (s.inodes ip).inum ((R + Pi.single ip 1 : ℕ → ℤ) ip)) := by
  refine .put fun h1 hu => ?_
  obtain ⟨k, hk, hi⟩ := hU hu
  have hle := le_add_single R ip
  obtain rfl := h.unique k ip (lt_of_lt_of_le hk (hle k)) (by omega) hi
  simp only [Pi.add_apply, Pi.single_eq_same] at h1
  omega

theorem giveBack (h : View base T (R + Pi.single ip 1) (Function.update L ip true) s)
    (hL : L ip = false) (hU : U (s.inodes ip).inum → InUse R s (s.inodes ip).inum) :
    Wp E (Kernel.iunlockput ip) (fun _ t => Pins R s t ∧ ∃ T', Drops U T T' ∧
      View base T' R L t) s := by
  refine (h.iunlockput (Function.update_self ..)).mono fun _ t ht => ?_
  obtain ⟨ht, hk⟩ := ht
  rw [add_sub_cancel_right, Function.update_idem, ← hL, Function.update_eq_self] at ht
  exact ⟨h.pins ht hk (le_add_single R ip) le_rfl, _, h.drops hU, ht⟩

end View

/-- What the walk of a path leaves: a reference to the node it came to, and otherwise only nodes
without links gone. -/
def Walked (base : Set ℕ) (E : Fault → Prop) (U : ℕ → Prop) (T₀ : Tree) (R : ℕ → ℤ)
    (L : ℕ → Bool) (w r : Option (ℕ × Bytes)) (t : FsState) : Prop :=
  ∃ T', Drops U T₀ T' ∧ match r with
    | none => w = none ∧ View base T' R L t
    | some (ip, name) => w = some ((t.inodes ip).inum, name) ∧
        View base T' (R + Pi.single ip 1) L t ∧
        (E noType ∨ T'.Tidy ∧ T' (t.inodes ip).inum ≠ none)

def Apart (L : ℕ → Bool) (s : FsState) (is : List ℕ) : Prop :=
  ∀ k, L k = true → (s.inodes k).inum ∉ is

omit sb pm in
theorem Pins.apart (h : Pins R s t) (hL : ∀ k, L k = true → 0 < R k) {is : List ℕ}
    (ht : Apart L t is) : Apart L s is := fun k hk => by
  rw [← (h k (hL k hk)).1]
  exact ht k hk

/-- What is asked of a tree so that no walk from a directory comes to a free inode. -/
def Walkable (E : Fault → Prop) (T : Tree) (cwd : ℕ) : Prop :=
  E noType ∨ T.Tidy ∧ T ROOTINO ≠ none ∧ T cwd ≠ none

def Tree.Whole (T : Tree) : Prop :=
  ∀ d n, T d = some n → n.type = T_DIR → n.data.length % direntSize = 0

omit sb in
/-- Two entries of the table are free beside the references `R`. -/
def Spare (R : ℕ → ℤ) : Prop :=
  ∃ k k', k ≠ k' ∧ k < Param.NINODE ∧ k' < Param.NINODE ∧ R k = 0 ∧ R k' = 0

/-- What may stop a walk of the path in the tree, beside locks and free inodes: a path that does not
end, a full table, and an entry that is cut off. -/
structure Stops (E : Fault → Prop) (path : Bytes) (T : Tree) (R : ℕ → ℤ) : Prop where
  ends : E .overread ∨ ∃ l, Spells path l ∧ l.length < Param.MAXPATH
  full : E (.panic "iget: no inodes") ∨ Spare R
  cut : E (.panic "dirlookup read") ∨ T.Whole

omit sb in
theorem Stops.of_permits (path : Bytes) (T : Tree) (R : ℕ → ℤ) : Stops E path T R :=
  ⟨.inl permits_overread, .inl (permits_panic (by decide)), .inl (permits_panic (by decide))⟩

omit sb hE in
theorem Stops.drops (h : Stops E path T₀ R) (hd : Drops U T₀ T) : Stops E path T R :=
  ⟨h.ends, h.full, h.cut.imp_right fun hw d n hn => hw d n (hd.sub d n hn)⟩

omit sb hE in
theorem Spare.single (h : Spare R) (ip : ℕ) :
    ∃ k < Param.NINODE, (R + Pi.single ip 1 : ℕ → ℤ) k = 0 := by
  obtain ⟨k, k', hne, hk, hk', h0, h0'⟩ := h
  by_cases hip : k = ip
  · exact ⟨k', hk', by simp [h0', ← hip, hne.symm]⟩
  · exact ⟨k, hk, by simp [h0, hip]⟩

omit sb hE in
theorem Stops.look (h : Stops E path T R) {d : ℕ} {n : Node} (hn : T d = some n)
    (hdir : n.type = T_DIR) (ip : ℕ) (name : List UInt8) :
    LookStops E (R + Pi.single ip 1) n name where
  dir hne := absurd hdir hne
  cut hcut := h.cut.resolve_right fun hw => hcut (hw d n hn hdir)
  full _ hall := h.full.resolve_right fun hs => by
    obtain ⟨k, hk, h0⟩ := hs.single ip
    exact hall k hk h0

namespace View

omit hE in
theorem apartCons (h : View base T (R + Pi.single ip 1) L s) (hL : ∀ k, L k = true → 0 < R k)
    (hip : L ip = false) (hpos : 0 < (R + Pi.single ip 1 : ℕ → ℤ) ip) {is : List ℕ}
    (his : Apart L s is) : Apart L s ((s.inodes ip).inum :: is) := by
  intro k hk hmem
  rcases List.mem_cons.mp hmem with he | hmem
  · have hRk := lt_of_lt_of_le (hL k hk) (le_add_single R ip k)
    rw [h.unique k ip hRk hpos he, hip] at hk
    cases hk
  · exact his k hk hmem

omit hE in
/-- The end of a turn of the walk, from the lookup on: nothing has the name, or the walk goes on
with a reference to the node that has it. -/
theorem namexDown {α : Type} {go : ℕ → FsM (Option α)} {Q : Option α → FsState → Prop} {n : Node}
    (h : View base T (R + Pi.single ip 1) (Function.update L ip true) s) (hip : L ip = false)
    (hR : ∀ k, 0 ≤ R k) (hn : T (s.inodes ip).inum = some n)
    (hs : LookStops E (R + Pi.single ip 1) n (Bytes.str name DIRSIZ))
    (hU : U (s.inodes ip).inum → InUse R s (s.inodes ip).inum)
    (hnone : ∀ t T', n.lookup (Bytes.str name DIRSIZ) = none → Pins R s t → Drops U T T' →
      View base T' R L t → Q none t)
    (hsome : ∀ next k j t T', n.lookup (Bytes.str name DIRSIZ) = some (k, j) → Pins R s t →
      Drops (fun i => U i ∨ i = j) T T' → View base T' (R + Pi.single next 1) L t →
      (t.inodes next).inum = j → Wp E (go next) Q t) :
    Wp E (do
      match ← Kernel.dirlookup ip name with
      | none => do
        Kernel.iunlockput ip
        return none
      | some (next, _) => do
        Kernel.iunlockput ip
        go next) Q s := by
  have hle := le_add_single R ip
  have hpos := (h.held ip (Function.update_self ..)).1
  refine wp_bind.mpr ((h.dirlookupStrict (Function.update_self ..) hn hs).mono fun r t hr => ?_)
  obtain ⟨-, ht⟩ := hr
  rcases r with - | ⟨next, off⟩
  · obtain ⟨rfl, hlookup, -⟩ := ht
    refine wp_bind.mpr ((h.giveBack hip hU).mono fun _ u hu => wp_pure.mpr ?_)
    obtain ⟨hpin, T', hd, hu⟩ := hu
    exact hnone u T' hlookup hpin hd hu
  · obtain ⟨k, j, hlookup, -, ht, hk, hj, -⟩ := ht
    have hpin := h.pins ht hk le_rfl (le_add_single _ next)
    rw [add_right_comm] at ht
    have hone : 0 < (R + Pi.single next 1 : ℕ → ℤ) next := by
      have h0 := hR next
      simp only [Pi.add_apply, Pi.single_eq_same]
      omega
    -- the next node is in use while the reference to the directory goes back
    have hkeep : U (t.inodes ip).inum ∨ (t.inodes ip).inum = j →
        InUse (R + Pi.single next 1) t (t.inodes ip).inum := by
      rintro (hi | hi)
      · rw [(hpin ip hpos).1] at hi ⊢
        exact ((hpin.mono hle).inUse (hU hi)).mono (le_add_single R next)
      · exact ⟨next, hone, hj.trans hi.symm⟩
    refine wp_bind.mpr ((ht.giveBack (U := fun i => U i ∨ i = j) hip hkeep).mono fun _ u hu => ?_)
    obtain ⟨hpin', T', hd, hu⟩ := hu
    exact hsome next k j u T' hlookup ((hpin.mono hle).trans
      (hpin'.mono (le_add_single R next))) hd hu
      ((hpin' next hone).1.trans hj)

omit hE in
theorem namexLast (h : View base T (R + Pi.single ip 1) L s) (hd : Drops U T₀ T)
    (hR : ∀ k, 0 ≤ R k) (hL : ∀ k, L k = true → 0 < R k)
    (hU : U (s.inodes ip).inum → InUse R s (s.inodes ip).inum) : Wp E (do
      Kernel.iput ip
      return (none : Option (ℕ × Bytes))) (fun r t => Pins R s t ∧
        Walked base E U T₀ R L none r t) s := by
  have hpos : 0 < (R + Pi.single ip 1 : ℕ → ℤ) ip := by
    have h0 := hR ip
    simp only [Pi.add_apply, Pi.single_eq_same]
    omega
  have hlast : (R + Pi.single ip 1 : ℕ → ℤ) ip = 1 → L ip = false := fun h1 => by
    by_contra hl
    have hpos := hL ip (by simpa using hl)
    simp only [Pi.add_apply, Pi.single_eq_same] at h1
    omega
  refine wp_bind.mpr ((h.iput ip hpos hlast).mono fun _ t ht => wp_pure.mpr ?_)
  obtain ⟨ht, hk⟩ := ht
  rw [add_sub_cancel_right] at ht
  refine ⟨h.pins ht hk (le_add_single R ip) le_rfl, _, hd.trans ?_, rfl, ht⟩
  split
  · exact h.drops hU
  · exact .refl U T

omit hE in
/-- The loop of `namex` follows the tree of the beginning, of which it sees what is left, and
locks no inode that is locked. -/
theorem namexLoopStrict (fuel p : ℕ) (hs : Stops E path T₀ R)
    (hp : ∀ l, Spells path l → p ≤ l.length ∧
      (l.length < Param.MAXPATH → l.length < p + fuel))
    (h : View base T (R + Pi.single ip 1) L s) (hd : Drops U T₀ T)
    (hU : ∀ i, i = (s.inodes ip).inum ∨ T₀.Named i ∧ i ≠ 0 → U i → InUse R s i)
    (hR : ∀ k, 0 ≤ R k) (hL : ∀ k, L k = true → 0 < R k)
    (hdead : ∀ k, L k = true → (s.inodes k).inum ∈
      T₀.visits path parent fuel (s.inodes ip).inum p name → E .deadlock)
    (hsafe : E noType ∨ T.Tidy ∧ T (s.inodes ip).inum ≠ none) :
    Wp E (namexLoop path parent fuel ip p name) (fun r t => Pins R s t ∧
      Apart L s (T₀.visits path parent fuel (s.inodes ip).inum p name) ∧
      Walked base E U T₀ R L (T₀.walk path parent fuel (s.inodes ip).inum p name) r t) s := by
  induction fuel generalizing ip p name s T with
  | zero =>
    refine wp_throw.mpr (hs.ends.resolve_right ?_)
    rintro ⟨l, hl, hmax⟩
    have hlt := (hp l hl).2 hmax
    have hple := (hp l hl).1
    omega
  | succ fuel ih =>
    have hle := le_add_single R ip
    have hpos : 0 < (R + Pi.single ip 1 : ℕ → ℤ) ip := by
      have h0 := hR ip
      simp only [Pi.add_apply, Pi.single_eq_same]
      omega
    unfold Tree.visits at hdead ⊢
    unfold Kernel.namexLoop Tree.walk
    cases hskip : skipelem path p name with
    | none =>
      refine wp_throw.mpr (hs.ends.resolve_right ?_)
      rintro ⟨l, hl, hmax⟩
      exact hl.skipelem_ne_none hmax (hp l hl).1 name hskip
    | some e =>
    rw [hskip] at hdead
    cases e with
    | last =>
      cases parent with
      | false => exact wp_pure.mpr ⟨.refl R s, by simp [Apart], T, hd, rfl, h, hsafe⟩
      | true =>
        exact (h.namexLast hd hR hL (hU _ (.inl rfl))).mono fun r t ht =>
          ⟨ht.1, by simp [Apart], ht.2⟩
    | elem p name =>
      dsimp only at hdead ⊢
      refine wp_bind.mpr ((h.ilock hpos (fun hn => ?_) fun hl => ?_).mono fun _ t ht => ?_)
      · exact hsafe.resolve_right fun hs => hs.2 hn
      · exact hdead ip hl List.mem_cons_self
      obtain ⟨ht, hk, hlock, hv⟩ := ht
      have hpin := h.pins ht hk le_rfl le_rfl
      have hinum := (hpin ip hpos).1
      have hhead : ∀ {is : List ℕ}, Apart L s is → Apart L s ((s.inodes ip).inum :: is) :=
        h.apartCons hL hlock hpos
      obtain ⟨n, hn, htype, -⟩ := ht.node hpos hv
      rw [hinum] at hn
      rw [hd.sub _ _ hn] at hdead ⊢
      dsimp only at hdead ⊢
      refine wp_bind.mpr (wp_inode.mpr ?_)
      rw [htype]
      have hU' : U (t.inodes ip).inum → InUse R t (t.inodes ip).inum := by
        rw [hinum]
        exact fun hi => (hpin.mono hle).inUse (hU _ (.inl rfl) hi)
      split
      · refine wp_bind.mpr ((ht.giveBack hlock hU').mono fun _ u hu => wp_pure.mpr ?_)
        obtain ⟨hpin', T', hd', hu⟩ := hu
        exact ⟨(hpin.mono hle).trans hpin', hhead (by simp [Apart]), T', hd.trans hd', rfl, hu⟩
      rename_i hdir
      rw [if_neg hdir] at hdead
      split
      · -- stop one level early
        refine wp_bind.mpr ((ht.iunlock (Function.update_self ..)).mono
          fun _ u hu => wp_pure.mpr ?_)
        obtain ⟨hu, hk'⟩ := hu
        have hpin' := ht.pins hu hk' le_rfl le_rfl
        rw [Function.update_idem, ← hlock, Function.update_eq_self] at hu
        refine ⟨(hpin.trans hpin').mono hle, hhead (by simp [Apart]), T, hd, ?_, hu, ?_⟩
        all_goals rw [(hpin' ip hpos).1, hinum]
        exact hsafe
      rename_i hmore
      rw [if_neg hmore] at hdead
      refine ht.namexDown (n := n) hlock hR (by rwa [hinum])
        ((hs.drops hd).look hn (not_not.mp hdir) ip _) hU' (fun u T' hlookup hpin' hd' hu => ?_)
        fun next k j v T' hlookup hpin' hd' hv hjv => ?_
      · rw [hlookup]
        exact ⟨(hpin.mono hle).trans hpin', hhead (by simp [Apart]), T', hd.trans hd', rfl, hu⟩
      · obtain ⟨-, -, -, hj0, -⟩ := Node.lookup_eq_some hlookup
        have hnamed := Tree.named_of_lookup (hd.sub _ _ hn) (not_not.mp hdir) hlookup
        have hpins := (hpin.mono hle).trans hpin'
        rw [hlookup] at hdead ⊢
        rw [← hjv] at hnamed hj0 hdead
        refine (ih p (fun l hl => ?_) hv (hd.trans (hd'.mono fun _ => .inl)) (fun i hi hu => ?_)
          (fun k hk hvis => ?_) ?_).mono fun r w hw => ?_
        · obtain ⟨hple, hfuel⟩ := hp l hl
          have hlt := skipelem_lt hskip
          exact ⟨hl.next_le hple hskip, fun hmax => by have := hfuel hmax; omega⟩
        · exact hpins.inUse (hU i (.inr (hi.elim (· ▸ ⟨hnamed, hj0⟩) id)) hu)
        · rw [(hpins k (hL k hk)).1] at hvis
          exact hdead k hk (List.mem_cons_of_mem _ hvis)
        · refine hsafe.imp_right fun hs => ⟨hd'.tidy hs.1, ?_⟩
          rw [hjv]
          exact hd'.ne_none (hs.1.closed.lookup hn (not_not.mp hdir) hlookup) (.inr rfl)
        · rw [hjv] at hw
          exact ⟨hpins.trans hw.1, hhead (hpins.apart hL hw.2.1), hw.2.2⟩

omit hE in
theorem namexStrict (h : View base T R L s) (hd : Drops U T₀ T) (hcwd : 0 < R cwd)
    (hU : ∀ i, i = startOf (s.inodes cwd).inum path ∨ T₀.Named i ∧ i ≠ 0 → U i → InUse R s i)
    (hdead : ∀ k, L k = true → (s.inodes k).inum ∈
      T₀.nodesOn (s.inodes cwd).inum path parent → E .deadlock)
    (hsafe : Walkable E T (s.inodes cwd).inum) (hs : Stops E path T₀ R) :
    Wp E (Kernel.namex cwd path parent) (fun r t => Pins R s t ∧
      Apart L s (T₀.nodesOn (s.inodes cwd).inum path parent) ∧ Walked base E U T₀ R L
      (T₀.namex (s.inodes cwd).inum path parent) r t) s := by
  have hL : ∀ k, L k = true → 0 < R k := fun k hk => (h.held k hk).1
  have hloop : ∀ {ip : ℕ} {t : FsState}, View base T (R + Pi.single ip 1) L t → Pins R s t →
      (t.inodes ip).inum = startOf (s.inodes cwd).inum path →
      Wp E (Kernel.namexLoop path parent Param.MAXPATH ip 0 fun _ => 0) (fun r u => Pins R s u ∧
        Apart L s (T₀.nodesOn (s.inodes cwd).inum path parent) ∧
        Walked base E U T₀ R L (T₀.namex (s.inodes cwd).inum path parent) r u) t := by
    intro ip t ht hpin hi
    refine (ht.namexLoopStrict _ 0 hs (fun l _ => ⟨Nat.zero_le _, fun hmax => by omega⟩) hd
      (fun i hi' hu => ?_) h.nonneg hL (fun k hk hvis => ?_) ?_).mono fun r u hu => ?_
    · rw [hi] at hi'
      exact hpin.inUse (hU i hi' hu)
    · rw [(hpin k (hL k hk)).1, hi] at hvis
      exact hdead k hk hvis
    · refine hsafe.imp_right fun hs => ⟨hs.1, ?_⟩
      rw [hi, startOf]
      split
      · exact hs.2.1
      · exact hs.2.2
    · rw [hi] at hu
      exact ⟨hpin.trans hu.1, hpin.apart hL hu.2.1, hu.2.2⟩
  unfold Kernel.namex
  split
  · rename_i hroot
    have hfull : (∀ k < Param.NINODE, R k ≠ 0) → E (.panic "iget: no inodes") := fun hall => by
      refine hs.full.resolve_right ?_
      rintro ⟨k, -, -, hk, -, h0, -⟩
      exact hall k hk h0
    refine wp_bind.mpr ((h.igetStrict ROOTINO hfull).mono fun ip t ht => ?_)
    obtain ⟨ht, hk, hi, -⟩ := ht
    refine hloop ht (h.pins ht hk le_rfl (le_add_single R ip)) ?_
    rw [hi, startOf, if_pos hroot]
  · rename_i hroot
    refine wp_bind.mpr ((h.idup hcwd).mono fun ip t ht => ?_)
    obtain ⟨rfl, ht, hk⟩ := ht
    have hpin := h.pins ht hk le_rfl (le_add_single R ip)
    refine hloop ht hpin ?_
    rw [(hpin ip hcwd).1, startOf, if_neg hroot]

theorem namex (h : View base T R L s) (hd : Drops U T₀ T) (hcwd : 0 < R cwd)
    (hU : ∀ i, i = startOf (s.inodes cwd).inum path ∨ T₀.Named i → U i → InUse R s i)
    (hdead : ∀ k, L k = true → (s.inodes k).inum ∈
      T₀.nodesOn (s.inodes cwd).inum path parent → E .deadlock)
    (hsafe : Walkable E T (s.inodes cwd).inum) :
    Wp E (namex cwd path parent) (fun r t => Pins R s t ∧
      Apart L s (T₀.nodesOn (s.inodes cwd).inum path parent) ∧ Walked base E U T₀ R L
      (T₀.namex (s.inodes cwd).inum path parent) r t) s :=
  h.namexStrict hd hcwd (fun i hi => hU i (hi.imp_right And.left)) hdead hsafe
    (.of_permits path T₀ R)

end View

end Xv6Sheet.Kernel
