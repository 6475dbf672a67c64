import Xv6Sheet.Kernel.Components
import Xv6Sheet.Vm.Mmap

/-! # The elements of a path

What `skipelem` does when it is called again and again on what it returned, with one buffer for the
elements.
-/

namespace Xv6Sheet.Kernel

variable {path name name' : Bytes} {l w : List UInt8} {p : ℕ}

/-- Comparisons and copies take the buffer for the element. -/
structure SeenAs (name : Bytes) (w : List UInt8) : Prop where
  namecmp_left : ∀ t, namecmp name t = namecmp (Bytes.ofList w) t
  namecmp_right : ∀ t, namecmp t name = namecmp t (Bytes.ofList w)
  strncpy : ∀ dst i, Bytes.strncpy dst i name DIRSIZ = Bytes.strncpy dst i (Bytes.ofList w) DIRSIZ

theorem copied_ofList (w : List UInt8) : Copied (Bytes.ofList w) (Bytes.ofList w) w where
  byte k hk _ := by simp [Bytes.ofList, hk]
  nul _ := by simp [Bytes.ofList]
  rest _ _ := rfl

theorem Copied.seenAs (h : Copied name name' w) (h0 : 0 ∉ w) : SeenAs name' w := by
  have hstr : Bytes.str name' DIRSIZ = Bytes.str (Bytes.ofList w) DIRSIZ :=
    (h.str h0).trans ((copied_ofList w).str h0).symm
  constructor
  · exact fun t => Bytes.strncmp_congr hstr rfl
  · exact fun t => Bytes.strncmp_congr rfl hstr
  · intro dst i
    unfold Bytes.strncpy
    rw [hstr]

section Splits

variable [Param]

/-- From a position on, a path is taken apart into a list of runs: one call of `skipelem` for each,
and one that finds nothing. -/
inductive Splits (path : Bytes) : ℕ → Bytes → List (List UInt8) → Prop
  | last {p : ℕ} {name : Bytes} : skipelem path p name = some .last → Splits path p name []
  | elem {p q : ℕ} {name name' : Bytes} {w : List UInt8} {ws : List (List UInt8)} :
      skipelem path p name = some (.elem q name') → Copied name name' w → SeenAs name' w →
      path q ≠ 47 → (path q = 0 ↔ ws = []) → Splits path q name' ws →
      Splits path p name (w :: ws)

theorem splits_from (h : Spells path l) (hmax : l.length < Param.MAXPATH) (hp : p ≤ l.length)
    (name : Bytes) : Splits path p name (words (· == 47) (l.drop p)) := by
  induction hn : l.length - p using Nat.strong_induction_on generalizing p name with
  | _ n ih =>
    rcases h.skipelem_run hmax hp name with
      ⟨hnil, hskip⟩ | ⟨q, s, w, hskip, hpq, hq, hs, hw, hcons, hslash, hend⟩
    · rw [hnil]
      exact .last hskip
    · have h0 : 0 ∉ w := fun hmem => h.noNul (List.mem_of_mem_drop (hw.subset hmem))
      have hcopied := h.copied_element hs hw name
      rw [hcons]
      exact .elem hskip hcopied (hcopied.seenAs h0) hslash hend
        (ih (l.length - q) (by omega) hq _ rfl)

/-- `skipelem` takes a path apart into its runs of bytes that are no slashes, in a buffer of any
size that holds the path and its NUL, and whatever was in the buffer for the elements. -/
theorem skipelem_splits (h : Spells path l) (hmax : l.length < Param.MAXPATH) (name : Bytes) :
    Splits path 0 name (words (· == 47) l) := splits_from h hmax (Nat.zero_le _) name

end Splits

/-- `/a//bc/` in a buffer for elements that holds other bytes. -/
theorem skipelem_splits_small :
    letI := smallParam
    Splits (Bytes.ofList [47, 97, 47, 47, 98, 99, 47]) 0 (fun _ => 120) [[97], [98, 99]] :=
  let _ := smallParam
  skipelem_splits (spells_ofList (l := [47, 97, 47, 47, 98, 99, 47]) (by decide)) (by decide)
    fun _ => 120

end Xv6Sheet.Kernel
