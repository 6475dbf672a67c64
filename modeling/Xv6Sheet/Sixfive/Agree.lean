import Xv6Sheet.Sixfive.Files

/-! # Fives and sixes

`quiz1/sixfive.c` keeps the digits of a word and whether it had anything else, and `COOKED/test.c`
keeps all bytes of a word. Both keep no more than has room, which is more than they print.
-/

namespace Xv6Sheet.Sixfive

open Xargs (Str)

variable {w : List UInt8} {b : Bytes} {n i : ℕ} {fs : List (Str × List UInt8)}

def IsFiveSix (w : Str) : Prop := w ≠ [] ∧ w.length ≤ 3 ∧ ∀ c ∈ w, c = 53 ∨ c = 54

instance (w : Str) : Decidable (IsFiveSix w) :=
  decidable_of_iff (w ≠ [] ∧ w.length ≤ 3 ∧ (w.all fun c => c = 53 ∨ c = 54) = true)
    (by simp [IsFiveSix])

def fiveSix (w : Str) : List Line := if IsFiveSix w then [.text w] else []

@[simp] theorem fiveSix_nil : fiveSix [] = [] := by simp [fiveSix, IsFiveSix]

theorem isDigit_of_fiveSix {c : UInt8} (h : c = 53 ∨ c = 54) : isDigit c = true := by
  rcases h with rfl | rfl <;> decide

theorem Filled.forall_iff {P : UInt8 → Prop} (h : Filled n b i w) (hi : i < n) :
    (∀ k < i, P (b k)) ↔ ∀ c ∈ w, P c := by
  have hw : b.toList i = w := by
    rw [h.bytes, List.take_of_length_le]
    have hcount := h.count
    omega
  rw [← hw]
  simp [Bytes.toList]

theorem Filled.length_eq (h : Filled n b i w) (hi : i < n) : i = w.length := by
  have hcount := h.count
  omega

namespace Quiz

structure At (w : Str) (s : State) : Prop where
  buffer : Filled 31 s.buffer s.i (w.filter isDigit)
  numeric : s.isNumeric = w.all isDigit

theorem at_nil (buffer : Bytes) : At [] ⟨buffer, 0, true⟩ := ⟨filled_nil 31 buffer, rfl⟩

theorem At.endWord {s : State} (h : At w s) : At [] (endWord s).1 ∧ (endWord s).2 = fiveSix w := by
  refine ⟨at_nil _, ?_⟩
  unfold Quiz.endWord checkAndPrint
  by_cases hshort : 0 < s.i ∧ s.isNumeric = true ∧ s.i ≤ 3
  · rw [if_pos hshort]
    obtain ⟨hpos, hnumeric, hle⟩ := hshort
    rw [h.numeric, List.all_eq_true] at hnumeric
    have hbuffer := h.buffer
    rw [List.filter_eq_self.mpr hnumeric] at hbuffer
    have hlen := hbuffer.length_eq (by omega)
    have hstr := hbuffer.str hnumeric
    rw [List.take_of_length_le (by omega)] at hstr
    have hne : w ≠ [] := List.length_pos_iff.mp (by omega)
    have hbytes : (∀ k < s.i, ¬ (Function.update s.buffer s.i 0 k ≠ 53 ∧
        Function.update s.buffer s.i 0 k ≠ 54)) ↔ ∀ c ∈ w, c = 53 ∨ c = 54 := by
      rw [← hbuffer.forall_iff (P := fun c => c = 53 ∨ c = 54) (by omega)]
      refine forall₂_congr fun k hk => ?_
      rw [Function.update_of_ne (by omega), ← not_or, not_not]
    have hfive : (∀ c ∈ w, c = 53 ∨ c = 54) ↔ IsFiveSix w :=
      ⟨fun hall => ⟨hne, hlen ▸ hle, hall⟩, fun h => h.2.2⟩
    simp only [hstr, hbytes, hfive, fiveSix]
  · rw [if_neg hshort]
    refine (if_neg ?_).symm
    rintro ⟨hne, hle, hall⟩
    have hdigits : ∀ c ∈ w, isDigit c = true := fun c hc => isDigit_of_fiveSix (hall c hc)
    have hcount := h.buffer.count
    rw [List.filter_eq_self.mpr hdigits] at hcount
    have hpos := List.length_pos_iff.mpr hne
    exact hshort ⟨by omega, h.numeric.trans (List.all_eq_true.mpr hdigits), by omega⟩

theorem byWords : ByWords isSep fiveSix turn At := by
  constructor
  · exact fiveSix_nil
  · rintro w s c hc hs
    unfold turn
    rw [hc]
    simp only [Bool.false_eq_true, if_false]
    cases hd : isDigit c with
    | false =>
      refine ⟨⟨?_, by simp [hd]⟩, rfl⟩
      simpa [hd] using hs.buffer
    | true =>
      simp only [if_true]
      have hfilter : (w ++ [c]).filter isDigit = w.filter isDigit ++ [c] := by simp [hd]
      have hnumeric : s.isNumeric = (w ++ [c]).all isDigit := by simp [hs.numeric, hd]
      split
      · rename_i hi
        refine ⟨⟨?_, hnumeric⟩, rfl⟩
        rw [hfilter]
        exact hs.buffer.push hi c
      · rename_i hi
        refine ⟨⟨?_, hnumeric⟩, rfl⟩
        rw [hfilter]
        exact hs.buffer.full hi c
  · rintro w s c hc hs
    unfold turn
    rw [hc]
    exact hs.endWord

end Quiz

namespace Cooked

def At (w : Str) (s : State) : Prop := Filled 511 s.word s.i w

theorem At.check {s : State} (h : At w s) : (checkAndPrint s.word s.i).2 = fiveSix w := by
  unfold checkAndPrint
  by_cases hlong : s.i = 0 ∨ 3 < s.i
  · rw [if_pos hlong]
    refine (if_neg ?_).symm
    rintro ⟨hne, hle, -⟩
    have hcount := h.count
    have hpos := List.length_pos_iff.mpr hne
    omega
  rw [if_neg hlong]
  have hlen := h.length_eq (by omega)
  have hne : w ≠ [] := List.length_pos_iff.mp (by omega)
  have hbytes : (∃ k < s.i, s.word k ≠ 53 ∧ s.word k ≠ 54) ↔ ¬ ∀ c ∈ w, c = 53 ∨ c = 54 := by
    rw [← h.forall_iff (P := fun c => c = 53 ∨ c = 54) (by omega)]
    push Not
    rfl
  by_cases hall : ∀ c ∈ w, c = 53 ∨ c = 54
  · have hdigits : ∀ c ∈ w, isDigit c = true := fun c hc => isDigit_of_fiveSix (hall c hc)
    have hstr := Filled.str h hdigits
    rw [List.take_of_length_le (by omega)] at hstr
    rw [if_neg (fun hex => hbytes.mp hex hall)]
    have hfive : IsFiveSix w := ⟨hne, by omega, hall⟩
    simp only [hstr, fiveSix]
    rw [if_pos hfive]
  · rw [if_pos (hbytes.mpr hall)]
    exact (if_neg fun hall' => hall hall'.2.2).symm

theorem byWords : ByWords isSep fiveSix turn At := by
  constructor
  · exact fiveSix_nil
  · rintro w s c hc hs
    unfold turn
    rw [hc]
    simp only [Bool.false_eq_true, if_false]
    split
    · rename_i hi
      exact ⟨Filled.push hs hi c, rfl⟩
    · rename_i hi
      exact ⟨Filled.full hs hi c, rfl⟩
  · rintro w s c hc hs
    unfold turn
    rw [hc]
    exact ⟨filled_nil 511 _, hs.check⟩

theorem sixfive_eq (word : Bytes) (content : List UInt8) :
    sixfive word content = (words isSep content).flatMap fiveSix := by
  have hnil : At [] ⟨word, 0⟩ := filled_nil 511 word
  exact byWords.words hnil At.check content

theorem sixfiveAll_eq (word : ℕ → Bytes) (fs : List (Str × List UInt8)) :
    sixfiveAll word (opened fs) = fs.flatMap fun f => (words isSep f.2).flatMap fiveSix := by
  induction fs generalizing word with
  | nil => rfl
  | cons f fs ih =>
    unfold opened at ih ⊢
    rw [List.map_cons, sixfiveAll]
    simp only [ih, sixfive_eq, List.flatMap_cons]

end Cooked

namespace Quiz

theorem openFile_eq (buffer : Bytes) (name : Str) (content : List UInt8) :
    ∃ buffer', openFile ⟨buffer, 0, true⟩ ⟨name, some content⟩ =
      (⟨buffer', 0, true⟩, (words isSep content).flatMap fiveSix) := by
  refine ⟨_, Prod.ext rfl ?_⟩
  exact byWords.words (at_nil buffer) (fun h => h.endWord.2) content

theorem main_eq (buffer : Bytes) (fs : List (Str × List UInt8)) :
    main buffer (opened fs) = fs.flatMap fun f => (words isSep f.2).flatMap fiveSix := by
  unfold main
  induction fs generalizing buffer with
  | nil => rfl
  | cons f fs ih =>
    unfold opened at ih ⊢
    obtain ⟨buffer', hfile⟩ := openFile_eq buffer f.1 f.2
    rw [List.map_cons, readAll_cons, hfile, ih, List.flatMap_cons]

end Quiz

/-- Both programs print the words of at most three bytes, all of them 5 or 6, file by file. -/
theorem quiz_eq_cooked (buffer : Bytes) (word : ℕ → Bytes) (hfs : fs ≠ []) :
    Quiz.main buffer (opened fs) = Cooked.main word (opened fs) ∧
      Quiz.main buffer (opened fs) = fs.flatMap fun f => (words isSep f.2).flatMap fiveSix := by
  have hopened : opened fs ≠ [] := by simpa [opened] using hfs
  refine ⟨?_, Quiz.main_eq buffer fs⟩
  rw [Quiz.main_eq, Cooked.main, if_neg hopened, Cooked.sixfiveAll_eq]

/-- Two files, with a word that is too long in the second. -/
theorem quiz_eq_cooked_small :
    Quiz.main (fun _ => 0) (opened [([], [53, 54]), ([], [54, 32, 53, 53, 53, 53])]) =
      Cooked.main (fun _ _ => 0) (opened [([], [53, 54]), ([], [54, 32, 53, 53, 53, 53])]) ∧
    Quiz.main (fun _ => 0) (opened [([], [53, 54]), ([], [54, 32, 53, 53, 53, 53])]) =
      [.text [53, 54], .text [54]] := by
  have hfs : [(([] : Str), ([53, 54] : List UInt8)), ([], [54, 32, 53, 53, 53, 53])] ≠ [] := by simp
  obtain ⟨hsame, hprint⟩ := quiz_eq_cooked (fun _ => 0) (fun _ _ => 0) hfs
  exact ⟨hsame, hprint.trans (by decide +kernel)⟩

end Xv6Sheet.Sixfive
