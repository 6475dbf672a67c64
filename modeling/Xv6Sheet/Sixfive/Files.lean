import Xv6Sheet.Sixfive.Numbers

/-! # Numbers that are missed

`lab2/sixfive.c` judges a word at the separator after it only. The end of a file is none: a number
there is not printed, and a word that is not ended goes on in the next file.
-/

namespace Xv6Sheet.Sixfive

open Xargs (Str atoi)

def opened (fs : List (Str × List UInt8)) : List File := fs.map fun f => ⟨f.1, some f.2⟩

def text (fs : List (Str × List UInt8)) : List UInt8 := (fs.map Prod.snd).flatten

def reports (content : List UInt8) : List Line := (words isSep content).flatMap report

theorem reports_eq (content : List UInt8) :
    reports content = (endedWords isSep content).flatMap report ++ report
    (lastRun isSep content) := by
  have hall := words_eq_endedWords (p := isSep) (w := []) (by simp) content
  rw [List.nil_append] at hall
  unfold reports
  rw [hall, List.flatMap_append]
  split
  · rename_i hnil
    rw [hnil]
    simp [report, IsNumber]
  · simp

namespace Lab2

variable {w : List UInt8} {buffer : Bytes} {fs : List (Str × List UInt8)}

/-- A word as an `int`, as far as the buffer holds it. -/
def asInt (w : Str) : ℤ := atoi (w.take 31)

structure At (w : Str) (s : State) : Prop where
  buffer : Filled 31 s.buffer s.i (w.filter isDigit)
  valid : s.isValid = w.all isDigit

theorem at_nil (buffer : Bytes) : At [] ⟨buffer, 0, true⟩ := ⟨filled_nil 31 buffer, rfl⟩

theorem At.isNumber_iff {s : State} (h : At w s) : 0 < s.i ∧ s.isValid = true ↔ IsNumber w := by
  rw [h.valid, List.all_eq_true, h.buffer.count]
  constructor
  · rintro ⟨hpos, hall⟩
    refine ⟨?_, hall⟩
    rintro rfl
    simp at hpos
  · rintro ⟨hne, hall⟩
    refine ⟨?_, hall⟩
    rw [List.filter_eq_self.mpr hall]
    have hpos := List.length_pos_iff.mpr hne
    omega

theorem byWords : ByWords isSep (verdict asInt) turn At := by
  constructor
  · exact verdict_nil asInt
  · rintro w s c hc hs
    unfold turn
    rw [hc]
    simp only [Bool.false_eq_true, if_false]
    cases hd : isDigit c with
    | false =>
      refine ⟨⟨?_, by simp [hd]⟩, rfl⟩
      simpa [hd] using hs.buffer
    | true =>
      simp only [if_true]
      have hfilter : (w ++ [c]).filter isDigit = w.filter isDigit ++ [c] := by simp [hd]
      have hvalid : s.isValid = (w ++ [c]).all isDigit := by simp [hs.valid, hd]
      split
      · rename_i hi
        refine ⟨⟨?_, hvalid⟩, rfl⟩
        rw [hfilter]
        exact hs.buffer.push hi c
      · rename_i hi
        refine ⟨⟨?_, hvalid⟩, rfl⟩
        rw [hfilter]
        exact hs.buffer.full hi c
  · rintro w s c hc hs
    unfold turn
    rw [hc]
    simp only [if_true, hs.isNumber_iff]
    by_cases hw : IsNumber w
    · rw [if_pos hw]
      refine ⟨at_nil _, ?_⟩
      have hbuffer := hs.buffer
      rw [List.filter_eq_self.mpr hw.2] at hbuffer
      simp only [hbuffer.str hw.2, verdict, hw, true_and]
      rfl
    · rw [if_neg hw]
      refine ⟨at_nil _, ?_⟩
      simp [verdict, hw]

def printed (buffer : Bytes) (fs : List (Str × List UInt8)) : List Line := main buffer (opened fs)

/-- The program has its verdict on every word of the files, taken as one, that a separator ends. -/
theorem printed_eq (buffer : Bytes) (fs : List (Str × List UInt8)) :
    printed buffer fs = (endedWords isSep (text fs)).flatMap (verdict asInt) := by
  have hfiles : ∀ s, readAll openFile s (opened fs) = readAll (readAll turn) s
    (fs.map Prod.snd) := by
    induction fs with
    | nil => exact fun _ => rfl
    | cons f fs ih =>
      intro s
      unfold opened at ih ⊢
      rw [List.map_cons, List.map_cons, readAll_cons, readAll_cons, ih]
      rfl
  have hsaid := (byWords.readAll_nil (at_nil buffer) (text fs)).2
  rw [printed, main, hfiles, readAll_flatten]
  exact hsaid

/-- The program prints what is to be printed: at each point of a file all that is to be printed for
the files before it and for the words that have ended, and for all files at the end. -/
structure Prints (buffer : Bytes) (fs : List (Str × List UInt8)) : Prop where
  soFar : ∀ done f rest m, fs = done ++ f :: rest → m <+: f.2 →
    printed buffer (done ++ [(f.1, m)]) =
    (done.flatMap fun f => reports f.2) ++ (endedWords isSep m).flatMap report
  whole : printed buffer fs = fs.flatMap fun f => reports f.2

/-- A file is judged right after a run `u` that the file before it has left: the int that the
program makes of a word, with the run before the first, is the number to be printed, or neither is
printed; and no number to be printed stands at the end of the file. -/
structure JudgedRight (u content : List UInt8) : Prop where
  ended : SameVerdicts isSep (verdict asInt) report u [] content
  last : report (lastRun isSep content) = []

theorem lastRun_not_sep (l : List UInt8) : ∀ y ∈ lastRun isSep l, isSep y = false := by
  simpa using (lastRun_spec (p := isSep) (w := []) (by simp) l).1

theorem endedWords_lastRun (l : List UInt8) : endedWords isSep (lastRun isSep l) = [] :=
  endedWords_of_forall (lastRun_not_sep l)

theorem printed_concat (buffer : Bytes) (done : List (Str × List UInt8)) (name m : List UInt8) :
    printed buffer (done ++ [(name, m)]) = printed buffer done ++
      (endedWords isSep (lastRun isSep (text done) ++ m)).flatMap (verdict asInt) := by
  have htext : text (done ++ [(name, m)]) = text done ++ m := by simp [text]
  have hended := endedWords_append (p := isSep) (w := []) (by simp) (text done) m
  rw [List.nil_append] at hended
  rw [printed_eq, printed_eq, htext, hended, List.flatMap_append]

/-- What is said about a part of a file is right at each of its points exactly when its ended words
are judged right. -/
theorem ended_iff (u content : List UInt8) (hu : ∀ y ∈ u, isSep y = false) :
    (∀ m, m <+: content → (endedWords isSep (u ++ m)).flatMap (verdict asInt) =
      (endedWords isSep m).flatMap report) ↔
    SameVerdicts isSep (verdict asInt) report u [] content :=
  forall_prefix_iff (v := []) hu (by simp) (verdict_nil asInt) (by simp [report, IsNumber])

theorem Prints.before (h : Prints buffer fs) {done rest : List (Str × List UInt8)}
    (hfs : fs = done ++ rest) : printed buffer done = done.flatMap fun f => reports f.2 := by
  cases rest with
  | nil =>
    rw [List.append_nil] at hfs
    rw [← hfs]
    exact h.whole
  | cons f rest =>
    have hstart := h.soFar done f rest [] hfs List.nil_prefix
    rw [printed_concat, List.append_nil, endedWords_lastRun] at hstart
    simpa [endedWords, List.splitOnP_nil] using hstart

/-- The program prints what is to be printed exactly when every file is judged right after those
before it. -/
theorem prints_iff_judged (buffer : Bytes) (fs : List (Str × List UInt8)) : Prints buffer fs ↔
    ∀ done f rest, fs = done ++ f :: rest → JudgedRight (lastRun isSep (text done)) f.2 := by
  constructor
  · rintro h done ⟨name, content⟩ rest hfs
    have hpoint : ∀ m, m <+: content →
        (endedWords isSep (lastRun isSep (text done) ++ m)).flatMap (verdict asInt) =
          (endedWords isSep m).flatMap report := by
      intro m hm
      have hsaid := h.soFar done _ rest m hfs hm
      rwa [printed_concat, h.before hfs, List.append_cancel_left_eq] at hsaid
    refine ⟨(ended_iff _ _ (lastRun_not_sep _)).mp hpoint, ?_⟩
    have hnext := h.before (hfs.trans (List.append_cons done (name, content) rest))
    rw [printed_concat, h.before hfs, hpoint content List.prefix_rfl, List.flatMap_append,
      List.append_cancel_left_eq, List.flatMap_singleton, reports_eq] at hnext
    exact List.append_right_eq_self.mp hnext.symm
  · intro h
    have hpoint : ∀ {done f rest}, fs = done ++ f :: rest → ∀ m, m <+: f.2 →
        (endedWords isSep (lastRun isSep (text done) ++ m)).flatMap (verdict asInt) =
          (endedWords isSep m).flatMap report :=
      fun hfs => (ended_iff _ _ (lastRun_not_sep _)).mpr (h _ _ _ hfs).ended
    have hbefore : ∀ done rest, fs = done ++ rest →
        printed buffer done = done.flatMap fun f => reports f.2 := by
      intro done
      induction done using List.reverseRecOn with
      | nil => exact fun _ _ => rfl
      | append_singleton done f ih =>
        rintro rest hfs
        rw [List.append_assoc, List.singleton_append] at hfs
        have hlast := (h done f rest hfs).last
        rw [printed_concat, ih _ hfs, hpoint hfs f.2 List.prefix_rfl, List.flatMap_append,
          List.flatMap_singleton, reports_eq, hlast, List.append_nil]
    constructor
    · intro done f rest m hfs hm
      rw [printed_concat, hbefore done _ hfs, hpoint hfs m hm]
    · exact hbefore fs [] (by simp)

/-- The program prints what is to be printed, and for several files what it prints for each of them,
exactly when it judges every file right, alone and after those before it. -/
theorem prints_iff (buffer : Bytes) (fs : List (Str × List UInt8)) :
    ((∀ f ∈ fs, JudgedRight [] f.2) →
      (∀ done f rest, fs = done ++ f :: rest → JudgedRight (lastRun isSep (text done)) f.2) →
      printed buffer fs = (fs.flatMap fun f => reports f.2) ∧
        printed buffer fs = fs.flatMap fun f => printed buffer [f]) ∧
    (Prints buffer fs ∧ (∀ f ∈ fs, Prints buffer [f]) ↔
      (∀ f ∈ fs, JudgedRight [] f.2) ∧
        ∀ done f rest, fs = done ++ f :: rest → JudgedRight (lastRun isSep (text done)) f.2) := by
  have halone : ∀ f, Prints buffer [f] ↔ JudgedRight [] f.2 := by
    intro f
    rw [prints_iff_judged]
    constructor
    · exact fun h => h [] f [] rfl
    · rintro h done g rest hfs
      obtain ⟨rfl, rfl, rfl⟩ : done = [] ∧ g = f ∧ rest = [] := by
        cases done <;> simp_all
      exact h
  constructor
  · intro heach hall
    have hwhole := ((prints_iff_judged buffer fs).mpr hall).whole
    refine ⟨hwhole, hwhole.trans (List.flatMap_congr fun f hf => ?_)⟩
    have hone := ((halone f).mpr (heach f hf)).whole
    rw [hone, List.flatMap_singleton]
  · rw [prints_iff_judged]
    simp only [halone]
    exact And.comm

/-- A file is judged right after any file that ends in a separator when it ends in one too and its
numbers have room in the buffer and in an `int`. -/
theorem judgedRight_of_small {content : List UInt8} (hlast : lastRun isSep content = [])
    (hsmall : ∀ w ∈ endedWords isSep content, IsNumber w → w.length ≤ 31 ∧ value w < 2 ^ 31) :
    JudgedRight [] content := by
  constructor
  · rw [sameVerdicts_self_iff (by simp) (by simp [report, IsNumber]), List.nil_append]
    refine fun w hw => verdict_eq_report fun hnum => ?_
    obtain ⟨hlen, hlt⟩ := hsmall w hw hnum
    rw [asInt, List.take_of_length_le hlen, atoi_eq hnum.2]
    exact Int.bmod_eq_of_le (by omega) (by omega)
  · rw [hlast]
    simp [report, IsNumber]

/-- Two files that end in a separator, the first one with 10 and 5, the second with 25, 7 and 6. -/
def twoFiles : List (Str × List UInt8) :=
  [([97], [49, 48, 32, 53, 10]), ([98], [50, 53, 44, 55, 32, 54, 10])]

theorem prints_small :
    printed (fun _ => 0) twoFiles = [.number 10, .number 5, .number 25, .number 6] := by
  have hfirst : JudgedRight [] [49, 48, 32, 53, 10] :=
    judgedRight_of_small (by decide +kernel) (by decide +kernel)
  have hsecond : JudgedRight [] [50, 53, 44, 55, 32, 54, 10] :=
    judgedRight_of_small (by decide +kernel) (by decide +kernel)
  have hall : ∀ f ∈ twoFiles, JudgedRight [] f.2 := by
    simp only [twoFiles, List.forall_mem_cons]
    exact ⟨hfirst, hsecond, by simp⟩
  refine ((prints_iff (fun _ => 0) twoFiles).1 hall ?_).1.trans (by decide +kernel)
  rintro done f rest hfs
  have hclean : ∀ fs ∈ twoFiles.inits, lastRun isSep (text fs) = [] := by decide +kernel
  rw [hclean done ((List.mem_inits _ _).mpr ⟨f :: rest, hfs.symm⟩)]
  exact hall f (by simp [hfs])

/-- A number at the end of a file is missed, and one that goes on in the next file is another. -/
theorem last_number_lost : printed (fun _ => 0) [([], [53])] = [] ∧ reports [53] = [.number 5] := by
  decide +kernel

end Lab2

end Xv6Sheet.Sixfive
