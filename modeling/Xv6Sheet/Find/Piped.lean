import Xv6Sheet.Find.Exec
import Xv6Sheet.Xargs.Agree

/-! # find -exec and find | xargs

What `find` prints goes into `xargs -n 1`, which runs its command with one word after the other.
That is what `find -exec` does with the paths, as long as each path is one word.
-/

namespace Xv6Sheet.Find

open Exec Kernel
open Xargs (Str Limits dashN isSpace)

def Event.text : Event → List UInt8
  | .print path => path ++ ascii "\n"
  | .exec _ => []

def stdout (log : List Event) : List UInt8 := log.flatMap Event.text

theorem stdout_print (ps : List Str) : stdout (ps.map .print) = ps.flatMap (· ++ [10]) :=
  List.flatMap_map Event.print Event.text ps

theorem getLast_lines (ps : List Str) :
    ∀ c ∈ (ps.flatMap (· ++ [10])).getLast?, isSpace c = true := by
  rcases List.eq_nil_or_concat ps with rfl | ⟨ps, p, rfl⟩
  · simp
  · rw [List.concat_eq_append, List.flatMap_append, List.flatMap_singleton, ← List.append_assoc,
      List.getLast?_concat]
    rintro c hc
    obtain rfl := Option.some.inj hc
    rfl

section Paths

variable [pm : Param] {T : Tree} {cwd depth room : ℕ} {target path p : Str}

theorem matching_path (hpath : 0 ∉ path) (h : p ∈ matching T cwd target depth room path) :
    p.length < Param.MAXPATH ∧ 0 ∉ p := by
  induction depth generalizing room path with
  | zero => cases h
  | succ depth ih =>
    cases room with
    | zero => cases h
    | succ room =>
      unfold matching at h
      split at h
      · cases h
      rename_i i n hi
      split at h
      · split at h
        · obtain rfl := List.mem_singleton.mp h
          exact ⟨(openNode_length hi).1, hpath⟩
        · cases h
      split at h
      · obtain ⟨e, he, hp⟩ := List.mem_flatMap.mp h
        refine ih ?_ hp
        have hname := zero_not_mem_name (List.mem_of_mem_filter he)
        simpa [hpath] using hname
      · cases h

end Paths

variable [pm : Param] [lim : Limits] {path target : Str}

omit pm in
/-- `xargs -n 1` runs its command once for each word of the lines, in both versions. -/
theorem xargs_lines (name : Str) {argv : List Str} (hfits : Fits argv) {ps : List Str}
    (hps : ∀ p ∈ ps, p.length < Xargs.bufSize ∧ 0 ∉ p) {q : Xargs.Proc} (hq : q.ran = []) :
    ∃ v, Ends (Xargs.Cooked.main (name :: dashN :: [49] :: argv) (ps.flatMap (· ++ [10]))) q () v ∧
      Ends (Xargs.Lab2.main (name :: dashN :: [49] :: argv) (ps.flatMap (· ++ [10]))) q () v ∧
      v.ran = (ps.flatMap (words isSpace)).map fun w => argv ++ [w] := by
  have hroom : argv.length + 2 ≤ Limits.MAXARG := hfits
  have hwords := words_lines (p := isSpace) (x := 10) rfl ps
  have hword : ∀ w ∈ ps.flatMap (words isSpace), w.length < Xargs.bufSize ∧ 0 ∉ w := by
    intro w hw
    obtain ⟨p, hp, hw⟩ := List.mem_flatMap.mp hw
    obtain ⟨hlen, hzero⟩ := hps p hp
    have hspec := word_spec (w := []) (by simp) hw
    refine ⟨lt_of_le_of_lt hspec.2.2 hlen, fun h0 => hzero ?_⟩
    exact mem_of_mem_words (w := []) (by simp) hw h0
  have hcall : Xargs.Cooked.Called argv (name :: dashN :: [49] :: argv) (some 1) :=
    ⟨Nat.one_pos, name, [49], rfl, rfl⟩
  have hmost : Xargs.Cooked.Fits argv (some 1) (words isSpace (ps.flatMap (· ++ [10]))) := by
    rw [hwords]
    refine ⟨fun w hw => (hword w hw).1, ?_⟩
    have hone : Xargs.Cooked.most (some 1) (ps.flatMap (words isSpace)).length ≤ 1 :=
      Nat.min_le_left 1 _
    omega
  obtain ⟨v, hv, hran⟩ := Xargs.Cooked.ends_main hq hcall hmost
  refine ⟨v, hv, ?_, ?_⟩
  · have hlong : ¬ (name :: dashN :: [49] :: argv).length < 2 := by
      simp only [List.length_cons]
      omega
    unfold Xargs.Lab2.main
    rw [if_neg hlong, if_pos (show (name :: dashN :: [49] :: argv)[1]? = some dashN from rfl),
      ← Xargs.loop_eq]
    exact hv
  · rw [hran, Scan.groups_one (getLast_lines ps), hwords, List.map_map]
    refine List.map_congr_left fun w hw => ?_
    show argv ++ [Xargs.cString w] = argv ++ [w]
    rw [Xargs.cString_eq_self (hword w hw).2]

/-- `find -exec` runs the commands that `find | xargs -n 1` runs, in the same order, exactly when no
path that is found is empty or has a space, a tab or a newline in it. -/
theorem exec_is_find_xargs (hmax : Param.MAXPATH = 128) (hpath : 0 ∉ path) (htarget : 0 ∉ target)
    (T : Tree) (cwd : ℕ) (s : Process) (hs : s.log = []) (argv : List Str) (hfits : Fits argv)
    {depth : ℕ}
    (hdepth : 128 < depth) (junk junk' : Bytes) (name : Str) (q : Xargs.Proc) (hq : q.ran = []) :
    ∃ t u v, Ends (Plain.find T cwd target junk depth path) s () t ∧
      Ends (Command.find T cwd (some argv) target junk' depth path) s () u ∧
      Ends (Xargs.Cooked.main (name :: dashN :: [49] :: argv) (stdout t.log)) q () v ∧
      Ends (Xargs.Lab2.main (name :: dashN :: [49] :: argv) (stdout t.log)) q () v ∧
      (v.ran.map .exec = u.log ↔
        ∀ p, .print p ∈ t.log → p ≠ [] ∧ ∀ c ∈ p, isSpace c = false) := by
  have hbuf : Param.MAXPATH + DIRSIZ + 1 ≤ bufSize := by rw [hmax]; decide
  have hlong : Param.MAXPATH < depth + path.length := by omega
  have hpos : 0 < depth := by omega
  have hprint : Ends (Plain.find T cwd target junk depth path) s () _ :=
    find_ends hbuf htarget hpath hlong hpos s
  have hrun : ∀ p (u : Process), Wp (fun _ : Stop => False) (handle (some argv) p)
      (fun _ t => t = { u with log := u.log ++ [.exec (argv ++ [p])] }) u :=
    fun _ _ => wp_runExec fun h => h hfits
  have hexec : Wp (fun _ => False) (Command.find T cwd (some argv) target junk' depth path) _ s :=
    wp_walk s (fun p _ => hrun p) hbuf htarget hpath hlong hpos
  obtain ⟨⟨⟩, u, hu, rfl⟩ := hexec.ends
  obtain ⟨ps, hout⟩ : ∃ ps, ps = matching T cwd target depth s.room path := ⟨_, rfl⟩
  rw [← hout, ← List.map_eq_flatMap] at hu
  rw [← hout] at hprint
  have hps : ∀ p ∈ ps, p.length < Xargs.bufSize ∧ 0 ∉ p := by
    intro p hp
    rw [hout] at hp
    obtain ⟨hlen, hzero⟩ := matching_path hpath hp
    rw [hmax] at hlen
    exact ⟨hlen.trans (by decide), hzero⟩
  obtain ⟨v, hv, hv', hran⟩ := xargs_lines name hfits hps hq
  refine ⟨_, _, v, hprint, hu, ?_, ?_, ?_⟩
  · rw [hs, List.nil_append, stdout_print]
    exact hv
  · rw [hs, List.nil_append, stdout_print]
    exact hv'
  · have hinj : Function.Injective fun w : Str => Event.exec (argv ++ [w]) := fun w w' h =>
      List.singleton_inj.mp (List.append_cancel_left (Event.exec.inj h))
    simp only [hran, hs, List.nil_append, List.map_map]
    rw [show (Event.exec ∘ fun w : Str => argv ++ [w]) = fun w => Event.exec (argv ++ [w]) from rfl,
      (List.map_injective_iff.mpr hinj).eq_iff, words_lines_eq_iff]
    constructor
    · rintro h p hp
      obtain ⟨p', hp', heq⟩ := List.mem_map.mp hp
      rw [Event.print.inj heq] at hp'
      exact h p hp'
    · exact fun h p hp => h p (List.mem_map_of_mem hp)

omit pm lim in
/-- `find / d -exec echo` and `find / d | xargs -n 1 echo` with a file `/d/d`. -/
theorem exec_is_find_xargs_small :
    letI := smallParam
    letI := Xargs.Cooked.smallLimits
    ∃ u v, Ends (Command.find (chainTree 2) ROOTINO (some [ascii "echo"]) [100]
    (fun _ => 0) 129 [47])
        threeOpen () u ∧
      Ends (Xargs.Cooked.main [ascii "xargs", dashN, [49], ascii "echo"] (ascii "//d/d\n"))
        Xargs.Cooked.newProc () v ∧
      v.ran.map .exec = u.log := by
  let _ := smallParam
  let _ := Xargs.Cooked.smallLimits
  obtain ⟨t, u, v, hprint, hexec, hxargs, -, hiff⟩ :=
    @exec_is_find_xargs _ _ [47] [100] rfl (by decide)
    (by decide) (chainTree 2) ROOTINO threeOpen rfl [ascii "echo"] (show 1 + 2 ≤ 32 by decide)
    129 (by decide) (fun _ => 0) (fun _ => 0) (ascii "xargs") Xargs.Cooked.newProc rfl
  have hrun : Ends (Plain.find (chainTree 2) ROOTINO [100] (fun _ => 0) 129 [47]) threeOpen () _ :=
    ends_answer (by decide +kernel)
  have hlog : t.log = [.print (ascii "//d/d")] :=
    (congrArg Process.log (hprint.unique hrun).2).trans (by decide +kernel)
  rw [hlog] at hxargs hiff
  refine ⟨u, v, hexec, hxargs, hiff.mpr fun p hp => ?_⟩
  obtain rfl := Event.print.inj (List.mem_singleton.mp hp)
  decide +kernel

end Xv6Sheet.Find
