import Xv6Sheet.Find.Listing
import Xv6Sheet.Lib.Print

/-! # find -exec

The program with `-exec` runs its command on the files that the other program prints, in the same
order.
-/

namespace Xv6Sheet.Find

open Exec Kernel
open Xargs (Str Limits)

variable [pm : Param] [lim : Limits] {path target : Str}

theorem wp_runExec_long {cmd : List Str} {p : Str} {Q : Unit → Process → Prop} {s : Process}
    (h : ¬ Fits cmd) : Wp (fun e => e = .argv) (runExec cmd p) Q s := by
  unfold runExec
  rw [if_neg (show ¬ cmd.length + 2 ≤ Limits.MAXARG from h)]
  exact wp_throw.mpr rfl

/-- Without a command both programs print the same paths. With one, the second program runs it once
for each of them with the path behind its arguments, in the order of the printed lines. A command
that leaves no room in its array for the path and the null pointer overruns it exactly when a file
is found. -/
theorem exec_follows_find (hmax : Param.MAXPATH = 128) (hpath : 0 ∉ path) (htarget : 0 ∉ target)
    (T : Tree) (cwd : ℕ) (s : Process) (argv : List Str) {depth : ℕ} (hdepth : 128 < depth)
    (junk junk' : Bytes) :
    ∃ out : List Str,
      Ends (Plain.find T cwd target junk depth path) s ()
      { s with log := s.log ++ out.map .print } ∧
      Ends (Command.find T cwd none target junk' depth path) s ()
        { s with log := s.log ++ out.map .print } ∧
      (Fits argv → Ends (Command.find T cwd (some argv) target junk' depth path) s ()
        { s with log := s.log ++ out.map fun p => .exec (argv ++ [p]) }) ∧
      (¬ Fits argv →
        (out = [] → Ends (Command.find T cwd (some argv) target junk' depth path) s () s) ∧
        (out ≠ [] →
          Faults (Command.find T cwd (some argv) target junk' depth path) s .argv)) := by
  have hbuf : Param.MAXPATH + DIRSIZ + 1 ≤ bufSize := by rw [hmax]; decide
  have hlong : Param.MAXPATH < depth + path.length := by omega
  have hpos : 0 < depth := by omega
  have hruns : ∀ {E : Stop → Prop} (cmd : Option (List Str)) (act : Str → List Event),
      (∀ p (u : Process), Wp E (handle cmd p) (fun _ t => t = { u with log := u.log ++ act p }) u) →
      Wp E (Command.find T cwd cmd target junk' depth path) (fun _ t => t =
        { s with log := s.log ++ (matching T cwd target depth s.room path).flatMap act }) s :=
    fun cmd act hfound => wp_walk s (fun p _ => hfound p) hbuf htarget hpath hlong hpos
  refine ⟨_, find_ends hbuf htarget hpath hlong hpos s, ?_, fun hfits => ?_,
    fun hnot => ⟨fun hout => ?_, fun hout => ?_⟩⟩
  · have hnone := hruns (E := fun _ => False) none (fun p => [.print p]) fun _ _ => wp_print
    obtain ⟨⟨⟩, t, hends, ht⟩ := hnone.ends
    rwa [ht, ← List.map_eq_flatMap] at hends
  · have hsome := hruns (E := fun _ => False) (some argv) (fun p => [.exec (argv ++ [p])])
      fun _ _ => wp_runExec fun h => h hfits
    obtain ⟨⟨⟩, t, hends, ht⟩ := hsome.ends
    rwa [ht, ← List.map_eq_flatMap] at hends
  · -- nothing is asked of a command that is never run
    have hquiet : Wp (fun _ => False) (Command.find T cwd (some argv) target junk' depth path)
        (fun _ t => t = { s with log :=
          s.log ++ (matching T cwd target depth s.room path).flatMap fun _ => [] }) s :=
      wp_walk s (fun p hp => absurd (hout ▸ hp) (by simp)) hbuf htarget hpath hlong hpos
    obtain ⟨⟨⟩, t, hends, ht⟩ := hquiet.ends
    rwa [ht, hout, List.flatMap_nil, List.append_nil] at hends
  · have hstop := fun act => hruns (E := fun e => e = .argv) (some argv) act
      fun _ _ => wp_runExec_long hnot
    rcases ends_or_faults (Command.find T cwd (some argv) target junk' depth path) s with
      ⟨⟨⟩, t, hends⟩ | ⟨e, hfault⟩
    · -- a run that ended would have logged one event for each file, and none
      have hone := (hstop fun p => [.print p]).1 () t hends
      have hzero := (hstop fun _ => []).1 () t hends
      rw [hone, Process.mk.injEq, List.append_cancel_left_eq, ← List.map_eq_flatMap] at hzero
      have hnil := hzero.2.2
      rw [List.flatMap_eq_nil_iff.mpr fun _ _ => rfl, List.map_eq_nil_iff] at hnil
      exact absurd hnil hout
    · rw [(hstop fun _ => []).2 e hfault] at hfault
      exact hfault

omit pm lim in
/-- The file in the directory `/d`, for which `echo` is run. -/
theorem exec_follows_find_small :
    letI := smallParam
    letI : Limits := ⟨32⟩
    Ends (Command.find (chainTree 2) ROOTINO (some [ascii "echo"]) [100] (fun _ => 0) 129 [47])
    threeOpen ()
      { threeOpen with log := [.exec [ascii "echo", ascii "//d/d"]] } := by
  let _ := smallParam
  let _ : Limits := ⟨32⟩
  obtain ⟨out, hprint, -, hexec, -⟩ := @exec_follows_find _ _ [47] [100] rfl (by decide)
    (by decide) (chainTree 2) ROOTINO threeOpen [ascii "echo"] 129 (by decide) (fun _ => 0)
    (fun _ => 0)
  have hrun : Ends (Plain.find (chainTree 2) ROOTINO [100] (fun _ => 0) 129 [47]) threeOpen () _ :=
    ends_answer (by decide +kernel)
  have hlog : out.map Event.print = [.print (ascii "//d/d")] :=
    (congrArg Process.log (hprint.unique hrun).2).trans (by decide +kernel)
  obtain ⟨p, rfl, hp⟩ := List.map_eq_singleton_iff.mp hlog
  rw [← Event.print.inj hp]
  exact hexec (show 1 + 2 ≤ 32 by decide)

end Xv6Sheet.Find
