import Toshokan.Hakase.BootCores

/-!
# From `boot` to the exit of hakase

`boot` takes processors from Linux and keeps their device files open; when hakase exits, the kernel closes them, and
`cpudevice_close` brings every processor up, whether it had been online or not.

* `closeFiles`, `exitHakase` : the exit; `online_bootFrom`, `online_exitHakase` : which processors are online after each;
* `exit_restores_iff` : when Linux has its processors as before.
-/

namespace Toshokan.Hakase
open FriendLoader

/-- Closing device files; `up` tells whether `cpu_up` succeeds. -/
def closeFiles (up : Nat → Bool) (s : Cpus) (minors : List Nat) : Cpus :=
  minors.foldl (fun s minor => (cpudeviceClose s minor (up minor)).2) s

/-- The exit of hakase closes the files that `boot` has opened, in the order of their descriptors. -/
def exitHakase (up : Nat → Bool) (b : BootRun) : Cpus := closeFiles up b.cpus (b.starts.map fun r => r.1 - 1)

section
variable {D : Dev} {T : Topology} {t : Nat → Attempt} {max : Int} {s : Cpus} {up : Nat → Bool}

theorem online_cpuStart (i : Nat) (a : Attempt) :
    (Granted T s i a → (cpuStart T s i a).2.online i = false) ∧
      (¬ Granted T s i a → (cpuStart T s i a).2.online i = s.online i) := by
  refine ⟨fun hg => ?_, fun hg => ?_⟩
  · by_cases hb : i = 0 ∨ T.apicid i = 0
    · rw [cpuStart_boot hg hb]
      exact Function.update_self ..
    · rw [cpuStart_wakes hg hb]
      exact Function.update_self ..
  · rw [cpuStart_of_not_granted hg]

/-- **Which processors are online after `boot`**: not those it comes to and Linux gives up. -/
theorem online_bootFrom (D : Dev) (T : Topology) (t : Nat → Attempt) (max : Int) (i : Nat) (s : Cpus) (j : Nat) :
    (Reached D max i j → Granted T s j (t j) → (bootFrom D T t max i s).cpus.online j = false) ∧
      (¬ (Reached D max i j ∧ Granted T s j (t j)) → (bootFrom D T t max i s).cpus.online j = s.online j) := by
  refine bootFrom_induct (P := fun i s run =>
    (Reached D max i j → Granted T s j (t j) → run.cpus.online j = false) ∧
      (¬ (Reached D max i j ∧ Granted T s j (t j)) → run.cpus.online j = s.online j)) ?_ ?_ ?_ i s
  · intro i s h
    exact ⟨fun hr _ => absurd (hr.nodes i le_rfl hr.le) h, fun _ => rfl⟩
  · intro i s h hi
    have hself := online_cpuStart (T := T) (s := s) i (t i)
    refine ⟨fun hr hg => ?_, fun hno => ?_⟩
    · have hji : j = i := by
        by_contra hne
        exact (hr.of_ne hne).1 hi
      subst hji
      exact hself.1 hg
    · by_cases hji : j = i
      · subst hji
        exact hself.2 fun hg => hno ⟨reached_self h, hg⟩
      · exact cpuStart_frame.1 j hji
  · rintro i s rest h hi ⟨hin, hout⟩
    have hself := online_cpuStart (T := T) (s := s) i (t i)
    have hlater : ¬ Reached D max (i + 1) i := fun hr => absurd hr.le (by omega)
    refine ⟨fun hr hg => ?_, fun hno => ?_⟩
    · by_cases hji : j = i
      · subst hji
        exact (hout fun hr' => hlater hr'.1).trans (hself.1 hg)
      · exact hin (hr.of_ne hji).2 ((granted_cpuStart hji _).mpr hg)
    · by_cases hji : j = i
      · subst hji
        exact (hout fun hr' => hlater hr'.1).trans (hself.2 fun hg => hno ⟨reached_self h, hg⟩)
      · rw [hout fun hr' => hno ⟨hr'.1.next h hi, (granted_cpuStart hji _).mp hr'.2⟩]
        exact cpuStart_frame.1 j hji

theorem online_closeFiles (minors : List Nat) (j : Nat) :
    ((∃ m ∈ minors, cpuOf m = j ∧ up m = true) → (closeFiles up s minors).online j = true) ∧
      ((∀ m ∈ minors, cpuOf m = j → up m = false) → (closeFiles up s minors).online j = s.online j) := by
  have hclose : ∀ (s : Cpus) (m : Nat), (cpudeviceClose s m (up m)).2.online j =
      if cpuOf m = j ∧ up m = true then true else s.online j := by
    intro s m
    unfold cpudeviceClose cpuReplug
    by_cases hup : up m = true
    · rw [if_pos hup]
      by_cases hj : cpuOf m = j
      · rw [if_pos ⟨hj, hup⟩, ← hj]
        exact Function.update_self ..
      · rw [if_neg fun h => hj h.1]
        exact Function.update_of_ne (Ne.symm hj) _ _
    · rw [if_neg hup, if_neg fun h => hup h.2]
  induction minors using List.reverseRecOn with
  | nil => exact ⟨fun ⟨m, hm, _⟩ => absurd hm List.not_mem_nil, fun _ => rfl⟩
  | append_singleton minors m ih =>
      have hstep : closeFiles up s (minors ++ [m]) = (cpudeviceClose (closeFiles up s minors) m (up m)).2 :=
        List.foldl_append
      rw [hstep, hclose]
      refine ⟨?_, fun hno => ?_⟩
      · rintro ⟨m', hm', hj, hup⟩
        rcases List.mem_append.mp hm' with hm' | hm'
        · rw [ih.1 ⟨m', hm', hj, hup⟩, ite_self]
        · rw [List.mem_singleton.mp hm'] at hj hup
          exact if_pos ⟨hj, hup⟩
      · rw [if_neg, ih.2 fun m' hm' => hno m' (List.mem_append_left _ hm')]
        rintro ⟨hj, hup⟩
        rw [hno m (List.mem_append_right _ (List.mem_singleton_self m)) hj] at hup
        cases hup

theorem mem_minors_iff {m : Nat} : m ∈ (boot D T t max s).starts.map (fun r => r.1 - 1) ↔ Reached D max 1 (m + 1) := by
  obtain ⟨-, hstarts, hall⟩ := bootFrom_spec D T t max 1 s
  constructor
  · intro hm
    obtain ⟨r, hr, rfl⟩ := List.mem_map.mp hm
    have hreach := (hstarts r hr).1
    have hle := hreach.le
    rwa [Nat.sub_add_cancel hle]
  · intro hreach
    obtain ⟨r, hr, hrm⟩ := hall (m + 1) hreach
    exact List.mem_map.mpr ⟨r, hr, by rw [hrm]; rfl⟩

/-- **Which are online after the exit**: those whose file is closed and that come up, and of the others those that `boot`
has left. -/
theorem online_exitHakase (j : Nat) :
    (Reached D max 1 j → up (j - 1) = true → (exitHakase up (boot D T t max s)).online j = true) ∧
      (¬ (Reached D max 1 j ∧ up (j - 1) = true) →
        (exitHakase up (boot D T t max s)).online j = (boot D T t max s).cpus.online j) := by
  have hcpu : ∀ {m : Nat}, cpuOf m = j ↔ j = m + 1 := by
    intro m
    unfold cpuOf MINOR_BASE
    omega
  refine ⟨fun hr hup => ?_, fun hno => ?_⟩
  · have hle := hr.le
    refine (online_closeFiles _ j).1 ⟨j - 1, ?_, hcpu.mpr (by omega), hup⟩
    rw [mem_minors_iff, Nat.sub_add_cancel hle]
    exact hr
  · refine (online_closeFiles _ j).2 fun m hm hj => ?_
    rw [mem_minors_iff] at hm
    obtain rfl := hcpu.mp hj
    exact Bool.eq_false_of_not_eq_true fun hup => hno ⟨hm, hup⟩

end

/-- **When Linux has its processors as before.** After `boot` and the exit of hakase the same processors are online as
before iff of the processors that `boot` came to, `cpu_up` succeeds for each that was online and that Linux gave up, and
fails for each that was offline. -/
theorem exit_restores_iff (D : Dev) (T : Topology) (t : Nat → Attempt) (max : Int) (s : Cpus) (up : Nat → Bool) :
    (∀ j, (exitHakase up (boot D T t max s)).online j = s.online j) ↔
      ∀ j, Reached D max 1 j →
        (s.online j = true → Granted T s j (t j) → up (j - 1) = true) ∧ (s.online j = false → up (j - 1) = false) := by
  constructor
  · intro hall j hr
    have hj := hall j
    refine ⟨fun hon hg => ?_, fun hoff => ?_⟩
    · by_contra hup
      rw [(online_exitHakase j).2 fun h => hup h.2, boot, (online_bootFrom D T t max 1 s j).1 hr hg, hon] at hj
      cases hj
    · by_contra hup
      rw [(online_exitHakase j).1 hr (Bool.eq_true_of_not_eq_false hup), hoff] at hj
      cases hj
  · intro hall j
    by_cases hup : Reached D max 1 j ∧ up (j - 1) = true
    · rw [(online_exitHakase j).1 hup.1 hup.2]
      by_contra hne
      have hdown := (hall j hup.1).2 (Bool.eq_false_of_not_eq_true (Ne.symm hne))
      rw [hup.2] at hdown
      cases hdown
    · rw [(online_exitHakase j).2 hup, boot]
      by_cases hg : Reached D max 1 j ∧ Granted T s j (t j)
      · have hoff : s.online j = false := Bool.eq_false_of_not_eq_true fun hon => hup ⟨hg.1, (hall j hg.1).1 hon hg.2⟩
        rw [(online_bootFrom D T t max 1 s j).1 hg.1 hg.2, hoff]
      · exact (online_bootFrom D T t max 1 s j).2 hg

end Toshokan.Hakase
