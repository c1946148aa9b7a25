import Mathlib.Tactic.FinCases
import Toshokan.FriendLoader.Module

/-!
# Loads that go wrong half way

`friend_loader_init` returns the error of a later interface with the earlier ones still set up, and `memdevice_init` does
not look at what its two calls return; `friend_loader_exit` takes down all interfaces.

* `AllOrNothing` : a load that fails leaves nothing behind, one that does not has got everything;
  `load_allOrNothing_iff` : for which outcomes of the kernel's calls this is so;
* `friendLoaderExit_eq` : what the exit releases, in order; `Unloads` : it releases what is held, once, and all of it;
  `unload_iff` : for which outcomes this is so.
-/

namespace Toshokan.FriendLoader

def parts (possible : Nat) : List Resource :=
  versionParts ++ cpuParts possible ++ memParts .mem ++ memParts .bootmem

section
variable {possible : Nat} {ok : Resource → Bool}

theorem Kept.mem_parts {x : Resource} (h : Kept possible ok x) :
    x ∈ parts possible := by
  unfold parts
  rcases h with ⟨-, h, -⟩ | ⟨-, h, -⟩ | ⟨-, h, -⟩ | ⟨-, h⟩ <;> simp [h]

theorem Kept.granted {x : Resource} (h : Kept possible ok x) : ok x = true := by
  rcases h with ⟨-, -, h⟩ | ⟨-, -, h⟩ | ⟨-, -, h⟩ | ⟨⟨-, hk, hg⟩, h⟩
  · exact h
  · exact h
  · exact h
  · unfold versionParts at h
    fin_cases h
    · exact hk
    · exact hg

theorem MemUp.kept {d : Interface} (h : MemUp ok d) (hd : d ≠ .cpu) :
    Kept possible ok (.region d) := by
  cases d with
  | mem => exact .inl ⟨h, by simp [memParts], h.1⟩
  | bootmem => exact .inr (.inl ⟨h, by simp [memParts], h.1⟩)
  | cpu => exact absurd rfl hd

theorem CpuUp.kept (h : CpuUp possible ok) : Kept possible ok (.region .cpu) :=
  .inr (.inr (.inl ⟨h, by simp [cpuParts], h.2.1⟩))

end

namespace Unloaded

variable (u : Unloaded) (ok : Resource → Bool) (possible : Nat)

theorem not_mem_parts {x : Resource} (hx : x ∈ u.kernel.held) : x ∉ parts possible := by
  obtain ⟨n, rfl⟩ := u.foreign x hx
  simp [parts, versionParts, cpuParts, memParts]

theorem kept_of_mem {x : Resource} (hx : x ∈ parts possible)
    (h : x ∈ (friendLoaderInit ok possible u.kernel).2.held) : Kept possible ok x := by
  rcases (u.mem_friendLoaderInit ok possible x).mp h with hold | hk
  · exact absurd hx (u.not_mem_parts possible hold)
  · exact hk

theorem held_friendLoaderInit_iff :
    (friendLoaderInit ok possible u.kernel).2.held = u.kernel.held ↔ ∀ x, ¬ Kept possible ok x := by
  rw [Finset.ext_iff]
  apply forall_congr'
  intro x
  rw [mem_friendLoaderInit]
  constructor
  · intro h hk
    exact u.not_mem_parts possible (h.mp (.inr hk)) hk.mem_parts
  · intro h
    exact or_iff_left h

end Unloaded

/-! ## Loading -/

/-- A load from `k` that has led to `r`. -/
structure AllOrNothing (possible : Nat) (k : Kernel) (r : Int × Kernel) : Prop where
  nothing : r.1 < 0 → r.2.held = k.held
  all : r.1 = 0 → ∀ x ∈ parts possible, x ∈ r.2.held

section
variable {possible : Nat} {ok : Resource → Bool}

theorem up_of_all_ok (hp : 1 < possible) (h : ∀ x ∈ parts possible, ok x = true) :
    (CpuUp possible ok ∧ VersionUp ok) ∧ MemUp ok .mem ∧ MemUp ok .bootmem := by
  have hd (x : Resource) (hx : x ∈ parts 0) : ok x = true := by
    apply h
    simp only [parts, cpuParts, minors, zero_le_one, Nat.sub_eq_zero_of_le, List.range_zero, List.map_nil,
      List.append_nil, List.mem_append, List.mem_cons] at hx ⊢
    tauto
  refine ⟨⟨⟨hp, hd _ ?_, hd _ ?_, hd _ ?_⟩, hd _ ?_, hd _ ?_⟩, ⟨hd _ ?_, hd _ ?_, hd _ ?_⟩, hd _ ?_, hd _ ?_, hd _ ?_⟩ <;>
    decide

theorem kept_of_up (hcv : CpuUp possible ok ∧ VersionUp ok) (hm : MemUp ok .mem) (hb : MemUp ok .bootmem) {x : Resource}
    (hx : x ∈ parts possible) (hok : ok x = true) : Kept possible ok x := by
  simp only [parts, List.mem_append] at hx
  rcases hx with ((hx | hx) | hx) | hx
  · exact .inr (.inr (.inr ⟨hcv, hx⟩))
  · exact .inr (.inr (.inl ⟨hcv.1, hx, hok⟩))
  · exact .inl ⟨hm, hx, hok⟩
  · exact .inr (.inl ⟨hb, hx, hok⟩)

theorem not_kept_of_down (hc : ¬ CpuUp possible ok) (hm : ¬ MemUp ok .mem) (hb : ¬ MemUp ok .bootmem) (x : Resource) :
    ¬ Kept possible ok x := by
  unfold Kept
  tauto

end

/-- A load is all or nothing iff every call succeeds, or the CPU interface and the two memory interfaces all fail. -/
theorem load_allOrNothing_iff (u : Unloaded) (ok : Resource → Bool) (possible : Nat) :
    AllOrNothing possible u.kernel (friendLoaderInit ok possible u.kernel) ↔
      (1 < possible ∧ ∀ x ∈ parts possible, ok x = true) ∨
        ¬ CpuUp possible ok ∧ ¬ MemUp ok .mem ∧ ¬ MemUp ok .bootmem := by
  obtain ⟨hzero, hneg⟩ := friendLoaderInit_ret ok possible u.kernel
  have hnone := u.held_friendLoaderInit_iff ok possible
  constructor
  · intro h
    by_cases hc : CpuUp possible ok
    · -- the CPU interface stays in place, so that the load must succeed
      have hv : VersionUp ok := by
        by_contra hv
        exact hnone.mp (h.nothing (hneg fun hcv => hv hcv.2)) _ hc.kept
      refine .inl ⟨hc.1, fun x hx => ?_⟩
      exact (u.kept_of_mem ok possible hx (h.all (hzero ⟨hc, hv⟩) x hx)).granted
    · have hno := hnone.mp (h.nothing (hneg fun hcv => hc hcv.1))
      exact .inr ⟨hc, fun hm => hno _ (hm.kept (by decide)), fun hb => hno _ (hb.kept (by decide))⟩
  · rintro (⟨hp, hok⟩ | ⟨hc, hm, hb⟩)
    · obtain ⟨hcv, hm, hb⟩ := up_of_all_ok hp hok
      refine ⟨fun hlt => absurd (hzero hcv) (ne_of_lt hlt), fun _ x hx => ?_⟩
      exact (u.mem_friendLoaderInit ok possible x).mpr (.inr (kept_of_up hcv hm hb hx (hok x hx)))
    · have hret := hneg fun hcv => hc hcv.1
      exact ⟨fun _ => hnone.mpr (not_kept_of_down hc hm hb), fun h0 => absurd h0 (ne_of_lt hret)⟩

def bare : Unloaded := ⟨⟨∅, []⟩, by simp⟩

/-- On a machine with one processor the load fails, and the memory interfaces stay; on one with two it succeeds without
`/dev/friend_mem` when that device's `cdev_add` fails. -/
theorem load_leaves_half :
    let one := friendLoaderInit (fun _ => true) 1 bare.kernel
    let two := friendLoaderInit (fun r => r != .cdev .mem) 2 bare.kernel
    (one.1 < 0 ∧ .region .mem ∈ one.2.held ∧ ¬ AllOrNothing 1 bare.kernel one) ∧
      two.1 = 0 ∧ .cdev .mem ∈ parts 2 ∧ .cdev .mem ∉ two.2.held ∧ ¬ AllOrNothing 2 bare.kernel two := by
  refine ⟨⟨by decide, by decide, fun h => ?_⟩, by decide, by decide, by decide, fun h => ?_⟩
  · exact absurd (h.nothing (by decide)) (by decide)
  · exact absurd (h.all (by decide) (.cdev .mem) (by decide)) (by decide)

/-! ## Unloading -/

def memExitOrder (d : Interface) : List Resource := [.cdev d, .node d 0, .cls d, .region d]

def cpuExitOrder (possible : Nat) : List Resource :=
  (minors possible).map (.node .cpu) ++ [.cls .cpu, .cdev .cpu, .region .cpu]

def exitOrder (possible : Nat) : List Resource :=
  versionParts.reverse ++ cpuExitOrder possible ++ memExitOrder .mem ++ memExitOrder .bootmem

theorem friendLoaderExit_eq (possible : Nat) (k : Kernel) :
    friendLoaderExit possible k = k.releaseAll (exitOrder possible) := by
  unfold exitOrder cpuExitOrder
  simp only [Lib.Ledger.releaseAll_append]
  unfold friendLoaderExit cpudeviceExit deviceDestroy
  rw [← List.foldl_map (f := Resource.node .cpu) (g := Lib.Ledger.release)]
  rfl

theorem exitOrder_perm (possible : Nat) : (exitOrder possible).Perm (parts possible) := by
  have hmem (d : Interface) : (memExitOrder d).Perm (memParts d) := List.reverse_perm (memParts d)
  have hcpu : (cpuExitOrder possible).Perm (cpuParts possible) := by
    unfold cpuExitOrder cpuParts
    apply List.perm_append_comm.trans
    exact List.Perm.append_right _ (List.reverse_perm [Resource.region .cpu, .cdev .cpu, .cls .cpu])
  exact (((List.reverse_perm versionParts).append hcpu).append (hmem .mem)).append (hmem .bootmem)

theorem nodup_parts (possible : Nat) : (parts possible).Nodup := by
  have hminors : (minors possible).Nodup := List.nodup_range.map (add_right_injective MINOR_BASE)
  have hnodes : ((minors possible).map (Resource.node .cpu)).Nodup := by
    apply hminors.map
    intro a b hab
    injection hab
  simp [parts, versionParts, cpuParts, memParts, List.nodup_append, hnodes]

/-- The releases of `friend_loader_exit` from `k`, each with whether the resource was held then. -/
def exitReleases (possible : Nat) (k : Kernel) : List (Resource × Bool) :=
  (friendLoaderExit possible k).released.drop k.released.length

theorem exitReleases_eq (possible : Nat) (k : Kernel) :
    exitReleases possible k = (exitOrder possible).map fun r => (r, decide (r ∈ k.held)) := by
  have hnd := (exitOrder_perm possible).nodup_iff.mpr (nodup_parts possible)
  unfold exitReleases
  rw [friendLoaderExit_eq, Lib.Ledger.released_releaseAll k hnd, List.drop_left]

/-- A region, a `cdev` or a class, which must not be released unless it is held; `device_destroy` looks its node up. -/
def Resource.registered : Resource → Bool
  | .region _ | .cdev _ | .cls _ => true
  | _ => false

/-- The exit from `k`, reached by a load from `before`. -/
structure Unloads (possible : Nat) (before k : Kernel) : Prop where
  held : ∀ r b, (r, b) ∈ exitReleases possible k → r.registered = true → b = true
  once : ∀ r ∈ parts possible, r.registered = true → ((exitReleases possible k).map Prod.fst).count r = 1
  rest : (friendLoaderExit possible k).held = before.held

theorem count_exitReleases {possible : Nat} (k : Kernel) {r : Resource} (hr : r ∈ parts possible) :
    ((exitReleases possible k).map Prod.fst).count r = 1 := by
  have hfst : (exitReleases possible k).map Prod.fst = exitOrder possible := by
    rw [exitReleases_eq, List.map_map]
    exact List.map_id _
  rw [hfst, (exitOrder_perm possible).count_eq]
  exact List.count_eq_one_of_mem (nodup_parts possible) hr

theorem Unloaded.held_friendLoaderExit (u : Unloaded) (ok : Resource → Bool) (possible : Nat) :
    (friendLoaderExit possible (friendLoaderInit ok possible u.kernel).2).held = u.kernel.held := by
  ext x
  rw [friendLoaderExit_eq, Lib.Ledger.mem_releaseAll, u.mem_friendLoaderInit, (exitOrder_perm possible).mem_iff]
  constructor
  · rintro ⟨hold | hk, hx⟩
    · exact hold
    · exact absurd hk.mem_parts hx
  · intro hx
    exact ⟨.inl hx, u.not_mem_parts possible hx⟩

section
variable {possible : Nat} {ok : Resource → Bool}

theorem MemUp.ok_of_registered {d : Interface} (h : MemUp ok d) {r : Resource} (hr : r ∈ memParts d)
    (hreg : r.registered = true) : ok r = true := by
  unfold memParts at hr
  fin_cases hr
  · exact h.1
  · exact h.2.1
  · exact absurd hreg (by simp [Resource.registered])
  · exact h.2.2

theorem CpuUp.ok_of_registered (h : CpuUp possible ok) {r : Resource} (hr : r ∈ cpuParts possible)
    (hreg : r.registered = true) : ok r = true := by
  rcases List.mem_append.mp hr with hr | hr
  · fin_cases hr
    · exact h.2.1
    · exact h.2.2.1
    · exact h.2.2.2
  · obtain ⟨minor, -, rfl⟩ := List.mem_map.mp hr
    exact absurd hreg (by simp [Resource.registered])

theorem ok_of_registered (hcv : CpuUp possible ok ∧ VersionUp ok) (hm : MemUp ok .mem) (hb : MemUp ok .bootmem)
    {r : Resource} (hr : r ∈ parts possible) (h : r.registered = true) : ok r = true := by
  simp only [parts, List.mem_append] at hr
  rcases hr with ((hr | hr) | hr) | hr
  · unfold versionParts at hr
    fin_cases hr
    · exact hcv.2.1
    · exact hcv.2.2
  · exact hcv.1.ok_of_registered hr h
  · exact hm.ok_of_registered hr h
  · exact hb.ok_of_registered hr h

theorem Kept.memUp {d : Interface} (hd : d ≠ .cpu) (h : Kept possible ok (.cdev d)) : MemUp ok d := by
  rcases h with ⟨hm, h, -⟩ | ⟨hb, h, -⟩ | ⟨-, h, -⟩ | ⟨-, h⟩
  · obtain rfl : d = .mem := by simpa [memParts] using h
    exact hm
  · obtain rfl : d = .bootmem := by simpa [memParts] using h
    exact hb
  · exact absurd (by simpa [cpuParts] using h) hd
  · simp [versionParts] at h

end

/-- The exit after a load that succeeds is right iff the load has set up both memory interfaces. -/
theorem unload_iff (u : Unloaded) (ok : Resource → Bool) (possible : Nat) :
    ((friendLoaderInit ok possible u.kernel).1 = 0 →
        Unloads possible u.kernel (friendLoaderInit ok possible u.kernel).2) ↔
      (CpuUp possible ok ∧ VersionUp ok → MemUp ok .mem ∧ MemUp ok .bootmem) := by
  obtain ⟨hzero, hneg⟩ := friendLoaderInit_ret ok possible u.kernel
  constructor
  · intro h hcv
    have hcdev (d : Interface) (hd : d ≠ .cpu) (hpart : .cdev d ∈ parts possible) : MemUp ok d := by
      apply Kept.memUp hd
      apply u.kept_of_mem ok possible hpart
      -- the `cdev` is released whether or not it is held
      apply of_decide_eq_true
      apply (h (hzero hcv)).held (.cdev d) _ _ rfl
      rw [exitReleases_eq]
      exact List.mem_map.mpr ⟨_, (exitOrder_perm possible).mem_iff.mpr hpart, rfl⟩
    exact ⟨hcdev .mem (by decide) (by simp [parts, memParts]), hcdev .bootmem (by decide) (by simp [parts, memParts])⟩
  · intro h hret
    have hcv : CpuUp possible ok ∧ VersionUp ok := by
      by_contra hcv
      exact absurd hret (ne_of_lt (hneg hcv))
    obtain ⟨hm, hb⟩ := h hcv
    refine ⟨fun r b hrb hreg => ?_, fun r hr _ => count_exitReleases _ hr, u.held_friendLoaderExit ok possible⟩
    rw [exitReleases_eq] at hrb
    obtain ⟨r', hr', heq⟩ := List.mem_map.mp hrb
    obtain ⟨rfl, rfl⟩ := Prod.mk.inj heq
    have hpart := (exitOrder_perm possible).mem_iff.mp hr'
    apply decide_eq_true
    have hok := ok_of_registered hcv hm hb hpart hreg
    exact (u.mem_friendLoaderInit ok possible r').mpr (.inr (kept_of_up hcv hm hb hpart hok))

/-- When `cdev_add` for `/dev/friend_mem` fails the load rolls the device back and succeeds, and the exit then deletes the
`cdev`, the class and the region again. -/
theorem unload_releases_twice :
    let k := (friendLoaderInit (fun r => r != .cdev .mem) 2 bare.kernel).2
    (friendLoaderInit (fun r => r != .cdev .mem) 2 bare.kernel).1 = 0 ∧
      k.released = [(.node .mem 0, true), (.cls .mem, true), (.region .mem, true)] ∧
      (∀ r ∈ [Resource.cdev .mem, .cls .mem, .region .mem], (r, false) ∈ exitReleases 2 k) ∧
      ¬ Unloads 2 bare.kernel k := by
  refine ⟨by decide, by decide, by decide, fun h => ?_⟩
  exact absurd (h.held (.cdev .mem) false (by decide) rfl) (by decide)

end Toshokan.FriendLoader
