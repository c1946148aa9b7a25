import Toshokan.Hakase.Boot
import Toshokan.Hakase.Cores

/-!
# From `boot` to the friend

`boot` opens the device files of the cores, the driver starts each core with `cpu_start`, and the cores come through the
trampoline while `boot` goes on.

* `Woken` : the cores that `boot` sends interrupts to; `signals_bootFrom` : what it sends to every core;
* `boot_enters_friend` : those of them whose interrupts have gone through come to the entry point of the friend, and no
  others are started.
-/

namespace Toshokan.Hakase
open Lib (Meets run)
open Lib.X86
open FriendLoader

/-! ## The interrupts of `boot` -/

section
variable {T : Topology} {s : Cpus} {i : Nat} {t : Attempt}

theorem wakeup_signals_of_ne (a : Apic) {id id' : Int} (h : id ≠ id') :
    (wakeupSecondaryCpuViaInit a id TRAMPOLINE_ADDR).2.filterMap (ApicOp.signalTo id') = [] := by
  rw [List.filterMap_eq_nil_iff]
  intro op hop
  cases op with
  | writeEsr | readEsr => rfl
  | icrWrite mode target =>
      have htarget : target = id := (wakeup_ops a id TRAMPOLINE_ADDR).1 _ hop _ rfl
      rw [htarget]
      exact if_neg h

theorem signals_cpuStart (hi : i ≠ 0) : ∃ ops, (cpuStart T s i t).2.ops = s.ops ++ ops ∧
    (Granted T s i t → T.apicid i ≠ 0 → ops.filterMap (ApicOp.signalTo (T.apicid i)) =
      (wakeupSecondaryCpuViaInit t.apic (T.apicid i) TRAMPOLINE_ADDR).2.filterMap (ApicOp.signalTo (T.apicid i))) ∧
    ∀ id, (Granted T s i t → T.apicid i ≠ 0 → T.apicid i ≠ id) → ops.filterMap (ApicOp.signalTo id) = [] := by
  by_cases hg : Granted T s i t
  · by_cases ha : T.apicid i = 0
    · rw [cpuStart_boot hg (.inr ha)]
      exact ⟨[], (List.append_nil _).symm, fun _ h => absurd ha h, fun _ _ => rfl⟩
    · rw [cpuStart_wakes hg (not_or.mpr ⟨hi, ha⟩)]
      exact ⟨_, rfl, fun _ _ => rfl, fun id hid => wakeup_signals_of_ne _ (hid hg ha)⟩
  · rw [cpuStart_of_not_granted hg]
    exact ⟨[], (List.append_nil _).symm, fun h => absurd h hg, fun _ _ => rfl⟩

end

/-- From core `i` on, `boot` comes to core `j`, which Linux gives up and which is not the boot processor. -/
structure Woken (D : Dev) (T : Topology) (t : Nat → Attempt) (max : Int) (s : Cpus) (i j : Nat) : Prop where
  reached : Reached D max i j
  granted : Granted T s j (t j)
  other : T.apicid j ≠ 0

section
variable {D : Dev} {M : Machine} {t : Nat → Attempt} {max : Int} {i j : Nat} {s : Cpus}

theorem granted_cpuStart {T : Topology} (hj : j ≠ i) (a : Attempt) :
    Granted T (cpuStart T s i (t i)).2 j a ↔ Granted T s j a := by
  unfold Granted
  rw [cpuStart_frame.1 j hj]

theorem Woken.of_ne {T : Topology} (h : Woken D T t max s i j) (hj : j ≠ i) :
    Woken D T t max (cpuStart T s i (t i)).2 (i + 1) j :=
  ⟨(h.reached.of_ne hj).2, (granted_cpuStart hj _).mpr h.granted, h.other⟩

theorem Woken.next {T : Topology} (hn : D.HasNode i) (hi : (i : Int) ≠ max)
    (h : Woken D T t max (cpuStart T s i (t i)).2 (i + 1) j) : Woken D T t max s i j := by
  have hle := h.reached.le
  exact ⟨h.reached.next hn hi, (granted_cpuStart (by omega) _).mp h.granted, h.other⟩

/-- **What a core gets from `boot`**: the interrupts of its own `cpu_start`, or none. -/
theorem signals_bootFrom (D : Dev) (M : Machine) (t : Nat → Attempt) (max : Int) (i : Nat) (s : Cpus) :
    ∃ ops, (bootFrom D M.toTopology t max i s).cpus.ops = s.ops ++ ops ∧
      (∀ j, Woken D M.toTopology t max s i j → ops.filterMap (ApicOp.signalTo (M.apicid j)) =
        (wakeupSecondaryCpuViaInit (t j).apic (M.apicid j) TRAMPOLINE_ADDR).2.filterMap
          (ApicOp.signalTo (M.apicid j))) ∧
      ∀ id, (∀ j, Woken D M.toTopology t max s i j → M.apicid j ≠ id) → ops.filterMap (ApicOp.signalTo id) = [] := by
  refine bootFrom_induct (P := fun i s run => ∃ ops, run.cpus.ops = s.ops ++ ops ∧
    (∀ j, Woken D M.toTopology t max s i j → ops.filterMap (ApicOp.signalTo (M.apicid j)) =
      (wakeupSecondaryCpuViaInit (t j).apic (M.apicid j) TRAMPOLINE_ADDR).2.filterMap (ApicOp.signalTo (M.apicid j))) ∧
    ∀ id, (∀ j, Woken D M.toTopology t max s i j → M.apicid j ≠ id) → ops.filterMap (ApicOp.signalTo id) = [])
    ?_ ?_ ?_ i s
  · intro i s h
    refine ⟨[], (List.append_nil _).symm, fun j hj => ?_, fun _ _ => rfl⟩
    exact absurd (hj.reached.nodes i le_rfl hj.reached.le) h
  · intro i s h hi
    have h1 := h.1
    obtain ⟨ops, hops, hself, hother⟩ :=
      signals_cpuStart (T := M.toTopology) (s := s) (t := t i) (show i ≠ 0 by omega)
    refine ⟨ops, hops, fun j hj => ?_, fun id hid => hother id fun hg ha => hid i ⟨reached_self h, hg, ha⟩⟩
    have hji : j = i := by
      by_contra hne
      exact (hj.reached.of_ne hne).1 hi
    subst hji
    exact hself hj.granted hj.other
  · rintro i s rest h hi ⟨ops', hops', hself', hother'⟩
    have h1 := h.1
    obtain ⟨ops, hops, hself, hother⟩ :=
      signals_cpuStart (T := M.toTopology) (s := s) (t := t i) (show i ≠ 0 by omega)
    refine ⟨ops ++ ops', by rw [hops', hops, List.append_assoc], fun j hj => ?_, fun id hid => ?_⟩
    · rw [List.filterMap_append]
      by_cases hji : j = i
      · subst hji
        rw [hself hj.granted hj.other, hother' _ fun k hk heq => ?_, List.append_nil]
        -- no other processor has its APIC id
        have hkj := M.apicid_inj k j hk.granted.1 hj.granted.1 heq
        have hle := hk.reached.le
        omega
      · rw [hself' j (hj.of_ne hji), hother _ fun hg _ heq => ?_, List.nil_append]
        exact hji (M.apicid_inj i j hg.1 hj.granted.1 heq).symm
    · rw [List.filterMap_append, hother id fun hg ha => hid i ⟨reached_self h, hg, ha⟩,
        hother' id fun k hk => hid k (hk.next h hi)]
      rfl

theorem mem_bootFrom_ops {T : Topology} {op : ApicOp} (h : op ∈ (bootFrom D T t max i s).cpus.ops) :
    op ∈ s.ops ∨ ∃ online j, op ∈ (cpuStart T ⟨online, []⟩ j (t j)).2.ops := by
  have hstart : ∀ {i : Nat} {s : Cpus}, op ∈ (cpuStart T s i (t i)).2.ops →
      op ∈ s.ops ∨ ∃ online j, op ∈ (cpuStart T ⟨online, []⟩ j (t j)).2.ops := by
    intro i s hop
    by_cases hg : Granted T s i (t i)
    · by_cases hb : i = 0 ∨ T.apicid i = 0
      · rw [cpuStart_boot hg hb] at hop
        exact .inl hop
      · rw [cpuStart_wakes hg hb] at hop
        refine (List.mem_append.mp hop).imp_right fun hop => ⟨s.online, i, ?_⟩
        rw [cpuStart_wakes (s := ⟨s.online, []⟩) hg hb]
        exact hop
    · rw [cpuStart_of_not_granted hg] at hop
      exact .inl hop
  revert h
  refine bootFrom_induct (P := fun _ s run => op ∈ run.cpus.ops →
    op ∈ s.ops ∨ ∃ online j, op ∈ (cpuStart T ⟨online, []⟩ j (t j)).2.ops) ?_ ?_ ?_ i s
  · exact fun _ _ _ h => .inl h
  · exact fun _ _ _ _ h => hstart h
  · intro i s rest _ _ ih h
    exact (ih h).elim hstart .inr

theorem woken_of_started {r : Nat × Int} (hr : r ∈ (boot D M.toTopology t max s).starts) (hzero : r.2 = 0) :
    Woken D M.toTopology t max s 1 r.1 := by
  obtain ⟨hreach, hiff⟩ := (bootFrom_spec D M.toTopology t max 1 s).2.1 r hr
  obtain ⟨hp, hd, ha, -⟩ := hiff.mp hzero
  exact ⟨hreach, ⟨hp, hd⟩, ha⟩

end

/-! ## The cores -/

def Move.op : Move → Option ApicOp
  | .apic op _ => some op
  | _ => none

theorem map_fst_sentTo (id : Int) (ts : List Move) :
    (ts.filterMap (Move.sentTo id)).map Prod.fst = (ts.filterMap Move.op).filterMap (ApicOp.signalTo id) := by
  rw [List.map_filterMap, List.filterMap_filterMap]
  congr 1
  funext t
  rcases t with ⟨op, b⟩ | _ | _ | _
  · cases h : op.signalTo id <;> simp [Move.op, Move.sentTo, h]
  · rfl
  · rfl
  · rfl

theorem filterMap_signalTo_of_nil {id : Int} {ts : List Move}
    (h : (ts.filterMap Move.op).filterMap (ApicOp.signalTo id) = []) : ts.filterMap (Move.signalTo id) = [] := by
  rw [← map_fst_sentTo, List.map_eq_nil_iff] at h
  rw [filterMap_signalTo, h]
  rfl

/-- Nobody writes to the page of the code and the page tables, accessed and dirty flags apart. -/
def Undisturbed (T : Tables) (s : Cores) : Move → Prop
  | .flags m => Flagged T s.mem m
  | .other m => Kept T s.mem m
  | _ => True

/-- While `boot` is all that is done to the APIC, that is all the trampoline relies on. -/
theorem allowed_of_undisturbed {cpu : Processor} {E : Encoding} {cache : Int → Cache} {T : Tables} {s : Cores}
    {ts : List Move} {D : Dev} {P : Topology} {t : Nat → Attempt} {max : Int} {online : Nat → Bool}
    (h : Meets (Cores.step cpu E cache) (Undisturbed T) s ts)
    (hops : ts.filterMap Move.op = (boot D P t max ⟨online, []⟩).cpus.ops) :
    Meets (Cores.step cpu E cache) (Allowed T) s ts := by
  intro us m hu
  have hm := h us m hu
  cases m with
  | core id => trivial
  | flags m => exact hm
  | other m => exact hm
  | apic op b =>
      have hmem : Move.apic op b ∈ ts := hu.subset (List.mem_append_right us (List.mem_singleton_self _))
      have hop : op ∈ ts.filterMap Move.op := List.mem_filterMap.mpr ⟨_, hmem, rfl⟩
      rw [hops] at hop
      obtain ⟨online', j, hj⟩ := (mem_bootFrom_ops hop).resolve_left List.not_mem_nil
      exact ⟨P, online', j, t j, hj⟩

section Boot
variable {E : Encoding} (A : Assembly E) (cpu : Processor) (L : Layout) (e : ElfLoader) {ans : Answers} {p q : Process}
variable (hwrap : ∀ r ∈ e.ranges, ¬ r.Overflows) (hentry : InFriend e.getEntry)
variable (hsetup : setup L A.bin e ans p = some (0, q)) (cache : Int → Cache) (regs : Int → Core)
variable (D : Dev) (M : Machine) (t : Nat → Attempt) (max : Int) (online : Nat → Bool)
include hwrap hentry hsetup

/-- **From `boot` to the friend.** `setup` has succeeded, the machine has integrated APICs whose acknowledged interrupts
arrive, and `boot` has run to its end while the cores and everything else moved in any order; when the cores it woke whose
INIT and STARTUPs were acknowledged have had another 31 turns each, they are at the entry point of the friend, in 64-bit
mode and with all of the friend's memory mapped to itself. No core that it did not wake has been started, and those for
which `cpu_start` returned 0 are among the woken ones. -/
theorem boot_enters_friend (hint : ∀ i, (t i).apic.integrated = true) {us vs : List Move}
    (hquiet : Meets (Cores.step cpu E cache) (Undisturbed L.toTables) (Cores.initial q.phys regs) (us ++ vs))
    (hus : us.filterMap Move.op = (boot D M.toTopology t max ⟨online, []⟩).cpus.ops) (hvs : vs.filterMap Move.op = [])
    (hhonest : ∀ j, Woken D M.toTopology t max ⟨online, []⟩ 1 j →
      (t j).apic.Honest (us.filterMap (Move.sentTo (M.apicid j))))
    (hturns : ∀ j, Woken D M.toTopology t max ⟨online, []⟩ 1 j → (t j).apic.Through →
      31 ≤ vs.countP (Move.isTurn (M.apicid j))) :
    let st := run (Cores.step cpu E cache) (Cores.initial q.phys regs) (us ++ vs)
    (∀ j, Woken D M.toTopology t max ⟨online, []⟩ 1 j → (t j).apic.Through →
      st.phase (M.apicid j) = .running ∧ AtEntry e.getEntry (st.regs (M.apicid j)) ∧
      ∀ a, InFriend a → ∀ use, cpu.translate st.mem (st.regs (M.apicid j)) use a = some a) ∧
    (∀ id, (∀ j, Woken D M.toTopology t max ⟨online, []⟩ 1 j → M.apicid j ≠ id) → st.phase id = .away) ∧
    ∀ r ∈ (boot D M.toTopology t max ⟨online, []⟩).starts, r.2 = 0 →
      Woken D M.toTopology t max ⟨online, []⟩ 1 r.1 := by
  intro st
  have hI := inv_initial A L e hwrap hsetup cache regs
  obtain ⟨ops, hops, hself, hother⟩ := signals_bootFrom D M t max 1 ⟨online, []⟩
  have hsent : ∀ id, (us.filterMap (Move.sentTo id)).map Prod.fst = ops.filterMap (ApicOp.signalTo id) := by
    intro id
    rw [map_fst_sentTo, hus, boot, hops, List.nil_append]
  have hnone : ∀ id, vs.filterMap (Move.signalTo id) = [] := fun id => filterMap_signalTo_of_nil (by rw [hvs]; rfl)
  have hall : (us ++ vs).filterMap Move.op = (boot D M.toTopology t max ⟨online, []⟩).cpus.ops := by
    rw [List.filterMap_append, hus, hvs, List.append_nil]
  have hts := allowed_of_undisturbed hquiet hall
  refine ⟨fun j hj hthrough => ?_, fun id hid => ?_, fun r hr hzero => woken_of_started hr hzero⟩
  · refine enters_of_running A cpu L e hwrap hentry hsetup cache regs hts ?_ (hnone _) (hturns j hj hthrough)
    obtain ⟨k, hk, hpos⟩ := wakeup_signals (t j).apic (M.apicid j) TRAMPOLINE_ADDR
    rw [Cores.phase_run hentry hI _ (hts.mono _ (List.prefix_append us vs)), filterMap_signalTo]
    have hwake := hsent (M.apicid j)
    rw [hself j hj, hk] at hwake
    exact Phase.receive_wakeup _ (hpos (hint j)) (hhonest j hj) hthrough.1 (hthrough.acked (hint j)) hwake
  · have hphase : st.phase id = _ := Cores.phase_run hentry hI id hts
    have hquiet' : us.filterMap (Move.signalTo id) = [] := by
      refine filterMap_signalTo_of_nil ?_
      rw [← map_fst_sentTo, hsent, hother id hid]
    rw [hphase, List.filterMap_append, hnone, hquiet']
    rfl

end Boot

/-! ### Two cores -/

def sampleMachine : Machine := ⟨sampleTopology, fun _ _ _ _ h => Int.natCast_inj.mp h⟩

def sampleDev : Dev := ⟨3, fun _ => true⟩

def sampleBoot : BootRun := boot sampleDev sampleMachine.toTopology (fun _ => sampleAttempt) 0 ⟨fun _ => true, []⟩

theorem boot_enters_friend_sample :
    ∃ q : Process,
      let st := run (Cores.step sampleProcessor sampleEncoding fun _ => .on)
        (Cores.initial q.phys fun _ => sampleCore) (sampleBoot.cpus.ops.map (.apic · true) ++ sampleTurns)
      st.phase (sampleMachine.apicid 1) = .running ∧
        AtEntry ElfLoader.bssImage.getEntry (st.regs (sampleMachine.apicid 1)) := by
  obtain ⟨hwrap, hentry, ans, q, hsetup⟩ := sample_setup
  have hops : (sampleBoot.cpus.ops.map (Move.apic · true)).filterMap Move.op = sampleBoot.cpus.ops := by
    rw [List.filterMap_map]
    exact List.filterMap_some
  have hturns : ∀ t ∈ sampleTurns, t.op = none ∧ ∀ s, Undisturbed sampleTables s t := by
    intro t ht
    obtain ⟨l, hl, ht⟩ := List.mem_flatten.mp ht
    rw [List.eq_of_mem_replicate hl] at ht
    simp only [List.mem_cons, List.not_mem_nil, or_false] at ht
    rcases ht with rfl | rfl <;> exact ⟨rfl, fun _ => trivial⟩
  have hquiet : ∀ t ∈ sampleBoot.cpus.ops.map (.apic · true) ++ sampleTurns, ∀ s, Undisturbed sampleTables s t := by
    intro t ht s
    rcases List.mem_append.mp ht with ht | ht
    · obtain ⟨op, -, rfl⟩ := List.mem_map.mp ht
      trivial
    · exact (hturns t ht).2 s
  have hwoken : Woken sampleDev sampleMachine.toTopology (fun _ => sampleAttempt) 0 ⟨fun _ => true, []⟩ 1 1 :=
    ⟨reached_self (by decide), ⟨rfl, fun _ => rfl⟩, by decide⟩
  have hfew : ∀ j, Woken sampleDev sampleMachine.toTopology (fun _ => sampleAttempt) 0 ⟨fun _ => true, []⟩ 1 j →
      j = 1 ∨ j = 2 := by
    intro j hj
    have hlt := (hj.reached.nodes j hj.reached.le le_rfl).2.1
    have hle := hj.reached.le
    change j < 3 at hlt
    omega
  have h := boot_enters_friend sampleAssembly sampleProcessor sampleLayout _ hwrap hentry hsetup (fun _ => .on)
    (fun _ => sampleCore) sampleDev sampleMachine (fun _ => sampleAttempt) 0 (fun _ => true) (fun _ => rfl)
    (Lib.meets_of_forall _ hquiet _) hops (List.filterMap_eq_nil_iff.mpr fun t ht => (hturns t ht).1)
    (fun j hj => honest_of_all ?_) fun j hj _ => ?_
  · exact ⟨q, (h.1 1 hwoken sampleAttempt_through).1, (h.1 1 hwoken sampleAttempt_through).2.1⟩
  · rcases hfew j hj with rfl | rfl <;> decide +kernel
  · rcases hfew j hj with rfl | rfl <;> decide +kernel

end Toshokan.Hakase
