import Toshokan.FriendLoader.CpuDevice

/-!
# `cpu_start`: what the value it returns tells

`cpu_start` has the statuses of a wake-up as one `int` and tests only its sign. It takes the processor from Linux before it
looks at which one it is.

* `started_iff` : a processor that Linux gives up is started if bit 31 of the last send status is clear;
* `Apic.Delivered` : the last interrupts have gone through; `Reports` : the value returned tells whether they have;
  `cpuStart_reports_iff` : when it does, `undelivered_started` : wake-ups that fail and are reported as started;
* `Apic.Acked` : one interrupt of a wake-up has gone through, `Apic.Honest` : those that have arrive; `Apic.Through` : all
  that a processor needs to start have;
* `Untouched` : no processor has changed and no interrupt was sent; `refused_untouched_iff` : when a refused `cpu_start`
  leaves everything as it was, `refused_processor_lost` : refusals that do not.
-/

namespace Toshokan.FriendLoader

section
variable {T : Topology} {s : Cpus} {i : Nat} {t : Attempt}

/-- For a processor that Linux gives up, other than the boot processor, the wake-up alone decides. -/
theorem started_iff (h : Granted T s i t) (h0 : i ≠ 0) (ha : T.apicid i ≠ 0) :
    (cpuStart T s i t).1 = 0 ↔ t.apic.lastSend.msb = false := by
  rw [cpuStart_eq_zero_iff]
  exact ⟨fun hs => hs.2.2.2.2, fun hm => ⟨h.1, h.2, h0, ha, hm⟩⟩

theorem cpuStart_ret (T : Topology) (s : Cpus) (i : Nat) (t : Attempt) :
    (cpuStart T s i t).1 = 0 ∨ (cpuStart T s i t).1 = -1 := by
  by_cases hg : Granted T s i t
  · by_cases hb : i = 0 ∨ T.apicid i = 0
    · rw [cpuStart_boot hg hb]
      exact .inr rfl
    · rw [cpuStart_wakes hg hb]
      dsimp only
      split
      · exact .inr rfl
      · exact .inl rfl
  · rw [cpuStart_of_not_granted hg]
    exact .inr rfl

theorem cpuStart_neg_iff : (cpuStart T s i t).1 < 0 ↔ (cpuStart T s i t).1 ≠ 0 := by
  rcases cpuStart_ret T s i t with h | h
  · rw [h]
    decide
  · rw [h]
    decide

/-! ## Failed wake-ups -/

/-- The send status and the accept status of the last STARTUP are zero (of the last INIT, if there was no STARTUP). -/
def Apic.Delivered (a : Apic) : Prop := a.lastSend = 0 ∧ a.lastAccept = 0

instance (a : Apic) : Decidable a.Delivered := inferInstanceAs (Decidable (_ ∧ _))

/-- `ret` is 0 only if the last interrupts went through, and negative if they did not. -/
def Reports (a : Apic) (ret : Int) : Prop := (ret = 0 → a.Delivered) ∧ (¬ a.Delivered → ret < 0)

/-- **When a failed wake-up is reported.** For a processor that is present and offline and is not processor 0, the value
returned is right iff the processor has APIC id 0 (then it is not woken at all), the last statuses are both zero, or the
last send status has bit 31 set. -/
theorem cpuStart_reports_iff (T : Topology) (s : Cpus) (i : Nat) (t : Attempt) (hp : T.present i = true)
    (hoff : s.online i = false) (h0 : i ≠ 0) :
    Reports t.apic (cpuStart T s i t).1 ↔
      T.apicid i = 0 ∨ t.apic.Delivered ∨ t.apic.lastSend.msb = true := by
  unfold Reports
  rw [cpuStart_neg_iff, ne_eq, not_imp_not, and_self]
  by_cases ha : T.apicid i = 0
  · have hno : (cpuStart T s i t).1 ≠ 0 := fun h => (cpuStart_eq_zero_iff.mp h).2.2.2.1 ha
    exact ⟨fun _ => .inl ha, fun _ h => absurd h hno⟩
  · have hg : Granted T s i t := ⟨hp, fun hon => by rw [hoff] at hon; cases hon⟩
    rw [started_iff hg h0 ha]
    cases t.apic.lastSend.msb <;> simp [ha]

theorem cpuStart_reports_delivered :
    let T : Topology := ⟨fun i => decide (i < 2), fun i => i⟩
    let s : Cpus := ⟨fun i => i == 0, []⟩
    T.present 1 = true ∧ s.online 1 = false ∧ Reports Machine.delivered.apic (cpuStart T s 1 Machine.delivered).1 :=
  ⟨rfl, rfl, (cpuStart_reports_iff _ _ 1 Machine.delivered rfl rfl (by decide)).mpr (.inr (.inl (by decide)))⟩

/-- An APIC whose every send stays busy (`APIC_ICR_BUSY`), and one that reports a send accept error. -/
def busy : Apic := ⟨true, 4, fun _ => 0x1000, fun _ => 0⟩

def acceptError : Apic := ⟨true, 4, fun _ => 0, fun _ => 4⟩

/-- Every wait for the ICR times out, or every read of the ESR has an error: processor 1 is reported as started. -/
theorem undelivered_started :
    let T : Topology := ⟨fun i => decide (i < 2), fun i => i⟩
    let s : Cpus := ⟨fun i => i == 0, []⟩
    (cpuStart T s 1 ⟨true, busy⟩).1 = 0 ∧ busy.lastSend = 0x1000 ∧ ¬ Reports busy (cpuStart T s 1 ⟨true, busy⟩).1 ∧
    (cpuStart T s 1 ⟨true, acceptError⟩).1 = 0 ∧ acceptError.lastAccept = 4 ∧
      ¬ Reports acceptError (cpuStart T s 1 ⟨true, acceptError⟩).1 := by
  refine ⟨by decide, by decide, ?_, by decide, by decide, ?_⟩
  · rintro ⟨h, -⟩
    exact absurd (h (by decide)) (by decide)
  · rintro ⟨h, -⟩
    exact absurd (h (by decide)) (by decide)

/-! ## Interrupts that arrive -/

namespace Apic

variable (a : Apic)

/-- The statuses that the APIC gives for the interrupt `n` of a wake-up are zero: INIT, its deassertion, the STARTUPs. For
INIT there is no accept status. -/
def Acked (n : Nat) : Prop := a.icrIdle n = 0 ∧ (2 ≤ n → a.esr (2 * (n - 1)) &&& 0xEF = 0)

/-- Of the interrupts of a wake-up, each with whether it arrives, those do whose statuses are zero. -/
def Honest (sent : List (IcrMode × Bool)) : Prop := ∀ n x, sent[n]? = some x → a.Acked n → x.2 = true

/-- INIT has gone through, and the last STARTUP. -/
def Through : Prop := a.Acked 0 ∧ a.Delivered

variable {a}

theorem acked_two_iff : a.Acked 2 ↔ ¬ a.Broken := by
  unfold Acked Broken
  simp

/-- On an integrated APIC the last STARTUP is the second only after a first that went through. -/
theorem delivered_iff_acked (hint : a.integrated = true) : a.Delivered ↔ a.Acked 2 ∧ a.Acked 3 := by
  rw [acked_two_iff, Delivered, lastSend, lastAccept, if_pos hint, if_pos hint]
  by_cases hb : a.Broken
  · rw [if_pos hb, if_pos hb]
    exact iff_of_false (fun h => hb.elim (absurd h.1) (absurd h.2)) fun h => h.1 hb
  · rw [if_neg hb, if_neg hb]
    simp [Acked, hb]

theorem Through.acked (h : a.Through) (hint : a.integrated = true) : a.Acked 2 := ((delivered_iff_acked hint).mp h.2).1

end Apic

/-! ## Refusals -/

def Cpus.ipis (s : Cpus) : List ApicOp := s.ops.filter (·.target.isSome)

/-- The same processors are online, and no interrupt has been sent. -/
def Untouched (s s' : Cpus) : Prop := s'.online = s.online ∧ s'.ipis = s.ipis

theorem untouched_set_iff : Untouched s (s.set i false) ↔ s.online i = false := by
  unfold Untouched Cpus.set
  dsimp only
  rw [Function.update_eq_self_iff]
  exact ⟨fun h => h.1.symm, fun h => ⟨h.symm, rfl⟩⟩

theorem not_untouched_woken (h : Granted T s i t) (hb : ¬ (i = 0 ∨ T.apicid i = 0)) :
    ¬ Untouched s (cpuStart T s i t).2 := by
  rw [cpuStart_wakes h hb]
  rintro ⟨-, hipis⟩
  unfold Cpus.ipis at hipis
  dsimp only at hipis
  rw [List.filter_append, List.append_right_eq_self, List.filter_eq_nil_iff] at hipis
  exact hipis _ (wakeup_ops t.apic (T.apicid i) TRAMPOLINE_ADDR).2 rfl

/-- **When a refused `cpu_start` changes nothing**: unless it has taken the boot processor (number 0, or the one with
APIC id 0) from Linux, or has sent the interrupts and then found bit 31 of the send status set. -/
theorem refused_untouched_iff (T : Topology) (s : Cpus) (i : Nat) (t : Attempt) :
    ((cpuStart T s i t).1 < 0 → Untouched s (cpuStart T s i t).2) ↔
      (Granted T s i t → if i = 0 ∨ T.apicid i = 0 then s.online i = false else t.apic.lastSend.msb = false) := by
  by_cases hg : Granted T s i t
  · rw [forall_prop_of_true hg]
    split
    · rename_i hb
      rw [cpuStart_boot hg hb, untouched_set_iff]
      exact forall_prop_of_true (show (-1 : Int) < 0 by decide)
    · rename_i hb
      have hneg : (cpuStart T s i t).1 < 0 ↔ t.apic.lastSend.msb ≠ false := by
        rw [cpuStart_neg_iff, ne_eq, started_iff hg (not_or.mp hb).1 (not_or.mp hb).2]
      constructor
      · intro h
        by_contra hm
        exact not_untouched_woken hg hb (h (hneg.mpr hm))
      · intro hm h
        exact absurd hm (hneg.mp h)
  · rw [cpuStart_of_not_granted hg]
    exact ⟨fun _ h => absurd h hg, fun _ _ => ⟨rfl, rfl⟩⟩

/-- Two processors online, `cpu_down` and the APIC without errors: `cpu_start(0)` fails and processor 0 is offline. Where
processor 1 has APIC id 0, an open of its device fails to start it, and it is offline. -/
theorem refused_processor_lost :
    let online : Nat → Bool := fun i => decide (i < 2)
    let T : Topology := ⟨online, fun i => i⟩
    let T' : Topology := ⟨online, fun i => 1 - i⟩
    let s : Cpus := ⟨online, []⟩
    ((cpuStart T s 0 Machine.delivered).1 = -1 ∧ s.online 0 = true ∧
      (cpuStart T s 0 Machine.delivered).2.online 0 = false) ∧
    ((cpuStart T' s 1 Machine.delivered).1 = -1 ∧ s.online 1 = true ∧
      (cpudeviceOpen T' s 0 Machine.delivered).2.online 1 = false) ∧
    ¬ Untouched s (cpuStart T s 0 Machine.delivered).2 ∧ ¬ Untouched s (cpudeviceOpen T' s 0 Machine.delivered).2 := by
  intro online T T' s
  have h0 : (cpuStart T s 0 Machine.delivered).2.online 0 = false := by decide
  have h1 : (cpudeviceOpen T' s 0 Machine.delivered).2.online 1 = false := by decide
  refine ⟨⟨by decide, rfl, h0⟩, ⟨by decide, rfl, h1⟩, fun h => ?_, fun h => ?_⟩
  · rw [h.1] at h0
    cases h0
  · rw [h.1] at h1
    cases h1

end

end Toshokan.FriendLoader
