import Mathlib.Data.BitVec
import Toshokan.Memory

/-!
# `FriendLoader/cpu_hotplug.c`: taking a core from Linux and starting it

* `Apic` : the answers of the local APIC, `ApicOp` : what is done to it; `wakeupSecondaryCpuViaInit` : the INIT, INIT,
  STARTUP sequence; `wakeup_ret` : the statuses it returns, `wakeup_ops` : where it sends them, `wakeup_signals` : what
  the processor gets;
* `Topology`, `Cpus` : the processors, and which of them Linux has online; `cpuStart`, `cpuReplug`;
* `Granted` : Linux gives the processor up; `cpuStart_of_not_granted`, `cpuStart_boot`, `cpuStart_wakes` : all that
  `cpu_start` can do;
* `cpuStart_eq_zero_iff` : when a core is started; `cpuStart_woken`, `cpuStart_frame` : what has changed then, and what does
  not change.
-/

namespace Toshokan.FriendLoader

/-- What the local APIC answers during one wake-up: `icrIdle n` is the result of the call `n` of
`safe_apic_wait_icr_idle`, `esr n` the value of the read `n` of `APIC_ESR`, and `integrated` is
`APIC_INTEGRATED(boot_cpu_apic_version)`. -/
structure Apic where
  integrated : Bool
  maxlvt : Nat
  icrIdle : Nat → BitVec 32
  esr : Nat → BitVec 32

inductive IcrMode
  | initAssert
  | initDeassert
  | startup (vector : BitVec 64)
  deriving DecidableEq, Repr

/-- `apic_write(APIC_ESR, 0)`, `apic_read(APIC_ESR)` and `apic_icr_write`. -/
inductive ApicOp
  | writeEsr
  | readEsr
  | icrWrite (mode : IcrMode) (apicid : Int)
  deriving DecidableEq, Repr

def ApicOp.target : ApicOp → Option Int
  | .icrWrite _ apicid => some apicid
  | _ => none

/-! ## `wakeup_secondary_cpu_via_init` -/

/-- The two statuses, how many answers of either kind have been used, and what has been done. -/
structure Wakeup where
  sendStatus : BitVec 64
  acceptStatus : BitVec 64
  waits : Nat
  reads : Nat
  ops : List ApicOp

namespace Wakeup

def emit (w : Wakeup) (op : ApicOp) : Wakeup := { w with ops := w.ops ++ [op] }

/-- `if (maxlvt > 3) apic_write(APIC_ESR, 0);` -/
def writeEsr (w : Wakeup) (a : Apic) : Wakeup := if a.maxlvt > 3 then w.emit .writeEsr else w

/-- `apic_read(APIC_ESR)`, whose value is not used. -/
def readEsr (w : Wakeup) : Wakeup := { w.emit .readEsr with reads := w.reads + 1 }

def icrWrite (w : Wakeup) (mode : IcrMode) (apicid : Int) : Wakeup := w.emit (.icrWrite mode apicid)

/-- `send_status = safe_apic_wait_icr_idle();` -/
def waitIcrIdle (w : Wakeup) (a : Apic) : Wakeup :=
  { w with sendStatus := (a.icrIdle w.waits).setWidth 64, waits := w.waits + 1 }

/-- `accept_status = (apic_read(APIC_ESR) & 0xEF);` -/
def readAccept (w : Wakeup) (a : Apic) : Wakeup :=
  { w.emit .readEsr with acceptStatus := (a.esr w.reads &&& 0xEF).setWidth 64, reads := w.reads + 1 }

@[simp] theorem sendStatus_writeEsr (w : Wakeup) (a : Apic) : (w.writeEsr a).sendStatus = w.sendStatus := by
  unfold writeEsr
  split <;> rfl

@[simp] theorem waits_writeEsr (w : Wakeup) (a : Apic) : (w.writeEsr a).waits = w.waits := by
  unfold writeEsr
  split <;> rfl

@[simp] theorem reads_writeEsr (w : Wakeup) (a : Apic) : (w.writeEsr a).reads = w.reads := by
  unfold writeEsr
  split <;> rfl

def startup (w : Wakeup) (a : Apic) (physApicid : Int) (startEip : BitVec 64) : Wakeup :=
  ((((w.writeEsr a).readEsr.icrWrite (.startup (startEip >>> 12)) physApicid).waitIcrIdle a).writeEsr a).readAccept a

theorem startup_status (w : Wakeup) (a : Apic) (physApicid : Int) (startEip : BitVec 64) :
    (w.startup a physApicid startEip).sendStatus = (a.icrIdle w.waits).setWidth 64 ∧
    (w.startup a physApicid startEip).acceptStatus = (a.esr (w.reads + 1) &&& 0xEF).setWidth 64 ∧
    (w.startup a physApicid startEip).waits = w.waits + 1 ∧
    (w.startup a physApicid startEip).reads = w.reads + 2 := by
  simp [startup, readAccept, waitIcrIdle, icrWrite, readEsr, emit]

/-- The loop, with `n` turns to go. -/
def startups (a : Apic) (physApicid : Int) (startEip : BitVec 64) : Nat → Wakeup → Wakeup
  | 0, w => w
  | n + 1, w =>
      let w := w.startup a physApicid startEip
      if w.sendStatus ≠ 0 ∨ w.acceptStatus ≠ 0 then w else startups a physApicid startEip n w

end Wakeup

/-- The value returned, converted from `unsigned long` to `int`, and what was done. -/
def wakeupSecondaryCpuViaInit (a : Apic) (physApicid : Int) (startEip : BitVec 64) : Int × List ApicOp :=
  let w : Wakeup := ⟨0, 0, 0, 0, []⟩
  let w := if a.integrated = true then (w.writeEsr a).readEsr else w
  let w := (w.icrWrite .initAssert physApicid).waitIcrIdle a
  let w := (w.icrWrite .initDeassert physApicid).waitIcrIdle a
  let numStarts := if a.integrated = true then 2 else 0
  let w := Wakeup.startups a physApicid startEip numStarts w
  (((w.sendStatus ||| w.acceptStatus).setWidth 32).toInt, w.ops)

namespace Apic

variable (a : Apic)

/-- The first STARTUP has gone wrong. -/
def Broken : Prop := a.icrIdle 2 ≠ 0 ∨ a.esr 2 &&& 0xEF ≠ 0

instance : Decidable a.Broken := inferInstanceAs (Decidable (_ ∨ _))

/-- The send status of the last STARTUP, or of the last INIT if there is none. -/
def lastSend : BitVec 32 :=
  if a.integrated = true then if a.Broken then a.icrIdle 2 else a.icrIdle 3 else a.icrIdle 1

def lastAccept : BitVec 32 :=
  if a.integrated = true then if a.Broken then a.esr 2 &&& 0xEF else a.esr 4 &&& 0xEF else 0

theorem lastAccept_msb : a.lastAccept.msb = false := by
  have hand : ∀ x : BitVec 32, (x &&& 0xEF).msb = false := by
    intro x
    rw [BitVec.msb_and, show (0xEF : BitVec 32).msb = false from rfl, Bool.and_false]
  unfold lastAccept
  split
  · split
    · exact hand _
    · exact hand _
  · rfl

end Apic

section
variable (a : Apic) (physApicid : Int) (startEip : BitVec 64)

theorem setWidth_or_setWidth (x y : BitVec 32) : (x.setWidth 64 ||| y.setWidth 64).setWidth 32 = x ||| y := by
  rw [BitVec.setWidth_or, BitVec.setWidth_setWidth_of_le _ (by decide), BitVec.setWidth_setWidth_of_le _ (by decide),
    BitVec.setWidth_eq, BitVec.setWidth_eq]

theorem setWidth_eq_zero_iff (x : BitVec 32) : x.setWidth 64 = 0 ↔ x = 0 := by
  constructor
  · intro h
    apply BitVec.eq_of_toNat_eq
    have hx := congrArg BitVec.toNat h
    rwa [BitVec.toNat_setWidth, Nat.mod_eq_of_lt (by omega)] at hx
  · rintro rfl
    rfl

theorem startups_two_status (w : Wakeup) (hw : w.waits = 2) (hr : w.reads = 1) :
    let w' := Wakeup.startups a physApicid startEip 2 w
    w'.sendStatus = (if a.Broken then a.icrIdle 2 else a.icrIdle 3).setWidth 64 ∧
    w'.acceptStatus = (if a.Broken then a.esr 2 &&& 0xEF else a.esr 4 &&& 0xEF).setWidth 64 := by
  intro w'
  obtain ⟨hs₁, ha₁, hw₁, hr₁⟩ := w.startup_status a physApicid startEip
  obtain ⟨hs₂, ha₂, -, -⟩ := (w.startup a physApicid startEip).startup_status a physApicid startEip
  rw [hw] at hs₁ hw₁
  rw [hr] at ha₁ hr₁
  rw [hw₁] at hs₂
  rw [hr₁] at ha₂
  have hb : ((w.startup a physApicid startEip).sendStatus ≠ 0 ∨ (w.startup a physApicid startEip).acceptStatus ≠ 0) ↔
      a.Broken := by
    unfold Apic.Broken
    rw [hs₁, ha₁, ne_eq, ne_eq, setWidth_eq_zero_iff, setWidth_eq_zero_iff]
  have hw' : w' = if a.Broken then w.startup a physApicid startEip
      else (w.startup a physApicid startEip).startup a physApicid startEip := by
    unfold w'
    simp only [Wakeup.startups, hb, ite_self]
  rw [hw']
  split
  · exact ⟨hs₁, ha₁⟩
  · exact ⟨hs₂, ha₂⟩

/-- **What a wake-up returns**: the statuses of its last interrupt. -/
theorem wakeup_ret : (wakeupSecondaryCpuViaInit a physApicid startEip).1 = (a.lastSend ||| a.lastAccept).toInt := by
  unfold wakeupSecondaryCpuViaInit Apic.lastSend Apic.lastAccept
  cases a.integrated with
  | false =>
      simp only [Bool.false_eq_true, if_false, Wakeup.startups]
      congr 1
      exact setWidth_or_setWidth (a.icrIdle 1) 0
  | true =>
      simp only [if_true]
      obtain ⟨hs, ha⟩ := startups_two_status a physApicid startEip
        (((((((Wakeup.mk 0 0 0 0 []).writeEsr a).readEsr.icrWrite .initAssert physApicid).waitIcrIdle a).icrWrite
          .initDeassert physApicid).waitIcrIdle a))
        (by simp [Wakeup.waitIcrIdle, Wakeup.icrWrite, Wakeup.readEsr, Wakeup.emit])
        (by simp [Wakeup.waitIcrIdle, Wakeup.icrWrite, Wakeup.readEsr, Wakeup.emit])
      rw [hs, ha, setWidth_or_setWidth]

/-- It is negative iff bit 31 of the send status is set. -/
theorem wakeup_neg_iff : (wakeupSecondaryCpuViaInit a physApicid startEip).1 < 0 ↔ a.lastSend.msb = true := by
  rw [wakeup_ret, BitVec.toInt_neg_iff, ← ge_iff_le, ← BitVec.msb_eq_true_iff_two_mul_ge, BitVec.msb_or,
    a.lastAccept_msb, Bool.or_false]

/-- The operations from `w` to `w'` send interrupts to `physApicid` only. -/
def Wakeup.Sends (w w' : Wakeup) : Prop :=
  ∃ ops, w'.ops = w.ops ++ ops ∧ ∀ op ∈ ops, ∀ t, op.target = some t → t = physApicid

variable {physApicid}

theorem Wakeup.Sends.trans {w₁ w₂ w₃ : Wakeup} (h : w₁.Sends physApicid w₂) (h' : w₂.Sends physApicid w₃) :
    w₁.Sends physApicid w₃ := by
  obtain ⟨l, hl, ht⟩ := h
  obtain ⟨l', hl', ht'⟩ := h'
  refine ⟨l ++ l', by rw [hl', hl, List.append_assoc], fun op hop => ?_⟩
  rcases List.mem_append.mp hop with hop | hop
  · exact ht op hop
  · exact ht' op hop

theorem Wakeup.sends_refl (w : Wakeup) : w.Sends physApicid w := ⟨[], (List.append_nil _).symm, by simp⟩

theorem Wakeup.sends_emit (w : Wakeup) (op : ApicOp) (h : ∀ t, op.target = some t → t = physApicid) :
    w.Sends physApicid (w.emit op) := by
  refine ⟨[op], rfl, fun op' hop => ?_⟩
  rw [List.mem_singleton.mp hop]
  exact h

theorem Wakeup.sends_writeEsr (w : Wakeup) : w.Sends physApicid (w.writeEsr a) := by
  unfold writeEsr
  split
  · exact w.sends_emit _ (by simp [ApicOp.target])
  · exact w.sends_refl

theorem Wakeup.sends_icrWrite (w : Wakeup) (mode : IcrMode) :
    w.Sends physApicid ((w.icrWrite mode physApicid).waitIcrIdle a) :=
  w.sends_emit (.icrWrite mode physApicid) (by simp [ApicOp.target])

theorem Wakeup.sends_readEsr (w : Wakeup) : w.Sends physApicid w.readEsr :=
  w.sends_emit .readEsr (by simp [ApicOp.target])

theorem Wakeup.sends_startup (w : Wakeup) : w.Sends physApicid (w.startup a physApicid startEip) := by
  unfold startup
  have h₁ : w.Sends physApicid (w.writeEsr a).readEsr := (w.sends_writeEsr a).trans (w.writeEsr a).sends_readEsr
  have h₂ := h₁.trans (Wakeup.sends_icrWrite a _ (.startup (startEip >>> 12)))
  have h₃ := h₂.trans (Wakeup.sends_writeEsr a _)
  exact h₃.trans (Wakeup.sends_emit _ .readEsr (by simp [ApicOp.target]))

theorem Wakeup.sends_startups (n : Nat) (w : Wakeup) :
    w.Sends physApicid (Wakeup.startups a physApicid startEip n w) := by
  induction n generalizing w with
  | zero => exact w.sends_refl
  | succ n ih =>
      unfold startups
      dsimp only
      split
      · exact w.sends_startup a startEip
      · exact (w.sends_startup a startEip).trans (ih _)

variable (physApicid)

/-- **Where a wake-up sends its interrupts**: all to one processor, INIT among them. -/
theorem wakeup_ops :
    (∀ op ∈ (wakeupSecondaryCpuViaInit a physApicid startEip).2, ∀ t, op.target = some t → t = physApicid) ∧
    .icrWrite .initAssert physApicid ∈ (wakeupSecondaryCpuViaInit a physApicid startEip).2 := by
  unfold wakeupSecondaryCpuViaInit
  dsimp only
  generalize hw₀ : (if a.integrated = true then ((Wakeup.mk 0 0 0 0 []).writeEsr a).readEsr else Wakeup.mk 0 0 0 0 []) = w₀
  generalize (if a.integrated = true then 2 else 0) = n
  have h₀ : (Wakeup.mk 0 0 0 0 []).Sends physApicid w₀ := by
    rw [← hw₀]
    split
    · exact (Wakeup.sends_writeEsr a _).trans (Wakeup.sends_readEsr _)
    · exact Wakeup.sends_refl _
  have h₁ : w₀.Sends physApicid _ := w₀.sends_icrWrite a .initAssert
  have h₂ : ((w₀.icrWrite .initAssert physApicid).waitIcrIdle a).Sends physApicid _ :=
    (Wakeup.sends_icrWrite a _ .initDeassert).trans (Wakeup.sends_startups a startEip n _)
  constructor
  · obtain ⟨ops, hops, ht⟩ := h₀.trans (h₁.trans h₂)
    rw [hops]
    exact ht
  · obtain ⟨ops, hops, -⟩ := h₂
    rw [hops]
    simp [Wakeup.waitIcrIdle, Wakeup.icrWrite, Wakeup.emit]

/-- The interrupt an operation sends to the processor `apicid`. -/
def ApicOp.signalTo (apicid : Int) : ApicOp → Option IcrMode
  | .icrWrite mode t => if t = apicid then some mode else none
  | _ => none

def Wakeup.signals (w : Wakeup) : List IcrMode := w.ops.filterMap (ApicOp.signalTo physApicid)

variable {physApicid}

theorem Wakeup.signals_emit (w : Wakeup) (op : ApicOp) :
    (w.emit op).signals physApicid = w.signals physApicid ++ (op.signalTo physApicid).toList := by
  rw [signals, signals, emit, List.filterMap_append]
  cases h : op.signalTo physApicid <;> simp [h]

theorem Wakeup.signals_icrWrite (w : Wakeup) (mode : IcrMode) :
    ((w.icrWrite mode physApicid).waitIcrIdle a).signals physApicid = w.signals physApicid ++ [mode] := by
  refine (w.signals_emit (.icrWrite mode physApicid)).trans ?_
  rw [ApicOp.signalTo, if_pos rfl, Option.toList_some]

theorem Wakeup.signals_readEsr (w : Wakeup) : w.readEsr.signals physApicid = w.signals physApicid :=
  (w.signals_emit .readEsr).trans (List.append_nil _)

theorem Wakeup.signals_writeEsr (w : Wakeup) : (w.writeEsr a).signals physApicid = w.signals physApicid := by
  unfold writeEsr
  split
  · exact (w.signals_emit .writeEsr).trans (List.append_nil _)
  · rfl

theorem Wakeup.signals_startup (w : Wakeup) :
    (w.startup a physApicid startEip).signals physApicid = w.signals physApicid ++ [.startup (startEip >>> 12)] := by
  have hlast : ∀ w : Wakeup, (w.readAccept a).signals physApicid = w.signals physApicid :=
    fun w => (w.signals_emit .readEsr).trans (List.append_nil _)
  rw [startup, hlast, signals_writeEsr, signals_icrWrite, signals_readEsr, signals_writeEsr]

/-- The loop sends some STARTUPs, at least one if it has a turn. -/
theorem Wakeup.signals_startups (n : Nat) (w : Wakeup) :
    ∃ k, (Wakeup.startups a physApicid startEip n w).signals physApicid =
      w.signals physApicid ++ List.replicate k (.startup (startEip >>> 12)) ∧ (0 < n → 0 < k) := by
  induction n generalizing w with
  | zero => exact ⟨0, (List.append_nil _).symm, id⟩
  | succ n ih =>
      unfold startups
      dsimp only
      split
      · exact ⟨1, w.signals_startup a startEip, fun _ => Nat.one_pos⟩
      · obtain ⟨k, hk, -⟩ := ih (w.startup a physApicid startEip)
        refine ⟨k + 1, ?_, fun _ => Nat.succ_pos k⟩
        rw [hk, w.signals_startup, List.append_assoc, List.replicate_succ]
        rfl

variable (physApicid)

/-- **What a processor gets**: INIT, and STARTUPs at the page of `startEip` where the APIC is integrated. -/
theorem wakeup_signals :
    ∃ k, (wakeupSecondaryCpuViaInit a physApicid startEip).2.filterMap (ApicOp.signalTo physApicid) =
      [.initAssert, .initDeassert] ++ List.replicate k (.startup (startEip >>> 12)) ∧ (a.integrated = true → 0 < k) := by
  unfold wakeupSecondaryCpuViaInit
  dsimp only
  generalize hw : (if a.integrated = true then ((Wakeup.mk 0 0 0 0 []).writeEsr a).readEsr else Wakeup.mk 0 0 0 0 []) = w
  have hnil : w.signals physApicid = [] := by
    rw [← hw]
    split
    · rw [Wakeup.signals_readEsr, Wakeup.signals_writeEsr]
      rfl
    · rfl
  obtain ⟨k, hk, hpos⟩ := Wakeup.signals_startups a startEip (if a.integrated = true then 2 else 0)
    ((((w.icrWrite .initAssert physApicid).waitIcrIdle a).icrWrite .initDeassert physApicid).waitIcrIdle a)
  refine ⟨k, hk.trans ?_, fun h => hpos ?_⟩
  · rw [Wakeup.signals_icrWrite, Wakeup.signals_icrWrite, hnil]
    rfl
  · rw [if_pos h]
    decide

end

/-! ## `cpu_start`, `cpu_replug` -/

structure Topology where
  present : Nat → Bool
  apicid : Nat → Int

/-- Which processors Linux has online, and what has been done to the local APIC. -/
structure Cpus where
  online : Nat → Bool
  ops : List ApicOp

/-- What happens during a `cpu_start`: whether `cpu_down` succeeds, and what the APIC answers. -/
structure Attempt where
  down : Bool
  apic : Apic

def Cpus.set (s : Cpus) (i : Nat) (b : Bool) : Cpus := { s with online := Function.update s.online i b }

/-- `cpu_start`, without the warm reset vector. -/
def cpuStart (T : Topology) (s : Cpus) (i : Nat) (t : Attempt) : Int × Cpus :=
  if T.present i = false then (-1, s)
  else if s.online i = true ∧ t.down = false then (-1, s)
  else
    let s := s.set i false
    let apicid := T.apicid i
    if i = 0 ∨ apicid = 0 then (-1, s)
    else
      let (r, ops) := wakeupSecondaryCpuViaInit t.apic apicid TRAMPOLINE_ADDR
      (if r < 0 then -1 else 0, { s with ops := s.ops ++ ops })

/-- `cpu_replug`. `up` tells whether `cpu_up` succeeds. -/
def cpuReplug (s : Cpus) (i : Nat) (up : Bool) : Int × Cpus := if up = true then (0, s.set i true) else (-1, s)

section
variable {T : Topology} {s : Cpus} {i : Nat} {t : Attempt}

/-- Processor `i` is present, and Linux gives it up if it is online. -/
def Granted (T : Topology) (s : Cpus) (i : Nat) (t : Attempt) : Prop :=
  T.present i = true ∧ (s.online i = true → t.down = true)

theorem cpuStart_of_not_granted (h : ¬ Granted T s i t) : cpuStart T s i t = (-1, s) := by
  unfold cpuStart
  split
  · rfl
  · rename_i hp
    unfold Granted at h
    rw [Bool.not_eq_false] at hp
    rw [not_and, Classical.not_imp, Bool.not_eq_true] at h
    exact if_pos (h hp)

section
variable (h : Granted T s i t)
include h

theorem cpuStart_of_granted :
    cpuStart T s i t =
      if i = 0 ∨ T.apicid i = 0 then (-1, s.set i false)
      else
        let (r, ops) := wakeupSecondaryCpuViaInit t.apic (T.apicid i) TRAMPOLINE_ADDR
        (if r < 0 then -1 else 0, { s.set i false with ops := s.ops ++ ops }) := by
  obtain ⟨hp, hd⟩ := h
  unfold cpuStart
  rw [if_neg (by simp [hp]), if_neg (by rintro ⟨ho, hn⟩; rw [hd ho] at hn; cases hn)]
  rfl

theorem cpuStart_boot (hb : i = 0 ∨ T.apicid i = 0) : cpuStart T s i t = (-1, s.set i false) := by
  rw [cpuStart_of_granted h, if_pos hb]

theorem cpuStart_wakes (hb : ¬ (i = 0 ∨ T.apicid i = 0)) :
    cpuStart T s i t =
      (if (wakeupSecondaryCpuViaInit t.apic (T.apicid i) TRAMPOLINE_ADDR).1 < 0 then -1 else 0,
        ⟨Function.update s.online i false,
          s.ops ++ (wakeupSecondaryCpuViaInit t.apic (T.apicid i) TRAMPOLINE_ADDR).2⟩) := by
  rw [cpuStart_of_granted h, if_neg hb]
  rfl

end

/-- **When a core is started**: it is present, Linux gives it up, it is not the boot processor, and bit 31 of the last
send status is clear. -/
theorem cpuStart_eq_zero_iff :
    (cpuStart T s i t).1 = 0 ↔
      T.present i = true ∧ (s.online i = true → t.down = true) ∧ i ≠ 0 ∧ T.apicid i ≠ 0 ∧
        t.apic.lastSend.msb = false := by
  by_cases hg : Granted T s i t
  · by_cases hb : i = 0 ∨ T.apicid i = 0
    · rw [cpuStart_boot hg hb]
      refine iff_of_false (by simp) ?_
      rintro ⟨-, -, h0, ha, -⟩
      exact hb.elim h0 ha
    · have hneg := wakeup_neg_iff t.apic (T.apicid i) TRAMPOLINE_ADDR
      obtain ⟨h0, ha⟩ := not_or.mp hb
      rw [cpuStart_wakes hg hb, ← Bool.not_eq_true, ← hneg]
      dsimp only
      split
      · rename_i hr
        exact iff_of_false (by decide) fun h => h.2.2.2.2 hr
      · rename_i hr
        exact iff_of_true rfl ⟨hg.1, hg.2, h0, ha, hr⟩
  · rw [cpuStart_of_not_granted hg]
    refine iff_of_false (by simp) ?_
    rintro ⟨hp, hd, -⟩
    exact hg ⟨hp, hd⟩

theorem cpuStart_woken (hp : T.present i = true) (hd : s.online i = true → t.down = true) (h0 : i ≠ 0)
    (ha : T.apicid i ≠ 0) :
    (cpuStart T s i t).2 = ⟨Function.update s.online i false,
      s.ops ++ (wakeupSecondaryCpuViaInit t.apic (T.apicid i) TRAMPOLINE_ADDR).2⟩ := by
  rw [cpuStart_wakes ⟨hp, hd⟩ (not_or.mpr ⟨h0, ha⟩)]

theorem mem_cpuStart_ops {op : ApicOp} (h : op ∈ (cpuStart T s i t).2.ops) :
    op ∈ s.ops ∨ op ∈ (wakeupSecondaryCpuViaInit t.apic (T.apicid i) TRAMPOLINE_ADDR).2 := by
  by_cases hg : Granted T s i t
  · by_cases hb : i = 0 ∨ T.apicid i = 0
    · rw [cpuStart_boot hg hb] at h
      exact .inl h
    · rw [cpuStart_wakes hg hb] at h
      exact List.mem_append.mp h
  · rw [cpuStart_of_not_granted hg] at h
    exact .inl h

/-- The other processors stay as they are, and interrupts go to a present processor `i` only. -/
theorem cpuStart_frame :
    (∀ j, j ≠ i → (cpuStart T s i t).2.online j = s.online j) ∧
    ∃ ops, (cpuStart T s i t).2.ops = s.ops ++ ops ∧
      ∀ op ∈ ops, ∀ id, op.target = some id → T.present i = true ∧ id = T.apicid i := by
  have hset : ∀ j, j ≠ i → Function.update s.online i false j = s.online j := fun j hj => Function.update_of_ne hj _ _
  have hnone : s.ops = s.ops ++ [] := (List.append_nil _).symm
  by_cases hg : Granted T s i t
  · by_cases hb : i = 0 ∨ T.apicid i = 0
    · rw [cpuStart_boot hg hb]
      exact ⟨hset, [], hnone, by simp⟩
    · rw [cpuStart_wakes hg hb]
      refine ⟨hset, _, rfl, fun op hop id hid => ⟨hg.1, ?_⟩⟩
      exact (wakeup_ops t.apic (T.apicid i) TRAMPOLINE_ADDR).1 op hop id hid
  · rw [cpuStart_of_not_granted hg]
    exact ⟨fun _ _ => rfl, [], hnone, by simp⟩

end

end Toshokan.FriendLoader
