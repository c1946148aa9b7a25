import Mathlib.Data.List.Infix
import Toshokan.Lib.Paging

/-!
# An x86 core from startup to 64-bit mode

The registers that decide how a core fetches and addresses memory, and the instructions that change them: real mode,
protected mode, and long mode in its 32-bit and 64-bit forms, all at privilege level 0. An exception is `none`. A step
writes what the instruction writes; the accessed and dirty flags of page table entries, which paging sets besides, do not
change what it does (`Mmu.walk_unflag`) and are left to the system that has the cores.

* `Core`, `Segment` : the registers, a segment register with the descriptor it has cached; `Core.size` : 16, 32 or 64-bit
  code; `startup` : a core after INIT and STARTUP;
* `Processor.translate` : paging; `seen`, `mapped` : memory at linear addresses;
* `Encoding` : machine code, as a table in which no encoding begins another; `decode_of_mem`;
* `Instr`, `exec`, `step` : the instructions; `load` : a selector and its descriptor, which is marked as accessed;
* `Identity` : linear addresses that are physical ones; `step_of_bytes` : the instruction whose bytes are at `%rip`.
-/

namespace Toshokan.Lib.X86

def bit (x : BitVec 64) (n : Nat) : Bool := x.getLsbD n

inductive CodeSize
  | code16
  | code32
  | code64
  deriving DecidableEq, Repr

/-- A segment register: the selector, and of its descriptor the base, the limit in bytes and the bits `L` and `D`. -/
structure Segment where
  selector : BitVec 16
  base : BitVec 32
  limit : BitVec 32
  long : Bool
  big : Bool
  deriving DecidableEq, Repr

structure Core where
  rip : BitVec 64
  rax : BitVec 64
  rcx : BitVec 64
  rdx : BitVec 64
  rdi : BitVec 64
  interrupts : Bool
  cr0 : BitVec 64
  cr3 : BitVec 64
  cr4 : BitVec 64
  efer : BitVec 64
  cs : Segment
  ds : Segment
  ss : Segment
  gdtBase : BitVec 64
  gdtLimit : BitVec 16
  deriving DecidableEq, Repr

namespace Core

variable (c : Core)

/-- `CR0.PE`. -/
def protectedMode : Bool := bit c.cr0 0

/-- `CR0.PG`. -/
def paging : Bool := bit c.cr0 31

/-- `IA32_EFER.LMA`. -/
def longMode : Bool := bit c.efer 10

def size : CodeSize :=
  if c.longMode = true ∧ c.cs.long = true then .code64 else if c.cs.big = true then .code32 else .code16

def ax : BitVec 16 := c.rax.setWidth 16

def eax : BitVec 32 := c.rax.setWidth 32

/-- A write to `%ax` leaves the other bits of `%rax`. -/
def setAx (v : BitVec 16) : Core := { c with rax := c.rax.extractLsb' 16 48 ++ v }

/-- A write to `%eax` clears the others. -/
def setEax (v : BitVec 32) : Core := { c with rax := v.setWidth 64 }

variable {c} in
theorem ax_of {x : BitVec 48} {v : BitVec 16} (h : c.rax = x ++ v) : c.ax = v := by
  apply BitVec.eq_of_toNat_eq
  have hv := v.isLt
  rw [ax, h, BitVec.toNat_setWidth, BitVec.toNat_append, Nat.shiftLeft_eq, Nat.mul_comm, ← Nat.two_pow_add_eq_or_of_lt hv]
  omega

variable {c} in
theorem eax_of {v : BitVec 32} (h : c.rax = v.setWidth 64) : c.eax = v := by
  rw [eax, h, BitVec.setWidth_setWidth_of_le _ (by decide), BitVec.setWidth_eq]

end Core

/-- `CR0.CD` and `CR0.NW`, which INIT does not change: caches on, off, or off and not coherent. -/
inductive Cache
  | on
  | noFill
  | off
  deriving DecidableEq, Repr

def Cache.cr0 : Cache → BitVec 64
  | .on => 0x10
  | .noFill => 0x40000010
  | .off => 0x60000010

/-- A core after INIT and STARTUP with a vector, from what was in its registers. -/
def startup (vector : BitVec 8) (cache : Cache) (c : Core) : Core :=
  let seg : Segment := ⟨0, 0, 0xffff, false, false⟩
  { c with
    rip := 0, interrupts := false, cr0 := cache.cr0, cr3 := 0, cr4 := 0, efer := 0
    cs := ⟨vector.setWidth 16 <<< 8, vector.setWidth 32 <<< 12, 0xffff, false, false⟩
    ds := seg, ss := seg, gdtBase := 0, gdtLimit := 0xffff }

/-! ## Memory -/

/-- The processor: its paging, and the bits of `CR4` it has, among which are `PSE`, `PAE` and `PGE`. -/
structure Processor extends Mmu where
  cr4Bits : BitVec 64
  cr4Bits_pae : 0xb0 &&& ~~~cr4Bits = 0

inductive Use
  | fetch
  | read
  | write
  deriving DecidableEq, Repr

/-- The upper bits of a linear address repeat bit 47. -/
def canonical (a : BitVec 64) : Bool := (a.setWidth 48).signExtend 64 == a

theorem canonical_of_lt {a : BitVec 64} (h : a.toNat < 2 ^ 47) : canonical a = true := by
  have hlow : (a.setWidth 48).toNat = a.toNat := by rw [BitVec.toNat_setWidth, Nat.mod_eq_of_lt (by omega)]
  have hmsb : (a.setWidth 48).msb = false := by
    rw [BitVec.msb_eq_false_iff_two_mul_lt, hlow]
    omega
  unfold canonical
  rw [beq_iff_eq, BitVec.signExtend_eq_setWidth_of_msb_false hmsb]
  apply BitVec.eq_of_toNat_eq
  rw [BitVec.toNat_setWidth, hlow, Nat.mod_eq_of_lt a.isLt]

namespace Processor

variable (cpu : Processor)

/-- May a core at privilege level 0 use the translation? -/
def allowed (c : Core) (t : Translation) : Use → Bool
  | .fetch => !(t.user && bit c.cr4 20)
  | .read => !(t.user && bit c.cr4 21)
  | .write => !(t.user && bit c.cr4 21) && (t.writable || !bit c.cr0 16)

/-- From a linear to a physical address. Paging outside of long mode, paging with five levels and no-execute pages are
not modelled. -/
def translate (m : Bytes) (c : Core) (use : Use) (a : BitVec 64) : Option (BitVec 64) :=
  if c.paging = false then some a
  else if c.longMode = true ∧ bit c.efer 11 = false ∧ bit c.cr4 12 = false ∧ canonical a = true then
    ((cpu.walk m (frame c.cr3) (a.setWidth 48)).filter fun t => allowed c t use).map Translation.phys
  else none

/-- Memory as the core sees it. -/
def seen (m : Bytes) (c : Core) (use : Use) : Bytes := fun a => ((cpu.translate m c use a).map m).getD 0

def mapped (m : Bytes) (c : Core) (use : Use) (a : BitVec 64) (n : Nat) : Bool :=
  (List.range n).all fun k => (cpu.translate m c use (a + BitVec.ofNat 64 k)).isSome

def read {α : Type} (m : Bytes) (c : Core) (a : BitVec 64) (n : Nat) (get : Bytes → BitVec 64 → α) : Option α :=
  if cpu.mapped m c .read a n = true then some (get (cpu.seen m c .read) a) else none

end Processor

/-- The linear address of `n` bytes of a segment. 64-bit code has no segments. -/
def Segment.linear (s : Segment) (w : CodeSize) (offset : BitVec 64) (n : Nat) : Option (BitVec 64) :=
  if w = .code64 then some offset
  else if offset.toNat + n ≤ s.limit.toNat + 1 then some ((s.base + offset.setWidth 32).setWidth 64)
  else none

/-! ## Instructions -/

/-- The instructions; `α` are their addresses. -/
inductive Instr (α : Type)
  | jmp (rel : α)
  | cli
  | movwCsAx
  | movwAxDs
  | movwAxSs
  | lgdtl (addr : α)
  | movlCr0Eax
  | movlEaxCr0
  | movlEdiCr3
  | movlCr4Eax
  | movlEaxCr4
  | orlEax (imm : BitVec 32)
  | andlEax (imm : BitVec 32)
  | ljmpl (selector : BitVec 16) (addr : α)
  | movwAx (imm : BitVec 16)
  | movlEdi (imm : BitVec 32)
  | movlEcx (imm : BitVec 32)
  | rdmsr
  | wrmsr
  | movqRax (imm : α)
  | jmpqRax
  deriving DecidableEq, Repr

def Instr.map {α β : Type} (f : α → β) : Instr α → Instr β
  | .jmp rel => .jmp (f rel)
  | .cli => .cli
  | .movwCsAx => .movwCsAx
  | .movwAxDs => .movwAxDs
  | .movwAxSs => .movwAxSs
  | .lgdtl addr => .lgdtl (f addr)
  | .movlCr0Eax => .movlCr0Eax
  | .movlEaxCr0 => .movlEaxCr0
  | .movlEdiCr3 => .movlEdiCr3
  | .movlCr4Eax => .movlCr4Eax
  | .movlEaxCr4 => .movlEaxCr4
  | .orlEax imm => .orlEax imm
  | .andlEax imm => .andlEax imm
  | .ljmpl selector addr => .ljmpl selector (f addr)
  | .movwAx imm => .movwAx imm
  | .movlEdi imm => .movlEdi imm
  | .movlEcx imm => .movlEcx imm
  | .rdmsr => .rdmsr
  | .wrmsr => .wrmsr
  | .movqRax imm => .movqRax (f imm)
  | .jmpqRax => .jmpqRax

/-- An instruction with its bytes, in code of one size. -/
structure Code where
  size : CodeSize
  bytes : List (BitVec 8)
  instr : Instr (BitVec 64)
  deriving DecidableEq, Repr

/-- Machine code: what is before the core is at most one instruction. -/
structure Encoding where
  table : List Code
  unambiguous : ∀ x ∈ table, ∀ y ∈ table, x.size = y.size → x.bytes <+: y.bytes → x = y

namespace Encoding

def ahead (s : Nat → BitVec 8) (n : Nat) : List (BitVec 8) := (List.range n).map s

def decode (E : Encoding) (w : CodeSize) (s : Nat → BitVec 8) : Option Code :=
  E.table.find? fun x => x.size = w ∧ x.bytes = ahead s x.bytes.length

theorem ahead_mono (s : Nat → BitVec 8) {n k : Nat} (h : n ≤ k) : ahead s n <+: ahead s k := by
  unfold ahead
  rw [← Nat.add_sub_cancel' h, List.range_add, List.map_append]
  exact List.prefix_append _ _

theorem decode_of_mem (E : Encoding) {x : Code} (hx : x ∈ E.table) {s : Nat → BitVec 8}
    (hs : x.bytes = ahead s x.bytes.length) : E.decode x.size s = some x := by
  cases hf : E.decode x.size s with
  | none =>
      have hno := List.find?_eq_none.mp hf x hx
      exact absurd (decide_eq_true ⟨rfl, hs⟩) hno
  | some y =>
      have hy := List.mem_of_find?_eq_some hf
      have hfound := List.find?_some hf
      obtain ⟨hsize, hbytes⟩ := of_decide_eq_true hfound
      -- both are prefixes of what is ahead
      rcases Nat.le_total y.bytes.length x.bytes.length with hle | hle
      · have hp := ahead_mono s hle
        rw [← hbytes, ← hs] at hp
        rw [E.unambiguous y hy x hx hsize hp]
      · have hp := ahead_mono s hle
        rw [← hbytes, ← hs] at hp
        rw [E.unambiguous x hx y hy hsize.symm hp]

end Encoding

/-! ## Segments -/

def descriptorSegment (selector : BitVec 16) (d : BitVec 64) : Segment where
  selector := selector
  base := d.extractLsb' 56 8 ++ d.extractLsb' 16 24
  limit :=
    let limit : BitVec 20 := d.extractLsb' 48 4 ++ d.extractLsb' 0 16
    if bit d 55 = true then limit.setWidth 32 <<< 12 ||| 0xfff else limit.setWidth 32
  long := bit d 53
  big := bit d 54

/-- A present descriptor of a code or data segment, of privilege level 0. -/
def segmentOk (selector : BitVec 16) (d : BitVec 64) : Bool :=
  bit d 47 && bit d 44 && d.extractLsb' 45 2 == 0 && selector.extractLsb' 0 2 == 0

/-- A code segment that is not conforming; in long mode not both `L` and `D`. -/
def codeOk (c : Core) (selector : BitVec 16) (d : BitVec 64) : Bool :=
  segmentOk selector d && bit d 43 && !bit d 42 && !(c.longMode && bit d 53 && bit d 54)

/-- A data segment or a code segment that can be read. -/
def dataOk (selector : BitVec 16) (d : BitVec 64) : Bool := segmentOk selector d && (!bit d 43 || bit d 41)

/-- A data segment that can be written. -/
def stackOk (selector : BitVec 16) (d : BitVec 64) : Bool := segmentOk selector d && !bit d 43 && bit d 41

def Segment.real (s : Segment) (selector : BitVec 16) : Segment :=
  { s with selector := selector, base := selector.setWidth 32 <<< 4 }

namespace Processor

variable (cpu : Processor)

def descriptorAddr (c : Core) (selector : BitVec 16) : BitVec 64 := c.gdtBase + (selector &&& 0xfff8).setWidth 64

/-- The descriptor of a selector. Selectors of the null descriptor and of a local table are refused. -/
def descriptor (m : Bytes) (c : Core) (selector : BitVec 16) : Option (BitVec 64) :=
  if selector &&& 0xfff8 ≠ 0 ∧ selector &&& 4 = 0 ∧ selector ||| 7 ≤ c.gdtLimit then
    cpu.read m c (descriptorAddr c selector) 8 Bytes.read64
  else none

/-- The descriptor of a selector is marked as accessed, if it is not. -/
def markUsed (m : Bytes) (c : Core) (selector : BitVec 16) (d : BitVec 64) : Option Bytes :=
  if bit d 40 = true then some m
  else (cpu.translate m c .write (descriptorAddr c selector + 5)).map fun p => Function.update m p (m p ||| 1)

theorem read64_mark (m : Bytes) (a : BitVec 64) :
    Bytes.read64 (Function.update m (a + 5) (m (a + 5) ||| 1)) a = m.read64 a ||| 0x10000000000 := by
  have hne : ∀ k : BitVec 64, k ≠ 5 → Function.update m (a + 5) (m (a + 5) ||| 1) (a + k) = m (a + k) := by
    intro k hk
    refine Function.update_of_ne (fun h => hk ?_) _ _
    exact (BitVec.add_right_inj a).mp h
  have h0 := hne 0 (by decide)
  rw [show a + 0 = a from BitVec.add_zero a] at h0
  unfold Bytes.read64
  rw [hne 7 (by decide), hne 6 (by decide), Function.update_self, hne 4 (by decide), hne 3 (by decide), hne 2 (by decide),
    hne 1 (by decide), h0]
  apply BitVec.eq_of_getLsbD_eq
  intro i hi
  have hone : ∀ j, BitVec.getLsbD (0x10000000000 : BitVec 64) j = decide (j = 40) := by
    intro j
    rw [show (0x10000000000 : BitVec 64) = BitVec.twoPow 64 40 from rfl, BitVec.getLsbD_twoPow]
    simp only [Nat.reduceLT, decide_true, Bool.true_and, decide_eq_decide]
    omega
  have hbyte : ∀ j, BitVec.getLsbD (1 : BitVec 8) j = decide (j = 0) := by
    intro j
    rw [show (1 : BitVec 8) = BitVec.twoPow 8 0 from rfl, BitVec.getLsbD_twoPow]
    simp only [Nat.zero_lt_succ, decide_true, Bool.true_and, decide_eq_decide]
    omega
  simp only [BitVec.getLsbD_append, BitVec.getLsbD_or, hone, hbyte]
  grind

def load (m : Bytes) (c : Core) (ok : BitVec 16 → BitVec 64 → Bool) (selector : BitVec 16) : Option (Segment × Bytes) :=
  (cpu.descriptor m c selector).bind fun d =>
    if ok selector d = true then
      (cpu.markUsed m c selector d).map fun m => (descriptorSegment selector d, m)
    else none

end Processor

/-! ## Steps -/

/-- The offset a near jump goes to. -/
def CodeSize.wrap : CodeSize → BitVec 64 → BitVec 64
  | .code16, a => (a.setWidth 16).setWidth 64
  | .code32, a => (a.setWidth 32).setWidth 64
  | .code64, a => a

def Core.canFetch (c : Core) (a : BitVec 64) : Bool :=
  if c.size = .code64 then canonical a else decide (a.toNat ≤ c.cs.limit.toNat)

def Core.jump (c : Core) (a : BitVec 64) : Option Core :=
  if c.canFetch a = true then some { c with rip := a } else none

/-- A write to `CR0`. Paging needs protected mode, and long mode begins with it; not write-through without cache
disable. `ET` is always set. -/
def Core.setCr0 (c : Core) (v : BitVec 64) : Option Core :=
  if bit v 31 = true ∧ bit v 0 = false ∨ bit v 29 = true ∧ bit v 30 = false then none
  else if bit v 31 = true ∧ c.paging = false then
    if bit c.efer 8 = true then
      if bit c.cr4 5 = true ∧ c.cs.long = false then some { c with cr0 := v ||| 0x10, efer := c.efer ||| 0x400 } else none
    else some { c with cr0 := v ||| 0x10 }
  else if bit v 31 = false ∧ c.size = .code64 then none
  else if bit v 31 = false then some { c with cr0 := v ||| 0x10, efer := c.efer &&& ~~~0x400 }
  else some { c with cr0 := v ||| 0x10 }

theorem Core.setCr0_not_paging {c : Core} {v : BitVec 64} (h31 : bit v 31 = false)
    (hnw : ¬ (bit v 29 = true ∧ bit v 30 = false)) (hsize : c.size ≠ .code64) :
    c.setCr0 v = some { c with cr0 := v ||| 0x10, efer := c.efer &&& ~~~0x400 } := by
  have hpg : ¬ bit v 31 = true := by rw [h31]; exact Bool.false_ne_true
  unfold setCr0
  rw [if_neg (not_or.mpr ⟨fun h => hpg h.1, hnw⟩), if_neg fun h => hpg h.1, if_neg fun h => hsize h.2, if_pos h31]

/-- The write that turns paging on where `LME` is set. -/
theorem Core.setCr0_long {c : Core} {v : BitVec 64} (h31 : bit v 31 = true) (h0 : bit v 0 = true)
    (hnw : bit v 29 = false) (hp : c.paging = false) (hlme : bit c.efer 8 = true) (hpae : bit c.cr4 5 = true)
    (hcs : c.cs.long = false) : c.setCr0 v = some { c with cr0 := v ||| 0x10, efer := c.efer ||| 0x400 } := by
  unfold setCr0
  rw [if_neg, if_pos ⟨h31, hp⟩, if_pos hlme, if_pos ⟨hpae, hcs⟩]
  rintro (h | h)
  · rw [h0] at h
    cases h.2
  · rw [hnw] at h
    cases h.1

/-- A write to `CR4`: only bits the processor has, and in long mode `PAE` stays and `LA57` is as before. -/
def Processor.setCr4 (cpu : Processor) (c : Core) (v : BitVec 64) : Option Core :=
  if v &&& ~~~cpu.cr4Bits ≠ 0 ∨ c.longMode = true ∧ (bit v 5 = false ∨ bit v 12 ≠ bit c.cr4 12) then none
  else some { c with cr4 := v }

/-- A write to `IA32_EFER`: of its bits `SCE`, `LME` and `NXE` can be written, `LME` not while there is paging. -/
def Core.setEfer (c : Core) (v : BitVec 64) : Option Core :=
  if v &&& ~~~0xd01 ≠ 0 ∨ c.paging = true ∧ bit v 8 ≠ bit c.efer 8 then none
  else some { c with efer := v &&& 0x901 ||| c.efer &&& 0x400 }

def efer : BitVec 32 := 0xc0000080

namespace Processor

variable (cpu : Processor)

/-- One instruction; `next` is the address after it. -/
def exec (m : Bytes) (c : Core) (next : BitVec 64) : Instr (BitVec 64) → Option (Core × Bytes)
  | .jmp rel => (c.jump (c.size.wrap (next + rel))).map fun c => (c, m)
  | .cli => some ({ c with interrupts := false, rip := next }, m)
  | .movwCsAx => some ({ c.setAx c.cs.selector with rip := next }, m)
  | .movwAxDs =>
      if c.protectedMode = true then
        (cpu.load m c dataOk c.ax).map fun (s, m) => ({ c with ds := s, rip := next }, m)
      else some ({ c with ds := c.ds.real c.ax, rip := next }, m)
  | .movwAxSs =>
      if c.protectedMode = true then
        (cpu.load m c stackOk c.ax).map fun (s, m) => ({ c with ss := s, rip := next }, m)
      else some ({ c with ss := c.ss.real c.ax, rip := next }, m)
  | .lgdtl addr =>
      -- six bytes: the limit and 32 bits of the base
      if c.size = .code64 then none
      else
        (c.ds.linear c.size addr 6).bind fun a =>
          (cpu.read m c a 6 fun b a => (b.read16 a, b.read32 (a + 2))).map fun (limit, base) =>
            ({ c with gdtLimit := limit, gdtBase := base.setWidth 64, rip := next }, m)
  | .movlCr0Eax => some ({ c.setEax (c.cr0.setWidth 32) with rip := next }, m)
  | .movlEaxCr0 => (c.setCr0 (c.eax.setWidth 64)).map fun c => ({ c with rip := next }, m)
  | .movlEdiCr3 => some ({ c with cr3 := (c.rdi.setWidth 32).setWidth 64, rip := next }, m)
  | .movlCr4Eax => some ({ c.setEax (c.cr4.setWidth 32) with rip := next }, m)
  | .movlEaxCr4 => (cpu.setCr4 c (c.eax.setWidth 64)).map fun c => ({ c with rip := next }, m)
  | .orlEax imm => some ({ c.setEax (c.eax ||| imm) with rip := next }, m)
  | .andlEax imm => some ({ c.setEax (c.eax &&& imm) with rip := next }, m)
  | .ljmpl selector addr =>
      if c.size = .code64 then none
      else if c.protectedMode = true then
        (cpu.load m c (codeOk c) selector).bind fun (s, m) => ({ c with cs := s }.jump addr).map fun c => (c, m)
      else ({ c with cs := c.cs.real selector }.jump addr).map fun c => (c, m)
  | .movwAx imm => some ({ c.setAx imm with rip := next }, m)
  | .movlEdi imm => some ({ c with rdi := imm.setWidth 64, rip := next }, m)
  | .movlEcx imm => some ({ c with rcx := imm.setWidth 64, rip := next }, m)
  | .rdmsr =>
      if c.rcx.setWidth 32 = efer then
        some ({ c.setEax (c.efer.setWidth 32) with rdx := c.efer >>> 32, rip := next }, m)
      else none
  | .wrmsr =>
      if c.rcx.setWidth 32 = efer then
        (c.setEfer (c.rdx.setWidth 32 ++ c.eax)).map fun c => ({ c with rip := next }, m)
      else none
  | .movqRax imm => some ({ c with rax := imm, rip := next }, m)
  | .jmpqRax =>
      if c.size = .code64 then
        (cpu.read m c c.rax 8 Bytes.read64).bind fun a => (c.jump a).map fun c => (c, m)
      else none

/-- The bytes from the linear address `a` on, as they are fetched. -/
def stream (m : Bytes) (c : Core) (a : BitVec 64) (k : Nat) : BitVec 8 :=
  cpu.seen m c .fetch (a + BitVec.ofNat 64 k)

/-- The instruction at `%rip`, if all its bytes can be fetched. -/
def fetch (E : Encoding) (m : Bytes) (c : Core) : Option Code :=
  (c.cs.linear c.size c.rip 1).bind fun a =>
    (E.decode c.size (cpu.stream m c a)).filter fun x =>
      (c.cs.linear c.size c.rip x.bytes.length).isSome && cpu.mapped m c .fetch a x.bytes.length

def step (E : Encoding) (m : Bytes) (c : Core) : Option (Core × Bytes) :=
  (cpu.fetch E m c).bind fun x => cpu.exec m c (c.rip + BitVec.ofNat 64 x.bytes.length) x.instr

/-! ## Linear addresses that are physical ones -/

/-- The `n` linear addresses at `a` are physical ones. -/
def Identity (m : Bytes) (c : Core) (use : Use) (a : BitVec 64) (n : Nat) : Prop :=
  ∀ k < n, cpu.translate m c use (a + BitVec.ofNat 64 k) = some (a + BitVec.ofNat 64 k)

variable {cpu} {m : Bytes} {c : Core} {use : Use} {a : BitVec 64} {n : Nat}

theorem Identity.mapped (h : cpu.Identity m c use a n) : cpu.mapped m c use a n = true := by
  unfold Processor.mapped
  rw [List.all_eq_true]
  intro k hk
  rw [h k (List.mem_range.mp hk)]
  rfl

theorem Identity.seen (h : cpu.Identity m c use a n) {k : Nat} (hk : k < n) :
    cpu.seen m c use (a + BitVec.ofNat 64 k) = m (a + BitVec.ofNat 64 k) := by
  unfold Processor.seen
  rw [h k hk]
  rfl

theorem Identity.agree (h : cpu.Identity m c use a n) : Bytes.Agree (cpu.seen m c use) m a a n :=
  .of_nat fun _ hk => h.seen hk

theorem read_of_identity {α : Type} (h : cpu.Identity m c .read a n) (get : Bytes → BitVec 64 → α)
    (hget : get (cpu.seen m c .read) a = get m a) : cpu.read m c a n get = some (get m a) := by
  unfold read
  rw [if_pos h.mapped, hget]

theorem load_of_identity {ok : BitVec 16 → BitVec 64 → Bool} {selector : BitVec 16} {d : BitVec 64}
    (hsel : selector &&& 0xfff8 ≠ 0 ∧ selector &&& 4 = 0 ∧ selector ||| 7 ≤ c.gdtLimit)
    (hread : cpu.Identity m c .read (descriptorAddr c selector) 8)
    (hwrite : cpu.translate m c .write (descriptorAddr c selector + 5) = some (descriptorAddr c selector + 5))
    (hd : m.read64 (descriptorAddr c selector) = d) (hok : ok selector d = true) :
    cpu.load m c ok selector = some (descriptorSegment selector d,
      if bit d 40 = true then m
      else Function.update m (descriptorAddr c selector + 5) (m (descriptorAddr c selector + 5) ||| 1)) := by
  have hdesc : cpu.descriptor m c selector = some d := by
    unfold descriptor
    rw [if_pos hsel, read_of_identity hread _ hread.agree.read64, hd]
  unfold load
  rw [hdesc, Option.bind_some, if_pos hok, markUsed, hwrite]
  split <;> rfl

/-- **The instruction whose bytes are at `%rip` is executed.** -/
theorem step_of_bytes {E : Encoding} {x : Code} (hx : x ∈ E.table) (hsize : c.size = x.size) (hpos : 0 < x.bytes.length)
    (hlin : ∀ k ≤ x.bytes.length, c.cs.linear c.size c.rip k = some a)
    (hid : cpu.Identity m c .fetch a x.bytes.length)
    (hbytes : ∀ k (hk : k < x.bytes.length), m (a + BitVec.ofNat 64 k) = x.bytes[k]) :
    cpu.step E m c = cpu.exec m c (c.rip + BitVec.ofNat 64 x.bytes.length) x.instr := by
  have hahead : x.bytes = Encoding.ahead (cpu.stream m c a) x.bytes.length := by
    refine List.ext_getElem (by simp [Encoding.ahead]) fun k hk hk' => ?_
    simp only [Encoding.ahead, List.getElem_map, List.getElem_range, stream]
    rw [hid.seen hk, hbytes k hk]
  have hdec : E.decode c.size (cpu.stream m c a) = some x := by
    rw [hsize]
    exact E.decode_of_mem hx hahead
  have hfetch : cpu.fetch E m c = some x := by
    unfold fetch
    rw [hlin 1 hpos, Option.bind_some, hdec]
    refine Option.filter_some_pos ?_
    rw [hlin _ le_rfl, hid.mapped]
    rfl
  unfold step
  rw [hfetch, Option.bind_some]

end Processor

end Toshokan.Lib.X86
