import Mathlib.Data.BitVec
import Mathlib.Logic.Function.Basic
import Mathlib.Order.Basic

/-!
# `common/offload.S`: saving and resuming a context

The three routines of `offload.S` as instruction lists over the registers they touch and the `toshokan_jmp_buf` that
`%rdi` points to.

* `Ctx` : the callee-saved registers and `%rsp`, what a context is; `Cpu` : the register file of one core;
* `Instr.exec` : one straight-line instruction (`je` and `ret` move control, so the caller of `exec` steps them);
* `toshokanSetjmp`, `toshokanSetjmpWithWait`, `toshokanLongjmp` : the routines, line by line;
* `Saved buf c ret` : words 0-7 of `buf` hold the context `c` with return point `ret`; `execs_saveRegs`,
  `execs_restoreRegs` : what the two straight-line halves do.
-/

namespace Toshokan.Offload

abbrev Word := BitVec 64

/-- `toshokan_jmp_buf`: `size_t[10]`. -/
abbrev JmpBuf := Fin 10 → Word

-- Without a name for it the numerals of `Fin 10` have a proof of their own in each module that uses them.
instance neZero_ten : NeZero 10 := ⟨by decide⟩

/-- The registers a call preserves, and `%rsp`. -/
structure Ctx where
  rbx : Word
  rbp : Word
  r12 : Word
  r13 : Word
  r14 : Word
  r15 : Word
  rsp : Word
  deriving DecidableEq, Repr

/-- The two buffers of an `Offloader`. -/
inductive Buf
  | friendCtx
  | hakaseCtx
  deriving DecidableEq, Repr

/-- The register file of a core. `rdi` is the buffer a routine was called on, `top` the doubleword at `(%rsp)` (the
return address, inside a routine), `rip` the address the last `ret` went to. -/
structure Cpu where
  ctx : Ctx
  rax : Word
  rsi : Word
  rdi : Buf
  rip : Word
  top : Word
  zf : Bool
  deriving DecidableEq, Repr

/-- The registers `offload.S` moves to and from memory. -/
inductive Reg
  | rbx | rbp | r12 | r13 | r14 | r15 | rsp | rax
  deriving DecidableEq, Repr

/-- The instructions of `offload.S`; `k` is the word at `8 * k (%rdi)`. -/
inductive Instr
  | store (r : Reg) (k : Fin 10)
  | storeImm (v : Word) (k : Fin 10)
  | load (k : Fin 10) (r : Reg)
  | push (k : Fin 10)
  | leaRsp
  | loadTop
  | movImm (v : Word)
  | movRsi
  | pause
  | cmpZero (k : Fin 10)
  | je
  | ret
  deriving DecidableEq, Repr

def Cpu.get (cpu : Cpu) : Reg → Word
  | .rbx => cpu.ctx.rbx
  | .rbp => cpu.ctx.rbp
  | .r12 => cpu.ctx.r12
  | .r13 => cpu.ctx.r13
  | .r14 => cpu.ctx.r14
  | .r15 => cpu.ctx.r15
  | .rsp => cpu.ctx.rsp
  | .rax => cpu.rax

def Cpu.set (cpu : Cpu) : Reg → Word → Cpu
  | .rbx, v => { cpu with ctx := { cpu.ctx with rbx := v } }
  | .rbp, v => { cpu with ctx := { cpu.ctx with rbp := v } }
  | .r12, v => { cpu with ctx := { cpu.ctx with r12 := v } }
  | .r13, v => { cpu with ctx := { cpu.ctx with r13 := v } }
  | .r14, v => { cpu with ctx := { cpu.ctx with r14 := v } }
  | .r15, v => { cpu with ctx := { cpu.ctx with r15 := v } }
  | .rsp, v => { cpu with ctx := { cpu.ctx with rsp := v } }
  | .rax, v => { cpu with rax := v }

def Instr.exec : Instr → Cpu × JmpBuf → Cpu × JmpBuf
  | .store r k, (cpu, buf) => (cpu, Function.update buf k (cpu.get r))
  | .storeImm v k, (cpu, buf) => (cpu, Function.update buf k v)
  | .load k r, (cpu, buf) => (cpu.set r (buf k), buf)
  | .push k, (cpu, buf) => ({ cpu with ctx.rsp := cpu.ctx.rsp - 8, top := buf k }, buf)
  | .leaRsp, (cpu, buf) => ({ cpu with rax := cpu.ctx.rsp + 8 }, buf)
  | .loadTop, (cpu, buf) => ({ cpu with rax := cpu.top }, buf)
  | .movImm v, (cpu, buf) => ({ cpu with rax := v }, buf)
  | .movRsi, (cpu, buf) => ({ cpu with rax := cpu.rsi }, buf)
  | .cmpZero k, (cpu, buf) => ({ cpu with zf := buf k == 0 }, buf)
  | .pause, x | .je, x | .ret, x => x

/-- Neither moves control nor stores to the flag words 8 and 9. -/
def Instr.plain : Instr → Bool
  | .store _ k => k < 8
  | .storeImm _ _ | .je | .ret => false
  | _ => true

theorem Instr.exec_rdi (i : Instr) (x : Cpu × JmpBuf) : (i.exec x).1.rdi = x.1.rdi := by
  obtain ⟨cpu, buf⟩ := x
  cases i with
  | load k r => cases r <;> rfl
  | _ => rfl

theorem Instr.exec_flag {i : Instr} (hi : i.plain = true) {k : Fin 10} (hk : 8 ≤ k) (x : Cpu × JmpBuf) :
    (i.exec x).2 k = x.2 k := by
  obtain ⟨cpu, buf⟩ := x
  cases i with
  | store r j =>
      have hj : j < 8 := of_decide_eq_true hi
      exact Function.update_of_ne (by rintro rfl; omega) _ _
  | storeImm v j => exact absurd hi Bool.false_ne_true
  | _ => rfl

def execs (is : List Instr) (x : Cpu × JmpBuf) : Cpu × JmpBuf := is.foldl (fun x i => i.exec x) x

@[simp] theorem execs_nil (x : Cpu × JmpBuf) : execs [] x = x := rfl

@[simp] theorem execs_cons (i : Instr) (is : List Instr) (x : Cpu × JmpBuf) :
    execs (i :: is) x = execs is (i.exec x) := rfl

/-! ## The routines -/

def toshokanSetjmp : List Instr :=
  [.store .rbx 0, .store .rbp 1, .store .r12 2, .store .r13 3, .store .r14 4, .store .r15 5,
    .leaRsp, .store .rax 6, .loadTop, .store .rax 7, .movImm 0, .ret]

/-- From the label `1:` on; `je` jumps back here. -/
def waitLoop : List Instr :=
  [.pause, .cmpZero 9, .je,
    .load 1 .rbp, .load 6 .rsp, .push 7, .load 0 .rbx, .load 2 .r12, .load 3 .r13, .load 4 .r14, .load 5 .r15,
    .storeImm 0 9, .movImm 1, .ret]

def toshokanSetjmpWithWait : List Instr :=
  [.store .rbx 0, .store .rbp 1, .store .r12 2, .store .r13 3, .store .r14 4, .store .r15 5,
    .leaRsp, .store .rax 6, .loadTop, .store .rax 7, .storeImm 1 8] ++ waitLoop

def toshokanLongjmp : List Instr :=
  [.movRsi, .load 1 .rbp, .load 6 .rsp, .push 7, .load 0 .rbx, .load 2 .r12, .load 3 .r13, .load 4 .r14,
    .load 5 .r15, .ret]

/-! ## Their straight-line halves -/

def saveRegs : List Instr :=
  [.store .rbx 0, .store .rbp 1, .store .r12 2, .store .r13 3, .store .r14 4, .store .r15 5,
    .leaRsp, .store .rax 6, .loadTop, .store .rax 7]

def restoreRegs : List Instr :=
  [.load 1 .rbp, .load 6 .rsp, .push 7, .load 0 .rbx, .load 2 .r12, .load 3 .r13, .load 4 .r14, .load 5 .r15]

/-- Words 0-7 hold the context `c` and the return point `ret`. -/
structure Saved (buf : JmpBuf) (c : Ctx) (ret : Word) : Prop where
  rbx : buf 0 = c.rbx
  rbp : buf 1 = c.rbp
  r12 : buf 2 = c.r12
  r13 : buf 3 = c.r13
  r14 : buf 4 = c.r14
  r15 : buf 5 = c.r15
  rsp : buf 6 = c.rsp
  rip : buf 7 = ret

/-- The context as it stands inside a routine, the return address pushed. -/
def Ctx.called (c : Ctx) : Ctx := { c with rsp := c.rsp - 8 }

def Ctx.returned (c : Ctx) : Ctx := { c with rsp := c.rsp + 8 }

@[simp] theorem Ctx.returned_called (c : Ctx) : c.called.returned = c := by
  simp only [called, returned, BitVec.sub_add_cancel]

theorem Saved.congr {buf buf' : JmpBuf} {c : Ctx} {ret : Word} (h : Saved buf c ret)
    (he : ∀ k : Fin 10, k < 8 → buf' k = buf k) : Saved buf' c ret := by
  obtain ⟨h0, h1, h2, h3, h4, h5, h6, h7⟩ := h
  constructor <;> rw [he _ (by decide)] <;> assumption

theorem Saved.update {buf : JmpBuf} {c : Ctx} {ret : Word} (h : Saved buf c ret) {k : Fin 10} (hk : 8 ≤ k)
    (v : Word) : Saved (Function.update buf k v) c ret := by
  refine h.congr fun j hj => ?_
  have hne : j ≠ k := by rintro rfl; omega
  exact Function.update_of_ne hne _ _

/-- **The saving half** stores the caller's context (the registers as they are after the return) and its return
point, and touches no other word. -/
theorem execs_saveRegs (cpu : Cpu) (buf : JmpBuf) (c : Ctx) (hc : cpu.ctx = c.called) :
    ∃ buf', execs saveRegs (cpu, buf) = ({ cpu with rax := cpu.top }, buf') ∧ Saved buf' c cpu.top ∧
      buf' 8 = buf 8 ∧ buf' 9 = buf 9 := by
  refine ⟨_, rfl, ?_, rfl, rfl⟩
  have hrsp : cpu.ctx.rsp + 8 = c.rsp := by rw [hc, Ctx.called, BitVec.sub_add_cancel]
  have hregs : ∀ r : Reg, r ≠ .rsp → cpu.get r = ({ cpu with ctx := c } : Cpu).get r := by
    intro r hr
    cases r with
    | rsp => exact absurd rfl hr
    | _ => simp only [Cpu.get, hc, Ctx.called]
  exact ⟨hregs .rbx nofun, hregs .rbp nofun, hregs .r12 nofun, hregs .r13 nofun, hregs .r14 nofun,
    hregs .r15 nofun, hrsp, rfl⟩

/-- **The restoring half** loads a saved context and pushes its return point. -/
theorem execs_restoreRegs (cpu : Cpu) (buf : JmpBuf) (c : Ctx) (ret : Word) (h : Saved buf c ret) :
    execs restoreRegs (cpu, buf) = ({ cpu with ctx := c.called, top := ret }, buf) := by
  obtain ⟨h0, h1, h2, h3, h4, h5, h6, h7⟩ := h
  simp [restoreRegs, Instr.exec, Cpu.set, Ctx.called, h0, h1, h2, h3, h4, h5, h6, h7]

end Toshokan.Offload
