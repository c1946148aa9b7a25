import Toshokan.Lib.Sched
import Toshokan.Offload.Asm

/-!
# `common/offload.h`: friend cores, hakase and one `Offloader`

The friend cores run `_OFFLOAD(c, code)` blocks, hakase polls `TryReceive`, and control passes from one to the other
through the two buffers. What a party does next is decided by its own registers and by the shared words alone: after a
`ret` it continues wherever the popped address points, be it hakase in the middle of a friend's `_OFFLOAD` or the
other way round.

* `Label` : the return points of the calls to `offload.S`; `Program` : the linked program, its call sites with the
  code blocks, where they lie, and which core's stack an address belongs to;
* `Pc` : where a party stands in `_OFFLOAD`, in `TryReceive` or in a routine;
* `step` : one step of one party. Reads and writes of `_lock` and of each buffer word are steps of their own;
* `Event`, `Call` : what the run records for its specification (no step reads them).
-/

namespace Toshokan.Offload

/-- Who executes: hakase's thread, or a friend core. -/
inductive Party (ι : Type)
  | hakase
  | friend (i : ι)
  deriving DecidableEq

/-- Return addresses: of the calls in `_OFFLOAD` at the call site `s`, and of those in `TryReceive`. -/
inductive Label (S : Type)
  | waitRet (s : S)
  | setRet (s : S)
  | longRet (s : S)
  | recvSetRet
  | recvLongRet
  deriving DecidableEq

/-- A friend binary and a hakase binary linked together: `S` are the call sites of `_OFFLOAD`, `H` is the state of
hakase and `L` the local state of a core. -/
structure Program (ι S H L : Type) where
  addr : Label S → Word
  decode : Word → Option (Label S)
  decode_addr : ∀ l, decode (addr l) = some l
  /-- The core in whose stack an address lies. -/
  owner : Word → Option ι
  /-- The `_OFFLOAD`s core `i` executes, in order. -/
  prog : ι → List S
  /-- What core `i` does by itself before its `n`-th `_OFFLOAD`. -/
  own : ι → Nat → Ctx → L → Ctx × L
  /-- The block of a call site: it runs on the registers and the stack it is entered with. -/
  code : S → H → Ctx → L → H × Ctx × L
  /-- The registers of hakase at its `n`-th call of `TryReceive`. -/
  poll : Nat → Ctx
  /-- The registers of core `i` at the start. -/
  ctx₀ : ι → Ctx
  owner_ctx₀ : ∀ i, owner (ctx₀ i).rsp = some i
  owner_own : ∀ i n c l, owner c.rsp = some i → owner (own i n c l).1.rsp = some i
  code_rsp : ∀ s h c l, (code s h c l).2.1.rsp = c.rsp

inductive Pc (S : Type)
  /-- Between two `_OFFLOAD`s; for hakase, between two calls of `TryReceive`. -/
  | next
  | lockTest (s : S)
  | lockCas (s : S)
  | lockPause (s : S)
  | callWait (s : S)
  | testWait (s : S)
  | block (s : S)
  | callSet (s : S)
  | testSet (s : S)
  | callLong (s : S)
  | unlock (s : S)
  | recvTest
  | recvClear
  | recvCallSet
  | recvTestSet
  | recvCallLong
  | recvAnswer
  | recvRet (b : Bool)
  /-- Inside a routine of `offload.S`, with these instructions ahead. -/
  | asm (rest : List Instr)
  /-- After a `ret` to an address that is no return point. -/
  | lost
  deriving DecidableEq

/-- A party: `done` counts its finished `_OFFLOAD`s (for hakase, its calls of `TryReceive`). -/
structure Thread (S : Type) where
  cpu : Cpu
  pc : Pc S
  done : Nat

structure Offloader where
  friendCtx : JmpBuf
  hakaseCtx : JmpBuf
  lock : BitVec 32

def Offloader.buf (o : Offloader) : Buf → JmpBuf
  | .friendCtx => o.friendCtx
  | .hakaseCtx => o.hakaseCtx

def Offloader.setBuf (o : Offloader) : Buf → JmpBuf → Offloader
  | .friendCtx, b => { o with friendCtx := b }
  | .hakaseCtx, b => { o with hakaseCtx := b }

/-- The steps of a request. `id` is the request: the core whose stack the party runs on and the number of that core's
`_OFFLOAD`; `c` is the context at that point, `a` the return point. -/
inductive Event (ι S : Type)
  | acquire (p : Party ι) (id : Option (ι × Nat)) (s : S)
  | save (p : Party ι) (id : Option (ι × Nat)) (s : S) (c : Ctx) (a : Word)
  | post (p : Party ι)
  | take (p : Party ι)
  | start (p : Party ι) (id : Option (ι × Nat)) (s : S) (c : Ctx) (a : Word)
  | exec (p : Party ι) (id : Option (ι × Nat)) (s : S)
  | finish (p : Party ι) (id : Option (ι × Nat)) (s : S) (c : Ctx) (a : Word)
  | answer (p : Party ι)
  | resume (p : Party ι) (id : Option (ι × Nat)) (s : S) (c : Ctx) (a : Word) (rax : Word)
  | release (p : Party ι) (id : Option (ι × Nat)) (s : S)
  deriving DecidableEq

/-- The calls of `TryReceive` and the blocks executed. -/
inductive Call (ι S : Type)
  | enter (p : Party ι) (c : Ctx)
  | exec (p : Party ι) (id : Option (ι × Nat)) (s : S)
  | leave (p : Party ι) (c : Ctx) (b : Bool)
  deriving DecidableEq

structure State (ι S H L : Type) where
  off : Offloader
  hakase : Thread S
  friend : ι → Thread S
  h : H
  loc : ι → L
  log : List (Event ι S)
  calls : List (Call ι S)

variable {ι S H L : Type} [DecidableEq ι]

namespace State

def thread (st : State ι S H L) : Party ι → Thread S
  | .hakase => st.hakase
  | .friend i => st.friend i

def setThread (st : State ι S H L) : Party ι → Thread S → State ι S H L
  | .hakase, t => { st with hakase := t }
  | .friend i, t => { st with friend := Function.update st.friend i t }

def goto (st : State ι S H L) (p : Party ι) (pc : Pc S) : State ι S H L :=
  st.setThread p { st.thread p with pc := pc }

def emit (st : State ι S H L) (e : Event ι S) : State ι S H L := { st with log := st.log ++ [e] }

def record (st : State ι S H L) (e : Call ι S) : State ι S H L := { st with calls := st.calls ++ [e] }

end State

/-- `call routine(buf)` with the return address `ret`. -/
def Thread.call (t : Thread S) (routine : List Instr) (buf : Buf) (ret : Word) : Thread S :=
  { t with cpu := { t.cpu with ctx := t.cpu.ctx.called, top := ret, rdi := buf }, pc := .asm routine }

/-- `call toshokan_longjmp(buf, 1)`. -/
def Thread.callLongjmp (t : Thread S) (buf : Buf) (ret : Word) : Thread S :=
  { t with cpu := { t.cpu with ctx := t.cpu.ctx.called, top := ret, rdi := buf, rsi := 1 }, pc := .asm toshokanLongjmp }

def Cpu.eax (cpu : Cpu) : BitVec 32 := cpu.rax.setWidth 32

namespace Program

variable (P : Program ι S H L)

/-- What follows the call that returns to `a`. -/
def landing (a : Word) : Pc S :=
  match P.decode a with
  | some (.waitRet s) => .testWait s
  | some (.setRet s) => .testSet s
  | some (.longRet s) => .unlock s
  | some .recvSetRet => .recvTestSet
  | some .recvLongRet => .recvRet true
  | none => .lost

/-- The request that runs on the stack at `rsp`. -/
def request (st : State ι S H L) (rsp : Word) : Option (ι × Nat) :=
  (P.owner rsp).map fun i => (i, (st.friend i).done)

/-- Leaving the gap between two `_OFFLOAD`s, or between two calls of `TryReceive`. -/
def stepNext (st : State ι S H L) : Party ι → State ι S H L
  | .hakase =>
      let c := P.poll st.hakase.done
      let cpu := { st.hakase.cpu with ctx := c.called }
      { st with hakase := ⟨cpu, .recvTest, st.hakase.done + 1⟩, calls := st.calls ++ [.enter .hakase c] }
  | .friend i =>
      let t := st.friend i
      match (P.prog i)[t.done]? with
      | none => st
      | some s =>
          let x := P.own i t.done t.cpu.ctx (st.loc i)
          { st with
            friend := Function.update st.friend i { t with cpu := { t.cpu with ctx := x.1 }, pc := .lockTest s }
            loc := Function.update st.loc i x.2 }

/-- The block at the call site `s`, by whoever stands there, on the stack its `%rsp` points into. -/
def stepBlock (st : State ι S H L) (p : Party ι) (s : S) : State ι S H L :=
  let t := st.thread p
  match P.owner t.cpu.ctx.rsp with
  | none => st.goto p .lost
  | some i =>
      let y := P.code s st.h t.cpu.ctx (st.loc i)
      let st' := st.setThread p { t with cpu := { t.cpu with ctx := y.2.1 }, pc := .callSet s }
      let id := P.request st t.cpu.ctx.rsp
      { st' with
        h := y.1
        loc := Function.update st.loc i y.2.2
        log := st.log ++ [.exec p id s]
        calls := st.calls ++ [.exec p id s] }

/-- One instruction of `offload.S`. -/
def stepAsm (st : State ι S H L) (p : Party ι) : List Instr → State ι S H L
  | [] => st.goto p .lost
  | .ret :: _ =>
      let t := st.thread p
      st.setThread p
        { t with cpu := { t.cpu with ctx := t.cpu.ctx.returned, rip := t.cpu.top }, pc := P.landing t.cpu.top }
  | .je :: rest => st.goto p (.asm (if (st.thread p).cpu.zf then waitLoop else rest))
  | i :: rest =>
      let t := st.thread p
      let x := i.exec (t.cpu, st.off.buf t.cpu.rdi)
      let st' := { st with off := st.off.setBuf t.cpu.rdi x.2 }.setThread p { t with cpu := x.1, pc := .asm rest }
      if i = .storeImm 1 8 then st'.emit (.post p) else st'

def stepAt (st : State ι S H L) (p : Party ι) : Pc S → State ι S H L
  | .next => P.stepNext st p
  -- _OFFLOAD(c, code)
  | .lockTest s => st.goto p (if st.off.lock ≠ 0 then .lockPause s else .lockCas s)
  | .lockPause s => st.goto p (.lockTest s)
  | .lockCas s =>
      if st.off.lock = 0 then
        ({ st with off := { st.off with lock := 1 } }.goto p (.callWait s)).emit
          (.acquire p (P.request st (st.thread p).cpu.ctx.rsp) s)
      else st.goto p (.lockPause s)
  | .callWait s =>
      let t := st.thread p
      let a := P.addr (.waitRet s)
      (st.setThread p (t.call toshokanSetjmpWithWait .friendCtx a)).emit
        (.save p (P.request st t.cpu.ctx.rsp) s t.cpu.ctx a)
  | .testWait s =>
      let t := st.thread p
      if t.cpu.eax ≠ 0 then
        (st.goto p (.block s)).emit (.start p (P.request st t.cpu.ctx.rsp) s t.cpu.ctx t.cpu.rip)
      else st.goto p (.unlock s)
  | .block s => P.stepBlock st p s
  | .callSet s =>
      let t := st.thread p
      let a := P.addr (.setRet s)
      (st.setThread p (t.call toshokanSetjmp .friendCtx a)).emit (.finish p (P.request st t.cpu.ctx.rsp) s t.cpu.ctx a)
  | .testSet s =>
      let t := st.thread p
      if t.cpu.eax = 0 then st.goto p (.callLong s)
      else
        (st.goto p (.unlock s)).emit (.resume p (P.request st t.cpu.ctx.rsp) s t.cpu.ctx t.cpu.rip t.cpu.rax)
  | .callLong s => st.setThread p ((st.thread p).callLongjmp .hakaseCtx (P.addr (.longRet s)))
  | .unlock s =>
      let t := st.thread p
      ({ st with off := { st.off with lock := 0 } }.setThread p { t with pc := .next, done := t.done + 1 }).emit
        (.release p (P.request st t.cpu.ctx.rsp) s)
  -- Offloader::TryReceive
  | .recvTest => st.goto p (if st.off.friendCtx 8 = 0 then .recvRet false else .recvClear)
  | .recvClear =>
      ({ st with off := { st.off with friendCtx := Function.update st.off.friendCtx 8 0 } }.goto p .recvCallSet).emit
        (.take p)
  | .recvCallSet => st.setThread p ((st.thread p).call toshokanSetjmp .hakaseCtx (P.addr .recvSetRet))
  | .recvTestSet => st.goto p (if (st.thread p).cpu.eax = 0 then .recvCallLong else .recvAnswer)
  | .recvCallLong => st.setThread p ((st.thread p).callLongjmp .friendCtx (P.addr .recvLongRet))
  | .recvAnswer =>
      ({ st with off := { st.off with friendCtx := Function.update st.off.friendCtx 9 1 } }.goto p (.recvRet true)).emit
        (.answer p)
  | .recvRet b =>
      let t := st.thread p
      (st.setThread p { t with cpu := { t.cpu with ctx := t.cpu.ctx.returned }, pc := .next }).record
        (.leave p t.cpu.ctx.returned b)
  -- common/offload.S
  | .asm rest => P.stepAsm st p rest
  | .lost => st

def step (st : State ι S H L) (p : Party ι) : State ι S H L := P.stepAt st p (st.thread p).pc

theorem step_eq {st : State ι S H L} {p : Party ι} {pc : Pc S} (h : (st.thread p).pc = pc) :
    P.step st p = P.stepAt st p pc := by
  rw [step, h]

/-- The start: a zero-initialised `Offloader`, nobody in a request. Registers that no code has set yet are zero. -/
def init (h : H) (loc : ι → L) : State ι S H L :=
  let cpu (c : Ctx) : Cpu := { ctx := c, rax := 0, rsi := 0, rdi := .friendCtx, rip := 0, top := 0, zf := false }
  { off := { friendCtx := fun _ => 0, hakaseCtx := fun _ => 0, lock := 0 }
    hakase := ⟨cpu (P.poll 0), .next, 0⟩
    friend := fun i => ⟨cpu (P.ctx₀ i), .next, 0⟩
    h := h
    loc := loc
    log := []
    calls := [] }

end Program

end Toshokan.Offload
