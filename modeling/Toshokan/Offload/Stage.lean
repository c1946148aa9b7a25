import Toshokan.Offload.Serial

/-!
# The stages of a request

Who owns the words of `_friend_ctx` changes seven times in a request. `Stage` lists the stages, each with where the
holder of `_lock` and hakase stand, what the buffers hold, the two flag words, and how far the run has got in
`session`.

* `Runs t buf cont out` : `t` is in a straight-line piece that ends at `cont`, and leaves it as `out`;
* `Out` : hakase outside a request, `Serve` : hakase from clearing word 8 to storing word 9;
* `Stage` : the stages of the request of core `i`; `Outside` : a core that does not hold `_lock`;
* `Inv` : the invariant of the whole system.
-/

namespace Toshokan.Offload

variable {ι S H L : Type} [DecidableEq ι]

/-- `t` executes plain instructions that end at `cont`; undisturbed it arrives there as `out`. -/
def Runs (t : Thread S) (buf : JmpBuf) (cont : List Instr) (out : Cpu × JmpBuf) : Prop :=
  ∃ body, t.pc = .asm (body ++ cont) ∧ (body.all Instr.plain = true) ∧ execs body (t.cpu, buf) = out

/-- At the end of the piece, or one plain instruction before it. -/
theorem Runs.inv {t : Thread S} {buf : JmpBuf} {cont : List Instr} {out : Cpu × JmpBuf} (h : Runs t buf cont out) :
    (t.pc = .asm cont ∧ (t.cpu, buf) = out) ∨
    ∃ i rest, t.pc = .asm (i :: rest) ∧ i.plain = true ∧
      Runs ({ t with cpu := (i.exec (t.cpu, buf)).1, pc := .asm rest } : Thread S) (i.exec (t.cpu, buf)).2 cont out := by
  obtain ⟨body, hpc, hall, hout⟩ := h
  cases body with
  | nil => exact .inl ⟨hpc, hout⟩
  | cons i body =>
      rw [List.all_cons, Bool.and_eq_true] at hall
      exact .inr ⟨i, body ++ cont, hpc, hall.1, body, rfl, hall.2, hout⟩

/-- The words 8 (request) and 9 (completion) of `_friend_ctx`. -/
def Flags (o : Offloader) (a b : Word) : Prop := o.friendCtx 8 = a ∧ o.friendCtx 9 = b

/-- In the loop of `toshokan_setjmp_with_wait`. Before the completion is stored its comparison finds zero. -/
def Waiting (t : Thread S) (served : Bool) : Prop :=
  t.cpu.rdi = .friendCtx ∧ (t.pc = .asm waitLoop ∨ t.pc = .asm (waitLoop.drop 1) ∨
    t.pc = .asm (waitLoop.drop 2) ∧ (served = true ∨ t.cpu.zf = true))

/-- Hakase outside a request: between two calls, or in a call that has not taken or has already answered one. -/
inductive Out (t : Thread S) (calls : List (Call ι S)) : Prop
  | next (hpc : t.pc = .next) (hc : Complete calls)
  | test (c : Ctx) (hpc : t.pc = .recvTest) (hctx : t.cpu.ctx = c.called) (hc : Calling calls c [])
  | empty (c : Ctx) (hpc : t.pc = .recvRet false) (hctx : t.cpu.ctx = c.called) (hc : Calling calls c [])
  | one (c : Ctx) (id : Option (ι × Nat)) (s : S) (hpc : t.pc = .recvRet true) (hctx : t.cpu.ctx = c.called)
      (hc : Calling calls c [.exec .hakase id s])

structure View (ι S H L : Type) where
  off : Offloader
  hakase : Thread S
  holder : Thread S
  h : H
  loc : L
  log : List (Event ι S)
  calls : List (Call ι S)

def State.view (st : State ι S H L) (i : ι) : View ι S H L :=
  ⟨st.off, st.hakase, st.friend i, st.h, st.loc i, st.log, st.calls⟩

section Stages
variable (P : Program ι S H L) (σ : Serial ι H L) (i : ι) (s : S)

/-- Hakase serving the request, in a call of `TryReceive` made with the context `c₀`. The indices count the events of
`session` that have happened, and tell whether the block has been executed. -/
inductive Serve (c₀ : Ctx) (o : Offloader) (t : Thread S) : Nat → Bool → Prop
  | clear (hpc : t.pc = .recvClear) (hctx : t.cpu.ctx = c₀.called) (h8 : o.friendCtx 8 = 1)
      (hf : Saved o.friendCtx (σ.before P i).1 (P.addr (.waitRet s))) : Serve c₀ o t 3 false
  | callSet (hpc : t.pc = .recvCallSet) (hctx : t.cpu.ctx = c₀.called) (h8 : o.friendCtx 8 = 0)
      (hf : Saved o.friendCtx (σ.before P i).1 (P.addr (.waitRet s))) : Serve c₀ o t 4 false
  | set (out : Cpu × JmpBuf) (hr : Runs t o.hakaseCtx [.ret] out) (hrdi : t.cpu.rdi = .hakaseCtx)
      (hctx : out.1.ctx = c₀.called.called) (htop : out.1.top = P.addr .recvSetRet) (hrax : out.1.rax = 0)
      (hh : Saved out.2 c₀.called (P.addr .recvSetRet)) (h8 : o.friendCtx 8 = 0)
      (hf : Saved o.friendCtx (σ.before P i).1 (P.addr (.waitRet s))) : Serve c₀ o t 4 false
  | testSet (hpc : t.pc = .recvTestSet) (hctx : t.cpu.ctx = c₀.called) (hrax : t.cpu.rax = 0)
      (hh : Saved o.hakaseCtx c₀.called (P.addr .recvSetRet)) (h8 : o.friendCtx 8 = 0)
      (hf : Saved o.friendCtx (σ.before P i).1 (P.addr (.waitRet s))) : Serve c₀ o t 4 false
  | callLong (hpc : t.pc = .recvCallLong)
      (hh : Saved o.hakaseCtx c₀.called (P.addr .recvSetRet)) (h8 : o.friendCtx 8 = 0)
      (hf : Saved o.friendCtx (σ.before P i).1 (P.addr (.waitRet s))) : Serve c₀ o t 4 false
  | jump (out : Cpu × JmpBuf) (hr : Runs t o.friendCtx [.ret] out) (hrdi : t.cpu.rdi = .friendCtx)
      (hctx : out.1.ctx = (σ.before P i).1.called) (htop : out.1.top = P.addr (.waitRet s)) (hrax : out.1.rax = 1)
      (hh : Saved o.hakaseCtx c₀.called (P.addr .recvSetRet)) (h8 : o.friendCtx 8 = 0) : Serve c₀ o t 4 false
  | testWait (hpc : t.pc = .testWait s) (hctx : t.cpu.ctx = (σ.before P i).1) (hrax : t.cpu.rax = 1)
      (hrip : t.cpu.rip = P.addr (.waitRet s)) (hh : Saved o.hakaseCtx c₀.called (P.addr .recvSetRet))
      (h8 : o.friendCtx 8 = 0) : Serve c₀ o t 4 false
  | block (hpc : t.pc = .block s) (hctx : t.cpu.ctx = (σ.before P i).1)
      (hh : Saved o.hakaseCtx c₀.called (P.addr .recvSetRet)) (h8 : o.friendCtx 8 = 0) : Serve c₀ o t 5 false
  | callSet' (hpc : t.pc = .callSet s) (hctx : t.cpu.ctx = (σ.after P i s).2.1)
      (hh : Saved o.hakaseCtx c₀.called (P.addr .recvSetRet)) (h8 : o.friendCtx 8 = 0) : Serve c₀ o t 6 true
  | set' (out : Cpu × JmpBuf) (hr : Runs t o.friendCtx [.ret] out) (hrdi : t.cpu.rdi = .friendCtx)
      (htop : out.1.top = P.addr (.setRet s)) (hrax : out.1.rax = 0)
      (hf : Saved out.2 (σ.after P i s).2.1 (P.addr (.setRet s)))
      (hh : Saved o.hakaseCtx c₀.called (P.addr .recvSetRet)) (h8 : o.friendCtx 8 = 0) : Serve c₀ o t 7 true
  | testSet' (hpc : t.pc = .testSet s) (hrax : t.cpu.rax = 0)
      (hf : Saved o.friendCtx (σ.after P i s).2.1 (P.addr (.setRet s)))
      (hh : Saved o.hakaseCtx c₀.called (P.addr .recvSetRet)) (h8 : o.friendCtx 8 = 0) : Serve c₀ o t 7 true
  | callLong' (hpc : t.pc = .callLong s) (hf : Saved o.friendCtx (σ.after P i s).2.1 (P.addr (.setRet s)))
      (hh : Saved o.hakaseCtx c₀.called (P.addr .recvSetRet)) (h8 : o.friendCtx 8 = 0) : Serve c₀ o t 7 true
  | jump' (out : Cpu × JmpBuf) (hr : Runs t o.hakaseCtx [.ret] out) (hrdi : t.cpu.rdi = .hakaseCtx)
      (hctx : out.1.ctx = c₀.called.called) (htop : out.1.top = P.addr .recvSetRet) (hrax : out.1.rax = 1)
      (hf : Saved o.friendCtx (σ.after P i s).2.1 (P.addr (.setRet s))) (h8 : o.friendCtx 8 = 0) : Serve c₀ o t 7 true
  | testSet'' (hpc : t.pc = .recvTestSet) (hctx : t.cpu.ctx = c₀.called) (hrax : t.cpu.rax = 1)
      (hf : Saved o.friendCtx (σ.after P i s).2.1 (P.addr (.setRet s))) (h8 : o.friendCtx 8 = 0) : Serve c₀ o t 7 true
  | answer (hpc : t.pc = .recvAnswer) (hctx : t.cpu.ctx = c₀.called)
      (hf : Saved o.friendCtx (σ.after P i s).2.1 (P.addr (.setRet s))) (h8 : o.friendCtx 8 = 0) : Serve c₀ o t 7 true

/-- The data before the block (`false`) and after it (`true`). -/
def Data (v : View ι S H L) : Bool → Prop
  | false => v.h = σ.h ∧ v.loc = (σ.before P i).2
  | true => v.h = (σ.after P i s).1 ∧ v.loc = (σ.after P i s).2.2

/-- What the call of `TryReceive` has recorded before the block and after it. -/
def ran : Bool → List (Call ι S)
  | false => []
  | true => [.exec .hakase (some (i, σ.count i)) s]

/-- The stages of the request of core `i` at the call site `s`, after the log `base`. -/
inductive Stage (base : List (Event ι S)) (v : View ι S H L) : Prop
  | entered (hpc : v.holder.pc = .callWait s) (hctx : v.holder.cpu.ctx = (σ.before P i).1) (hw : Flags v.off 0 0)
      (ho : Out v.hakase v.calls) (hd : Data P σ i s v false) (hl : v.log = base ++ (session P σ i s).take 1)
  | saving (out : Cpu × JmpBuf) (hr : Runs v.holder v.off.friendCtx (.storeImm 1 8 :: waitLoop) out)
      (hrdi : v.holder.cpu.rdi = .friendCtx) (hf : Saved out.2 (σ.before P i).1 (P.addr (.waitRet s)))
      (hw : Flags v.off 0 0) (ho : Out v.hakase v.calls) (hd : Data P σ i s v false)
      (hl : v.log = base ++ (session P σ i s).take 2)
  | posted (ht : Waiting v.holder false) (hf : Saved v.off.friendCtx (σ.before P i).1 (P.addr (.waitRet s)))
      (hw : Flags v.off 1 0) (ho : Out v.hakase v.calls) (hd : Data P σ i s v false)
      (hl : v.log = base ++ (session P σ i s).take 3)
  | serving (c₀ : Ctx) (k : Nat) (b : Bool) (hs : Serve P σ i s c₀ v.off v.hakase k b) (ht : Waiting v.holder false)
      (h9 : v.off.friendCtx 9 = 0) (hd : Data P σ i s v b) (hl : v.log = base ++ (session P σ i s).take k)
      (hc : Calling v.calls c₀ (ran σ i s b))
  | served (ht : Waiting v.holder true) (hf : Saved v.off.friendCtx (σ.after P i s).2.1 (P.addr (.setRet s)))
      (hw : Flags v.off 0 1) (ho : Out v.hakase v.calls) (hd : Data P σ i s v true)
      (hl : v.log = base ++ (session P σ i s).take 8)
  | loading (out : Cpu × JmpBuf) (hr : Runs v.holder v.off.friendCtx [.storeImm 0 9, .movImm 1, .ret] out)
      (hrdi : v.holder.cpu.rdi = .friendCtx) (hctx : out.1.ctx = (σ.after P i s).2.1.called)
      (htop : out.1.top = P.addr (.setRet s)) (hw : Flags v.off 0 1) (ho : Out v.hakase v.calls)
      (hd : Data P σ i s v true) (hl : v.log = base ++ (session P σ i s).take 8)
  | cleared (out : Cpu × JmpBuf) (hr : Runs v.holder v.off.friendCtx [.ret] out)
      (hrdi : v.holder.cpu.rdi = .friendCtx) (hctx : out.1.ctx = (σ.after P i s).2.1.called)
      (htop : out.1.top = P.addr (.setRet s)) (hrax : out.1.rax = 1) (hw : Flags v.off 0 0)
      (ho : Out v.hakase v.calls) (hd : Data P σ i s v true) (hl : v.log = base ++ (session P σ i s).take 8)
  | resumed (hpc : v.holder.pc = .testSet s) (hctx : v.holder.cpu.ctx = (σ.after P i s).2.1)
      (hrax : v.holder.cpu.rax = 1) (hrip : v.holder.cpu.rip = P.addr (.setRet s)) (hw : Flags v.off 0 0)
      (ho : Out v.hakase v.calls) (hd : Data P σ i s v true) (hl : v.log = base ++ (session P σ i s).take 8)
  | unlocking (hpc : v.holder.pc = .unlock s) (hctx : v.holder.cpu.ctx = (σ.after P i s).2.1) (hw : Flags v.off 0 0)
      (ho : Out v.hakase v.calls) (hd : Data P σ i s v true) (hl : v.log = base ++ (session P σ i s).take 9)

/-- Core `i` holds `_lock` for its next `_OFFLOAD`. -/
structure Held (base : List (Event ι S)) (v : View ι S H L) : Prop where
  lock : v.off.lock = 1
  done : v.holder.done = σ.count i
  site : (P.prog i)[σ.count i]? = some s
  stage : Stage P σ i s base v

/-- Core `i` does not hold `_lock`: between two `_OFFLOAD`s or trying to acquire it. -/
inductive Outside (t : Thread S) (l : L) : Prop
  | next (hpc : t.pc = .next) (hd : t.done = σ.count i) (hctx : t.cpu.ctx = σ.ctx i) (hl : l = σ.loc i)
  | trying (s : S) (hpc : t.pc = .lockTest s ∨ t.pc = .lockCas s ∨ t.pc = .lockPause s) (hd : t.done = σ.count i)
      (hs : (P.prog i)[σ.count i]? = some s) (hctx : t.cpu.ctx = (σ.before P i).1) (hl : l = (σ.before P i).2)

structure Free (base : List (Event ι S)) (st : State ι S H L) : Prop where
  lock : st.off.lock = 0
  flags : Flags st.off 0 0
  out : Out st.hakase st.calls
  data : st.h = σ.h
  log : st.log = base
  cores : ∀ k, Outside P σ k (st.friend k) (st.loc k)

end Stages

/-- **The invariant**: the requests `rs` are over and their effect is that of running them one after another, and
either `_lock` is free or one core is at some stage of its next request. -/
def Inv (P : Program ι S H L) (h : H) (loc : ι → L) (st : State ι S H L) : Prop :=
  ∃ rs, let σ := (Serial.init P h loc).runs P rs
    let base := sessions P (Serial.init P h loc) rs
    (∀ i, sitesOf i rs = (P.prog i).take (σ.count i) ∧ σ.count i ≤ (P.prog i).length) ∧
    (Free P σ base st ∨
      ∃ i s, Held P σ i s base (st.view i) ∧ ∀ k, k ≠ i → Outside P σ k (st.friend k) (st.loc k))

end Toshokan.Offload
