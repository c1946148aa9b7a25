import Toshokan.Lib.Bytes
import Toshokan.Offload.Asm

/-!
# `common/offload.S` in memory

The same instructions on a machine with one memory, where `%rdi` points to a buffer and `%rsp` into a stack. A store may
hit the return address there, and a push the buffer.

* `Flat` : registers and memory; `Instr.run`, `runs` : the instructions;
* `Flat.view` : the registers and the buffer as `Instr.exec` has them; `view_runs`, `view_restoreRegs` : a buffer apart from
  the stack slot in use is handled as there;
* `Save`, `Restore` : the two routines that save a context and the two that resume it, with the bytes they write;
* `save_then_restore` : what any of the first saves, any of the second resumes.
-/

namespace Toshokan.Offload
open Lib (Bytes Range)

structure Flat where
  regs : Reg → Word
  rsi : Word
  rdi : Word
  rip : Word
  zf : Bool
  mem : Bytes

def slot (env : Word) (k : Fin 10) : Word := env + BitVec.ofNat 64 (8 * k)

namespace Flat

/-- The word at `8 * k (%rdi)`. -/
def word (m : Flat) (k : Fin 10) : Word := m.mem.read64 (slot m.rdi k)

/-- The doubleword at `(%rsp)`. -/
def top (m : Flat) : Word := m.mem.read64 (m.regs .rsp)

def set (m : Flat) (r : Reg) (v : Word) : Flat := { m with regs := Function.update m.regs r v }

def write (m : Flat) (a v : Word) : Flat := { m with mem := m.mem.write64 a v }

def ctx (m : Flat) : Ctx :=
  ⟨m.regs .rbx, m.regs .rbp, m.regs .r12, m.regs .r13, m.regs .r14, m.regs .r15, m.regs .rsp⟩

end Flat

/-- One instruction; `je` is left to the code around it. -/
def Instr.run : Instr → Flat → Flat
  | .store r k, m => m.write (slot m.rdi k) (m.regs r)
  | .storeImm v k, m => m.write (slot m.rdi k) v
  | .load k r, m => m.set r (m.word k)
  -- the operand is read before the slot is written
  | .push k, m => (m.set .rsp (m.regs .rsp - 8)).write (m.regs .rsp - 8) (m.word k)
  | .leaRsp, m => m.set .rax (m.regs .rsp + 8)
  | .loadTop, m => m.set .rax m.top
  | .movImm v, m => m.set .rax v
  | .movRsi, m => m.set .rax m.rsi
  | .cmpZero k, m => { m with zf := m.word k == 0 }
  | .ret, m => { m.set .rsp (m.regs .rsp + 8) with rip := m.top }
  | .pause, m | .je, m => m

def runs (is : List Instr) (m : Flat) : Flat := is.foldl (fun m i => i.run m) m

theorem runs_cons (i : Instr) (is : List Instr) (m : Flat) : runs (i :: is) m = runs is (i.run m) := rfl

theorem runs_append (is js : List Instr) (m : Flat) : runs (is ++ js) m = runs js (runs is m) := List.foldl_append ..

/-! ## Buffers in memory -/

def bufRange (env : Word) : Range := ⟨env, 80⟩

/-- The stack slot just below an address. -/
def below (rsp : Word) : Range := ⟨rsp - 8, 8⟩

theorem covers_slot {env : Word} {k : Fin 10} {a : Word} (h : (Range.mk (slot env k) 8).covers a = true) :
    (bufRange env).covers a = true := by
  have henv := env.isLt
  have ha := a.isLt
  rw [Range.covers_iff_sub] at h ⊢
  rw [show (bufRange env).size.toNat = 80 from rfl]
  simp only [bufRange, slot, BitVec.toNat_sub, BitVec.toNat_add, BitVec.toNat_ofNat, Lib.toNat_eight] at h ⊢
  omega

theorem slot_apart (env : Word) {j k : Fin 10} (h : j ≠ k) : Range.Apart ⟨slot env j, 8⟩ ⟨slot env k, 8⟩ := by
  have hne : (j : Nat) ≠ k := fun he => h (Fin.ext he)
  have henv := env.isLt
  have hj := j.isLt
  have hk := k.isLt
  apply Range.apart_of_sub
  · simp only [slot, BitVec.toNat_sub, BitVec.toNat_add, BitVec.toNat_ofNat, Lib.toNat_eight]
    omega
  · simp only [slot, BitVec.toNat_sub, BitVec.toNat_add, BitVec.toNat_ofNat, Lib.toNat_eight]
    omega

theorem slot_apart_of_buf {env : Word} {r : Range} (h : (bufRange env).Apart r) (k : Fin 10) :
    Range.Apart ⟨slot env k, 8⟩ r :=
  h.mono fun _ ha => covers_slot ha

theorem word_write (m : Flat) (k : Fin 10) (v : Word) :
    (m.write (slot m.rdi k) v).word = Function.update m.word k v := by
  funext j
  by_cases hj : j = k
  · subst hj
    rw [Function.update_self]
    exact Bytes.read64_write64_self _ _ _
  · rw [Function.update_of_ne hj]
    exact Bytes.read64_write64_of_apart _ _ (slot_apart _ (Ne.symm hj))

/-! ## The view on registers and buffer -/

/-- The registers, the doubleword at `(%rsp)`, and the buffer. -/
def Flat.view (m : Flat) (b : Buf) : Cpu × JmpBuf :=
  (⟨m.ctx, m.regs .rax, m.rsi, b, m.rip, m.top, m.zf⟩, m.word)

/-- Neither moves `%rsp` nor control. -/
def Instr.level : Instr → Bool
  | .load _ .rsp | .push _ | .je | .ret => false
  | _ => true

theorem Instr.run_rdi (i : Instr) (m : Flat) : (i.run m).rdi = m.rdi := by
  cases i <;> rfl

theorem Instr.run_rsp {i : Instr} (hi : i.level = true) (m : Flat) : (i.run m).regs .rsp = m.regs .rsp := by
  cases i with
  | load k r =>
      cases r with
      | rsp => cases hi
      | _ => rfl
  | push k => cases hi
  | ret => cases hi
  | _ => rfl

/-- The stack slot in use is apart from the buffer. -/
def Flat.StackApart (m : Flat) : Prop := (bufRange m.rdi).Apart ⟨m.regs .rsp, 8⟩

theorem top_write {m : Flat} (h : m.StackApart) (k : Fin 10) (v : Word) : (m.write (slot m.rdi k) v).top = m.top :=
  Bytes.read64_write64_of_apart _ _ (slot_apart_of_buf h k)

theorem ctx_write (m : Flat) (a v : Word) : (m.write a v).ctx = m.ctx := rfl

theorem view_write {m : Flat} (h : m.StackApart) (b : Buf) (k : Fin 10) (v : Word) :
    (m.write (slot m.rdi k) v).view b = ((m.view b).1, Function.update (m.view b).2 k v) := by
  unfold Flat.view
  rw [top_write h, word_write, ctx_write]
  rfl

theorem view_run {i : Instr} (hi : i.level = true) {m : Flat} (h : m.StackApart) (b : Buf) :
    (i.run m).view b = i.exec (m.view b) := by
  cases i with
  | store r k =>
      refine (view_write h b k (m.regs r)).trans ?_
      cases r <;> rfl
  | storeImm v k => exact view_write h b k v
  | load k r =>
      cases r with
      | rsp => cases hi
      | _ => rfl
  | push k => cases hi
  | je => cases hi
  | ret => cases hi
  | _ => rfl

theorem view_runs (is : List Instr) (his : ∀ i ∈ is, i.level = true) {m : Flat} (h : m.StackApart) (b : Buf) :
    (runs is m).view b = execs is (m.view b) ∧ (runs is m).StackApart := by
  induction is generalizing m with
  | nil => exact ⟨rfl, h⟩
  | cons i is ih =>
      have hi := his i List.mem_cons_self
      have hs : (i.run m).StackApart := by
        unfold Flat.StackApart
        rw [i.run_rdi, i.run_rsp hi]
        exact h
      rw [runs_cons, execs_cons, ← view_run hi h b]
      exact ih (fun j hj => his j (List.mem_cons_of_mem _ hj)) hs

/-- A push right after `%rsp` has been loaded: the view is right again, whatever lay at `(%rsp)` in between. -/
theorem view_load_push {j k : Fin 10} {m : Flat} (h : (bufRange m.rdi).Apart (below (m.word j))) (b : Buf) :
    (runs [.load j .rsp, .push k] m).view b = execs [.load j .rsp, .push k] (m.view b) ∧
      (runs [.load j .rsp, .push k] m).StackApart := by
  refine ⟨?_, h⟩
  have htop : (runs [.load j .rsp, .push k] m).top = m.word k := Bytes.read64_write64_self _ _ _
  have hword : (runs [.load j .rsp, .push k] m).word = m.word := by
    funext i
    exact Bytes.read64_write64_of_apart _ _ (slot_apart_of_buf h i).symm
  unfold Flat.view
  rw [htop, hword]
  rfl

/-! ## The halves of the routines -/

theorem runs_rdi (is : List Instr) (m : Flat) : (runs is m).rdi = m.rdi := by
  induction is generalizing m with
  | nil => rfl
  | cons i is ih => rw [runs_cons, ih, i.run_rdi]

theorem Ctx.called_returned (c : Ctx) : c.returned.called = c := by
  simp only [called, returned, BitVec.add_sub_cancel]

theorem runs_saveRegs {m : Flat} (h : m.StackApart) :
    Saved (runs saveRegs m).word m.ctx.returned m.top ∧ (runs saveRegs m).ctx = m.ctx ∧
      (runs saveRegs m).top = m.top := by
  have hview := (view_runs saveRegs (by decide) h .friendCtx).1
  obtain ⟨buf, hexec, hsaved, -⟩ := execs_saveRegs (m.view .friendCtx).1 m.word m.ctx.returned
    m.ctx.called_returned.symm
  have heq := hview.trans hexec
  have hword : (runs saveRegs m).word = buf := congrArg Prod.snd heq
  rw [hword]
  exact ⟨hsaved, congrArg (fun x => x.1.ctx) heq, congrArg (fun x => x.1.top) heq⟩

theorem restoreRegs_eq (m : Flat) :
    runs restoreRegs m = runs [.load 0 .rbx, .load 2 .r12, .load 3 .r13, .load 4 .r14, .load 5 .r15]
      (runs [.load 6 .rsp, .push 7] (Instr.run (.load 1 .rbp) m)) := rfl

theorem view_restoreRegs {m : Flat} (h : (bufRange m.rdi).Apart (below (m.word 6))) (b : Buf) :
    (runs restoreRegs m).view b = execs restoreRegs (m.view b) ∧ (runs restoreRegs m).StackApart := by
  have hpush := view_load_push (j := 6) (k := 7) (m := Instr.run (.load 1 .rbp) m) h b
  rw [restoreRegs_eq]
  obtain ⟨hview, hstack⟩ := view_runs [.load 0 .rbx, .load 2 .r12, .load 3 .r13, .load 4 .r14, .load 5 .r15]
    (by decide) hpush.2 b
  refine ⟨?_, hstack⟩
  rw [hview, hpush.1]
  rfl

theorem runs_restoreRegs {m : Flat} {c : Ctx} {ret : Word} (hs : Saved m.word c ret)
    (h : (bufRange m.rdi).Apart (below c.rsp)) :
    (runs restoreRegs m).ctx = c.called ∧ (runs restoreRegs m).top = ret ∧
      (runs restoreRegs m).regs .rax = m.regs .rax ∧ (runs restoreRegs m).StackApart := by
  rw [← hs.rsp] at h
  obtain ⟨hview, hstack⟩ := view_restoreRegs h .friendCtx
  have heq := hview.trans (execs_restoreRegs (m.view .friendCtx).1 m.word c ret hs)
  exact ⟨congrArg (fun x => x.1.ctx) heq, congrArg (fun x => x.1.top) heq, congrArg (fun x => x.1.rax) heq, hstack⟩

/-! ## Saving and restoring -/

/-- The routines that save a context. -/
inductive Save
  | setjmp
  | wait
  deriving DecidableEq, Repr

/-- `toshokan_setjmp`, and `toshokan_setjmp_with_wait` up to the label `1:`. -/
def Save.code : Save → List Instr
  | .setjmp => toshokanSetjmp
  | .wait => toshokanSetjmpWithWait.take 11

/-- The routines that resume one. -/
inductive Restore
  | longjmp
  | wait
  deriving DecidableEq, Repr

/-- `toshokan_longjmp`, and `toshokan_setjmp_with_wait` from behind `je 1b` on. -/
def Restore.code : Restore → List Instr
  | .longjmp => toshokanLongjmp
  | .wait => waitLoop.drop 3

/-- What `%rax` is then, after `toshokan_longjmp(env, v)` and after the wait. -/
def Restore.value (v : Word) : Restore → Word
  | .longjmp => v
  | .wait => 1

/-- `e` has returned from the call at whose entry `m` was, with the value `v`. -/
structure Resumed (m e : Flat) (v : Word) : Prop where
  rip : e.rip = m.top
  ctx : e.ctx = m.ctx.returned
  rax : e.regs .rax = v

theorem setjmp_eq (m : Flat) : runs toshokanSetjmp m = Instr.run .ret (Instr.run (.movImm 0) (runs saveRegs m)) :=
  runs_append saveRegs [.movImm 0, .ret] m

theorem save_wait_eq (m : Flat) : runs Save.wait.code m = Instr.run (.storeImm 1 8) (runs saveRegs m) :=
  runs_append saveRegs [.storeImm 1 8] m

theorem longjmp_eq (e : Flat) :
    runs toshokanLongjmp e = Instr.run .ret (runs restoreRegs (Instr.run .movRsi e)) :=
  runs_append (.movRsi :: restoreRegs) [.ret] e

theorem restore_wait_eq (e : Flat) :
    runs Restore.wait.code e =
      Instr.run .ret (Instr.run (.movImm 1) (Instr.run (.storeImm 0 9) (runs restoreRegs e))) :=
  runs_append restoreRegs [.storeImm 0 9, .movImm 1, .ret] e

theorem word_movImm_ret (x : Flat) (v : Word) : (Instr.run .ret (Instr.run (.movImm v) x)).word = x.word := rfl

theorem resumed_ret {m x : Flat} (hctx : x.ctx = m.ctx) (htop : x.top = m.top) :
    Resumed m (Instr.run .ret x) (x.regs .rax) := by
  refine ⟨htop, ?_, rfl⟩
  rw [← hctx]
  rfl

theorem resumed_movImm_ret {m x : Flat} (hctx : x.ctx = m.ctx) (htop : x.top = m.top) (v : Word) :
    Resumed m (Instr.run .ret (Instr.run (.movImm v) x)) v :=
  resumed_ret (x := Instr.run (.movImm v) x) hctx htop

theorem word_save_wait (m : Flat) : (runs Save.wait.code m).word = Function.update (runs saveRegs m).word 8 1 := by
  rw [save_wait_eq, Instr.run, word_write]

theorem word_restore_wait (e : Flat) :
    (runs Restore.wait.code e).word = Function.update (runs restoreRegs e).word 9 0 := by
  rw [restore_wait_eq, word_movImm_ret, Instr.run, word_write]

theorem Save.saved {m : Flat} (h : m.StackApart) (sv : Save) : Saved (runs sv.code m).word m.ctx.returned m.top := by
  have hsave := (runs_saveRegs h).1
  cases sv with
  | setjmp =>
      rw [code, setjmp_eq, word_movImm_ret]
      exact hsave
  | wait =>
      rw [word_save_wait]
      exact hsave.update (by decide) 1

theorem resumed_setjmp {m : Flat} (h : m.StackApart) : Resumed m (runs toshokanSetjmp m) 0 := by
  obtain ⟨-, hctx, htop⟩ := runs_saveRegs h
  rw [setjmp_eq]
  exact resumed_movImm_ret hctx htop 0

theorem Restore.resumes {m e : Flat} (hs : Saved e.word m.ctx.returned m.top)
    (h : (bufRange e.rdi).Apart (below m.ctx.returned.rsp)) (rs : Restore) :
    Resumed m (runs rs.code e) (rs.value e.rsi) := by
  cases rs with
  | longjmp =>
      obtain ⟨hctx, htop, hrax, -⟩ := runs_restoreRegs (m := Instr.run .movRsi e) hs h
      rw [Ctx.called_returned] at hctx
      have hret := resumed_ret hctx htop
      rw [hrax] at hret
      rw [code, longjmp_eq]
      exact hret
  | wait =>
      obtain ⟨hctx, htop, -, hstack⟩ := runs_restoreRegs hs h
      rw [restore_wait_eq]
      generalize runs restoreRegs e = x at hctx htop hstack
      rw [Ctx.called_returned] at hctx
      -- word 9 is cleared while the return address is on the stack
      apply resumed_movImm_ret
      · rw [Instr.run, ctx_write, hctx]
      · rw [Instr.run, top_write hstack, htop]

/-! ## The bytes written -/

def words (env : Word) (ks : List (Fin 10)) : List Range := ks.map fun k => ⟨slot env k, 8⟩

/-- Writes nothing but words `ks` of the buffer. -/
def Instr.writesIn (ks : List (Fin 10)) : Instr → Bool
  | .store _ k | .storeImm _ k => ks.contains k
  | .push _ => false
  | _ => true

theorem frame_write {ks : List (Fin 10)} {k : Fin 10} (hk : ks.contains k = true) (m : Flat) (v : Word) :
    Bytes.Frame (words m.rdi ks) m.mem (m.write (slot m.rdi k) v).mem :=
  Bytes.Frame.write64 _ _ (List.mem_map_of_mem (List.contains_iff_mem.mp hk))

theorem frame_run {ks : List (Fin 10)} {i : Instr} (hi : i.writesIn ks = true) (m : Flat) :
    Bytes.Frame (words m.rdi ks) m.mem (i.run m).mem := by
  cases i with
  | store r k => exact frame_write hi m _
  | storeImm v k => exact frame_write hi m v
  | push k => cases hi
  | _ => exact Bytes.Frame.refl _ _

theorem frame_runs (ks : List (Fin 10)) (is : List Instr) (his : ∀ i ∈ is, i.writesIn ks = true) (m : Flat) :
    Bytes.Frame (words m.rdi ks) m.mem (runs is m).mem := by
  induction is generalizing m with
  | nil => exact Bytes.Frame.refl _ _
  | cons i is ih =>
      have hrest := ih (fun j hj => his j (List.mem_cons_of_mem _ hj)) (i.run m)
      rw [i.run_rdi] at hrest
      exact (frame_run (his i List.mem_cons_self) m).trans hrest

def Save.stores : Save → List (Fin 10)
  | .setjmp => [0, 1, 2, 3, 4, 5, 6, 7]
  | .wait => [0, 1, 2, 3, 4, 5, 6, 7, 8]

def Restore.stores : Restore → List (Fin 10)
  | .longjmp => []
  | .wait => [9]

theorem Save.frame (sv : Save) (m : Flat) : Bytes.Frame (words m.rdi sv.stores) m.mem (runs sv.code m).mem := by
  apply frame_runs
  cases sv with
  | setjmp => decide
  | wait => decide

theorem frame_restoreRegs (e : Flat) : Bytes.Frame [below (e.word 6)] e.mem (runs restoreRegs e).mem := by
  have hpush : Bytes.Frame [below (e.word 6)] e.mem (runs [.load 6 .rsp, .push 7] (Instr.run (.load 1 .rbp) e)).mem :=
    Bytes.Frame.write64 _ _ List.mem_cons_self
  rw [restoreRegs_eq]
  generalize runs [.load 6 .rsp, .push 7] (Instr.run (.load 1 .rbp) e) = x at hpush
  exact hpush.trans ((frame_runs [] _ (by decide) x).mono (List.nil_subset _))

theorem Restore.frame (rs : Restore) (e : Flat) :
    Bytes.Frame (below (e.word 6) :: words e.rdi rs.stores) e.mem (runs rs.code e).mem := by
  cases rs with
  | longjmp =>
      rw [code, longjmp_eq]
      exact frame_restoreRegs (Instr.run .movRsi e)
  | wait =>
      have hregs : Bytes.Frame (below (e.word 6) :: words e.rdi Restore.wait.stores) _ _ :=
        (frame_restoreRegs e).mono (by simp)
      have hrdi := runs_rdi restoreRegs e
      rw [restore_wait_eq]
      generalize runs restoreRegs e = x at hregs hrdi
      have hflag := frame_runs [9] [.storeImm 0 9, .movImm 1, .ret] (by decide) x
      rw [hrdi] at hflag
      exact hregs.trans (hflag.mono (List.subset_cons_self _ _))

/-- Words 8 and 9 of the buffer at `f` are the same. -/
def SameFlags (f : Word) (m m' : Bytes) : Prop := ∀ k : Fin 10, 8 ≤ k → m'.read64 (slot f k) = m.read64 (slot f k)

/-- Saving to a buffer keeps its flag words, and those of a buffer apart from it. -/
theorem sameFlags_setjmp (m : Flat) {f : Word} (hf : f = m.rdi ∨ (bufRange f).Apart (bufRange m.rdi)) :
    SameFlags f m.mem (runs toshokanSetjmp m).mem := by
  intro k hk
  refine (Save.setjmp.frame m).read64 fun r hr => ?_
  obtain ⟨j, hj, rfl⟩ := List.mem_map.mp hr
  rcases hf with rfl | hf
  · have hlt : ∀ j ∈ Save.setjmp.stores, j < 8 := by decide
    exact slot_apart _ (ne_of_lt (lt_of_lt_of_le (hlt j hj) hk))
  · exact slot_apart_of_buf (slot_apart_of_buf hf k).symm j

/-- Resuming from a buffer keeps the flag words of every buffer apart from the slot it pushes to. -/
theorem sameFlags_longjmp (e : Flat) {f : Word} (hf : (bufRange f).Apart (below (e.word 6))) :
    SameFlags f e.mem (runs toshokanLongjmp e).mem := by
  intro k hk
  refine (Restore.longjmp.frame e).read64 fun r hr => ?_
  rw [List.mem_singleton.mp hr]
  exact (slot_apart_of_buf hf k).symm

/-! ## Either way of saving, either way of restoring -/

/-- What saving with `sv` from `m`, and restoring with `rs` from `e` later, amount to. -/
structure Interchange (sv : Save) (rs : Restore) (m e : Flat) : Prop where
  /-- Control is at the return address of the saving call, with the registers of a return from it. -/
  resumed : Resumed m (runs rs.code e) (rs.value e.rsi)
  /-- As after the first return of `toshokan_setjmp`. -/
  returned : sv = .setjmp → Resumed m (runs sv.code m) 0
  saves : Bytes.Frame (words m.rdi sv.stores) m.mem (runs sv.code m).mem
  saves_flag : sv = .wait → (runs sv.code m).word 8 = 1
  restores : Bytes.Frame (below m.ctx.returned.rsp :: words m.rdi rs.stores) e.mem (runs rs.code e).mem
  restores_flag : rs = .wait → (runs rs.code e).word 9 = 0
  /-- Hakase saves with `toshokan_setjmp` and restores with `toshokan_longjmp`. -/
  setjmp_flags : ∀ f, f = m.rdi ∨ (bufRange f).Apart (bufRange m.rdi) → SameFlags f m.mem (runs toshokanSetjmp m).mem
  longjmp_flags : ∀ f, (bufRange f).Apart (below m.ctx.returned.rsp) → SameFlags f e.mem (runs toshokanLongjmp e).mem

/-- **What either routine saves, either resumes.** `m` is any machine at the entry of a saving routine, `m'` any later one
with the same words 0-7 in the buffer, which does not overlap the stack slot below the saved `%rsp`; the restoring code is
entered with `%rdi` at the buffer and any value `v` in `%rsi`. -/
theorem save_then_restore (sv : Save) (rs : Restore) (m m' : Flat) (v : Word)
    (hap : (bufRange m.rdi).Apart (below m.ctx.returned.rsp))
    (hkeep : ∀ k : Fin 10, k < 8 → m'.mem.read64 (slot m.rdi k) = (runs sv.code m).mem.read64 (slot m.rdi k)) :
    Interchange sv rs m { m' with rdi := m.rdi, rsi := v } := by
  -- the slot below the saved `%rsp` is the one the return address is in at the entry
  have hstack : m.StackApart := by
    rw [below, show m.ctx.returned.rsp - 8 = m.regs .rsp from BitVec.add_sub_cancel _ _] at hap
    exact hap
  have hsaved : Saved ({ m' with rdi := m.rdi, rsi := v } : Flat).word m.ctx.returned m.top := by
    refine (sv.saved hstack).congr fun k hk => (hkeep k hk).trans ?_
    rw [Flat.word, runs_rdi]
  have hrsp : ({ m' with rdi := m.rdi, rsi := v } : Flat).word 6 = m.ctx.returned.rsp := hsaved.rsp
  refine ⟨rs.resumes hsaved hap, ?_, sv.frame m, ?_, ?_, ?_, fun f hf => sameFlags_setjmp m hf, fun f hf => ?_⟩
  · rintro rfl
    exact resumed_setjmp hstack
  · rintro rfl
    rw [word_save_wait, Function.update_self]
  · have hframe := rs.frame { m' with rdi := m.rdi, rsi := v }
    rw [hrsp] at hframe
    exact hframe
  · rintro rfl
    rw [word_restore_wait, Function.update_self]
  · rw [← hrsp] at hf
    exact sameFlags_longjmp _ hf

/-- A buffer at 0x1000, a stack at 0x2000. -/
def sampleFlat : Flat := ⟨fun r => if r = .rsp then 0x2000 else 1, 0, 0x1000, 0, false, fun _ => 0⟩

/-- What `toshokan_setjmp` has saved there, the wait resumes right after. -/
theorem save_then_restore_sample :
    (bufRange sampleFlat.rdi).Apart (below sampleFlat.ctx.returned.rsp) ∧
      Interchange .setjmp .wait sampleFlat { runs toshokanSetjmp sampleFlat with rdi := 0x1000, rsi := 7 } := by
  have hap : (bufRange sampleFlat.rdi).Apart (below sampleFlat.ctx.returned.rsp) :=
    Range.apart_of_sub (by decide) (by decide)
  exact ⟨hap, save_then_restore .setjmp .wait sampleFlat (runs toshokanSetjmp sampleFlat) 7 hap fun _ _ => rfl⟩

end Toshokan.Offload
