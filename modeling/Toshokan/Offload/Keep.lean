import Toshokan.Offload.Step

/-!
# The invariant is kept

* `runs_setjmp`, `runs_wait`, `runs_longjmp`, `runs_resume` : what the routines do, from their entry;
* `Serve.step` : hakase serving a request, `Stage.step_hakase`, `Stage.step_holder` : a step of hakase, and of the
  holder of `_lock`;
* `inv_step`, `inv_run` : a step and a run keep `Inv`.
-/

namespace Toshokan.Offload

variable {ι S H L : Type} (P : Program ι S H L)

/-! ## The routines, from their entry -/

theorem execs_append (is js : List Instr) (x : Cpu × JmpBuf) : execs (is ++ js) x = execs js (execs is x) :=
  List.foldl_append ..

/-- `toshokan_setjmp` saves the caller's context and returns 0. -/
theorem runs_setjmp (t : Thread S) (b : Buf) (ret : Word) (buf : JmpBuf) :
    ∃ out, Runs (t.call toshokanSetjmp b ret) buf [.ret] out ∧ out.1.ctx = t.cpu.ctx.called ∧ out.1.top = ret ∧
      out.1.rax = 0 ∧ Saved out.2 t.cpu.ctx ret := by
  obtain ⟨buf', hbuf, hs, -, -⟩ := execs_saveRegs (t.call toshokanSetjmp b ret).cpu buf t.cpu.ctx rfl
  refine ⟨_, ⟨saveRegs ++ [.movImm 0], rfl, by decide, rfl⟩, ?_⟩
  rw [execs_append, hbuf]
  exact ⟨rfl, rfl, rfl, hs⟩

/-- `toshokan_setjmp_with_wait` saves the caller's context before it posts the request. -/
theorem runs_wait (t : Thread S) (ret : Word) (buf : JmpBuf) :
    ∃ out, Runs (t.call toshokanSetjmpWithWait .friendCtx ret) buf (.storeImm 1 8 :: waitLoop) out ∧
      Saved out.2 t.cpu.ctx ret := by
  obtain ⟨buf', hbuf, hs, -, -⟩ := execs_saveRegs (t.call toshokanSetjmpWithWait .friendCtx ret).cpu buf t.cpu.ctx rfl
  refine ⟨_, ⟨saveRegs, rfl, by decide, rfl⟩, ?_⟩
  rw [hbuf]
  exact hs

/-- `toshokan_longjmp(buf, 1)` loads the saved context and returns 1 to the saved return point. -/
theorem runs_longjmp (t : Thread S) (b : Buf) (a : Word) {buf : JmpBuf} {c : Ctx} {ret : Word} (hs : Saved buf c ret) :
    ∃ out, Runs (t.callLongjmp b a) buf [.ret] out ∧ out.1.ctx = c.called ∧ out.1.top = ret ∧ out.1.rax = 1 := by
  refine ⟨_, ⟨.movRsi :: restoreRegs, rfl, by decide, rfl⟩, ?_⟩
  rw [execs_cons, Instr.exec, execs_restoreRegs _ _ _ _ hs]
  exact ⟨rfl, rfl, rfl⟩

theorem runs_resume (t : Thread S) (hpc : t.pc = .asm (waitLoop.drop 3)) {buf : JmpBuf} {c : Ctx} {ret : Word}
    (hs : Saved buf c ret) :
    ∃ out, Runs t buf [.storeImm 0 9, .movImm 1, .ret] out ∧ out.1.ctx = c.called ∧ out.1.top = ret := by
  refine ⟨_, ⟨restoreRegs, hpc, by decide, rfl⟩, ?_⟩
  rw [execs_restoreRegs _ _ _ _ hs]
  exact ⟨rfl, rfl⟩

/-! ## Labels -/

@[simp] theorem landing_waitRet (s : S) : P.landing (P.addr (.waitRet s)) = .testWait s := by
  rw [Program.landing, P.decode_addr]

@[simp] theorem landing_setRet (s : S) : P.landing (P.addr (.setRet s)) = .testSet s := by
  rw [Program.landing, P.decode_addr]

@[simp] theorem landing_recvSetRet : P.landing (P.addr .recvSetRet) = .recvTestSet := by
  rw [Program.landing, P.decode_addr]

theorem request_eq {st : State ι S H L} {rsp : Word} {i : ι} {n : Nat} (ho : P.owner rsp = some i)
    (hd : (st.friend i).done = n) : P.request st rsp = some (i, n) := by
  rw [Program.request, ho, Option.map_some, hd]

/-! ## Where hakase and the holder of `_lock` can be -/

section
variable {σ : Serial ι H L} {i : ι} {s : S} {base : List (Event ι S)}

/-- Hakase is never at the CAS or at the release of `_lock`. -/
theorem Stage.hakase_pc {v : View ι S H L} (h : Stage P σ i s base v) (s' : S) :
    v.hakase.pc ≠ .lockCas s' ∧ v.hakase.pc ≠ .unlock s' := by
  have hout : Out v.hakase v.calls → v.hakase.pc ≠ .lockCas s' ∧ v.hakase.pc ≠ .unlock s' := by
    intro ho
    cases ho <;> simp [*]
  cases h with
  | entered _ _ _ ho | saving _ _ _ _ _ ho | posted _ _ _ ho | served _ _ _ ho | loading _ _ _ _ _ _ ho
  | cleared _ _ _ _ _ _ _ ho | resumed _ _ _ _ _ ho | unlocking _ _ _ ho => exact hout ho
  | serving c₀ k b hs =>
      cases hs with
      | set _ hr | jump _ hr | set' _ hr | jump' _ hr =>
          obtain ⟨body, hpc, -⟩ := hr
          simp [hpc]
      | clear hpc | callSet hpc | testSet hpc | callLong hpc | testWait hpc | block hpc | callSet' hpc | testSet' hpc
      | callLong' hpc | testSet'' hpc | answer hpc => simp [hpc]

/-- Where the holder can stand: not at the CAS, not in a block, and at the release of its own call site only. -/
theorem Stage.holder_pc {v : View ι S H L} (h : Stage P σ i s base v) (s' : S) :
    v.holder.pc ≠ .lockCas s' ∧ v.holder.pc ≠ .block s' ∧ (v.holder.pc = .unlock s' → s' = s) := by
  have hwait : ∀ b, Waiting v.holder b →
      v.holder.pc ≠ .lockCas s' ∧ v.holder.pc ≠ .block s' ∧ (v.holder.pc = .unlock s' → s' = s) := by
    rintro b ⟨-, hpc | hpc | ⟨hpc, -⟩⟩ <;> simp [hpc]
  cases h with
  | saving _ hr | loading _ hr | cleared _ hr =>
      obtain ⟨body, hpc, -⟩ := hr
      simp [hpc]
  | posted ht | serving _ _ _ _ ht | served ht => exact hwait _ ht
  | entered hpc | resumed hpc | unlocking hpc => simp [hpc, eq_comm]

/-- Hakase executes a block on the holder's stack. -/
theorem Stage.hakase_block (hσ : σ.Owned P) {v : View ι S H L} (h : Stage P σ i s base v) {s' : S}
    (hb : v.hakase.pc = .block s') : P.owner v.hakase.cpu.ctx.rsp = some i := by
  have hout : Out v.hakase v.calls → P.owner v.hakase.cpu.ctx.rsp = some i := by
    intro ho
    cases ho with
    | next hpc | test _ hpc | empty _ hpc | one _ _ _ hpc => simp [hb] at hpc
  cases h with
  | entered _ _ _ ho | saving _ _ _ _ _ ho | posted _ _ _ ho | served _ _ _ ho | loading _ _ _ _ _ _ ho
  | cleared _ _ _ _ _ _ _ ho | resumed _ _ _ _ _ ho | unlocking _ _ _ ho => exact hout ho
  | serving c₀ k b hs =>
      cases hs with
      | block hpc hctx =>
          rw [hctx]
          exact Serial.owner_before P hσ i
      | set _ hr | jump _ hr | set' _ hr | jump' _ hr =>
          obtain ⟨body, hpc, -⟩ := hr
          simp [hb] at hpc
      | clear hpc | callSet hpc | testSet hpc | callLong hpc | testWait hpc | callSet' hpc | testSet' hpc
      | callLong' hpc | testSet'' hpc | answer hpc => simp [hb] at hpc

end

variable [DecidableEq ι]

/-! ## Hakase -/

section Hakase
variable {σ : Serial ι H L} {i : ι} {s : S} {base : List (Event ι S)} {st : State ι S H L}

theorem step_ret_out {p : Party ι} {out : Cpu × JmpBuf} {c : Ctx} {a : Word} {b : JmpBuf}
    (hpc : (st.thread p).pc = .asm [.ret]) (hout : ((st.thread p).cpu, b) = out) (hctx : out.1.ctx = c.called)
    (htop : out.1.top = a) :
    P.step st p =
      st.setThread p { st.thread p with cpu := { out.1 with ctx := c, rip := a }, pc := P.landing a } := by
  rw [step_ret P hpc]
  subst hout
  subst htop
  rw [show (st.thread p).cpu.ctx = c.called from hctx, Ctx.returned_called]

theorem Serve.step {c₀ : Ctx} {k : Nat} {b : Bool} (hσ : σ.Owned P) (hdone : (st.friend i).done = σ.count i)
    (hs : Serve P σ i s c₀ st.off st.hakase k b) (ht : Waiting (st.friend i) false) (h9 : st.off.friendCtx 9 = 0)
    (hd : Data P σ i s (st.view i) b) (hl : st.log = base ++ (session P σ i s).take k)
    (hc : Calling st.calls c₀ (ran σ i s b)) : Stage P σ i s base ((P.step st .hakase).view i) := by
  cases hs with
  | clear hpc hctx h8 hf =>
      rw [P.step_eq (p := .hakase) hpc]
      refine .serving c₀ 4 false (.callSet rfl hctx rfl (hf.update (by decide) 0)) ht h9 hd ?_ hc
      rw [show (_ : View ι S H L).log = st.log ++ [.take .hakase] from rfl, hl, List.append_assoc]
      rfl
  | callSet hpc hctx h8 hf =>
      rw [P.step_eq (p := .hakase) hpc]
      obtain ⟨out, hr, ho⟩ := runs_setjmp st.hakase .hakaseCtx (P.addr .recvSetRet) st.off.hakaseCtx
      rw [hctx] at ho
      exact .serving c₀ 4 false (.set out hr rfl ho.1 ho.2.1 ho.2.2.1 ho.2.2.2 h8 hf) ht h9 hd hl hc
  | set out hr hrdi hctx htop hrax hh h8 hf =>
      rcases step_runs P (p := .hakase) (b := .hakaseCtx) hrdi hr with ⟨hpc, hout⟩ | ⟨t, buf, hstep, hr', hrdi', -⟩
      · rw [step_ret_out P hpc hout hctx htop, landing_recvSetRet]
        subst hout
        exact .serving c₀ 4 false (.testSet rfl rfl hrax hh h8 hf) ht h9 hd hl hc
      · rw [hstep]
        exact .serving c₀ 4 false (.set out hr' hrdi' hctx htop hrax hh h8 hf) ht h9 hd hl hc
  | testSet hpc hctx hrax hh h8 hf =>
      rw [P.step_eq (p := .hakase) hpc, Program.stepAt, Cpu.eax,
        show (st.thread .hakase).cpu.rax = 0 from hrax, if_pos (by decide)]
      exact .serving c₀ 4 false (.callLong rfl hh h8 hf) ht h9 hd hl hc
  | callLong hpc hh h8 hf =>
      rw [P.step_eq (p := .hakase) hpc]
      obtain ⟨out, hr, ho⟩ := runs_longjmp st.hakase .friendCtx (P.addr .recvLongRet) hf
      exact .serving c₀ 4 false (.jump out hr rfl ho.1 ho.2.1 ho.2.2 hh h8) ht h9 hd hl hc
  | jump out hr hrdi hctx htop hrax hh h8 =>
      rcases step_runs P (p := .hakase) (b := .friendCtx) hrdi hr with
        ⟨hpc, hout⟩ | ⟨t, buf, hstep, hr', hrdi', -, hb8, hb9⟩
      · rw [step_ret_out P hpc hout hctx htop, landing_waitRet]
        subst hout
        exact .serving c₀ 4 false (.testWait rfl rfl hrax rfl hh h8) ht h9 hd hl hc
      · rw [hstep]
        exact .serving c₀ 4 false (.jump out hr' hrdi' hctx htop hrax hh (hb8.trans h8)) ht (hb9.trans h9) hd hl hc
  | testWait hpc hctx hrax hrip hh h8 =>
      rw [P.step_eq (p := .hakase) hpc, Program.stepAt, Cpu.eax,
        show (st.thread .hakase).cpu.rax = 1 from hrax, if_pos (by decide)]
      refine .serving c₀ 5 false (.block rfl hctx hh h8) ht h9 hd ?_ hc
      have hid : P.request st st.hakase.cpu.ctx.rsp = some (i, σ.count i) :=
        request_eq P (by rw [hctx]; exact Serial.owner_before P hσ i) hdone
      change st.log ++ [.start .hakase (P.request st st.hakase.cpu.ctx.rsp) s st.hakase.cpu.ctx st.hakase.cpu.rip] = _
      rw [hid, hctx, hrip, hl, List.append_assoc]
      rfl
  | block hpc hctx hh h8 =>
      have ho : P.owner (st.thread .hakase).cpu.ctx.rsp = some i := by
        rw [show (st.thread .hakase).cpu.ctx = _ from hctx]
        exact Serial.owner_before P hσ i
      have hid : P.request st (st.thread .hakase).cpu.ctx.rsp = some (i, σ.count i) := request_eq P ho hdone
      have hy : P.code s st.h (st.thread .hakase).cpu.ctx (st.loc i) = σ.after P i s := by
        rw [show (st.thread .hakase).cpu.ctx = _ from hctx, show st.h = _ from hd.1, show st.loc i = _ from hd.2]
        rfl
      rw [P.step_eq (p := .hakase) hpc, Program.stepAt, Program.stepBlock, ho]
      simp only [hid, hy]
      refine .serving c₀ 6 true (.callSet' rfl rfl hh h8) ht h9 ⟨rfl, ?_⟩ ?_ ?_
      · exact Function.update_self ..
      · change st.log ++ [.exec .hakase (some (i, σ.count i)) s] = _
        rw [hl, List.append_assoc]
        rfl
      · obtain ⟨l, hl, he⟩ := hc
        refine ⟨l, hl, ?_⟩
        change st.calls ++ _ = _
        rw [he, List.append_assoc]
        rfl
  | callSet' hpc hctx hh h8 =>
      rw [P.step_eq (p := .hakase) hpc]
      obtain ⟨out, hr, ho⟩ := runs_setjmp st.hakase .friendCtx (P.addr (.setRet s)) st.off.friendCtx
      rw [hctx] at ho
      refine .serving c₀ 7 true (.set' out hr rfl ho.2.1 ho.2.2.1 ho.2.2.2 hh h8) ht h9 hd ?_ hc
      have hid : P.request st st.hakase.cpu.ctx.rsp = some (i, σ.count i) :=
        request_eq P (by rw [hctx]; exact Serial.owner_after P hσ i s) hdone
      change st.log ++ [.finish .hakase (P.request st st.hakase.cpu.ctx.rsp) s st.hakase.cpu.ctx _] = _
      rw [hid, hctx, hl, List.append_assoc]
      rfl
  | set' out hr hrdi htop hrax hf hh h8 =>
      rcases step_runs P (p := .hakase) (b := .friendCtx) hrdi hr with
        ⟨hpc, hout⟩ | ⟨t, buf, hstep, hr', hrdi', -, hb8, hb9⟩
      · rw [step_ret P hpc]
        subst hout
        rw [show (st.thread .hakase).cpu.top = _ from htop, landing_setRet]
        exact .serving c₀ 7 true (.testSet' rfl hrax hf hh h8) ht h9 hd hl hc
      · rw [hstep]
        exact .serving c₀ 7 true (.set' out hr' hrdi' htop hrax hf hh (hb8.trans h8)) ht (hb9.trans h9) hd hl hc
  | testSet' hpc hrax hf hh h8 =>
      rw [P.step_eq (p := .hakase) hpc, Program.stepAt, Cpu.eax,
        show (st.thread .hakase).cpu.rax = 0 from hrax, if_pos (by decide)]
      exact .serving c₀ 7 true (.callLong' rfl hf hh h8) ht h9 hd hl hc
  | callLong' hpc hf hh h8 =>
      rw [P.step_eq (p := .hakase) hpc]
      obtain ⟨out, hr, ho⟩ := runs_longjmp st.hakase .hakaseCtx (P.addr (.longRet s)) hh
      exact .serving c₀ 7 true (.jump' out hr rfl ho.1 ho.2.1 ho.2.2 hf h8) ht h9 hd hl hc
  | jump' out hr hrdi hctx htop hrax hf h8 =>
      rcases step_runs P (p := .hakase) (b := .hakaseCtx) hrdi hr with ⟨hpc, hout⟩ | ⟨t, buf, hstep, hr', hrdi', -⟩
      · rw [step_ret_out P hpc hout hctx htop, landing_recvSetRet]
        subst hout
        exact .serving c₀ 7 true (.testSet'' rfl rfl hrax hf h8) ht h9 hd hl hc
      · rw [hstep]
        exact .serving c₀ 7 true (.jump' out hr' hrdi' hctx htop hrax hf h8) ht h9 hd hl hc
  | testSet'' hpc hctx hrax hf h8 =>
      rw [P.step_eq (p := .hakase) hpc, Program.stepAt, Cpu.eax,
        show (st.thread .hakase).cpu.rax = 1 from hrax, if_neg (by decide)]
      exact .serving c₀ 7 true (.answer rfl hctx hf h8) ht h9 hd hl hc
  | answer hpc hctx hf h8 =>
      rw [P.step_eq (p := .hakase) hpc]
      refine .served ?_ (hf.update (by decide) 1) ⟨h8, rfl⟩ (.one c₀ _ s rfl hctx hc) hd ?_
      · exact ⟨ht.1, ht.2.imp_right (Or.imp_right fun h => ⟨h.1, .inl rfl⟩)⟩
      · change st.log ++ [.answer .hakase] = _
        rw [hl, List.append_assoc]
        rfl

/-- A step of hakase at any stage of the request of core `i`. -/
theorem Stage.step_hakase (hσ : σ.Owned P) (hdone : (st.friend i).done = σ.count i)
    (h : Stage P σ i s base (st.view i)) : Stage P σ i s base ((P.step st .hakase).view i) := by
  -- with word 8 clear, hakase stays outside and touches nothing of the request
  have hout : Out st.hakase st.calls → st.off.friendCtx 8 = 0 →
      ∃ t calls, (P.step st .hakase).view i = { st.view i with hakase := t, calls := calls } ∧ Out t calls := by
    intro ho h8
    obtain ⟨t, calls, hstep, hor | ⟨hne, -⟩⟩ := step_out P ho
    · exact ⟨t, calls, by rw [hstep]; rfl, hor⟩
    · exact absurd h8 hne
  cases h with
  | entered hpc hctx hw ho hd hl =>
      obtain ⟨t, calls, hv, ho⟩ := hout ho hw.1
      rw [hv]
      exact .entered hpc hctx hw ho hd hl
  | saving out hr hrdi hf hw ho hd hl =>
      obtain ⟨t, calls, hv, ho⟩ := hout ho hw.1
      rw [hv]
      exact .saving out hr hrdi hf hw ho hd hl
  | posted ht hf hw ho hd hl =>
      obtain ⟨t, calls, hstep, ho | ⟨-, c, hpc, hctx, hc⟩⟩ := step_out P ho
      · rw [hstep]
        exact .posted ht hf hw ho hd hl
      · rw [hstep]
        exact .serving c 3 false (.clear hpc hctx hw.1 hf) ht hw.2 hd hl hc
  | serving c₀ k b hs ht h9 hd hl hc => exact Serve.step P hσ hdone hs ht h9 hd hl hc
  | served ht hf hw ho hd hl =>
      obtain ⟨t, calls, hv, ho⟩ := hout ho hw.1
      rw [hv]
      exact .served ht hf hw ho hd hl
  | loading out hr hrdi hctx htop hw ho hd hl =>
      obtain ⟨t, calls, hv, ho⟩ := hout ho hw.1
      rw [hv]
      exact .loading out hr hrdi hctx htop hw ho hd hl
  | cleared out hr hrdi hctx htop hrax hw ho hd hl =>
      obtain ⟨t, calls, hv, ho⟩ := hout ho hw.1
      rw [hv]
      exact .cleared out hr hrdi hctx htop hrax hw ho hd hl
  | resumed hpc hctx hrax hrip hw ho hd hl =>
      obtain ⟨t, calls, hv, ho⟩ := hout ho hw.1
      rw [hv]
      exact .resumed hpc hctx hrax hrip hw ho hd hl
  | unlocking hpc hctx hw ho hd hl =>
      obtain ⟨t, calls, hv, ho⟩ := hout ho hw.1
      rw [hv]
      exact .unlocking hpc hctx hw ho hd hl

end Hakase

/-! ## The holder of `_lock` -/

section Holder
variable {σ : Serial ι H L} {i : ι} {s : S} {base : List (Event ι S)} {st : State ι S H L}

/-- A step of the holder, up to the release. -/
theorem Stage.step_holder (hσ : σ.Owned P) (hdone : (st.friend i).done = σ.count i)
    (h : Stage P σ i s base (st.view i)) (hne : (st.friend i).pc ≠ .unlock s) :
    Stage P σ i s base ((P.step st (.friend i)).view i) := by
  cases h with
  | entered hpc hctx hw ho hd hl =>
      rw [P.step_eq (p := .friend i) hpc]
      obtain ⟨out, hr, hf⟩ := runs_wait (st.friend i) (P.addr (.waitRet s)) st.off.friendCtx
      rw [show (st.friend i).cpu.ctx = _ from hctx] at hf
      have hid : P.request st (st.friend i).cpu.ctx.rsp = some (i, σ.count i) :=
        request_eq P (by rw [show (st.friend i).cpu.ctx = _ from hctx]; exact Serial.owner_before P hσ i) hdone
      simp only [Program.stepAt, view_emit, view_setThread_friend]
      refine .saving out hr rfl hf hw ho hd ?_
      change st.log ++ [.save (.friend i) (P.request st (st.friend i).cpu.ctx.rsp) s (st.friend i).cpu.ctx _] = _
      rw [hid, show (st.friend i).cpu.ctx = _ from hctx, show st.log = _ from hl, List.append_assoc]
      rfl
  | saving out hr hrdi hf hw ho hd hl =>
      rcases step_runs P (p := .friend i) (b := .friendCtx) hrdi hr with
        ⟨hpc, hout⟩ | ⟨t, buf, hstep, hr', hrdi', -, hb8, hb9⟩
      · rw [step_post P hpc hrdi]
        subst hout
        simp only [view_emit, view_setThread_friend]
        refine .posted ⟨hrdi, .inl rfl⟩ (hf.update (by decide) 1) ⟨rfl, hw.2⟩ ho hd ?_
        change st.log ++ [.post (.friend i)] = _
        rw [show st.log = _ from hl, List.append_assoc]
        rfl
      · rw [hstep, view_setThread_friend]
        exact .saving out hr' hrdi' hf ⟨hb8.trans hw.1, hb9.trans hw.2⟩ ho hd hl
  | posted ht hf hw ho hd hl =>
      obtain ⟨t, hstep, -, ht' | ⟨hb, -⟩⟩ := step_waiting P ht (fun _ => hw.2)
      · rw [hstep, view_setThread_friend]
        exact .posted ht' hf hw ho hd hl
      · exact absurd hb Bool.false_ne_true
  | serving c₀ k b hs ht h9 hd hl hc =>
      obtain ⟨t, hstep, -, ht' | ⟨hb, -⟩⟩ := step_waiting P ht (fun _ => h9)
      · rw [hstep, view_setThread_friend]
        exact .serving c₀ k b hs ht' h9 hd hl hc
      · exact absurd hb Bool.false_ne_true
  | served ht hf hw ho hd hl =>
      obtain ⟨t, hstep, -, ht' | ⟨-, hrdi, hpc⟩⟩ := step_waiting P ht (fun hb => absurd hb.symm Bool.false_ne_true)
      · rw [hstep, view_setThread_friend]
        exact .served ht' hf hw ho hd hl
      · rw [hstep, view_setThread_friend]
        obtain ⟨out, hr, hctx, htop⟩ := runs_resume t hpc hf
        exact .loading out hr hrdi hctx htop hw ho hd hl
  | loading out hr hrdi hctx htop hw ho hd hl =>
      rcases step_runs P (p := .friend i) (b := .friendCtx) hrdi hr with
        ⟨hpc, hout⟩ | ⟨t, buf, hstep, hr', hrdi', -, hb8, hb9⟩
      · rw [step_noted P hpc hrdi, view_setThread_friend]
        subst hout
        exact .cleared _ ⟨[.movImm 1], rfl, rfl, rfl⟩ hrdi hctx htop rfl ⟨hw.1, rfl⟩ ho hd hl
      · rw [hstep, view_setThread_friend]
        exact .loading out hr' hrdi' hctx htop ⟨hb8.trans hw.1, hb9.trans hw.2⟩ ho hd hl
  | cleared out hr hrdi hctx htop hrax hw ho hd hl =>
      rcases step_runs P (p := .friend i) (b := .friendCtx) hrdi hr with
        ⟨hpc, hout⟩ | ⟨t, buf, hstep, hr', hrdi', -, hb8, hb9⟩
      · rw [step_ret_out P hpc hout hctx htop, landing_setRet, view_setThread_friend]
        subst hout
        exact .resumed rfl rfl hrax rfl hw ho hd hl
      · rw [hstep, view_setThread_friend]
        exact .cleared out hr' hrdi' hctx htop hrax ⟨hb8.trans hw.1, hb9.trans hw.2⟩ ho hd hl
  | resumed hpc hctx hrax hrip hw ho hd hl =>
      rw [P.step_eq (p := .friend i) hpc, Program.stepAt, Cpu.eax,
        show (st.thread (.friend i)).cpu.rax = 1 from hrax, if_neg (by decide)]
      have hid : P.request st (st.friend i).cpu.ctx.rsp = some (i, σ.count i) :=
        request_eq P (by rw [show (st.friend i).cpu.ctx = _ from hctx]; exact Serial.owner_after P hσ i s) hdone
      simp only [view_emit, State.goto, view_setThread_friend]
      refine .unlocking rfl hctx hw ho hd ?_
      change st.log ++ [.resume (.friend i) (P.request st (st.friend i).cpu.ctx.rsp) s (st.friend i).cpu.ctx
        (st.friend i).cpu.rip 1] = _
      rw [hid, show (st.friend i).cpu.ctx = _ from hctx, show (st.friend i).cpu.rip = _ from hrip,
        show st.log = _ from hl, List.append_assoc]
      rfl
  | unlocking hpc => exact absurd hpc hne

end Holder

/-! ## The whole system -/

section System
variable {σ : Serial ι H L} {i : ι} {s : S} {base : List (Event ι S)} {st : State ι S H L}

theorem Outside.exec_of_ne {k : ι} (hk : k ≠ i) {t : Thread S} {l : L} (h : Outside P σ k t l) :
    Outside P (σ.exec P ⟨i, s⟩) k t l := by
  have hctx : (σ.exec P ⟨i, s⟩).ctx k = σ.ctx k := Function.update_of_ne hk _ _
  have hloc : (σ.exec P ⟨i, s⟩).loc k = σ.loc k := Function.update_of_ne hk _ _
  have hcount : (σ.exec P ⟨i, s⟩).count k = σ.count k := Function.update_of_ne hk _ _
  cases h with
  | next hpc hd hc hl => exact .next hpc (hd.trans hcount.symm) (hc.trans hctx.symm) (hl.trans hloc.symm)
  | trying s' hpc hd hs hc hl =>
      have hb : (σ.exec P ⟨i, s⟩).before P k = σ.before P k := by
        rw [Serial.before, Serial.before, hcount, hctx, hloc]
      refine .trying s' hpc (hd.trans hcount.symm) (by rw [hcount]; exact hs) ?_ ?_
      · rw [hb]; exact hc
      · rw [hb]; exact hl

theorem Free.acquire (hσ : σ.Owned P) (h : Free P σ base st) (hpc : (st.friend i).pc = .lockCas s) :
    Held P σ i s base ((P.step st (.friend i)).view i) := by
  cases h.cores i with
  | next hpc' => simp [hpc] at hpc'
  | trying s' hpc' hd hs hctx hl =>
      obtain rfl : s' = s := by
        rcases hpc' with h' | h' | h' <;> simp [hpc] at h'
        exact h'.symm
      have hid : P.request st (st.friend i).cpu.ctx.rsp = some (i, σ.count i) :=
        request_eq P (by rw [hctx]; exact Serial.owner_before P hσ i) hd
      rw [P.step_eq (p := .friend i) hpc, Program.stepAt, if_pos h.lock]
      simp only [view_emit, State.goto, view_setThread_friend]
      refine ⟨rfl, hd, hs, .entered rfl hctx h.flags h.out ⟨h.data, hl⟩ ?_⟩
      change st.log ++ [.acquire (.friend i) (P.request st (st.friend i).cpu.ctx.rsp) s'] = _
      rw [hid, h.log]
      rfl

/-- Releasing it: the request is over, with the effect of one sequential execution. -/
theorem Held.release (hσ : σ.Owned P) (h : Held P σ i s base (st.view i)) (hpc : (st.friend i).pc = .unlock s)
    (hothers : ∀ k, k ≠ i → Outside P σ k (st.friend k) (st.loc k)) :
    Free P (σ.exec P ⟨i, s⟩) (base ++ session P σ i s) (P.step st (.friend i)) := by
  cases h.stage with
  | unlocking _ hctx hw ho hd hl =>
      have hid : P.request st (st.friend i).cpu.ctx.rsp = some (i, σ.count i) :=
        request_eq P (by rw [show (st.friend i).cpu.ctx = _ from hctx]; exact Serial.owner_after P hσ i s) h.done
      have hmove := step_moves P (p := .friend i) (.inr rfl) st (fun s' hb => by
        rw [show (st.thread (.friend i)).pc = _ from hpc] at hb
        cases hb)
      rw [P.step_eq (p := .friend i) hpc] at hmove ⊢
      refine ⟨rfl, hw, ho, hd.1, ?_, fun k => ?_⟩
      · change st.log ++ [.release (.friend i) (P.request st (st.friend i).cpu.ctx.rsp) s] = _
        rw [hid, show st.log = _ from hl, List.append_assoc]
        rfl
      · by_cases hk : k = i
        · subst hk
          have hfr : (P.stepAt st (.friend k) (.unlock s)).friend k =
              { st.friend k with pc := .next, done := (st.friend k).done + 1 } := Function.update_self ..
          rw [hfr]
          refine .next rfl ?_ ?_ ?_
          · simp only [Serial.exec, Function.update_self]
            rw [show (st.friend k).done = _ from h.done]
          · simp only [Serial.exec, Function.update_self]
            exact hctx
          · simp only [Serial.exec, Function.update_self]
            exact hd.2
        · rw [hmove.friend k hk, hmove.loc k hk]
          exact (hothers k hk).exec_of_ne P hk
  | saving _ hr | loading _ hr | cleared _ hr =>
      obtain ⟨body, hpc', -⟩ := hr
      rw [show (st.friend i).pc = _ from hpc'] at hpc
      cases hpc
  | posted ht | serving _ _ _ _ ht | served ht =>
      rcases ht with ⟨-, hpc' | hpc' | ⟨hpc', -⟩⟩ <;> rw [show (st.friend i).pc = _ from hpc'] at hpc <;> cases hpc
  | entered hpc' | resumed hpc' =>
      rw [show (st.friend i).pc = _ from hpc'] at hpc
      cases hpc

theorem sitesOf_concat (k : ι) (rs : List (Req ι S)) (r : Req ι S) :
    sitesOf k (rs ++ [r]) = sitesOf k rs ++ if r.core = k then [r.site] else [] := by
  rw [sitesOf, List.filter_append, List.map_append]
  congr 1
  by_cases h : r.core = k <;> simp [h]

variable {h₀ : H} {loc₀ : ι → L}

theorem inv_init : Inv P h₀ loc₀ (P.init h₀ loc₀) := by
  refine ⟨[], fun i => ⟨rfl, Nat.zero_le _⟩, .inl ⟨rfl, ⟨rfl, rfl⟩, .next rfl .nil, rfl, rfl, fun k => ?_⟩⟩
  exact .next rfl rfl rfl rfl

/-- **Every step keeps the invariant.** -/
theorem inv_step (p : Party ι) (h : Inv P h₀ loc₀ st) : Inv P h₀ loc₀ (P.step st p) := by
  obtain ⟨rs, hord, hcase⟩ := h
  have hσ : ((Serial.init P h₀ loc₀).runs P rs).Owned P := Serial.owned_runs P (Serial.owned_init P h₀ loc₀) rs
  -- the requests that are over are the same, unless the step releases `_lock`
  rcases hcase with hfree | ⟨i, s, hheld, hothers⟩
  · cases p with
    | hakase =>
        refine ⟨rs, hord, .inl ?_⟩
        obtain ⟨t, calls, hstep, ho | ⟨hne, -⟩⟩ := step_out P hfree.out
        · rw [hstep]
          exact ⟨hfree.lock, hfree.flags, ho, hfree.data, hfree.log, hfree.cores⟩
        · exact absurd hfree.flags.1 hne
    | friend k =>
        rcases step_outside P (hfree.cores k) with ⟨t, l, hstep, hout⟩ | ⟨s, hpc, -⟩
        · refine ⟨rs, hord, .inl ?_⟩
          rw [hstep]
          refine ⟨hfree.lock, hfree.flags, hfree.out, hfree.data, hfree.log, fun j => ?_⟩
          by_cases hj : j = k
          · subst hj
            simp only [Function.update_self]
            exact hout
          · simp only [Function.update_of_ne hj]
            exact hfree.cores j
        · have hmove := step_moves P (p := .friend k) (.inr rfl) st (fun s' hb => by
            rw [show (st.thread (.friend k)).pc = _ from hpc] at hb
            cases hb)
          refine ⟨rs, hord, .inr ⟨k, s, hfree.acquire P hσ hpc, fun j hj => ?_⟩⟩
          rw [hmove.friend j hj, hmove.loc j hj]
          exact hfree.cores j
  · cases p with
    | hakase =>
        have hpcs := fun s' => hheld.stage.hakase_pc P s'
        obtain ⟨hlock, hdone⟩ := step_lock_done P st .hakase (fun s' => (hpcs s').1)
          (fun s' => (hpcs s').2) i
        have hmove := step_moves P (i := i) (p := .hakase) (.inl rfl) st
          (fun s' hb => hheld.stage.hakase_block P hσ hb)
        refine ⟨rs, hord, .inr ⟨i, s, ⟨hlock.trans hheld.lock, hdone.trans hheld.done, hheld.site,
          hheld.stage.step_hakase P hσ hheld.done⟩, fun j hj => ?_⟩⟩
        rw [hmove.friend j hj, hmove.loc j hj]
        exact hothers j hj
    | friend k =>
        by_cases hk : k = i
        · subst hk
          by_cases hu : (st.friend k).pc = .unlock s
          · refine ⟨rs ++ [⟨k, s⟩], fun j => ?_, .inl ?_⟩
            · rw [sitesOf_concat, Serial.runs_concat]
              by_cases hj : k = j
              · subst hj
                have hsite := hheld.site
                have hlt := (List.getElem?_eq_some_iff.mp hsite).1
                simp only [Serial.exec, Function.update_self, if_true]
                refine ⟨?_, hlt⟩
                rw [List.take_add_one, hsite, (hord k).1]
                rfl
              · simp only [Serial.exec, Function.update_of_ne (Ne.symm hj), if_neg hj, List.append_nil]
                exact hord j
            · rw [Serial.runs_concat, sessions_concat]
              exact hheld.release P hσ hu hothers
          · have hpcs := fun s' => hheld.stage.holder_pc P s'
            obtain ⟨hlock, hdone⟩ := step_lock_done P st (.friend k) (fun s' => (hpcs s').1)
              (fun s' hs' => hu (by rw [(hpcs s').2.2 hs'] at hs'; exact hs')) k
            have hmove := step_moves P (p := .friend k) (.inr rfl) st
              (fun s' hb => absurd hb (hpcs s').2.1)
            refine ⟨rs, hord, .inr ⟨k, s, ⟨hlock.trans hheld.lock, hdone.trans hheld.done, hheld.site,
              hheld.stage.step_holder P hσ hheld.done hu⟩, fun j hj => ?_⟩⟩
            rw [hmove.friend j hj, hmove.loc j hj]
            exact hothers j hj
        · rcases step_outside P (hothers k hk) with ⟨t, l, hstep, hout⟩ | ⟨-, -, hlock⟩
          · refine ⟨rs, hord, .inr ⟨i, s, ?_, fun j hj => ?_⟩⟩
            · rw [hstep]
              simpa only [State.view, Function.update_of_ne (Ne.symm hk)] using hheld
            · rw [hstep]
              by_cases hjk : j = k
              · subst hjk
                simp only [Function.update_self]
                exact hout
              · simp only [Function.update_of_ne hjk]
                exact hothers j hj
          · have := hheld.lock
            rw [show (st.view i).off.lock = 0 from hlock] at this
            exact absurd this (by decide)

/-- **Every interleaving keeps it.** -/
theorem inv_run (ts : List (Party ι)) : Inv P h₀ loc₀ (Lib.run P.step (P.init h₀ loc₀) ts) :=
  Lib.run_induct P.step (inv_init P) (fun _ p => inv_step P p) ts

end System

end Toshokan.Offload
