import Toshokan.Offload.Stage

/-!
# Single steps

What each kind of step does to the part of the state a request touches, and that it leaves the rest alone.

* `step_moves` : a step of core `i` or of hakase does not touch another core;
* `step_plain`, `step_runs` : an instruction of a straight-line piece; `step_ret`, `step_je` : the others;
* `step_outside` : a core that does not hold `_lock`; `step_out` : hakase outside a request.
-/

namespace Toshokan.Offload

variable {ι S H L : Type} (P : Program ι S H L)

@[simp] theorem view_emit (st : State ι S H L) (i : ι) (e : Event ι S) :
    (st.emit e).view i = { st.view i with log := st.log ++ [e] } := rfl

/-! ## Other cores -/

/-- Only core `i` and what it shares with hakase may have changed. -/
structure Moves (st st' : State ι S H L) (i : ι) : Prop where
  friend : ∀ k, k ≠ i → st'.friend k = st.friend k
  loc : ∀ k, k ≠ i → st'.loc k = st.loc k

theorem Moves.refl (st : State ι S H L) (i : ι) : Moves st st i := ⟨fun _ _ => rfl, fun _ _ => rfl⟩

variable [DecidableEq ι]

@[simp] theorem view_setThread_friend (st : State ι S H L) (i : ι) (t : Thread S) :
    (st.setThread (.friend i) t).view i = { st.view i with holder := t } := by
  simp [State.view, State.setThread]

section
variable {st : State ι S H L} {i : ι} {p : Party ι} (hp : p = .hakase ∨ p = .friend i)
include hp

theorem moves_setThread (o : Offloader) (t : Thread S) : Moves st (({ st with off := o }).setThread p t) i := by
  rcases hp with rfl | rfl
  · exact ⟨fun _ _ => rfl, fun _ _ => rfl⟩
  · exact ⟨fun k hk => Function.update_of_ne hk _ _, fun _ _ => rfl⟩

theorem moves_emit (o : Offloader) (t : Thread S) (e : Event ι S) :
    Moves st ((({ st with off := o }).setThread p t).emit e) i :=
  ⟨(moves_setThread hp o t).friend, (moves_setThread hp o t).loc⟩

theorem moves_record (o : Offloader) (t : Thread S) (e : Call ι S) :
    Moves st ((({ st with off := o }).setThread p t).record e) i :=
  ⟨(moves_setThread hp o t).friend, (moves_setThread hp o t).loc⟩

theorem stepNext_moves : Moves st (P.stepNext st p) i := by
  rcases hp with rfl | rfl
  · exact ⟨fun _ _ => rfl, fun _ _ => rfl⟩
  · unfold Program.stepNext
    dsimp only
    split
    · exact Moves.refl st i
    · exact ⟨fun k hk => Function.update_of_ne hk _ _, fun k hk => Function.update_of_ne hk _ _⟩

theorem stepBlock_moves (s : S) (ho : P.owner (st.thread p).cpu.ctx.rsp = some i) :
    Moves st (P.stepBlock st p s) i := by
  unfold Program.stepBlock
  simp only [ho]
  exact ⟨(moves_setThread hp st.off _).friend, fun k hk => Function.update_of_ne hk _ _⟩

theorem stepAsm_moves (is : List Instr) : Moves st (P.stepAsm st p is) i := by
  unfold Program.stepAsm
  split
  · exact moves_setThread hp st.off _
  · exact moves_setThread hp st.off _
  · exact moves_setThread hp st.off _
  · dsimp only
    split
    · exact moves_emit hp _ _ _
    · exact moves_setThread hp _ _

/-- A step of core `i` or of hakase leaves every other core alone, as long as a block runs on the stack of `i`. -/
theorem step_moves (st : State ι S H L)
    (hb : ∀ s, (st.thread p).pc = .block s → P.owner (st.thread p).cpu.ctx.rsp = some i) :
    Moves st (P.step st p) i := by
  cases hpc : (st.thread p).pc
  all_goals rw [P.step_eq hpc]
  case next => exact stepNext_moves P hp
  case block s => exact stepBlock_moves P hp s (hb s hpc)
  case asm is => exact stepAsm_moves P hp is
  case lost => exact Moves.refl st i
  case recvRet b => exact moves_record hp st.off _ _
  case lockTest | lockPause | callLong | recvTest | recvCallSet | recvTestSet | recvCallLong =>
    exact moves_setThread hp st.off _
  case callWait | callSet => exact moves_emit hp st.off _ _
  case unlock | recvClear | recvAnswer => exact moves_emit hp _ _ _
  case lockCas =>
    dsimp only [Program.stepAt]
    split
    · exact moves_emit hp _ _ _
    · exact moves_setThread hp st.off _
  case testWait =>
    dsimp only [Program.stepAt]
    split
    · exact moves_emit hp st.off _ _
    · exact moves_setThread hp st.off _
  case testSet =>
    dsimp only [Program.stepAt]
    split
    · exact moves_setThread hp st.off _
    · exact moves_emit hp st.off _ _

end

/-! ## Instructions -/

theorem step_plain {st : State ι S H L} {p : Party ι} {b : Buf} {i : Instr} {rest : List Instr}
    (hrdi : (st.thread p).cpu.rdi = b) (hpc : (st.thread p).pc = .asm (i :: rest)) (hi : i.plain = true) :
    P.step st p =
      ({ st with off := st.off.setBuf b (i.exec ((st.thread p).cpu, st.off.buf b)).2 }).setThread p
        { st.thread p with cpu := (i.exec ((st.thread p).cpu, st.off.buf b)).1, pc := .asm rest } := by
  subst hrdi
  rw [P.step_eq hpc]
  cases i with
  | storeImm _ _ | je | ret => exact absurd hi Bool.false_ne_true
  | _ => rfl

theorem step_ret {st : State ι S H L} {p : Party ι} {rest : List Instr}
    (hpc : (st.thread p).pc = .asm (.ret :: rest)) :
    P.step st p = st.setThread p { st.thread p with
      cpu := { (st.thread p).cpu with ctx := (st.thread p).cpu.ctx.returned, rip := (st.thread p).cpu.top }
      pc := P.landing (st.thread p).cpu.top } := by
  rw [P.step_eq hpc]
  rfl

theorem step_je {st : State ι S H L} {p : Party ι} {rest : List Instr}
    (hpc : (st.thread p).pc = .asm (.je :: rest)) :
    P.step st p = st.goto p (.asm (if (st.thread p).cpu.zf then waitLoop else rest)) := by
  rw [P.step_eq hpc]
  rfl

theorem step_post {st : State ι S H L} {p : Party ι} {rest : List Instr}
    (hpc : (st.thread p).pc = .asm (.storeImm 1 8 :: rest)) (hrdi : (st.thread p).cpu.rdi = .friendCtx) :
    P.step st p =
      (({ st with off := { st.off with friendCtx := Function.update st.off.friendCtx 8 1 } }).setThread p
        { st.thread p with pc := .asm rest }).emit (.post p) := by
  rw [P.step_eq hpc]
  simp only [Program.stepAt, Program.stepAsm, hrdi, if_true]
  rfl

theorem step_noted {st : State ι S H L} {p : Party ι} {rest : List Instr}
    (hpc : (st.thread p).pc = .asm (.storeImm 0 9 :: rest)) (hrdi : (st.thread p).cpu.rdi = .friendCtx) :
    P.step st p =
      ({ st with off := { st.off with friendCtx := Function.update st.off.friendCtx 9 0 } }).setThread p
        { st.thread p with pc := .asm rest } := by
  rw [P.step_eq hpc]
  simp only [Program.stepAt, Program.stepAsm, hrdi]
  rw [if_neg (by decide)]
  rfl

/-- A step inside a straight-line piece: the party is at its end, or stays in it and keeps the flag words. -/
theorem step_runs {st : State ι S H L} {p : Party ι} {b : Buf} {cont : List Instr} {out : Cpu × JmpBuf}
    (hrdi : (st.thread p).cpu.rdi = b) (hr : Runs (st.thread p) (st.off.buf b) cont out) :
    ((st.thread p).pc = .asm cont ∧ ((st.thread p).cpu, st.off.buf b) = out) ∨
    ∃ (t : Thread S) (buf : JmpBuf),
      P.step st p = ({ st with off := st.off.setBuf b buf }).setThread p t ∧ Runs t buf cont out ∧ t.cpu.rdi = b ∧
      t.done = (st.thread p).done ∧ buf 8 = st.off.buf b 8 ∧ buf 9 = st.off.buf b 9 := by
  rcases hr.inv with hend | ⟨i, rest, hpc, hi, hr'⟩
  · exact .inl hend
  · refine .inr ⟨_, _, step_plain P hrdi hpc hi, hr', ?_, rfl, ?_, ?_⟩
    · exact (i.exec_rdi _).trans hrdi
    · exact Instr.exec_flag hi (by decide) _
    · exact Instr.exec_flag hi (by decide) _

/-- The wait loop: the core stays in it, or leaves it after the completion was stored. -/
theorem step_waiting {st : State ι S H L} {i : ι} {b : Bool} (ht : Waiting (st.friend i) b)
    (h9 : b = false → st.off.friendCtx 9 = 0) :
    ∃ t, P.step st (.friend i) = st.setThread (.friend i) t ∧ t.done = (st.friend i).done ∧
      (Waiting t b ∨ b = true ∧ t.cpu.rdi = .friendCtx ∧ t.pc = .asm (waitLoop.drop 3)) := by
  obtain ⟨hrdi, hpc | hpc | ⟨hpc, hz⟩⟩ := ht
  · rw [step_plain P (p := .friend i) (b := .friendCtx) (i := .pause) hrdi hpc rfl]
    exact ⟨_, rfl, rfl, .inl ⟨hrdi, .inr (.inl rfl)⟩⟩
  · rw [step_plain P (p := .friend i) (b := .friendCtx) (i := .cmpZero 9) hrdi hpc rfl]
    refine ⟨_, rfl, rfl, .inl ⟨hrdi, .inr (.inr ⟨rfl, ?_⟩)⟩⟩
    cases b with
    | true => exact .inl rfl
    | false =>
        right
        change (st.off.friendCtx 9 == 0) = true
        rw [h9 rfl]
        rfl
  · rw [step_je P (p := .friend i) hpc]
    refine ⟨_, rfl, rfl, ?_⟩
    by_cases hzf : (st.friend i).cpu.zf = true
    · left
      refine ⟨hrdi, .inl ?_⟩
      rw [show (st.thread (.friend i)).cpu.zf = true from hzf]
      rfl
    · right
      refine ⟨hz.resolve_right hzf, hrdi, ?_⟩
      rw [show (st.thread (.friend i)).cpu.zf = false from Bool.eq_false_iff.mpr hzf]
      rfl

/-! ## `_lock` and the count of finished requests -/

/-- They change at the CAS and at the release only. -/
theorem step_lock_done (st : State ι S H L) (p : Party ι) (hc : ∀ s, (st.thread p).pc ≠ .lockCas s)
    (hu : ∀ s, (st.thread p).pc ≠ .unlock s) (i : ι) :
    (P.step st p).off.lock = st.off.lock ∧ ((P.step st p).friend i).done = (st.friend i).done := by
  -- a new thread for `p` with the same count, and other buffers
  have hset : ∀ (o : Offloader) (t : Thread S), o.lock = st.off.lock → t.done = (st.thread p).done →
      (({ st with off := o }).setThread p t).off.lock = st.off.lock ∧
        ((({ st with off := o }).setThread p t).friend i).done = (st.friend i).done := by
    intro o t ho ht
    cases p with
    | hakase => exact ⟨ho, rfl⟩
    | friend k =>
        refine ⟨ho, ?_⟩
        by_cases hk : i = k
        · subst hk
          simp only [State.setThread, Function.update_self]
          exact ht
        · simp only [State.setThread, Function.update_of_ne hk]
  have hbuf : ∀ (b : Buf) (buf : JmpBuf), (st.off.setBuf b buf).lock = st.off.lock := fun b buf => by cases b <;> rfl
  cases hpc : (st.thread p).pc
  all_goals rw [P.step_eq hpc]
  case lockCas s => exact absurd hpc (hc s)
  case unlock s => exact absurd hpc (hu s)
  case lost => exact ⟨rfl, rfl⟩
  case next =>
    cases p with
    | hakase => exact ⟨rfl, rfl⟩
    | friend k =>
        dsimp only [Program.stepAt, Program.stepNext]
        split
        · exact ⟨rfl, rfl⟩
        · exact hset st.off _ rfl rfl
  case block s =>
    dsimp only [Program.stepAt, Program.stepBlock]
    split
    · exact hset st.off _ rfl rfl
    · exact hset st.off _ rfl rfl
  case asm is =>
    dsimp only [Program.stepAt]
    unfold Program.stepAsm
    split
    · exact hset st.off _ rfl rfl
    · exact hset st.off _ rfl rfl
    · exact hset st.off _ rfl rfl
    · dsimp only
      split
      · exact hset _ _ (hbuf _ _) rfl
      · exact hset _ _ (hbuf _ _) rfl
  case testWait s =>
    dsimp only [Program.stepAt]
    split
    · exact hset st.off _ rfl rfl
    · exact hset st.off _ rfl rfl
  case testSet s =>
    dsimp only [Program.stepAt]
    split
    · exact hset st.off _ rfl rfl
    · exact hset st.off _ rfl rfl
  case recvClear =>
    exact hset { st.off with friendCtx := Function.update st.off.friendCtx 8 0 } _ rfl rfl
  case recvAnswer =>
    exact hset { st.off with friendCtx := Function.update st.off.friendCtx 9 1 } _ rfl rfl
  all_goals exact hset st.off _ rfl rfl

/-! ## A core that does not hold `_lock` -/

/-- It stays outside, unless it acquires `_lock`. -/
theorem step_outside {st : State ι S H L} {σ : Serial ι H L} {k : ι}
    (h : Outside P σ k (st.friend k) (st.loc k)) :
    (∃ t l, P.step st (.friend k) =
        { st with friend := Function.update st.friend k t, loc := Function.update st.loc k l } ∧
      Outside P σ k t l) ∨
    ∃ s, (st.friend k).pc = .lockCas s ∧ st.off.lock = 0 := by
  cases h with
  | next hpc hd hctx hl =>
      left
      have hstep : P.step st (.friend k) = P.stepNext st (.friend k) := P.step_eq (p := .friend k) hpc
      rw [hstep, Program.stepNext]
      dsimp only
      split
      · refine ⟨st.friend k, st.loc k, ?_, .next hpc hd hctx hl⟩
        rw [Function.update_eq_self, Function.update_eq_self]
      · rename_i s hs
        rw [hd] at hs
        refine ⟨_, _, rfl, .trying s (.inl rfl) hd hs ?_ ?_⟩
        · rw [hd, hctx, hl, Serial.before]
        · rw [hd, hctx, hl, Serial.before]
  | trying s hpc hd hs hctx hl =>
      -- every branch but the successful CAS only moves the core to another of the three points
      have hgoto : ∀ pc, pc = .lockTest s ∨ pc = .lockCas s ∨ pc = .lockPause s →
          ∃ t l, st.goto (.friend k) pc =
              { st with friend := Function.update st.friend k t, loc := Function.update st.loc k l } ∧
            Outside P σ k t l := by
        intro pc h
        refine ⟨{ st.friend k with pc := pc }, st.loc k, ?_, .trying s h hd hs hctx hl⟩
        rw [Function.update_eq_self]
        rfl
      rcases hpc with hpc | hpc | hpc
      · left
        rw [P.step_eq (p := .friend k) hpc]
        apply hgoto
        split <;> simp
      · by_cases hlock : st.off.lock = 0
        · exact .inr ⟨s, hpc, hlock⟩
        · left
          rw [P.step_eq (p := .friend k) hpc, Program.stepAt, if_neg hlock]
          exact hgoto _ (by simp)
      · left
        rw [P.step_eq (p := .friend k) hpc]
        exact hgoto _ (by simp)

/-! ## Hakase outside a request -/

/-- Hakase stays outside, unless its test finds a request. -/
theorem step_out {st : State ι S H L} (h : Out st.hakase st.calls) :
    ∃ t calls, P.step st .hakase = { st with hakase := t, calls := calls } ∧
      (Out t calls ∨ st.off.friendCtx 8 ≠ 0 ∧
        ∃ c : Ctx, t.pc = .recvClear ∧ t.cpu.ctx = c.called ∧ Calling calls c []) := by
  cases h with
  | next hpc hc =>
      rw [P.step_eq (p := .hakase) hpc]
      exact ⟨_, _, rfl, .inl (.test _ rfl rfl ⟨_, hc, rfl⟩)⟩
  | test c hpc hctx hc =>
      rw [P.step_eq (p := .hakase) hpc, Program.stepAt]
      refine ⟨_, st.calls, rfl, ?_⟩
      by_cases h8 : st.off.friendCtx 8 = 0
      · rw [if_pos h8]
        exact .inl (.empty c rfl hctx hc)
      · rw [if_neg h8]
        exact .inr ⟨h8, c, rfl, hctx, hc⟩
  | empty c hpc hctx hc =>
      rw [P.step_eq (p := .hakase) hpc]
      refine ⟨_, st.calls ++ [.leave .hakase st.hakase.cpu.ctx.returned false], rfl, .inl (.next rfl ?_)⟩
      obtain ⟨l, hl, he⟩ := hc
      rw [hctx, Ctx.returned_called, he, List.append_assoc]
      exact hl.empty c
  | one c id s hpc hctx hc =>
      rw [P.step_eq (p := .hakase) hpc]
      refine ⟨_, st.calls ++ [.leave .hakase st.hakase.cpu.ctx.returned true], rfl, .inl (.next rfl ?_)⟩
      obtain ⟨l, hl, he⟩ := hc
      rw [hctx, Ctx.returned_called, he, List.append_assoc]
      exact hl.one c id s

end Toshokan.Offload
