import Toshokan.Offload.TsoExec

/-!
# The protocol under store buffers

The parties run on x86 cores, where a store reaches memory some time after the core has gone on, in the order of the
core's stores, and only a locked instruction waits for them. `Offloader` has one locked instruction, the exchange that
gets `_lock`: the request word, the completion word and the release of `_lock` are plain stores.

* `drain_released`, `drain_turn`, `drain_posting`, `drain_serving` : a store that reaches memory;
* `sim_step`, `sim_run` : every run with store buffers is answered by a run without;
* `tso_refines` : what the run without says about memory, the log, hakase and the cores;
* `tso_exactly_once` : the blocks are executed once each and one after another, as without store buffers.
-/

namespace Toshokan.Offload

variable {ι S H L : Type} [DecidableEq ι]

namespace Tso

variable {P : Program ι S H L} {h₀ : H} {loc₀ : ι → L} {T T' : State ι S H L} {s s' : Offload.State ι S H L}

/-! ## Stores that reach memory -/

/-- The oldest store of `p`, `w`, has reached memory; `b` is left in the buffer. -/
def State.drained (T : State ι S H L) (p : Party ι) (w : Write ι L) (b : List (Write ι L)) : State ι S H L :=
  ⟨T.st.withCells (Lib.put T.st.cells w), Function.update T.buf p b⟩

section Drain
variable {p : Party ι} {w : Write ι L} {b : List (Write ι L)}

theorem step_drain (h : T.buf p = w :: b) : Tso.step P T (.drain p) = T.drained p w b := by
  rw [Tso.step, h]
  rfl

theorem State.drained_cells : (T.drained p w b).st.cells = Lib.put T.st.cells w :=
  Offload.State.cells_withCells ..

theorem State.drained_buf : (T.drained p w b).buf p = b := Function.update_self ..

theorem State.drained_buf_of_ne {q : Party ι} (hq : q ≠ p) : (T.drained p w b).buf q = T.buf q :=
  Function.update_of_ne hq _ _

theorem State.drained_buf_hakase {i : ι} : (T.drained (.friend i) w b).buf .hakase = T.buf .hakase :=
  State.drained_buf_of_ne (by simp)

theorem State.drained_buf_friend {i : ι} : (T.drained .hakase w b).buf (.friend i) = T.buf (.friend i) :=
  State.drained_buf_of_ne (by simp)

theorem Outer.drained {k : ι} (h : Outer T s k) (hp : Party.friend k ≠ p) (hw : w.1 ≠ .data k) :
    Outer (T.drained p w b) s k := by
  refine h.congr (State.drained_buf_of_ne hp) rfl rfl ?_ rfl
  rw [State.drained_cells]
  exact Lib.put_of_ne hw

theorem drain_outer {k : ι} (h : Outer T s k) (hb : T.buf (.friend k) = w :: b) :
    OuterMove k T (T.drained (.friend k) w b) s s ∧ Outer (T.drained (.friend k) w b) s k := by
  have hw : w.1 = .data k := h.writes w (by rw [hb]; exact List.mem_cons_self)
  refine ⟨⟨⟨rfl, rfl⟩, ⟨rfl, rfl⟩, ⟨rfl, rfl⟩, ⟨rfl, rfl⟩, fun _ _ => ⟨rfl, rfl⟩, fun x hx => ⟨?_, rfl⟩,
    fun q hq => State.drained_buf_of_ne hq⟩, ?_, ?_, h.spin⟩
  · rw [State.drained_cells]
    exact Lib.put_of_ne (by rw [hw]; exact Ne.symm hx)
  · rw [State.drained_buf]
    exact fun w' hw' => h.writes w' (by rw [hb]; exact List.mem_cons_of_mem w hw')
  · rw [State.drained_buf, State.drained_cells, ← Lib.view_cons, ← hb]
    exact h.data

/-- The buffer of a core whose release of `_lock` is under way: with that store, `_lock` is free. -/
theorem drain_released {i : ι} {us vs : List (Write ι L)} (h : Released T s i us vs)
    (hb : T.buf (.friend i) = w :: b) : Phase (T.drained (.friend i) w b) s := by
  have hne : ∀ {k : ι}, k ≠ i → (Party.friend k : Party ι) ≠ .friend i := fun hk => by simpa using hk
  have hh : (T.drained (.friend i) w b).buf .hakase = [] := State.drained_buf_hakase.trans h.hh
  cases us with
  | nil =>
      obtain ⟨rfl, rfl⟩ : w = Write.lock 0 ∧ b = vs := List.cons.inj (hb.symm.trans h.buf)
      have houter : ∀ k, Outer (T.drained (.friend i) (Write.lock 0) b) s k := by
        intro k
        by_cases hk : k = i
        · subst hk
          refine ⟨?_, ?_, h.spin⟩
          · rw [State.drained_buf]
            exact h.hvs
          · rw [State.drained_buf, State.drained_cells, h.data]
            exact Lib.view_congr _ (Lib.put_of_ne (w := Write.lock 0) (a := .data k) (by simp)).symm
        · exact (h.outer k hk).drained (hne hk) (by simp)
      refine .idle hh h.lock houter (fun x hx => ?_) h.log
      rw [State.drained_cells]
      exact h.mem x hx
  | cons u us =>
      obtain ⟨rfl, hb'⟩ : w = u ∧ b = us ++ Write.lock 0 :: vs := List.cons.inj (hb.symm.trans h.buf)
      obtain ⟨j, -, hj⟩ := h.hus w List.mem_cons_self
      refine .released i us vs ?_
      exact {
        hh := hh
        lock := h.lock
        held := by
          have hx : (T.drained (.friend i) w b).st.cells .lock = T.st.cells .lock := by
            rw [State.drained_cells]
            exact Lib.put_of_ne (by rw [hj]; simp)
          exact hx.trans h.held
        buf := State.drained_buf.trans hb'
        hus := fun w' hw' => h.hus w' (List.mem_cons_of_mem w hw')
        hvs := h.hvs
        data := by
          rw [State.drained_cells, h.data]
          exact Lib.view_congr _ (Lib.put_of_ne (by rw [hj]; simp)).symm
        spin := h.spin
        outer := fun k hk => (h.outer k hk).drained (hne hk) (by rw [hj]; simp)
        mem := fun x hx => by rw [State.drained_cells, ← Lib.view_cons]; exact h.mem x hx
        log := h.log }

theorem drain_turn {i : ι} (hb : T.buf (.friend i) = w :: b) (hh : T.buf .hakase = [])
    (inside : (s.friend i).pc.outside = false) (ws : Words (T.buf (.friend i)))
    (thread : T.st.friend i = s.friend i) (noloop : ∀ is, (s.friend i).pc = .asm is → ¬ InWait is)
    (outer : ∀ k, k ≠ i → Outer T s k)
    (mem : ∀ x, (∀ k, k ≠ i → x ≠ .data k) → s.cells x = Lib.view T.st.cells (T.buf (.friend i)) x)
    (log : T.st.log = s.log) : Phase (T.drained (.friend i) w b) s := by
  rw [hb] at ws
  obtain ⟨j, -, hj⟩ := ws w List.mem_cons_self
  refine .turn i (State.drained_buf_hakase.trans hh) inside ?_ thread noloop
    (fun k hk => (outer k hk).drained (by simpa using hk) (by rw [hj]; simp)) (fun x hx => ?_) log
  · rw [State.drained_buf]
    exact fun w' hw' => ws w' (List.mem_cons_of_mem w hw')
  · rw [State.drained_buf, State.drained_cells, ← Lib.view_cons, ← hb]
    exact mem x hx

/-- The buffer of a core that has posted: with the last store, hakase can see the request. -/
theorem drain_posting (hinv : Inv P h₀ loc₀ s) (h : Sim T s) {i : ι} {us : List (Write ι L)}
    (hb : T.buf (.friend i) = w :: b) (hh : T.buf .hakase = [])
    (pc : (s.friend i).pc = .asm (.storeImm 1 8 :: waitLoop))
    (buf : T.buf (.friend i) = us ++ [.word .friendCtx 8 1]) (hus : Words us) (loop : Loop (T.st.friend i))
    (same : SameCore (T.st.friend i) (s.friend i))
    (zf : (T.st.friend i).pc = .asm (waitLoop.drop 2) → (T.st.friend i).cpu.zf = true)
    (outer : ∀ k, k ≠ i → Outer T s k)
    (mem : ∀ x, (∀ k, k ≠ i → x ≠ .data k) → s.cells x = Lib.view T.st.cells us x)
    (log : T.st.log = s.log ++ [.post (.friend i)]) : Answers P (T.drained (.friend i) w b) s := by
  have hne : ∀ {k : ι}, k ≠ i → (Party.friend k : Party ι) ≠ .friend i := fun hk => by simpa using hk
  have hh' : (T.drained (.friend i) w b).buf .hakase = [] := State.drained_buf_hakase.trans hh
  cases us with
  | nil =>
      obtain ⟨rfl, rfl⟩ : w = Write.word .friendCtx 8 1 ∧ b = [] := List.cons.inj (hb.symm.trans buf)
      have hrdi : (s.friend i).cpu.rdi = .friendCtx := by
        have := loop.rdi
        rw [same.cpu] at this
        exact this
      have h9 : s.off.friendCtx 9 = 0 := by
        obtain ⟨σ, base, a, -, hheld⟩ := hinv.held (i := i) (by rw [pc]; rfl)
        exact hheld.stage.no_completion P pc
      have hpc : (s.thread (.friend i)).pc = .asm (.storeImm 1 8 :: waitLoop) := pc
      have hstep := step_post P hpc hrdi
      have hcells : (P.step s (.friend i)).cells = Lib.put s.cells (Write.word .friendCtx 8 1) := by
        rw [cells_step]
        simp only [Program.stores, hpc, show (s.thread (.friend i)).cpu.rdi = _ from hrdi]
        rfl
      have hthr : (P.step s (.friend i)).friend i = { s.friend i with pc := .asm waitLoop } := by
        rw [hstep]
        exact Function.update_self ..
      refine .one (.friend i) ⟨?_, ?_, ?_, ?_⟩
      · rw [hstep]
        exact h.hakase
      · rw [hstep]
        exact h.h
      · rw [hstep]
        exact h.calls
      · refine .waiting i State.drained_buf loop (by rw [hthr]; exact ⟨hrdi, _, rfl, .inl rfl⟩) ?_ ?_ ?_ ?_
          (fun k hk => ?_) (fun x hx => ?_) ?_
        · rw [hthr]
          exact ⟨same.cpu, same.done⟩
        · intro hpc hzf
          rw [show (T.drained (.friend i) (Write.word .friendCtx 8 1) []).st.friend i = T.st.friend i from rfl,
            zf hpc] at hzf
          cases hzf
        · rw [hh']
          simp
        · rw [hh']
          refine .inl ⟨?_, (by simp)⟩
          rw [hstep]
          exact h9
        · refine (outer k hk).congr (State.drained_buf_of_ne (hne hk)) rfl ?_ ?_ ?_
          · rw [hstep]
            exact Function.update_of_ne hk _ _
          · rw [State.drained_cells]
            exact Lib.put_of_ne (by simp)
          · rw [hcells]
            exact Lib.put_of_ne (by simp)
        · rw [hh', hcells, State.drained_cells]
          exact Lib.view_congr [Write.word .friendCtx 8 1] (mem x hx)
        · rw [hstep]
          exact log
  | cons u us =>
      rw [hb, List.cons_append] at buf
      obtain ⟨rfl, hb'⟩ := List.cons.inj buf
      obtain ⟨j, -, hj⟩ := hus w List.mem_cons_self
      refine .stay ⟨h.hakase, h.h, h.calls, ?_⟩
      refine .posting i us hh' pc (State.drained_buf.trans hb') (fun w' hw' => hus w' (List.mem_cons_of_mem w hw')) loop
        same zf (fun k hk => (outer k hk).drained (hne hk) (by rw [hj]; simp)) (fun x hx => ?_) log
      rw [State.drained_cells, ← Lib.view_cons]
      exact mem x hx

/-- The buffer of hakase while core `i` waits: with the answer it is empty. -/
theorem drain_serving {i : ι} (hb : T.buf .hakase = w :: b) (hi : T.buf (.friend i) = []) (loop : Loop (T.st.friend i))
    (loop' : Loop (s.friend i)) (same : SameCore (T.st.friend i) (s.friend i))
    (zf : (T.st.friend i).pc = .asm (waitLoop.drop 2) → (T.st.friend i).cpu.zf = false →
      s.off.friendCtx 9 = 1 ∧ T.buf .hakase = [])
    (ws : ∀ w ∈ T.buf .hakase, w.1 ≠ .lock ∧ ∀ k, k ≠ i → w.1 ≠ .data k) (nine : Completion T s (T.buf .hakase))
    (outer : ∀ k, k ≠ i → Outer T s k)
    (mem : ∀ x, (∀ k, k ≠ i → x ≠ .data k) → s.cells x = Lib.view T.st.cells (T.buf .hakase) x)
    (log : T.st.log = s.log) : Phase (T.drained .hakase w b) s := by
  rw [hb] at ws nine
  have hw := ws w List.mem_cons_self
  refine .waiting i (State.drained_buf_friend.trans hi) loop loop' same ?_ ?_ ?_
    (fun k hk => (outer k hk).drained (by simp) (hw.2 k hk)) (fun x hx => ?_) log
  · intro hpc hzf
    rw [(zf hpc hzf).2] at hb
    cases hb
  · rw [State.drained_buf]
    exact fun w' hw' => ws w' (List.mem_cons_of_mem w hw')
  · rw [State.drained_buf]
    rcases nine with ⟨h0, hno⟩ | ⟨-, hnil⟩ | ⟨h1, h0, us, hus, hno⟩
    · exact .inl ⟨h0, fun w' hw' => hno w' (List.mem_cons_of_mem w hw')⟩
    · cases hnil
    · cases us with
      | nil => exact .inr (.inl ⟨h1, (List.cons.inj hus).2⟩)
      | cons u us =>
          obtain ⟨rfl, hb'⟩ := List.cons.inj hus
          refine .inr (.inr ⟨h1, ?_, us, hb', fun w' hw' => hno w' (List.mem_cons_of_mem w hw')⟩)
          have hx : (T.drained .hakase w b).st.cells (.word .friendCtx 9) = T.st.cells (.word .friendCtx 9) := by
            rw [State.drained_cells]
            exact Lib.put_of_ne (hno w List.mem_cons_self)
          exact hx.trans h0
  · rw [State.drained_buf, State.drained_cells, ← Lib.view_cons, ← hb]
    exact mem x hx

end Drain

/-! ## The simulation -/

theorem sim_drain (hinv : Inv P h₀ loc₀ s) (h : Sim T s) (p : Party ι) : Answers P (Tso.step P T (.drain p)) s := by
  cases hb : T.buf p with
  | nil =>
      have hstep : Tso.step P T (.drain p) = T := by
        rw [Tso.step, hb]
      rw [hstep]
      exact .stay h
  | cons w b =>
      rw [step_drain hb]
      have hsim : Phase (T.drained p w b) s → Answers P (T.drained p w b) s := fun hp =>
        .stay ⟨h.hakase, h.h, h.calls, hp⟩
      cases p with
      | hakase =>
          cases h.phase with
          | idle hh => rw [hb] at hh; cases hh
          | released _ _ _ hr => have hh := hr.hh; rw [hb] at hh; cases hh
          | turn _ hh => rw [hb] at hh; cases hh
          | posting _ _ hh => rw [hb] at hh; cases hh
          | waiting i hi loop loop' same zf ws nine outer mem log =>
              exact hsim (drain_serving hb hi loop loop' same zf ws nine outer mem log)
      | friend k =>
          cases ho : (s.friend k).pc.outside with
          | true =>
              rcases h.phase.outer ho with ⟨us, vs, hr⟩ | ⟨hout, hrule⟩
              · exact hsim (drain_released hr hb)
              · obtain ⟨hm, hk⟩ := drain_outer hout hb
                exact hsim (hrule _ _ hm hk)
          | false =>
              have hlock := lock_of_held hinv ho
              have hfree : s.off.lock ≠ 0 := by
                rw [hlock]
                decide
              cases h.phase with
              | idle _ lock => exact absurd lock hfree
              | released _ _ _ hr => exact absurd hr.lock hfree
              | turn i hh inside ws thread noloop outer mem log =>
                  obtain rfl := hinv.inside_unique inside ho
                  exact hsim (drain_turn hb hh inside ws thread noloop outer mem log)
              | posting i us hh pc buf hus loop same zf outer mem log =>
                  obtain rfl := hinv.inside_unique (i := i) (by rw [pc]; rfl) ho
                  exact drain_posting hinv h hb hh pc buf hus loop same zf outer mem log
              | waiting i hi loop loop' =>
                  obtain ⟨is, hpc, -⟩ := loop'.pc
                  obtain rfl := hinv.inside_unique (i := i) (by rw [hpc]; rfl) ho
                  rw [hi] at hb
                  cases hb

theorem sim_exec_hakase (hinv : Inv P h₀ loc₀ s) (h : Sim T s) : Answers P (Tso.step P T (.exec .hakase)) s := by
  have hfree : s.off.lock = 0 → Out s.hakase s.calls := by
    intro hl
    obtain ⟨σ, base, hf⟩ := hinv.free hl
    exact hf.out
  have hheld : ∀ {i : ι}, (s.friend i).pc.outside = false → (∀ is, (s.friend i).pc = .asm is → ¬ InWait is) →
      Out s.hakase s.calls := by
    intro i hi hloop
    obtain ⟨σ, base, a, -, hh⟩ := hinv.held hi
    exact hh.stage.out hloop
  -- the request word is not under way to memory
  have h8 : ∀ {ws : List (Write ι L)}, (∀ w ∈ ws, w.1 ≠ .word .friendCtx 8) →
      s.cells (.word .friendCtx 8) = Lib.view T.st.cells ws (.word .friendCtx 8) →
      s.off.friendCtx 8 = T.st.off.friendCtx 8 := by
    intro ws hws hmem
    rw [Lib.view_eq_of_forall_ne hws] at hmem
    exact hmem
  cases h.phase with
  | idle hh lock outer mem => exact exec_poll h (hfree lock) hh (mem (.word .friendCtx 8) fun _ => by simp)
  | released i us vs hr =>
      refine exec_poll h (hfree hr.lock) hr.hh (h8 (fun w hw => ?_) (hr.mem _ fun _ => by simp))
      rcases List.mem_append.mp hw with hw | hw
      · exact hr.hus.ne_request w hw
      · rw [List.mem_singleton.mp hw]
        simp
  | turn i hh inside ws thread noloop outer mem =>
      exact exec_poll h (hheld inside noloop) hh (h8 ws.ne_request (mem _ fun _ _ => by simp))
  | posting i us hh pc buf hus loop same zf outer mem =>
      refine exec_poll h (hheld (i := i) (by rw [pc]; rfl) fun is his => ?_) hh (h8 hus.ne_request (mem _ fun _ _ => by simp))
      rw [pc] at his
      cases his
      exact not_inWait_saving []
  | waiting i hi loop loop' same zf ws nine outer mem log =>
      exact exec_serve hi loop loop' same zf ws nine outer mem log hinv h

theorem sim_exec_friend (hinv : Inv P h₀ loc₀ s) (h : Sim T s) (k : ι) :
    Answers P (Tso.step P T (.exec (.friend k))) s := by
  cases ho : (s.friend k).pc.outside with
  | true =>
      by_cases hacq : ∃ a, (T.st.friend k).pc = .lockCas a ∧ T.buf (.friend k) = [] ∧ T.st.off.lock = 0
      · obtain ⟨a, hpc, hb, hl⟩ := hacq
        exact exec_acquire hinv h hpc hb hl
      · exact exec_outside h ho fun a hpc hb hl => hacq ⟨a, hpc, hb, hl⟩
  | false =>
      have hfree : s.off.lock ≠ 0 := by
        rw [lock_of_held hinv ho]
        decide
      cases h.phase with
      | idle _ lock => exact absurd lock hfree
      | released _ _ _ hr => exact absurd hr.lock hfree
      | turn i hh inside ws thread noloop outer mem log =>
          obtain rfl := hinv.inside_unique inside ho
          exact exec_turn hh inside ws thread noloop outer mem log hinv h
      | posting i us hh pc buf hus loop same zf outer mem log =>
          obtain rfl := hinv.inside_unique (i := i) (by rw [pc]; rfl) ho
          exact exec_posting hinv h hh pc buf hus loop same zf outer mem log
      | waiting i hi loop loop' same zf ws nine outer mem log =>
          obtain ⟨is, hpc, -⟩ := loop'.pc
          obtain rfl := hinv.inside_unique (i := i) (by rw [hpc]; rfl) ho
          exact exec_waiting hi loop loop' same zf ws nine outer mem log h

/-- **Every move is answered.** -/
theorem sim_step (hinv : Inv P h₀ loc₀ s) (h : Sim T s) : (m : Move ι) → Answers P (Tso.step P T m) s
  | .exec .hakase => sim_exec_hakase hinv h
  | .exec (.friend k) => sim_exec_friend hinv h k
  | .drain p => sim_drain hinv h p

theorem sim_init (h : H) (loc : ι → L) : Sim (Tso.init P h loc) (P.init h loc) :=
  ⟨rfl, rfl, rfl, .idle rfl rfl (fun _ => ⟨List.forall_mem_nil _, rfl, .inl rfl⟩) (fun _ _ => rfl) rfl⟩

theorem sim_run (P : Program ι S H L) (h : H) (loc : ι → L) (ms : List (Move ι)) :
    ∃ ts, Sim (Lib.run (Tso.step P) (Tso.init P h loc) ms) (Lib.run P.step (P.init h loc) ts) := by
  obtain ⟨ts, -, hsim⟩ := Lib.run_simulates (Tso.step P) P.step (s := Tso.init P h loc) (t := P.init h loc)
    (R := fun T s => Inv P h loc s ∧ Sim T s) ⟨inv_init P, sim_init h loc⟩ (fun T s m hR => by
      obtain ⟨us, hus⟩ := sim_step hR.1 hR.2 m
      exact ⟨us, hR.1.run us, hus⟩) ms
  exact ⟨ts, hsim⟩

/-! ## What the buffers cannot change -/

theorem Phase.log (h : Phase T s) : T.st.log = s.log ∨ ∃ i, T.st.log = s.log ++ [.post (.friend i)] := by
  cases h with
  | idle _ _ _ _ log => exact .inl log
  | released _ _ _ h => exact .inl h.log
  | turn _ _ _ _ _ _ _ _ log => exact .inl log
  | posting i _ _ _ _ _ _ _ _ _ _ log => exact .inr ⟨i, log⟩
  | waiting _ _ _ _ _ _ _ _ _ _ log => exact .inl log

theorem Phase.cells (h : Phase T s) (hb : ∀ p, T.buf p = []) : T.st.cells = s.cells := by
  have houter : ∀ {k : ι}, Outer T s k → s.loc k = T.st.loc k := by
    intro k ho
    have hd := ho.data
    rw [hb] at hd
    exact hd
  -- the holder's own data are in `mem`, those of the others in `outer`
  have hall : ∀ i, (∀ k, k ≠ i → Outer T s k) →
      (∀ x, (∀ k, k ≠ i → x ≠ .data k) → s.cells x = T.st.cells x) → T.st.cells = s.cells := by
    intro i ho hm
    funext x
    by_cases hx : ∀ k, k ≠ i → x ≠ .data k
    · exact (hm x hx).symm
    · push Not at hx
      obtain ⟨k, hk, rfl⟩ := hx
      exact (houter (ho k hk)).symm
  cases h with
  | idle _ _ outer mem =>
      funext x
      cases x with
      | word b j => exact (mem (.word b j) fun _ => by simp).symm
      | lock => exact (mem .lock fun _ => by simp).symm
      | data k => exact (houter (outer k)).symm
  | released i us vs h =>
      have hi := h.buf
      rw [hb] at hi
      exact absurd hi.symm (by simp)
  | turn i _ _ _ _ _ outer mem =>
      rw [hb] at mem
      exact hall i outer mem
  | posting i us _ _ buf =>
      rw [hb] at buf
      exact absurd buf.symm (by simp)
  | waiting i _ _ _ _ _ _ _ outer mem =>
      rw [hb] at mem
      exact hall i outer mem

/-- When all cores are through, the machine without buffers is through as well, and each core reads of its own data
what is there. -/
theorem Phase.finished (h : Phase T s) (hf : ∀ i, Finished P T.st i) :
    (∀ i, Finished P s i) ∧ T.st.log = s.log ∧ ∀ i, (T.view (.friend i)).loc i = s.loc i := by
  have hspin : ∀ {k : ι}, Spin (T.st.friend k) (s.friend k) → Finished P s k := by
    rintro k (heq | ⟨a, htry, -⟩)
    · unfold Finished
      rw [← heq]
      exact hf k
    · rcases htry with hpc | hpc | hpc <;> exact absurd ((hf k).1.symm.trans hpc) (by simp)
  have hloop : ∀ {k : ι}, ¬ Loop (T.st.friend k) := by
    rintro k ⟨-, is, hpc, -⟩
    exact absurd ((hf k).1.symm.trans hpc) (by simp)
  cases h with
  | idle _ _ outer _ log => exact ⟨fun k => hspin (outer k).spin, log, fun k => (outer k).data.symm⟩
  | released i us vs h =>
      refine ⟨fun k => ?_, h.log, fun k => ?_⟩
      · by_cases hk : k = i
        · rw [hk]
          exact hspin h.spin
        · exact hspin (h.outer k hk).spin
      · by_cases hk : k = i
        · subst hk
          have hview : Lib.view T.st.cells (T.buf (.friend k)) (.data k) = Lib.view T.st.cells vs (.data k) := by
            rw [h.buf, Lib.view_append, Lib.view_cons]
            refine Lib.view_congr vs (Eq.trans ?_ (Lib.view_eq_of_forall_ne (h.hus.ne_data k)))
            exact Lib.put_of_ne (by simp)
          exact hview.trans h.data.symm
        · exact (h.outer k hk).data.symm
  | turn i _ inside _ thread =>
      rw [← thread, (hf i).1] at inside
      cases inside
  | posting i _ _ _ _ _ loop => exact absurd loop hloop
  | waiting i _ loop => exact absurd loop hloop

/-- **Store buffers add nothing.** Every run in which the stores of hakase and of the cores reach memory late, whenever
they do, has a run without store buffers to the same point: hakase is at the same instruction with the same registers,
its state and its calls of `TryReceive` are the same, every core has returned from the same `_OFFLOAD`s, and the same
has happened, but perhaps for one request that is posted and still under way; and when no store is under way, memory
is the same. -/
theorem tso_refines (P : Program ι S H L) (h : H) (loc : ι → L) (ms : List (Move ι)) :
    ∃ ts, let T := Lib.run (Tso.step P) (Tso.init P h loc) ms
      let s := Lib.run P.step (P.init h loc) ts
      T.st.hakase = s.hakase ∧ T.st.h = s.h ∧ T.st.calls = s.calls ∧
      (∀ i, (T.st.friend i).done = (s.friend i).done) ∧
      (T.st.log = s.log ∨ ∃ i, T.st.log = s.log ++ [.post (.friend i)]) ∧
      ((∀ p, T.buf p = []) → T.st.off = s.off ∧ T.st.loc = s.loc) := by
  obtain ⟨ts, hsim⟩ := sim_run P h loc ms
  refine ⟨ts, hsim.hakase, hsim.h, hsim.calls, fun i => (hsim.phase.done i).symm, hsim.phase.log, fun hb => ?_⟩
  have hcells := hsim.phase.cells hb
  exact ⟨congrArg (fun m => (⟨fun k => m (.word .friendCtx k), fun k => m (.word .hakaseCtx k), m .lock⟩ : Offloader))
    hcells, congrArg (fun m i => m (.data i)) hcells⟩

theorem ofRequest_post (r : ι × Nat) (l : List (Event ι S)) (p : Party ι) :
    ofRequest r (l ++ [.post p]) = ofRequest r l := by
  rw [ofRequest_append]
  exact List.append_nil _

/-- **Exactly once, under store buffers.** In every state of every run: no core but hakase has executed a block, each
block has been executed at most once, and once, between the acquisition and the release of `_lock`, if its `_OFFLOAD`
has returned; every block, return and resumption comes right after what it has to wait for; and when all cores are
through, hakase's state and what each core reads of its own data are those of running the blocks one after another, in
the order in which `_lock` was acquired. -/
theorem tso_exactly_once (P : Program ι S H L) (h : H) (loc : ι → L) (ms : List (Move ι)) :
    let T := Lib.run (Tso.step P) (Tso.init P h loc) ms
    Justified P T.st.log ∧
    (∀ p id s, .exec p id s ∈ T.st.log → p = .hakase ∧ ∃ i n, id = some (i, n)) ∧
    (∀ r, executions r T.st.log ≤ 1) ∧
    (∀ i n, n < (T.st.friend i).done →
      ∃ s c d, (P.prog i)[n]? = some s ∧ ofRequest (i, n) T.st.log = requestEvents P i n s c d) ∧
    ((∀ i, Finished P T.st i) →
      T.st.h = ((Serial.init P h loc).runs P (acquired T.st.log)).h ∧
      (∀ i, (T.view (.friend i)).loc i = ((Serial.init P h loc).runs P (acquired T.st.log)).loc i) ∧
      ∀ i, sitesOf i (acquired T.st.log) = P.prog i) := by
  intro T
  obtain ⟨ts, hsim⟩ := sim_run P h loc ms
  have hinv : Inv P h loc (Lib.run P.step (P.init h loc) ts) := inv_run P ts
  generalize hs : Lib.run P.step (P.init h loc) ts = s at hsim hinv
  have hjust : Justified P T.st.log := by
    rcases hsim.phase.log with hl | ⟨i, hl⟩
    · rw [hl]
      exact justified_log P hinv
    · rw [hl]
      exact (justified_log P hinv).concat trivial
  have hreq : ∀ r, ofRequest r T.st.log = ofRequest r s.log := by
    intro r
    rcases hsim.phase.log with hl | ⟨i, hl⟩
    · rw [hl]
    · rw [hl, ofRequest_post]
  refine ⟨hjust, fun p id s hmem => ?_, fun r => ?_, fun i n hn => ?_, fun hf => ?_⟩
  · obtain ⟨l₁, l₂, hl⟩ := List.append_of_mem hmem
    obtain ⟨i, n, -, -, hp, hid, -⟩ := hjust.follows hl
    exact ⟨hp, i, n, hid⟩
  · rw [executions, hreq]
    exact executions_le_one P hinv r
  · rw [← hsim.phase.done i] at hn
    rw [hreq]
    exact ofRequest_of_done P hinv hn
  · obtain ⟨hfs, hlog, hloc⟩ := hsim.phase.finished hf
    obtain ⟨hh, hl, hsites⟩ := finished_serial P hinv hfs
    rw [hlog]
    exact ⟨hsim.h.trans hh, fun i => (hloc i).trans (congrFun hl i), hsites⟩

end Tso

end Toshokan.Offload
