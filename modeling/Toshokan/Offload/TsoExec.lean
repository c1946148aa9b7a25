import Toshokan.Offload.TsoPhase

/-!
# The moves of a machine with store buffers

Each instruction of a party whose stores are buffered is answered by steps of the machine without buffers, none, one,
or a few turns of a loop, so that the two agree again.

* `Inv.free`, `Inv.held`, `Inv.inside_unique`, `Stage.out` : what the invariant says about the machine without buffers;
* `exec_outside`, `exec_acquire` : a core that does not hold `_lock`, and the exchange that gets it;
* `exec_poll` : hakase between two requests;
* `exec_turn`, `exec_posting`, `exec_waiting` : the core that holds `_lock`; `exec_serve` : hakase while it waits.
-/

namespace Toshokan.Offload

variable {ι S H L : Type}

/-! ## What a stage says about its reads and stores -/

section
variable {P : Program ι S H L} {s : Offload.State ι S H L}

theorem Outside.pc_outside {σ : Serial ι H L} {k : ι} {t : Thread S} {l : L} (h : Outside P σ k t l) :
    t.pc.outside = true := by
  cases h with
  | next hpc => rw [hpc]; rfl
  | trying a hpc => rcases hpc with hpc | hpc | hpc <;> rw [hpc] <;> rfl

/-- Hakase is outside a request while its holder does not wait. -/
theorem Stage.out {σ : Serial ι H L} {i : ι} {a : S} {base : List (Event ι S)} (h : Stage P σ i a base (s.view i))
    (hloop : ∀ is, (s.friend i).pc = .asm is → ¬ InWait is) : Out s.hakase s.calls := by
  have hwait : ∀ {b}, ¬ Waiting (s.friend i) b := by
    rintro b ⟨-, hpc | hpc | ⟨hpc, -⟩⟩
    · exact hloop _ hpc (.inl rfl)
    · exact hloop _ hpc (.inr (.inl rfl))
    · exact hloop _ hpc (.inr (.inr rfl))
  cases h with
  | entered _ _ _ ho | saving _ _ _ _ _ ho | loading _ _ _ _ _ _ ho | cleared _ _ _ _ _ _ _ ho
  | resumed _ _ _ _ _ ho | unlocking _ _ _ ho => exact ho
  | posted ht | serving _ _ _ _ ht | served ht => exact absurd ht hwait

/-- No completion is stored before the request is posted. -/
theorem Stage.no_completion (P : Program ι S H L) {σ : Serial ι H L} {i : ι} {a : S} {base : List (Event ι S)}
    (h : Stage P σ i a base (s.view i)) (hpc : (s.friend i).pc = .asm (.storeImm 1 8 :: waitLoop)) :
    s.off.friendCtx 9 = 0 := by
  have hne : ∀ {pc : Pc S}, (s.friend i).pc = pc → pc = .asm (.storeImm 1 8 :: waitLoop) := fun h => h.symm.trans hpc
  cases h with
  | entered _ _ hw | saving _ _ _ _ hw | posted _ _ hw | cleared _ _ _ _ _ _ hw | resumed _ _ _ _ hw
  | unlocking _ _ hw => exact hw.2
  | serving _ _ _ _ _ h9 => exact h9
  | served ht =>
      obtain ⟨-, hpc' | hpc' | ⟨hpc', -⟩⟩ := ht <;> exact absurd (Pc.asm.inj (hne hpc')) (by decide)
  | loading _ hr =>
      obtain ⟨body, hpc', hb, -⟩ := hr
      have hmem : Instr.storeImm 1 8 ∈ body ++ [.storeImm 0 9, .movImm 1, .ret] := by
        rw [Pc.asm.inj (hne hpc')]
        exact List.mem_cons_self
      rcases List.mem_append.mp hmem with hm | hm
      · exact absurd (List.all_eq_true.mp hb _ hm) Bool.false_ne_true
      · exact absurd hm (by decide)

namespace Tso

/-- Hakase outside a request looks at the request word only, and stores nothing. -/
theorem Out.looks (ho : Out s.hakase s.calls) :
    P.stores s .hakase = [] ∧ (∀ x ∈ P.reads s .hakase, x = .word .friendCtx 8) ∧
      (s.thread .hakase).pc.locked = false := by
  have hpc : ∀ {pc}, s.hakase.pc = pc → (s.thread .hakase).pc = pc := fun h => h
  cases ho with
  | next h | test _ h | empty _ h | one _ _ _ h =>
      refine ⟨?_, ?_, ?_⟩
      · simp only [Program.stores, hpc h]
      · simp only [Program.reads, hpc h, List.mem_singleton, List.not_mem_nil, false_imp_iff, implies_true, imp_self]
      · rw [hpc h]
        rfl

theorem Words.ne_lock {ws : List (Write ι L)} (h : Words ws) : ∀ w ∈ ws, w.1 ≠ .lock := by
  intro w hw
  obtain ⟨j, -, hj⟩ := h w hw
  simp [hj]

theorem Words.ne_data {ws : List (Write ι L)} (h : Words ws) (k : ι) : ∀ w ∈ ws, w.1 ≠ .data k := by
  intro w hw
  obtain ⟨j, -, hj⟩ := h w hw
  simp [hj]

theorem Words.ne_request {ws : List (Write ι L)} (h : Words ws) : ∀ w ∈ ws, w.1 ≠ .word .friendCtx 8 := by
  intro w hw
  obtain ⟨j, hj, hw'⟩ := h w hw
  simp [hw', hj]

theorem reads_friend {i : ι} (hb : ∀ a, (s.friend i).pc ≠ .block a) {x : Loc ι} (hx : x ∈ P.reads s (.friend i)) {k : ι}
    (hk : k ≠ i) : x ≠ .data k := by
  have hpc : ∀ {pc}, (s.friend i).pc = pc → (s.thread (.friend i)).pc = pc := fun h => h
  rintro rfl
  cases hc : (s.friend i).pc with
  | block a => exact hb a hc
  | next =>
      simp only [Program.reads, hpc hc, List.mem_singleton, Loc.data.injEq] at hx
      exact hk hx
  | asm is =>
      simp only [Program.reads, hpc hc] at hx
      split at hx <;> simp_all
  | _ => simp [Program.reads, hpc hc] at hx

theorem stores_plain {p : Party ι} {j : Instr} {rest : List Instr} (hpc : (s.thread p).pc = .asm (j :: rest))
    (hj : j.plain = true) : ∀ w ∈ P.stores s p, ∃ k, k < 8 ∧ w.1 = .word (s.thread p).cpu.rdi k := by
  intro w hw
  cases j with
  | store r k =>
      simp only [Program.stores, hpc, List.mem_singleton] at hw
      exact ⟨k, of_decide_eq_true hj, by rw [hw]; rfl⟩
  | storeImm | je | ret => exact absurd hj Bool.false_ne_true
  | _ => simp [Program.stores, hpc] at hw

theorem reads_hakase {i : ι} (hb : ∀ a, s.hakase.pc = .block a → P.owner s.hakase.cpu.ctx.rsp = some i) {x : Loc ι}
    (hx : x ∈ P.reads s .hakase) {k : ι} (hk : k ≠ i) : x ≠ .data k := by
  have hpc : ∀ {pc}, s.hakase.pc = pc → (s.thread .hakase).pc = pc := fun h => h
  rintro rfl
  cases hc : s.hakase.pc with
  | block a =>
      simp only [Program.reads, hpc hc, show P.owner (s.thread .hakase).cpu.ctx.rsp = _ from hb a hc,
        List.mem_singleton, Loc.data.injEq] at hx
      exact hk hx
  | asm is =>
      simp only [Program.reads, hpc hc] at hx
      split at hx <;> simp_all
  | _ => simp [Program.reads, hpc hc] at hx

/-- The stores of hakase while it serves a request: none to `_lock` or to another core's data, and to the completion
word only the answer. -/
theorem Serve.stores {σ : Serial ι H L} (hσ : σ.Owned P) {i : ι} {a : S} {c₀ : Ctx} {k : Nat} {b : Bool}
    (hs : Serve P σ i a c₀ s.off s.hakase k b) :
    (∀ w ∈ P.stores s .hakase, w.1 ≠ .lock ∧ ∀ j, j ≠ i → w.1 ≠ .data j) ∧
      ((∀ w ∈ P.stores s .hakase, w.1 ≠ .word .friendCtx 9) ∨ P.stores s .hakase = [.word .friendCtx 9 1]) := by
  have hpc' : ∀ {pc}, s.hakase.pc = pc → (s.thread .hakase).pc = pc := fun h => h
  have hnil : P.stores s .hakase = [] → (∀ w ∈ P.stores s .hakase, w.1 ≠ .lock ∧ ∀ j, j ≠ i → w.1 ≠ .data j) ∧
      ((∀ w ∈ P.stores s .hakase, w.1 ≠ .word .friendCtx 9) ∨ P.stores s .hakase = [.word .friendCtx 9 1]) := by
    intro h
    rw [h]
    exact ⟨(by simp), .inl (by simp)⟩
  cases hs with
  | set _ hr | jump _ hr | set' _ hr | jump' _ hr =>
      rcases hr.inv with ⟨hpc, -⟩ | ⟨j, rest, hpc, hj, -⟩
      · exact hnil (by simp only [Program.stores, hpc' hpc])
      · refine ⟨fun w hw => ?_, .inl fun w hw => ?_⟩
        · obtain ⟨k, -, hw⟩ := stores_plain (hpc' hpc) hj w hw
          simp [hw]
        · obtain ⟨k, hk, hw⟩ := stores_plain (hpc' hpc) hj w hw
          rw [hw, ne_eq, Loc.word.injEq]
          rintro ⟨-, rfl⟩
          exact absurd hk (by decide)
  | clear hpc =>
      have hst : P.stores s .hakase = [.word .friendCtx 8 0] := by simp only [Program.stores, hpc' hpc]
      rw [hst]
      refine ⟨fun w hw => ?_, .inl fun w hw => ?_⟩ <;> rw [List.mem_singleton.mp hw] <;> simp [Write.word]
  | block hpc hctx =>
      have ho : P.owner (s.thread .hakase).cpu.ctx.rsp = some i := by
        rw [show (s.thread .hakase).cpu.ctx = _ from hctx]
        exact Serial.owner_before P hσ i
      simp only [Program.stores, hpc' hpc, ho]
      refine ⟨fun w hw => ?_, .inl fun w hw => ?_⟩ <;> rw [List.mem_singleton.mp hw]
      · exact ⟨(by simp), fun j hj => by simpa [Write.data] using Ne.symm hj⟩
      · simp
  | answer hpc =>
      have hst : P.stores s .hakase = [.word .friendCtx 9 1] := by simp only [Program.stores, hpc' hpc]
      refine ⟨fun w hw => ?_, .inr hst⟩
      rw [hst] at hw
      rw [List.mem_singleton.mp hw]
      simp [Write.word]
  | callSet hpc | testSet hpc | callLong hpc | testWait hpc | callSet' hpc | testSet' hpc | callLong' hpc
  | testSet'' hpc => exact hnil (by simp only [Program.stores, hpc' hpc])

end Tso

end

/-! ## What the invariant says about the machine without buffers -/

variable [DecidableEq ι]

section
variable {P : Program ι S H L} {h₀ : H} {loc₀ : ι → L} {s : State ι S H L}

theorem Inv.free (h : Inv P h₀ loc₀ s) (hl : s.off.lock = 0) : ∃ σ base, Free P σ base s := by
  obtain ⟨rs, -, hfree | ⟨i, a, hheld, -⟩⟩ := h
  · exact ⟨_, _, hfree⟩
  · have h1 : s.off.lock = 1 := hheld.lock
    rw [hl] at h1
    exact absurd h1 (by decide)

theorem Inv.held (h : Inv P h₀ loc₀ s) {i : ι} (hi : (s.friend i).pc.outside = false) :
    ∃ σ base a, σ.Owned P ∧ Held P σ i a base (s.view i) := by
  have hno : ∀ {σ : Serial ι H L}, ¬ Outside P σ i (s.friend i) (s.loc i) := by
    intro σ ho
    rw [ho.pc_outside] at hi
    cases hi
  obtain ⟨rs, -, hfree | ⟨j, a, hheld, hothers⟩⟩ := h
  · exact absurd (hfree.cores i) hno
  · by_cases hj : i = j
    · subst hj
      exact ⟨_, _, a, Serial.owned_runs P (Serial.owned_init P h₀ loc₀) rs, hheld⟩
    · exact absurd (hothers i hj) hno

theorem Inv.inside_unique (h : Inv P h₀ loc₀ s) {i k : ι} (hi : (s.friend i).pc.outside = false)
    (hk : (s.friend k).pc.outside = false) : k = i := by
  have hno : ∀ {σ : Serial ι H L} {j : ι}, (s.friend j).pc.outside = false → ¬ Outside P σ j (s.friend j) (s.loc j) := by
    intro σ j hj ho
    rw [ho.pc_outside] at hj
    cases hj
  obtain ⟨rs, -, hfree | ⟨j, a, -, hothers⟩⟩ := h
  · exact absurd (hfree.cores i) (hno hi)
  · have hij : i = j := by_contra fun hne => hno hi (hothers i hne)
    have hkj : k = j := by_contra fun hne => hno hk (hothers k hne)
    rw [hij, hkj]

theorem Inv.run (h : Inv P h₀ loc₀ s) (ts : List (Party ι)) : Inv P h₀ loc₀ (Lib.run P.step s ts) :=
  Lib.run_induct P.step h (fun _ p => inv_step P p) ts

end

namespace Tso

variable {P : Program ι S H L} {h₀ : H} {loc₀ : ι → L} {T T' : State ι S H L} {s s' : Offload.State ι S H L}

/-- The machine without buffers comes to a state that agrees with `T'`. -/
def Answers (P : Program ι S H L) (T' : State ι S H L) (s : Offload.State ι S H L) : Prop :=
  ∃ us, Sim T' (Lib.run P.step s us)

theorem Answers.stay (h : Sim T' s) : Answers P T' s := ⟨[], h⟩

theorem Answers.one (p : Party ι) (h : Sim T' (P.step s p)) : Answers P T' s := ⟨[p], h⟩

theorem thread_eq {t t' : Thread S} (hcpu : t.cpu = t'.cpu) {pc : Pc S} (hpc : pc = t'.pc) (hdone : t.done = t'.done) :
    ({ t with pc := pc } : Thread S) = t' := by
  obtain ⟨_, _, _⟩ := t'
  cases hcpu
  cases hpc
  cases hdone
  rfl

theorem view_of_nil {p : Party ι} (h : T.buf p = []) : T.view p = T.st := by
  rw [State.view, h]
  rfl

theorem exec_move {p : Party ι} {t : Thread S} (hl : (T.st.thread p).pc.locked = false)
    (hst : P.stores (T.view p) p = []) (hstep : P.step (T.view p) p = (T.view p).setThread p t) :
    Tso.step P T (.exec p) = ⟨T.st.setThread p t, T.buf⟩ := by
  rw [Tso.step, if_neg (by rw [hl]; decide), hst, hstep, List.append_nil, Function.update_eq_self]
  cases p <;> rfl

/-! ## A core outside of a request -/

theorem exec_trying {k : ι} {a : S} (hpc : (T.st.friend k).pc.trying a)
    (hno : (T.st.friend k).pc = .lockCas a → T.buf (.friend k) = [] → T.st.off.lock ≠ 0) :
    ∃ pc : Pc S, pc.trying a ∧
      Tso.step P T (.exec (.friend k)) = ⟨T.st.setThread (.friend k) { T.st.friend k with pc := pc }, T.buf⟩ := by
  have hsame : (⟨T.st.setThread (.friend k) (T.st.friend k), T.buf⟩ : State ι S H L) = T := by
    simp only [Offload.State.setThread, Function.update_eq_self]
  rcases hpc with hpc | hpc | hpc
  · have hpc' : ((T.view (.friend k)).thread (.friend k)).pc = .lockTest a := hpc
    refine ⟨if (T.view (.friend k)).off.lock ≠ 0 then .lockPause a else .lockCas a, ?_, exec_move ?_ ?_ (P.step_eq hpc')⟩
    · split
      · exact .inr (.inr rfl)
      · exact .inr (.inl rfl)
    · rw [show (T.st.thread (.friend k)).pc = _ from hpc]
      rfl
    · simp only [Program.stores, hpc']
  · -- the locked instruction
    have hlocked : (T.st.thread (.friend k)).pc.locked = true := by
      rw [show (T.st.thread (.friend k)).pc = _ from hpc]
      rfl
    cases hb : T.buf (.friend k) with
    | cons w b =>
        refine ⟨.lockCas a, .inr (.inl rfl), ?_⟩
        rw [Tso.step, if_pos hlocked, hb, ← hpc]
        exact hsame.symm
    | nil =>
        refine ⟨.lockPause a, .inr (.inr rfl), ?_⟩
        rw [Tso.step, if_pos hlocked, hb]
        dsimp only
        rw [P.step_eq (p := .friend k) hpc, Program.stepAt, if_neg (hno hpc hb)]
        rfl
  · have hpc' : ((T.view (.friend k)).thread (.friend k)).pc = .lockPause a := hpc
    refine ⟨.lockTest a, .inl rfl, exec_move ?_ ?_ (P.step_eq hpc')⟩
    · rw [show (T.st.thread (.friend k)).pc = _ from hpc]
      rfl
    · simp only [Program.stores, hpc']

/-- What a core does between two `_OFFLOAD`s: it stores to nothing but what it keeps for itself. -/
theorem step_next {k : ι} (hpc : (s.friend k).pc = .next) :
    (P.step s (.friend k)).h = s.h ∧ (P.step s (.friend k)).log = s.log ∧ (P.step s (.friend k)).calls = s.calls ∧
      ∀ w ∈ P.stores s (.friend k), w.1 = .data k := by
  have hpc' : (s.thread (.friend k)).pc = .next := hpc
  rw [P.step_eq hpc', Program.stepAt, Program.stepNext]
  simp only [Program.stores, Offload.State.thread, hpc]
  cases (P.prog k)[(s.friend k).done]? with
  | none => exact ⟨rfl, rfl, rfl, (by simp)⟩
  | some a =>
      refine ⟨rfl, rfl, rfl, fun w hw => ?_⟩
      rw [List.mem_singleton.mp hw]
      rfl

/-- The outcome of a step of a core outside of a request, here and there. -/
structure CoreMove (k : ι) (T T' : State ι S H L) (s s' : Offload.State ι S H L) (vs : List (Write ι L)) : Prop where
  move : OuterMove k T T' s s'
  spin : Spin (T'.st.friend k) (s'.friend k)
  cells : T'.st.cells = T.st.cells
  buf : T'.buf (.friend k) = T.buf (.friend k) ++ vs
  writes : ∀ w ∈ vs, w.1 = .data k
  data : s'.loc k = Lib.view T.st.cells (T.buf (.friend k) ++ vs) (.data k)

theorem exec_core {k : ι} (h : Sim T s) (ho : (s.friend k).pc.outside = true)
    (hno : ∀ a, (T.st.friend k).pc = .lockCas a → T.buf (.friend k) = [] → T.st.off.lock ≠ 0)
    (spin : Spin (T.st.friend k) (s.friend k)) (data : s.loc k = Lib.view T.st.cells (T.buf (.friend k)) (.data k)) :
    ∃ us vs, CoreMove k T (Tso.step P T (.exec (.friend k))) s (Lib.run P.step s us) vs := by
  -- trying for `_lock`: no step of the other machine
  have htry : ∀ a, (T.st.friend k).pc.trying a → (s.friend k).pc.trying a → (T.st.friend k).cpu = (s.friend k).cpu →
      ∃ us vs, CoreMove k T (Tso.step P T (.exec (.friend k))) s (Lib.run P.step s us) vs := by
    intro a ht hs hcpu
    obtain ⟨pc, hpc, hstep⟩ := exec_trying (P := P) ht (hno a)
    refine ⟨[], [], ?_⟩
    rw [hstep, Lib.run_nil]
    have hcells : (T.st.setThread (.friend k) { T.st.friend k with pc := pc }).cells = T.st.cells :=
      Offload.State.cells_setThread T.st _ _
    refine ⟨⟨⟨rfl, rfl⟩, ⟨rfl, rfl⟩, ⟨rfl, rfl⟩, ⟨rfl, rfl⟩, fun j hj => ⟨?_, rfl⟩, fun x _ => ⟨?_, rfl⟩, fun _ _ => rfl⟩,
      ?_, hcells, (List.append_nil _).symm, (by simp), by rwa [List.append_nil]⟩
    · exact Function.update_of_ne hj _ _
    · rw [hcells]
    · refine .inr ⟨a, ?_, hs, ?_, ?_⟩
      · simp only [Offload.State.setThread, Function.update_self]
        exact hpc
      · simp only [Offload.State.setThread, Function.update_self]
        exact hcpu
      · simp only [Offload.State.setThread, Function.update_self]
        exact spin.done
  rcases spin with heq | ⟨a, ht, hs, hcpu, -⟩
  · cases hpc : (s.friend k).pc with
    | lockTest a => exact htry a (by rw [heq, hpc]; exact .inl rfl) (by rw [hpc]; exact .inl rfl) (by rw [heq])
    | lockCas a => exact htry a (by rw [heq, hpc]; exact .inr (.inl rfl)) (by rw [hpc]; exact .inr (.inl rfl)) (by rw [heq])
    | lockPause a => exact htry a (by rw [heq, hpc]; exact .inr (.inr rfl)) (by rw [hpc]; exact .inr (.inr rfl)) (by rw [heq])
    | next =>
        have hsame : SameFor P (.friend k) s (T.view (.friend k)) := by
          refine ⟨heq.symm, fun j => h.phase.done j, h.h.symm, fun x hx => ?_⟩
          have hpc' : (s.thread (.friend k)).pc = .next := hpc
          simp only [Program.reads, hpc', List.mem_singleton] at hx
          subst hx
          rw [State.view, Offload.State.cells_withCells]
          exact data
        obtain ⟨t, hh, es, cs, ws, hws, hstep, hexec⟩ := exec_same hsame (by
          rw [show (s.thread (.friend k)).pc = _ from hpc]
          rfl)
        obtain ⟨h1, h2, h3, h4⟩ := step_next (P := P) hpc
        rw [hws] at h4
        rw [hstep] at h1 h2 h3
        obtain rfl : hh = s.h := h1
        obtain rfl : es = [] := List.append_right_eq_self.mp h2
        obtain rfl : cs = [] := List.append_right_eq_self.mp h3
        have hne : ∀ {x : Loc ι}, x ≠ .data k → ∀ w ∈ ws, w.1 ≠ x := fun hx w hw hwx => hx (hwx.symm.trans (h4 w hw))
        refine ⟨[.friend k], ws, ?_⟩
        rw [hexec, show Lib.run P.step s [.friend k] = P.step s (.friend k) from rfl, hstep]
        refine ⟨⟨⟨rfl, rfl⟩, ⟨h.h.symm, rfl⟩, ⟨List.append_nil _, List.append_nil _⟩,
          ⟨List.append_nil _, List.append_nil _⟩, fun j hj => ?_, fun x hx => ?_, fun q hq => ?_⟩, .inl ?_, ?_, ?_, h4, ?_⟩
        · exact ⟨Function.update_of_ne hj _ _, Function.update_of_ne hj _ _⟩
        · rw [State.issued_cells, Offload.State.after_cells, Lib.view_eq_of_forall_ne (hne hx)]
          exact ⟨rfl, rfl⟩
        · exact State.issued_buf_of_ne T _ t s.h [] [] ws hq
        · rw [Offload.State.after_friend]
          exact Offload.State.after_friend ..
        · exact State.issued_cells ..
        · exact State.issued_buf ..
        · have := congrFun (Offload.State.after_cells s (.friend k) t s.h [] [] ws) (.data k)
          refine this.trans ?_
          rw [Lib.view_append]
          exact Lib.view_congr ws data
    | _ => rw [hpc] at ho; exact absurd ho Bool.false_ne_true
  · exact htry a ht hs hcpu

theorem exec_outside {k : ι} (h : Sim T s) (ho : (s.friend k).pc.outside = true)
    (hno : ∀ a, (T.st.friend k).pc = .lockCas a → T.buf (.friend k) = [] → T.st.off.lock ≠ 0) :
    Answers P (Tso.step P T (.exec (.friend k))) s := by
  have hsim : ∀ {T' : State ι S H L} {s' : Offload.State ι S H L}, OuterMove k T T' s s' → Phase T' s' → Sim T' s' :=
    fun hm hp => ⟨by rw [hm.hakase.1, hm.hakase.2, h.hakase], by rw [hm.h.1, hm.h.2, h.h],
      by rw [hm.calls.1, hm.calls.2, h.calls], hp⟩
  rcases h.phase.outer ho with ⟨us, vs, hr⟩ | ⟨hout, hrule⟩
  · -- the buffer still holds the release of `_lock`
    have hview : ∀ zs : List (Write ι L), Lib.view T.st.cells (T.buf (.friend k) ++ zs) (.data k) =
        Lib.view T.st.cells (vs ++ zs) (.data k) := by
      intro zs
      rw [hr.buf, List.append_assoc, List.cons_append, ← List.singleton_append, ← List.append_assoc, Lib.view_append]
      refine Lib.view_congr _ (Lib.view_eq_of_forall_ne fun w hw => ?_)
      rcases List.mem_append.mp hw with hw | hw
      · obtain ⟨j, -, hj⟩ := hr.hus w hw
        simp [hj]
      · rw [List.mem_singleton.mp hw]
        simp
    have hd : s.loc k = Lib.view T.st.cells (T.buf (.friend k)) (.data k) := by
      have := hview []
      rw [List.append_nil, List.append_nil] at this
      rw [this]
      exact hr.data
    obtain ⟨ts, zs, hc⟩ := exec_core (P := P) h ho hno hr.spin hd
    refine ⟨ts, hsim hc.move (.released k us (vs ++ zs) ?_)⟩
    exact {
      hh := (hc.move.buf .hakase (by simp)).trans hr.hh
      lock := hc.move.lock.2.trans hr.lock
      held := hc.move.lock.1.trans hr.held
      buf := by rw [hc.buf, hr.buf, List.append_assoc, List.cons_append]
      hus := hr.hus
      hvs := fun w hw => (List.mem_append.mp hw).elim (hr.hvs w) (hc.writes w)
      data := by rw [hc.cells, ← hview]; exact hc.data
      spin := hc.spin
      outer := fun j hj => hc.move.outer hj (hr.outer j hj)
      mem := fun x hx => hc.move.mem (hx k) (hr.mem x hx)
      log := by rw [hc.move.log.1, hc.move.log.2, hr.log] }
  · obtain ⟨ts, zs, hc⟩ := exec_core (P := P) h ho hno hout.spin hout.data
    refine ⟨ts, hsim hc.move (hrule _ _ hc.move ⟨?_, ?_, hc.spin⟩)⟩
    · rw [hc.buf]
      exact fun w hw => (List.mem_append.mp hw).elim (hout.writes w) (hc.writes w)
    · rw [hc.buf, hc.cells]
      exact hc.data

/-! ## Hakase outside a request -/

theorem exec_poll (h : Sim T s) (ho : Out s.hakase s.calls) (hb : T.buf .hakase = [])
    (h8 : s.off.friendCtx 8 = T.st.off.friendCtx 8) :
    Answers P (Tso.step P T (.exec .hakase)) s := by
  obtain ⟨hst, hreads, hl⟩ := Out.looks (P := P) ho
  have hsame : SameFor P .hakase s (T.view .hakase) := by
    rw [view_of_nil hb]
    refine ⟨h.hakase.symm, fun j => h.phase.done j, h.h.symm, fun x hx => ?_⟩
    rw [hreads x hx]
    exact h8
  obtain ⟨t, hh, es, cs, ws, hws, hstep, hexec⟩ := exec_same hsame hl
  obtain rfl : ws = [] := hws.symm.trans hst
  obtain ⟨t', calls, hout, -⟩ := step_out P ho
  have heq : s.after .hakase t hh es cs [] = { s with hakase := t', calls := calls } := hstep.symm.trans hout
  obtain rfl : hh = s.h := congrArg Offload.State.h heq
  obtain rfl : es = [] := List.append_right_eq_self.mp (congrArg Offload.State.log heq)
  refine .one .hakase ⟨?_, ?_, ?_, ?_⟩
  · rw [hexec, hstep]
    rfl
  · rw [hexec, hstep]
    rfl
  · rw [hexec, hstep, State.issued, Offload.State.after_calls, Offload.State.after_calls, h.calls]
  · have hT : T.st.after .hakase t s.h [] cs [] = { T.st with hakase := t, calls := s.calls ++ cs } := by
      refine (State.eq_of_cells rfl rfl h.h.symm (List.append_nil _) ?_ (Offload.State.after_cells ..))
      rw [Offload.State.after_calls, h.calls]
    have hs : s.after .hakase t s.h [] cs [] = { s with hakase := t, calls := s.calls ++ cs } :=
      State.eq_of_cells rfl rfl rfl (List.append_nil _) rfl (Offload.State.after_cells ..)
    rw [hexec, hstep, State.issued, hT, hs, List.append_nil, Function.update_eq_self]
    exact h.phase.poll t (s.calls ++ cs)

/-! ## Acquiring `_lock` -/

/-- A core that tries for a free `_lock` gets to the compare-and-swap. -/
theorem catch_up_cas {k : ι} {a : S} (hpc : (s.friend k).pc.trying a) (hl : s.off.lock = 0) :
    ∃ us, Lib.run P.step s us = s.goto (.friend k) (.lockCas a) := by
  have htest : ∀ {st : Offload.State ι S H L}, (st.friend k).pc = .lockTest a → st.off.lock = 0 →
      P.step st (.friend k) = st.goto (.friend k) (.lockCas a) := by
    intro st h h0
    rw [P.step_eq (p := .friend k) h, Program.stepAt, if_neg (not_not_intro h0)]
  rcases hpc with h | h | h
  · exact ⟨[.friend k], htest h hl⟩
  · refine ⟨[], ?_⟩
    rw [Lib.run_nil, ← h]
    simp only [Offload.State.goto, Offload.State.setThread, Offload.State.thread, Function.update_eq_self]
  · refine ⟨[.friend k, .friend k], ?_⟩
    have h1 : P.step s (.friend k) = s.goto (.friend k) (.lockTest a) := P.step_eq (p := .friend k) h
    rw [Lib.run_cons, Lib.run_cons, Lib.run_nil, h1, htest]
    · simp only [Offload.State.goto, Offload.State.setThread, Offload.State.thread, Function.update_self,
        Function.update_idem]
    · simp only [Offload.State.goto, Offload.State.setThread, Function.update_self]
    · exact hl

theorem Outer.congr {k : ι} (h : Outer T s k) (hb : T'.buf (.friend k) = T.buf (.friend k))
    (hT : T'.st.friend k = T.st.friend k) (hs : s'.friend k = s.friend k)
    (hcT : T'.st.cells (.data k) = T.st.cells (.data k)) (hcs : s'.cells (.data k) = s.cells (.data k)) :
    Outer T' s' k := by
  refine ⟨?_, ?_, ?_⟩
  · rw [hb]
    exact h.writes
  · rw [hb]
    exact (hcs.trans h.data).trans (Lib.view_congr _ hcT.symm)
  · rw [hT, hs]
    exact h.spin

theorem lock_of_held (hinv : Inv P h₀ loc₀ s) {i : ι} (hi : (s.friend i).pc.outside = false) : s.off.lock = 1 := by
  obtain ⟨σ, base, a, -, hheld⟩ := hinv.held hi
  exact hheld.lock

/-- While `_lock` is free in memory, nobody holds it and no release is under way. -/
theorem Phase.idle_of_lock (h : Phase T s) (hinv : Inv P h₀ loc₀ s) (hl : T.st.off.lock = 0) :
    T.buf .hakase = [] ∧ s.off.lock = 0 ∧ (∀ k, Outer T s k) ∧ (∀ x, Shared x → s.cells x = T.st.cells x) ∧
      T.st.log = s.log := by
  -- the holder's `_lock` is in memory
  have hheld : ∀ {i : ι} {ws : List (Write ι L)}, (s.friend i).pc.outside = false → (∀ w ∈ ws, w.1 ≠ .lock) →
      s.cells .lock = Lib.view T.st.cells ws .lock → False := by
    intro i ws hi hws hmem
    rw [Lib.view_eq_of_forall_ne hws] at hmem
    have h1 := lock_of_held hinv hi
    rw [show s.off.lock = T.st.off.lock from hmem, hl] at h1
    exact absurd h1 (by decide)
  cases h with
  | idle hh lock outer mem log => exact ⟨hh, lock, outer, mem, log⟩
  | released i us vs h =>
      have h1 := h.held
      rw [hl] at h1
      exact absurd h1 (by decide)
  | turn i hh inside ws thread noloop outer mem log =>
      exact (hheld inside ws.ne_lock (mem .lock fun _ _ => by simp)).elim
  | posting i us hh pc buf hus loop same zf outer mem log =>
      exact (hheld (i := i) (by rw [pc]; rfl) hus.ne_lock (mem .lock fun _ _ => by simp)).elim
  | waiting i hi loop loop' same zf ws nine outer mem log =>
      obtain ⟨is, hpc, -⟩ := loop'.pc
      exact (hheld (i := i) (by rw [hpc]; rfl) (fun w hw => (ws w hw).1) (mem .lock fun _ _ => by simp)).elim

theorem exec_acquire (hinv : Inv P h₀ loc₀ s) (h : Sim T s) {k : ι} {a : S} (hpc : (T.st.friend k).pc = .lockCas a)
    (hb : T.buf (.friend k) = []) (hl : T.st.off.lock = 0) : Answers P (Tso.step P T (.exec (.friend k))) s := by
  obtain ⟨hh, hlock, houter, hmem, hlog⟩ := h.phase.idle_of_lock hinv hl
  have hspin : (s.friend k).pc.trying a ∧ (T.st.friend k).cpu = (s.friend k).cpu ∧
      (T.st.friend k).done = (s.friend k).done := by
    rcases (houter k).spin with heq | ⟨a', ht, hs, hcpu, hd⟩
    · rw [← heq]
      exact ⟨.inr (.inl hpc), rfl, rfl⟩
    · obtain rfl : a' = a := by
        rcases ht with ht | ht | ht <;> rw [hpc] at ht <;> cases ht
        rfl
      exact ⟨hs, hcpu, hd⟩
  obtain ⟨us, hus⟩ := catch_up_cas (P := P) hspin.1 hlock
  -- both stand at the compare-and-swap now
  generalize hs₁ : s.goto (.friend k) (.lockCas a) = s₁ at hus
  have hthread : s₁.friend k = T.st.friend k := by
    rw [← hs₁]
    simp only [Offload.State.goto, Offload.State.setThread, Function.update_self, Offload.State.thread]
    exact thread_eq hspin.2.1.symm hpc.symm hspin.2.2.symm
  have hothers : ∀ j, j ≠ k → s₁.friend j = s.friend j := by
    intro j hj
    rw [← hs₁]
    exact Function.update_of_ne hj _ _
  have hcells : s₁.cells = s.cells := by
    rw [← hs₁]
    exact Offload.State.cells_setThread s _ _
  have hrest : s₁.hakase = s.hakase ∧ s₁.h = s.h ∧ s₁.calls = s.calls ∧ s₁.log = s.log := by
    rw [← hs₁]
    exact ⟨rfl, rfl, rfl, rfl⟩
  have hsame : SameFor P (.friend k) T.st s₁ := by
    refine ⟨hthread.symm, fun j => ?_, h.h.trans hrest.2.1.symm, fun x hx => ?_⟩
    · by_cases hj : j = k
      · rw [hj, hthread]
      · rw [hothers j hj, h.phase.done j]
    · have hpc' : (T.st.thread (.friend k)).pc = .lockCas a := hpc
      simp only [Program.reads, hpc', List.mem_singleton] at hx
      rw [hx, hcells, hmem .lock fun _ => (by simp)]
  obtain ⟨t, hh', es, cs, ws, hout⟩ := outcome P (.friend k) T.st
  obtain ⟨hws, hstepT⟩ := hout _ (.refl P _ _)
  obtain ⟨-, hsteps⟩ := hout _ hsame
  obtain rfl : ws = [.lock 1] := by
    have hpc' : (T.st.thread (.friend k)).pc = .lockCas a := hpc
    rw [← hws]
    simp only [Program.stores, hpc', if_pos hl]
  have ht : t.pc = .callWait a := by
    have := congrArg (fun st => (st.thread (.friend k)).pc) hstepT
    rw [Offload.State.after_thread, P.step_eq (p := .friend k) hpc, Program.stepAt, if_pos hl, thread_emit,
      Offload.State.goto, thread_setThread] at this
    exact this.symm
  have hexec : Tso.step P T (.exec (.friend k)) = ⟨T.st.after (.friend k) t hh' es cs [.lock 1], T.buf⟩ := by
    rw [Tso.step, if_pos (by rw [show (T.st.thread (.friend k)).pc = _ from hpc]; rfl), hb]
    dsimp only
    rw [hstepT]
  have hthr : ∀ st : Offload.State ι S H L, (st.after (.friend k) t hh' es cs [.lock 1]).friend k = t :=
    fun st => Offload.State.after_thread st (.friend k) t hh' es cs _
  refine ⟨us ++ [.friend k], ?_⟩
  rw [Lib.run_concat, hus, hsteps, hexec]
  refine ⟨h.hakase.trans hrest.1.symm, rfl, ?_, ?_⟩
  · rw [Offload.State.after_calls, Offload.State.after_calls, h.calls, hrest.2.2.1]
  · refine .turn k hh (by rw [hthr, ht]; rfl) (by rw [hb]; exact List.forall_mem_nil _) (by rw [hthr, hthr]) (fun is his => ?_)
      (fun j hj => ?_) (fun x hx => ?_) ?_
    · rw [hthr, ht] at his
      cases his
    · refine (houter j).congr rfl (Function.update_of_ne hj _ _) ?_ ?_ ?_
      · exact (Function.update_of_ne hj _ _).trans (hothers j hj)
      · rw [Offload.State.after_cells]
        exact Lib.put_of_ne (w := Write.lock 1) (a := .data j) (by simp)
      · rw [Offload.State.after_cells, hcells]
        exact Lib.put_of_ne (w := Write.lock 1) (a := .data j) (by simp)
    · rw [hb, Lib.view_nil, Offload.State.after_cells, Offload.State.after_cells, hcells]
      refine Lib.view_congr _ ?_
      by_cases hxk : x = .data k
      · rw [hxk]
        have := (houter k).data
        rwa [hb] at this
      · refine hmem x fun j hxj => ?_
        by_cases hj : j = k
        · exact hxk (by rw [hxj, hj])
        · exact hx j hj hxj
    · rw [Offload.State.after_log, Offload.State.after_log, hlog, hrest.2.2.2]

/-! ## The holder of `_lock` -/

/-- The step of a holder that neither posts, nor waits, nor releases: it stores to the words only, and stays inside. -/
theorem Stage.turn_step {σ : Serial ι H L} {i : ι} {a : S} {base : List (Event ι S)}
    (h : Stage P σ i a base (s.view i)) (hpost : (s.friend i).pc ≠ .asm (.storeImm 1 8 :: waitLoop))
    (hun : (s.friend i).pc ≠ .unlock a) (hloop : ∀ is, (s.friend i).pc = .asm is → ¬ InWait is) :
    Words (P.stores s (.friend i)) ∧ ((P.step s (.friend i)).friend i).pc.outside = false ∧
      ∀ is, ((P.step s (.friend i)).friend i).pc = .asm is → ¬ InWait is := by
  have hpc' : ∀ {pc}, (s.friend i).pc = pc → (s.thread (.friend i)).pc = pc := fun h => h
  -- a plain instruction of a straight-line piece
  have hruns : ∀ {cont : List Instr} {out : Cpu × JmpBuf}, (s.friend i).cpu.rdi = .friendCtx →
      Runs (s.friend i) s.off.friendCtx cont out →
      (∀ body : List Instr, body.all Instr.plain = true → ¬ InWait (body ++ cont)) →
      ((s.friend i).pc = .asm cont ∧ (s.friend i).cpu = out.1) ∨ (Words (P.stores s (.friend i)) ∧
        ((P.step s (.friend i)).friend i).pc.outside = false ∧
        ∀ is, ((P.step s (.friend i)).friend i).pc = .asm is → ¬ InWait is) := by
    intro cont out hrdi hr hcont
    obtain ⟨body, hpc, hb, hout⟩ := hr
    cases body with
    | nil => exact .inl ⟨hpc, by rw [← hout]; rfl⟩
    | cons j body =>
        have hj : j.plain = true ∧ body.all Instr.plain = true := by
          rwa [List.all_cons, Bool.and_eq_true] at hb
        have hstep : ((P.step s (.friend i)).friend i).pc = .asm (body ++ cont) := by
          rw [step_plain P (p := .friend i) (b := .friendCtx) hrdi hpc hj.1]
          simp only [Offload.State.setThread, Function.update_self]
          rfl
        refine .inr ⟨fun w hw => ?_, by rw [hstep]; rfl, fun is his => ?_⟩
        · obtain ⟨k, hk, hw⟩ := stores_plain (hpc' hpc) hj.1 w hw
          exact ⟨k, by omega, by rw [hw, show (s.thread (.friend i)).cpu.rdi = _ from hrdi]⟩
        · rw [hstep] at his
          cases his
          exact hcont body hj.2
  have hwait : ∀ {b}, ¬ Waiting (s.friend i) b := by
    rintro b ⟨-, hpc | hpc | ⟨hpc, -⟩⟩
    · exact hloop _ hpc (.inl rfl)
    · exact hloop _ hpc (.inr (.inl rfl))
    · exact hloop _ hpc (.inr (.inr rfl))
  cases h with
  | entered hpc =>
      have hstep : ((P.step s (.friend i)).friend i).pc = .asm toshokanSetjmpWithWait := by
        rw [P.step_eq (p := .friend i) hpc]
        simp only [Program.stepAt, Offload.State.emit, Offload.State.setThread, Function.update_self, Thread.call]
      refine ⟨by simp [Words, Program.stores, hpc' hpc], by rw [hstep]; rfl, fun is his => ?_⟩
      rw [hstep] at his
      cases his
      decide
  | saving out hr hrdi =>
      rcases hruns hrdi hr (fun body _ => not_inWait_saving body) with ⟨hpc, -⟩ | hdone
      · exact absurd hpc hpost
      · exact hdone
  | posted ht | serving _ _ _ _ ht | served ht => exact absurd ht hwait
  | loading out hr hrdi =>
      rcases hruns hrdi hr (fun body hb => not_inWait_append hb (by decide)) with ⟨hpc, -⟩ | hdone
      · have hstep : ((P.step s (.friend i)).friend i).pc = .asm [.movImm 1, .ret] := by
          rw [step_noted P (p := .friend i) hpc hrdi]
          simp only [Offload.State.setThread, Function.update_self]
        refine ⟨?_, by rw [hstep]; rfl, fun is his => ?_⟩
        · intro w hw
          simp only [Program.stores, hpc' hpc, List.mem_singleton] at hw
          exact ⟨9, by decide, by rw [hw, show (s.thread (.friend i)).cpu.rdi = _ from hrdi]; rfl⟩
        · rw [hstep] at his
          cases his
          decide
      · exact hdone
  | cleared out hr hrdi hctx htop =>
      rcases hruns hrdi hr (fun body hb => not_inWait_append hb (by decide)) with ⟨hpc, hcpu⟩ | hdone
      · have hstep : ((P.step s (.friend i)).friend i).pc = .testSet a := by
          rw [step_ret P (p := .friend i) hpc]
          simp only [Offload.State.setThread, Function.update_self]
          rw [show (s.thread (.friend i)).cpu = _ from hcpu, htop, landing_setRet]
        refine ⟨by simp [Words, Program.stores, hpc' hpc], by rw [hstep]; rfl, fun is his => ?_⟩
        rw [hstep] at his
        cases his
      · exact hdone
  | resumed hpc _ hrax =>
      have hstep : ((P.step s (.friend i)).friend i).pc = .unlock a := by
        rw [P.step_eq (p := .friend i) hpc, Program.stepAt, Cpu.eax,
          show (s.thread (.friend i)).cpu.rax = 1 from hrax, if_neg (by decide)]
        simp only [Offload.State.emit, Offload.State.goto, Offload.State.setThread, Function.update_self]
      refine ⟨by simp [Words, Program.stores, hpc' hpc], by rw [hstep]; rfl, fun is his => ?_⟩
      rw [hstep] at his
      cases his
  | unlocking hpc => exact absurd hpc hun

theorem Outer.after {k : ι} (h : Outer T s k) {p : Party ι} (hp : Party.friend k ≠ p) {t : Thread S} {hh : H}
    {es : List (Event ι S)} {cs : List (Call ι S)} {ws : List (Write ι L)} (hws : ∀ w ∈ ws, w.1 ≠ .data k) :
    Outer (T.issued p t hh es cs ws) (s.after p t hh es cs ws) k := by
  refine h.congr (State.issued_buf_of_ne T p t hh es cs ws hp) ?_ ?_ ?_ ?_
  · exact Offload.State.after_thread_of_ne T.st p t hh es cs [] hp
  · exact Offload.State.after_thread_of_ne s p t hh es cs ws hp
  · rw [State.issued_cells]
  · rw [Offload.State.after_cells]
    exact Lib.view_eq_of_forall_ne hws

section Turn
variable {i : ι} (hh : T.buf .hakase = []) (inside : (s.friend i).pc.outside = false) (ws : Words (T.buf (.friend i)))
  (thread : T.st.friend i = s.friend i) (noloop : ∀ is, (s.friend i).pc = .asm is → ¬ InWait is)
  (outer : ∀ k, k ≠ i → Outer T s k)
  (mem : ∀ x, (∀ k, k ≠ i → x ≠ .data k) → s.cells x = Lib.view T.st.cells (T.buf (.friend i)) x)
  (log : T.st.log = s.log)
include thread mem

theorem turn_same (h : Sim T s) (hb : ∀ a, (s.friend i).pc ≠ .block a) :
    SameFor P (.friend i) s (T.view (.friend i)) := by
  refine ⟨thread.symm, fun j => h.phase.done j, h.h.symm, fun x hx => ?_⟩
  rw [State.view, Offload.State.cells_withCells]
  exact mem x fun k hk => reads_friend hb hx hk

include hh ws outer log

/-- Posting: the store stays in the buffer. -/
theorem exec_post (hinv : Inv P h₀ loc₀ s) (h : Sim T s) (hpc : (s.friend i).pc = .asm (.storeImm 1 8 :: waitLoop)) :
    Answers P (Tso.step P T (.exec (.friend i))) s := by
  obtain ⟨σ, base, a, hσ, hheld⟩ := hinv.held (i := i) (by rw [hpc]; rfl)
  have hrdi : (s.friend i).cpu.rdi = .friendCtx := by
    have hne : ∀ {pc : Pc S}, (s.friend i).pc = pc → pc = .asm (.storeImm 1 8 :: waitLoop) := fun h => h.symm.trans hpc
    cases hheld.stage with
    | saving _ _ hrdi | loading _ _ hrdi | cleared _ _ hrdi => exact hrdi
    | posted ht | serving _ _ _ _ ht | served ht => exact ht.1
    | entered hpc' | resumed hpc' | unlocking hpc' => cases hne hpc'
  obtain ⟨t, hh', es, cs, ws', hws, hstep, hexec⟩ := exec_same (turn_same (P := P) thread mem h (by rw [hpc]; simp))
    (by rw [show (s.thread (.friend i)).pc = _ from hpc]; rfl)
  rw [step_post P (p := .friend i) hpc hrdi] at hstep
  obtain rfl : ws' = [.word .friendCtx 8 1] := by
    rw [← hws]
    simp only [Program.stores, show (s.thread (.friend i)).pc = _ from hpc,
      show (s.thread (.friend i)).cpu.rdi = _ from hrdi]
  obtain rfl : t = { s.friend i with pc := .asm waitLoop } := by
    have := congrArg (fun st => st.thread (.friend i)) hstep
    rw [Offload.State.after_thread, thread_emit, thread_setThread] at this
    exact this.symm
  obtain rfl : hh' = s.h := (congrArg Offload.State.h hstep).symm
  obtain rfl : es = [.post (.friend i)] := (List.append_cancel_left (congrArg Offload.State.log hstep)).symm
  obtain rfl : cs = [] := List.append_right_eq_self.mp (congrArg Offload.State.calls hstep).symm
  rw [hexec]
  have hthr : (T.issued (.friend i) { s.friend i with pc := .asm waitLoop } s.h [.post (.friend i)] []
      [.word .friendCtx 8 1]).st.friend i = { s.friend i with pc := .asm waitLoop } := Offload.State.after_friend ..
  refine .stay ⟨h.hakase, rfl, (List.append_nil _).trans h.calls, ?_⟩
  refine .posting i (T.buf (.friend i)) ((State.issued_buf_of_ne T (.friend i) _ _ _ _ _ (q := .hakase) (by simp)).trans hh) hpc
    (State.issued_buf ..) ws ⟨by rw [hthr]; exact hrdi, by rw [hthr]; exact ⟨_, rfl, .inl rfl⟩⟩ ?_ ?_ (fun k hk => ?_)
    (fun x hx => ?_) ?_
  · rw [hthr]
    exact ⟨rfl, rfl⟩
  · rw [hthr]
    exact fun h => absurd (Pc.asm.inj h) (by decide)
  · have hki : (Party.friend k : Party ι) ≠ .friend i := by simpa using hk
    refine (outer k hk).congr (State.issued_buf_of_ne _ _ _ _ _ _ _ hki) (Function.update_of_ne hk _ _) rfl ?_ rfl
    rw [State.issued_cells]
  · rw [State.issued_cells]
    exact mem x hx
  · exact congrArg (· ++ [.post (.friend i)]) log

include noloop inside

/-- **The holder's turn.** -/
theorem exec_turn (hinv : Inv P h₀ loc₀ s) (h : Sim T s) : Answers P (Tso.step P T (.exec (.friend i))) s := by
  by_cases hpost : (s.friend i).pc = .asm (.storeImm 1 8 :: waitLoop)
  · exact exec_post hh ws thread outer mem log hinv h hpost
  obtain ⟨σ, base, a, hσ, hheld⟩ := hinv.held inside
  have hblock : ∀ b, (s.friend i).pc ≠ .block b := fun b => (hheld.stage.holder_pc P b).2.1
  have hlocked : (s.thread (.friend i)).pc.locked = false := by
    cases hc : (s.friend i).pc with
    | lockCas b => exact absurd hc (hheld.stage.holder_pc P b).1
    | _ => rw [show (s.thread (.friend i)).pc = _ from hc]; rfl
  obtain ⟨t, hh', es, cs, ws', hws, hstep, hexec⟩ := exec_same (turn_same (P := P) thread mem h hblock) hlocked
  have hT : (T.issued (.friend i) t hh' es cs ws').st.friend i = t := Offload.State.after_friend ..
  have hs : (s.after (.friend i) t hh' es cs ws').friend i = t := Offload.State.after_friend ..
  have hb : (T.issued (.friend i) t hh' es cs ws').buf (.friend i) = T.buf (.friend i) ++ ws' := State.issued_buf ..
  have hbh : (T.issued (.friend i) t hh' es cs ws').buf .hakase = [] :=
    (State.issued_buf_of_ne T (.friend i) _ _ _ _ _ (q := .hakase) (by simp)).trans hh
  have hne : ∀ {k : ι}, k ≠ i → (Party.friend k : Party ι) ≠ .friend i := fun hk => by simpa using hk
  have hmem : ∀ x, (∀ k, k ≠ i → x ≠ .data k) → (s.after (.friend i) t hh' es cs ws').cells x =
      Lib.view (T.issued (.friend i) t hh' es cs ws').st.cells (T.buf (.friend i) ++ ws') x := by
    intro x hx
    rw [Offload.State.after_cells, State.issued_cells, Lib.view_append]
    exact Lib.view_congr ws' (mem x hx)
  have hlog : (T.issued (.friend i) t hh' es cs ws').st.log = (s.after (.friend i) t hh' es cs ws').log :=
    congrArg (· ++ es) log
  refine .one (.friend i) ?_
  rw [hexec, hstep]
  refine ⟨h.hakase, rfl, congrArg (· ++ cs) h.calls, ?_⟩
  by_cases hun : (s.friend i).pc = .unlock a
  · -- the release
    obtain rfl : ws' = [.lock 0] := by
      rw [← hws]
      simp only [Program.stores, show (s.thread (.friend i)).pc = _ from hun]
    have hl : T.st.off.lock = 1 := by
      have := mem .lock fun _ _ => by simp
      rw [Lib.view_eq_of_forall_ne ws.ne_lock] at this
      rw [← show s.off.lock = T.st.off.lock from this]
      exact hheld.lock
    have hnd : ∀ k, ∀ w ∈ ([.lock 0] : List (Write ι L)), w.1 ≠ .data k := by
      intro k w hw
      rw [List.mem_singleton.mp hw]
      simp
    refine .released i (T.buf (.friend i)) [] ?_
    exact {
      hh := hbh
      lock := (hmem .lock fun _ _ => by simp).trans (Lib.view_concat _ _ Loc.lock 0)
      held := hl
      buf := hb
      hus := ws
      hvs := by simp
      data := by
        refine (hmem (.data i) fun k hk => by simpa using Ne.symm hk).trans (Lib.view_eq_of_forall_ne fun w hw => ?_)
        exact (List.mem_append.mp hw).elim (ws.ne_data i w) (hnd i w)
      spin := .inl (by rw [hT, hs])
      outer := fun k hk => (outer k hk).after (hne hk) (hnd k)
      mem := fun x hx => hmem x fun k _ => hx k
      log := hlog }
  · obtain ⟨hw, hin, hnl⟩ := Stage.turn_step (P := P) hheld.stage hpost hun noloop
    rw [hws] at hw
    rw [hstep, hs] at hin hnl
    refine .turn i hbh (by rw [hs]; exact hin) ?_ (by rw [hT, hs]) (by rw [hs]; exact hnl)
      (fun k hk => (outer k hk).after (hne hk) (hw.ne_data k)) (fun x hx => ?_) hlog
    · rw [hb]
      exact fun w hw' => (List.mem_append.mp hw').elim (ws w) (hw w)
    · rw [hb]
      exact hmem x hx

end Turn

/-! ## Waiting -/

/-- One instruction of the wait loop: a turn, or the way out. -/
theorem step_loop {r : Offload.State ι S H L} {i : ι} (hl : Loop (r.friend i)) :
    ∃ t, P.step r (.friend i) = r.setThread (.friend i) t ∧ SameCore t (r.friend i) ∧
      ((Loop t ∧ (t.pc = .asm (waitLoop.drop 2) → t.cpu.zf = (r.off.friendCtx 9 == 0))) ∨
        ((r.friend i).pc = .asm (waitLoop.drop 2) ∧ (r.friend i).cpu.zf = false ∧
          t = { r.friend i with pc := .asm (waitLoop.drop 3) })) := by
  obtain ⟨hrdi, is, hpc, rfl | rfl | rfl⟩ := hl
  · refine ⟨_, step_plain P (p := .friend i) (b := .friendCtx) (i := .pause) hrdi hpc rfl, ⟨rfl, rfl⟩,
      .inl ⟨⟨hrdi, _, rfl, .inr (.inl rfl)⟩, fun h => absurd (Pc.asm.inj h) (by decide)⟩⟩
  · exact ⟨_, step_plain P (p := .friend i) (b := .friendCtx) (i := .cmpZero 9) hrdi hpc rfl, ⟨rfl, rfl⟩,
      .inl ⟨⟨hrdi, _, rfl, .inr (.inr rfl)⟩, fun _ => rfl⟩⟩
  · refine ⟨_, step_je P (p := .friend i) hpc, ⟨rfl, rfl⟩, ?_⟩
    cases hzf : (r.friend i).cpu.zf with
    | true =>
        rw [show (r.thread (.friend i)).cpu.zf = true from hzf]
        exact .inl ⟨⟨hrdi, _, rfl, .inl rfl⟩, fun h => absurd (Pc.asm.inj h) (by decide)⟩
    | false =>
        rw [show (r.thread (.friend i)).cpu.zf = false from hzf]
        exact .inr ⟨hpc, rfl, rfl⟩

theorem exec_loop {i : ι} (hl : Loop (T.st.friend i)) :
    ∃ t, Tso.step P T (.exec (.friend i)) = ⟨T.st.setThread (.friend i) t, T.buf⟩ ∧ SameCore t (T.st.friend i) ∧
      ((Loop t ∧ (t.pc = .asm (waitLoop.drop 2) → t.cpu.zf = ((T.view (.friend i)).off.friendCtx 9 == 0))) ∨
        ((T.st.friend i).pc = .asm (waitLoop.drop 2) ∧ (T.st.friend i).cpu.zf = false ∧
          t = { T.st.friend i with pc := .asm (waitLoop.drop 3) })) := by
  obtain ⟨t, hstep, hsame, hcase⟩ := step_loop (P := P) (r := T.view (.friend i)) (i := i) hl
  obtain ⟨is, hpc, hi⟩ := hl.pc
  refine ⟨t, exec_move ?_ ?_ hstep, hsame, hcase⟩
  · rw [show (T.st.thread (.friend i)).pc = _ from hpc]
    rfl
  · have hpc' : ((T.view (.friend i)).thread (.friend i)).pc = .asm is := hpc
    rcases hi with rfl | rfl | rfl <;> simp only [Program.stores, hpc', waitLoop, List.drop]

/-- A core that has found the completion word set and goes on after the loop. -/
def leaveLoop (t : Thread S) : Thread S :=
  { t with cpu := { t.cpu with zf := false }, pc := .asm (waitLoop.drop 3) }

/-- With the completion stored, a core gets out of the loop by itself. -/
theorem catch_up_wait {i : ι} (hl : Loop (s.friend i)) (h9 : s.off.friendCtx 9 = 1) :
    ∃ us, Lib.run P.step s us = s.setThread (.friend i) (leaveLoop (s.friend i)) := by
  have hset : ∀ (st : Offload.State ι S H L) (t t' : Thread S),
      (st.setThread (.friend i) t).setThread (.friend i) t' = st.setThread (.friend i) t' := by
    intro st t t'
    simp only [Offload.State.setThread, Function.update_idem]
  have hfr : ∀ (st : Offload.State ι S H L) (t : Thread S), (st.setThread (.friend i) t).friend i = t :=
    fun st t => Function.update_self ..
  -- from the jump, the comparison and the `pause` on
  have hje : ∀ st : Offload.State ι S H L, (st.friend i).pc = .asm (waitLoop.drop 2) → (st.friend i).cpu.zf = false →
      P.step st (.friend i) = st.setThread (.friend i) (leaveLoop (st.friend i)) := by
    intro st hpc hzf
    have hcpu : ({ (st.friend i).cpu with zf := false } : Cpu) = (st.friend i).cpu := by rw [← hzf]
    rw [step_je P (p := .friend i) hpc, show (st.thread (.friend i)).cpu.zf = false from hzf, leaveLoop, hcpu]
    rfl
  have hcmp : ∀ st : Offload.State ι S H L, (st.friend i).cpu.rdi = .friendCtx → st.off.friendCtx 9 = 1 →
      (st.friend i).pc = .asm (waitLoop.drop 1) →
      Lib.run P.step st [.friend i, .friend i] = st.setThread (.friend i) (leaveLoop (st.friend i)) := by
    intro st hrdi h9 hpc
    have hstep : P.step st (.friend i) = st.setThread (.friend i)
        { st.friend i with cpu := { (st.friend i).cpu with zf := false }, pc := .asm (waitLoop.drop 2) } := by
      rw [step_plain P (p := .friend i) (b := .friendCtx) (i := .cmpZero 9) hrdi hpc rfl]
      have hz : (st.off.friendCtx 9 == 0) = false := by
        rw [h9]
        decide
      simp only [Instr.exec, Offload.State.thread]
      rw [show st.off.buf .friendCtx 9 = st.off.friendCtx 9 from rfl, hz]
      rfl
    rw [Lib.run_cons, Lib.run_cons, Lib.run_nil, hstep, hje _ (by rw [hfr]) (by rw [hfr]), hset, hfr]
    rfl
  have hpause : ∀ st : Offload.State ι S H L, (st.friend i).cpu.rdi = .friendCtx → st.off.friendCtx 9 = 1 →
      (st.friend i).pc = .asm waitLoop →
      Lib.run P.step st [.friend i, .friend i, .friend i] = st.setThread (.friend i) (leaveLoop (st.friend i)) := by
    intro st hrdi h9 hpc
    have hstep : P.step st (.friend i) = st.setThread (.friend i) { st.friend i with pc := .asm (waitLoop.drop 1) } :=
      step_plain P (p := .friend i) (b := .friendCtx) (i := .pause) hrdi hpc rfl
    rw [Lib.run_cons, hstep, hcmp _ (by rw [hfr]; exact hrdi) (by exact h9) (by rw [hfr]), hset, hfr]
    rfl
  obtain ⟨hrdi, is, hpc, rfl | rfl | rfl⟩ := hl
  · exact ⟨_, hpause s hrdi h9 hpc⟩
  · exact ⟨_, hcmp s hrdi h9 hpc⟩
  · cases hzf : (s.friend i).cpu.zf with
    | false => exact ⟨[.friend i], hje s hpc hzf⟩
    | true =>
        have hstep : P.step s (.friend i) = s.setThread (.friend i) { s.friend i with pc := .asm waitLoop } := by
          rw [step_je P (p := .friend i) hpc, show (s.thread (.friend i)).cpu.zf = true from hzf]
          rfl
        refine ⟨.friend i :: [.friend i, .friend i, .friend i], ?_⟩
        rw [Lib.run_cons, hstep, hpause _ (by rw [hfr]; exact hrdi) (by exact h9) (by rw [hfr]), hset, hfr]
        rfl

theorem Outer.setThread {i k : ι} (h : Outer T s k) (hk : k ≠ i) (t : Thread S) :
    Outer ⟨T.st.setThread (.friend i) t, T.buf⟩ s k := by
  refine h.congr rfl (Function.update_of_ne hk _ _) rfl ?_ rfl
  rw [Offload.State.cells_setThread]

theorem exec_posting (hinv : Inv P h₀ loc₀ s) (h : Sim T s) {i : ι} {us : List (Write ι L)} (hh : T.buf .hakase = [])
    (pc : (s.friend i).pc = .asm (.storeImm 1 8 :: waitLoop))
    (buf : T.buf (.friend i) = us ++ [.word .friendCtx 8 1]) (hus : Words us) (loop : Loop (T.st.friend i))
    (same : SameCore (T.st.friend i) (s.friend i))
    (zf : (T.st.friend i).pc = .asm (waitLoop.drop 2) → (T.st.friend i).cpu.zf = true)
    (outer : ∀ k, k ≠ i → Outer T s k)
    (mem : ∀ x, (∀ k, k ≠ i → x ≠ .data k) → s.cells x = Lib.view T.st.cells us x)
    (log : T.st.log = s.log ++ [.post (.friend i)]) : Answers P (Tso.step P T (.exec (.friend i))) s := by
  -- the completion word is clear, also as the core sees it
  have h9 : (T.view (.friend i)).off.friendCtx 9 = 0 := by
    have hs : s.off.friendCtx 9 = 0 := by
      obtain ⟨σ, base, a, -, hheld⟩ := hinv.held (i := i) (by rw [pc]; rfl)
      exact hheld.stage.no_completion P pc
    have hview : (T.view (.friend i)).cells (.word .friendCtx 9) = s.cells (.word .friendCtx 9) := by
      rw [State.view, Offload.State.cells_withCells, buf, Lib.view_append, mem (.word .friendCtx 9) fun _ _ => (by simp)]
      refine Lib.view_eq_of_forall_ne fun w hw => ?_
      rw [List.mem_singleton.mp hw]
      simp [Write.word]
    exact hview.trans hs
  obtain ⟨t, hstep, hcore, ⟨hl, hz⟩ | ⟨hpc, hzf, -⟩⟩ := exec_loop (P := P) loop
  · have hthr : (T.st.setThread (.friend i) t).friend i = t := Function.update_self ..
    rw [hstep]
    refine .stay ⟨h.hakase, h.h, h.calls, ?_⟩
    refine .posting i us hh pc buf hus (by rw [hthr]; exact hl) (by rw [hthr]; exact hcore.trans same) ?_
      (fun k hk => (outer k hk).setThread hk t) (fun x hx => ?_) log
    · rw [hthr]
      intro hpc
      rw [hz hpc, h9]
      rfl
    · rw [Offload.State.cells_setThread]
      exact mem x hx
  · rw [zf hpc] at hzf
    cases hzf

section Waiting
variable {i : ι} (hi : T.buf (.friend i) = []) (loop : Loop (T.st.friend i)) (loop' : Loop (s.friend i))
  (same : SameCore (T.st.friend i) (s.friend i))
  (zf : (T.st.friend i).pc = .asm (waitLoop.drop 2) → (T.st.friend i).cpu.zf = false →
    s.off.friendCtx 9 = 1 ∧ T.buf .hakase = [])
  (ws : ∀ w ∈ T.buf .hakase, w.1 ≠ .lock ∧ ∀ k, k ≠ i → w.1 ≠ .data k) (nine : Completion T s (T.buf .hakase))
  (outer : ∀ k, k ≠ i → Outer T s k)
  (mem : ∀ x, (∀ k, k ≠ i → x ≠ .data k) → s.cells x = Lib.view T.st.cells (T.buf .hakase) x)
  (log : T.st.log = s.log)

include nine mem in
/-- A core that finds the completion word set finds everything hakase has stored in memory. -/
theorem completed_of_ne (h9 : T.st.off.friendCtx 9 ≠ 0) : s.off.friendCtx 9 = 1 ∧ T.buf .hakase = [] := by
  rcases nine with ⟨h0, hno⟩ | ⟨h1, hb⟩ | ⟨-, h0, -⟩
  · have := mem (.word .friendCtx 9) fun _ _ => by simp
    rw [Lib.view_eq_of_forall_ne hno] at this
    exact absurd (this.symm.trans h0) h9
  · exact ⟨h1, hb⟩
  · exact absurd h0 h9

include hi loop loop' same zf ws nine outer mem log

/-- **A waiting core**: one more turn, or out of the loop with everything hakase has stored in memory. -/
theorem exec_waiting (h : Sim T s) : Answers P (Tso.step P T (.exec (.friend i))) s := by
  obtain ⟨t, hstep, hcore, hcase⟩ := exec_loop (P := P) loop
  rw [view_of_nil hi] at hcase
  have hthr : (T.st.setThread (.friend i) t).friend i = t := Function.update_self ..
  have hcells : (T.st.setThread (.friend i) t).cells = T.st.cells := Offload.State.cells_setThread ..
  rw [hstep]
  rcases hcase with ⟨hl, hz⟩ | ⟨hpc, hzf, ht⟩
  · refine .stay ⟨h.hakase, h.h, h.calls, ?_⟩
    refine .waiting i hi (by rw [hthr]; exact hl) loop' (by rw [hthr]; exact hcore.trans same) ?_ ws nine
      (fun k hk => (outer k hk).setThread hk t) (fun x hx => by rw [hcells]; exact mem x hx) log
    rw [hthr]
    intro hpc hzf
    refine completed_of_ne nine mem fun h0 => ?_
    rw [hz hpc, show T.st.off.friendCtx 9 = 0 from h0] at hzf
    exact absurd hzf (by decide)
  · obtain ⟨h9, hb⟩ := zf hpc hzf
    obtain ⟨us, hus⟩ := catch_up_wait (P := P) loop' h9
    have heq : t = leaveLoop (s.friend i) := by
      rw [ht]
      refine thread_eq (same.cpu.trans ?_) rfl same.done
      rw [hzf]
      rfl
    have hthr' : (s.setThread (.friend i) (leaveLoop (s.friend i))).friend i = leaveLoop (s.friend i) :=
      Function.update_self ..
    have hcells' : (s.setThread (.friend i) (leaveLoop (s.friend i))).cells = s.cells :=
      Offload.State.cells_setThread ..
    refine ⟨us, ?_⟩
    rw [hus]
    refine ⟨h.hakase, h.h, h.calls, ?_⟩
    refine .turn i hb (by rw [hthr']; rfl) (by rw [hi]; exact List.forall_mem_nil _) (by rw [hthr, hthr', heq]) ?_
      (fun k hk => ?_) (fun x hx => ?_) log
    · rw [hthr']
      intro is his
      cases his
      decide
    · refine (outer k hk).congr rfl (Function.update_of_ne hk _ _) (Function.update_of_ne hk _ _) ?_ ?_
      · rw [hcells]
      · rw [hcells']
    · rw [hcells, hcells', hi, mem x hx, hb]

/-- **Hakase while core `i` waits**: it sees all its own stores, and all of core `i`'s. -/
theorem exec_serve (hinv : Inv P h₀ loc₀ s) (h : Sim T s) : Answers P (Tso.step P T (.exec .hakase)) s := by
  obtain ⟨is, hpc, -⟩ := loop'.pc
  obtain ⟨σ, base, a, hσ, hheld⟩ := hinv.held (i := i) (by rw [hpc]; rfl)
  have hlocked : (s.thread .hakase).pc.locked = false := by
    cases hc : s.hakase.pc with
    | lockCas b => exact absurd hc (hheld.stage.hakase_pc P b).1
    | _ => rw [show (s.thread .hakase).pc = _ from hc]; rfl
  have hsame : SameFor P .hakase s (T.view .hakase) := by
    refine ⟨h.hakase.symm, fun j => h.phase.done j, h.h.symm, fun x hx => ?_⟩
    rw [State.view, Offload.State.cells_withCells]
    exact mem x fun k hk => reads_hakase (fun b hb => hheld.stage.hakase_block P hσ hb) hx hk
  obtain ⟨t, hh', es, cs, ws', hws, hstep, hexec⟩ := exec_same hsame hlocked
  have hb : (T.issued .hakase t hh' es cs ws').buf .hakase = T.buf .hakase ++ ws' := State.issued_buf ..
  have hmem : ∀ x, (∀ k, k ≠ i → x ≠ .data k) → (s.after .hakase t hh' es cs ws').cells x =
      Lib.view (T.issued .hakase t hh' es cs ws').st.cells (T.buf .hakase ++ ws') x := by
    intro x hx
    rw [Offload.State.after_cells, State.issued_cells, Lib.view_append]
    exact Lib.view_congr ws' (mem x hx)
  -- what the stores are, and what becomes of the completion word
  have h9 : (s.after .hakase t hh' es cs ws').off.friendCtx 9 = Lib.view s.cells ws' (.word .friendCtx 9) :=
    congrFun (Offload.State.after_cells s .hakase t hh' es cs ws') (.word .friendCtx 9)
  have hstores : (∀ w ∈ ws', w.1 ≠ .lock ∧ ∀ j, j ≠ i → w.1 ≠ .data j) ∧
      (ws' = [] ∨ s.off.friendCtx 9 = 0 ∧
        ((∀ w ∈ ws', w.1 ≠ .word .friendCtx 9) ∨ ws' = [.word .friendCtx 9 1])) := by
    rcases hheld.stage.hakase_cases P with ho | ⟨c₀, k, b, hserve, -, h0⟩
    · obtain rfl : ws' = [] := hws.symm.trans (Out.looks (P := P) ho).1
      exact ⟨(by simp), .inl rfl⟩
    · have := Serve.stores hσ hserve
      rw [hws] at this
      exact ⟨this.1, .inr ⟨h0, this.2⟩⟩
  refine .one .hakase ?_
  rw [hexec, hstep]
  refine ⟨rfl, rfl, congrArg (· ++ cs) h.calls, ?_⟩
  refine .waiting i ((State.issued_buf_of_ne T .hakase _ _ _ _ _ (q := .friend i) (by simp)).trans hi) loop loop' same ?_ ?_
    ?_ (fun k hk => (outer k hk).after (p := .hakase) (by simp) fun w hw => (hstores.1 w hw).2 k hk) ?_ (congrArg (· ++ es) log)
  · intro hpc hzf
    obtain ⟨h1, hnil⟩ := zf hpc hzf
    have hws0 : ws' = [] := by
      rcases hstores.2 with h | ⟨h0, -⟩
      · exact h
      · rw [h1] at h0
        exact absurd h0 (by decide)
    rw [h9, hb, hnil, hws0]
    exact ⟨h1, rfl⟩
  · rw [hb]
    exact fun w hw => (List.mem_append.mp hw).elim (ws w) (hstores.1 w)
  · rw [hb]
    rcases hstores.2 with rfl | ⟨h0, hcase⟩
    · rw [List.append_nil]
      exact nine.congr rfl h9
    · -- nothing is stored to the completion word so far
      obtain ⟨-, hno⟩ | ⟨h1, -⟩ | ⟨h1, -⟩ := nine
      · rcases hcase with hne | rfl
        · refine .inl ⟨h9.trans ((Lib.view_eq_of_forall_ne hne).trans h0), fun w hw => ?_⟩
          exact (List.mem_append.mp hw).elim (hno w) (hne w)
        · refine .inr (.inr ⟨h9.trans (Lib.view_concat s.cells [] (.word .friendCtx 9) 1), ?_, T.buf .hakase, rfl, hno⟩)
          have := mem (.word .friendCtx 9) fun _ _ => by simp
          rw [Lib.view_eq_of_forall_ne hno] at this
          exact this.symm.trans h0
      · rw [h1] at h0
        exact absurd h0 (by decide)
      · rw [h1] at h0
        exact absurd h0 (by decide)
  · rw [hb]
    exact hmem

end Waiting

end Tso

end Toshokan.Offload
