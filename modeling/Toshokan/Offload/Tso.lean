import Toshokan.Lib.StoreBuffer
import Toshokan.Offload.Step
import Toshokan.Offload.Progress

/-!
# `common/offload.h` on processors with store buffers

`step` lets every store reach memory at once. On the real machine a store waits in its processor's buffer, the
comparisons of the waiting loops may read words that have already been overwritten, and the only locked instruction is
the compare-and-swap of `_lock`.

* `Loc`, `State.cells` : the memory the parties share, `stores` : the stores of a step, `cells_step` : and no others;
* `Tso.State`, `Tso.step` : a party executes on what it sees and buffers its stores (`exec`), or its oldest store is
  written to memory (`drain`);
* `reads` : what a step reads, `outcome` : what it does depends on nothing else.
-/

namespace Toshokan.Offload

/-- The shared locations: the words of the two buffers, `_lock`, and what core `i` keeps in its stack. -/
inductive Loc (ι : Type)
  | word (b : Buf) (k : Fin 10)
  | lock
  | data (i : ι)
  deriving DecidableEq

@[reducible] def Loc.Val (ι L : Type) : Loc ι → Type
  | .word _ _ => Word
  | .lock => BitVec 32
  | .data _ => L

variable {ι S H L : Type}

abbrev Memory (ι L : Type) := Lib.Cells (Loc.Val ι L)

abbrev Write (ι L : Type) := Lib.Store (Loc.Val ι L)

def Write.word (b : Buf) (k : Fin 10) (v : Word) : Write ι L := ⟨.word b k, v⟩

def Write.lock (v : BitVec 32) : Write ι L := ⟨.lock, v⟩

def Write.data (i : ι) (l : L) : Write ι L := ⟨.data i, l⟩

@[simp] theorem Write.word_fst (b : Buf) (k : Fin 10) (v : Word) : (Write.word b k v : Write ι L).1 = .word b k := rfl

@[simp] theorem Write.lock_fst (v : BitVec 32) : (Write.lock v : Write ι L).1 = .lock := rfl

@[simp] theorem Write.data_fst (i : ι) (l : L) : (Write.data i l : Write ι L).1 = .data i := rfl

namespace State

def cells (st : State ι S H L) : Memory ι L
  | .word b k => st.off.buf b k
  | .lock => st.off.lock
  | .data i => st.loc i

def withCells (st : State ι S H L) (m : Memory ι L) : State ι S H L :=
  { st with
    off := ⟨fun k => m (.word .friendCtx k), fun k => m (.word .hakaseCtx k), m .lock⟩
    loc := fun i => m (.data i) }

@[simp] theorem cells_withCells (st : State ι S H L) (m : Memory ι L) : (st.withCells m).cells = m := by
  funext x
  cases x with
  | word b k => cases b <;> rfl
  | lock | data _ => rfl

@[simp] theorem thread_withCells (st : State ι S H L) (m : Memory ι L) (p : Party ι) :
    (st.withCells m).thread p = st.thread p := by
  cases p <;> rfl

theorem eq_of_cells {st₁ st₂ : State ι S H L} (hakase : st₁.hakase = st₂.hakase) (friend : st₁.friend = st₂.friend)
    (h : st₁.h = st₂.h) (log : st₁.log = st₂.log) (calls : st₁.calls = st₂.calls) (cells : st₁.cells = st₂.cells) :
    st₁ = st₂ := by
  obtain ⟨⟨f, k, l⟩, hk, fr, h₁, loc, lg, cl⟩ := st₁
  obtain ⟨⟨f', k', l'⟩, hk', fr', h₁', loc', lg', cl'⟩ := st₂
  obtain rfl : f = f' := funext fun j => congrFun cells (.word .friendCtx j)
  obtain rfl : k = k' := funext fun j => congrFun cells (.word .hakaseCtx j)
  obtain rfl : l = l' := congrFun cells .lock
  obtain rfl : loc = loc' := funext fun i => congrFun cells (.data i)
  cases hakase; cases friend; cases h; cases log; cases calls
  rfl

end State

namespace Program

variable (P : Program ι S H L)

def stores (st : State ι S H L) (p : Party ι) : List (Write ι L) :=
  let t := st.thread p
  match t.pc with
  | .next =>
      match p with
      | .hakase => []
      | .friend i =>
          match (P.prog i)[t.done]? with
          | none => []
          | some _ => [.data i (P.own i t.done t.cpu.ctx (st.loc i)).2]
  | .lockCas _ => if st.off.lock = 0 then [.lock 1] else []
  | .block s =>
      match P.owner t.cpu.ctx.rsp with
      | none => []
      | some i => [.data i (P.code s st.h t.cpu.ctx (st.loc i)).2.2]
  | .unlock _ => [.lock 0]
  | .recvClear => [.word .friendCtx 8 0]
  | .recvAnswer => [.word .friendCtx 9 1]
  | .asm (.store r k :: _) => [.word t.cpu.rdi k (t.cpu.get r)]
  | .asm (.storeImm v k :: _) => [.word t.cpu.rdi k v]
  | _ => []

def reads (st : State ι S H L) (p : Party ι) : List (Loc ι) :=
  let t := st.thread p
  match t.pc with
  | .next =>
      match p with
      | .hakase => []
      | .friend i => [.data i]
  | .lockTest _ | .lockCas _ => [.lock]
  | .block _ =>
      match P.owner t.cpu.ctx.rsp with
      | none => []
      | some i => [.data i]
  | .recvTest => [.word .friendCtx 8]
  | .asm (.load k _ :: _) | .asm (.push k :: _) | .asm (.cmpZero k :: _) => [.word t.cpu.rdi k]
  | _ => []

end Program

/-- The two states look the same to party `p` at its next step. -/
structure SameFor (P : Program ι S H L) (p : Party ι) (st₁ st₂ : State ι S H L) : Prop where
  thread : st₁.thread p = st₂.thread p
  done : ∀ i, (st₁.friend i).done = (st₂.friend i).done
  h : st₁.h = st₂.h
  reads : ∀ x ∈ P.reads st₁ p, st₁.cells x = st₂.cells x

theorem SameFor.refl (P : Program ι S H L) (p : Party ι) (st : State ι S H L) : SameFor P p st st :=
  ⟨rfl, fun _ => rfl, rfl, fun _ _ => rfl⟩

theorem SameFor.request {P : Program ι S H L} {p : Party ι} {r st : State ι S H L} (hs : SameFor P p r st) (rsp : Word) :
    P.request st rsp = P.request r rsp := by
  unfold Program.request
  cases P.owner rsp with
  | none => rfl
  | some i => simp only [Option.map_some, hs.done i]

variable [DecidableEq ι]

/-! ## Store buffers -/

/-- The instruction at `pc` is the locked one. -/
def Pc.locked : Pc S → Bool
  | .lockCas _ => true
  | _ => false

namespace Tso

/-- The parties and the memory (`st`), and the store buffer of every party. -/
structure State (ι S H L : Type) where
  st : Offload.State ι S H L
  buf : Party ι → List (Write ι L)

/-- A party executes an instruction, or the oldest store of its buffer reaches memory. -/
inductive Move (ι : Type)
  | exec (p : Party ι)
  | drain (p : Party ι)

def State.view (T : State ι S H L) (p : Party ι) : Offload.State ι S H L :=
  T.st.withCells (Lib.view T.st.cells (T.buf p))

variable (P : Program ι S H L)

def step (T : State ι S H L) : Move ι → State ι S H L
  | .exec p =>
      if (T.st.thread p).pc.locked = true then
        -- a locked instruction waits for the buffer to be empty and works on memory
        match T.buf p with
        | [] => { T with st := P.step T.st p }
        | _ :: _ => T
      else
        { st := (P.step (T.view p) p).withCells T.st.cells
          buf := Function.update T.buf p (T.buf p ++ P.stores (T.view p) p) }
  | .drain p =>
      match T.buf p with
      | [] => T
      | w :: b => { st := T.st.withCells (Lib.put T.st.cells w), buf := Function.update T.buf p b }

def init (h : H) (loc : ι → L) : State ι S H L := ⟨P.init h loc, fun _ => []⟩

end Tso

/-! ## What a step does, and what it depends on -/

namespace State

/-- Party `p` becomes `t`, with what it recorded and with its stores `ws` in memory. -/
def after (st : State ι S H L) (p : Party ι) (t : Thread S) (h : H) (es : List (Event ι S)) (cs : List (Call ι S))
    (ws : List (Write ι L)) : State ι S H L :=
  { (st.setThread p t).withCells (Lib.view st.cells ws) with h := h, log := st.log ++ es, calls := st.calls ++ cs }

section
variable (st : State ι S H L) (p : Party ι) (t : Thread S) (h : H) (es : List (Event ι S)) (cs : List (Call ι S))
  (ws : List (Write ι L))

@[simp] theorem after_log : (st.after p t h es cs ws).log = st.log ++ es := rfl

@[simp] theorem after_calls : (st.after p t h es cs ws).calls = st.calls ++ cs := rfl

@[simp] theorem after_cells : (st.after p t h es cs ws).cells = Lib.view st.cells ws :=
  cells_withCells (st.setThread p t) _

@[simp] theorem after_thread : (st.after p t h es cs ws).thread p = t := by
  cases p with
  | hakase => rfl
  | friend i => exact Function.update_self i t st.friend

theorem after_thread_of_ne {q : Party ι} (hq : q ≠ p) : (st.after p t h es cs ws).thread q = st.thread q := by
  cases p with
  | hakase =>
      cases q with
      | hakase => exact absurd rfl hq
      | friend i => rfl
  | friend i =>
      cases q with
      | hakase => rfl
      | friend j => exact Function.update_of_ne (fun hj => hq (by rw [hj])) _ _

@[simp] theorem after_friend (k : ι) : (st.after (.friend k) t h es cs ws).friend k = t :=
  after_thread st (.friend k) t h es cs ws

/-- On what `p` sees instead of on memory, and with the memory put back. -/
theorem after_view (m : Memory ι L) :
    ((st.withCells m).after p t h es cs ws).withCells st.cells = st.after p t h es cs [] := by
  cases p <;> rfl

end

variable (st : State ι S H L) (p : Party ι) (t : Thread S)

theorem eq_after {st' : State ι S H L} {h : H} {es : List (Event ι S)} {cs : List (Call ι S)} {ws : List (Write ι L)}
    (hakase : st'.hakase = (st.setThread p t).hakase) (friend : st'.friend = (st.setThread p t).friend)
    (hh : st'.h = h) (log : st'.log = st.log ++ es) (calls : st'.calls = st.calls ++ cs)
    (cells : st'.cells = Lib.view st.cells ws) : st' = st.after p t h es cs ws :=
  eq_of_cells hakase friend hh log calls (cells.trans (cells_withCells (st.setThread p t) _).symm)

theorem cells_setThread : (st.setThread p t).cells = st.cells := by
  funext x
  cases p <;> cases x <;> rfl

theorem cells_setBuf (b : Buf) (k : Fin 10) (v : Word) :
    ({ st with off := st.off.setBuf b (Function.update (st.off.buf b) k v) } : State ι S H L).cells =
      Lib.view st.cells [Write.word b k v] := by
  funext x
  change _ = Function.update st.cells (Loc.word b k) v x
  cases x with
  | word b' k' =>
      by_cases hb : b' = b
      · subst hb
        by_cases hk : k' = k
        · subst hk
          rw [Function.update_self]
          cases b' <;> exact Function.update_self ..
        · rw [Function.update_of_ne (by simpa using hk)]
          cases b' <;> exact Function.update_of_ne hk _ _
      · rw [Function.update_of_ne (by simp [hb])]
        cases b <;> cases b' <;> first | rfl | exact absurd rfl hb
  | lock =>
      rw [Function.update_of_ne (by simp)]
      cases b <;> rfl
  | data i => rw [Function.update_of_ne (by simp)]; rfl

theorem cells_setLock (v : BitVec 32) :
    ({ st with off := { st.off with lock := v } } : State ι S H L).cells = Lib.view st.cells [Write.lock v] := by
  funext x
  change _ = Function.update st.cells Loc.lock v x
  cases x with
  | lock => rw [Function.update_self]; rfl
  | word b k => rw [Function.update_of_ne (by simp)]; cases b <;> rfl
  | data i => rw [Function.update_of_ne (by simp)]; rfl

theorem cells_setLoc (i : ι) (l : L) :
    ({ st with loc := Function.update st.loc i l } : State ι S H L).cells = Lib.view st.cells [Write.data i l] := by
  funext x
  change _ = Function.update st.cells (Loc.data i) l x
  cases x with
  | lock => rw [Function.update_of_ne (by simp)]; rfl
  | word b k => rw [Function.update_of_ne (by simp)]; rfl
  | data j =>
      by_cases hj : j = i
      · subst hj
        rw [Function.update_self]
        exact Function.update_self ..
      · rw [Function.update_of_ne (by simpa using hj)]
        exact Function.update_of_ne hj _ _

theorem setThread_eq_after : st.setThread p t = st.after p t st.h [] [] [] :=
  eq_after st p t rfl rfl (by cases p <;> rfl) (by cases p <;> simp [setThread]) (by cases p <;> simp [setThread])
    (cells_setThread st p t)

theorem record_eq_after (c : Call ι S) : (st.setThread p t).record c = st.after p t st.h [] [c] [] :=
  eq_after st p t rfl rfl (by cases p <;> rfl) (by cases p <;> simp [setThread, record]) (by cases p <;> rfl)
    (by rw [← cells_setThread st p t]; rfl)

theorem off_eq_after {o : Offloader} {ws : List (Write ι L)}
    (ho : ({ st with off := o } : State ι S H L).cells = Lib.view st.cells ws) :
    ({ st with off := o } : State ι S H L).setThread p t = st.after p t st.h [] [] ws :=
  eq_after st p t (by cases p <;> rfl) (by cases p <;> rfl) (by cases p <;> rfl) (by cases p <;> simp [setThread])
    (by cases p <;> simp [setThread]) ((cells_setThread _ p t).trans ho)

theorem off_emit_eq_after {o : Offloader} {ws : List (Write ι L)} (e : Event ι S)
    (ho : ({ st with off := o } : State ι S H L).cells = Lib.view st.cells ws) :
    (({ st with off := o } : State ι S H L).setThread p t).emit e = st.after p t st.h [e] [] ws :=
  eq_after st p t (by cases p <;> rfl) (by cases p <;> rfl) (by cases p <;> rfl) (by cases p <;> rfl)
    (by cases p <;> simp [setThread, emit]) ((cells_setThread { st with off := o } p t).trans ho)

end State

section
variable (P : Program ι S H L)

/-- The step of `p` has one outcome in all states that look like `r`: the thread, what is recorded, the stores. -/
def Outcome (p : Party ι) (r : State ι S H L) : Prop :=
  ∃ t h es cs ws, ∀ st, SameFor P p r st → P.stores st p = ws ∧ P.step st p = st.after p t h es cs ws

variable {P} {p : Party ι} {r : State ι S H L}

theorem outcome_move {pc : Pc S} (hpc : (r.thread p).pc = pc) {t : Thread S}
    (h : ∀ st, SameFor P p r st → P.stores st p = [] ∧ P.stepAt st p pc = st.setThread p t) : Outcome P p r := by
  refine ⟨t, r.h, [], [], [], fun st hs => ⟨(h st hs).1, ?_⟩⟩
  rw [P.step_eq (hs.thread ▸ hpc), (h st hs).2, hs.h]
  exact State.setThread_eq_after st p t

theorem outcome_emit {pc : Pc S} (hpc : (r.thread p).pc = pc) {t : Thread S} {e : Event ι S} {w : List (Write ι L)}
    (h : ∀ st, SameFor P p r st → P.stores st p = w ∧
      ∃ o, P.stepAt st p pc = (({ st with off := o } : State ι S H L).setThread p t).emit e ∧
        ({ st with off := o } : State ι S H L).cells = Lib.view st.cells w) : Outcome P p r := by
  refine ⟨t, r.h, [e], [], w, fun st hs => ⟨(h st hs).1, ?_⟩⟩
  obtain ⟨o, hstep, hcells⟩ := (h st hs).2
  rw [P.step_eq (hs.thread ▸ hpc), hstep, hs.h]
  exact State.off_emit_eq_after st p t e hcells

theorem setBuf_self (o : Offloader) (b : Buf) : o.setBuf b (o.buf b) = o := by
  cases b <;> rfl

theorem outcome_load {j : Instr} {rest : List Instr} (hpc : (r.thread p).pc = .asm (j :: rest)) (hj : j.plain = true)
    (hmem : ∀ cpu buf, (j.exec (cpu, buf)).2 = buf)
    (hst : ∀ st : State ι S H L, (st.thread p).pc = .asm (j :: rest) → P.stores st p = [])
    (hcpu : ∀ st, SameFor P p r st → (j.exec ((r.thread p).cpu, st.off.buf (r.thread p).cpu.rdi)).1 =
      (j.exec ((r.thread p).cpu, r.off.buf (r.thread p).cpu.rdi)).1) : Outcome P p r := by
  refine outcome_move hpc (t := { r.thread p with
    cpu := (j.exec ((r.thread p).cpu, r.off.buf (r.thread p).cpu.rdi)).1
    pc := .asm rest }) fun st hs => ⟨hst st (hs.thread ▸ hpc), ?_⟩
  rw [← P.step_eq (hs.thread ▸ hpc), step_plain P (b := (r.thread p).cpu.rdi) (by rw [hs.thread]) (hs.thread ▸ hpc) hj,
    hmem, setBuf_self, ← hs.thread, hcpu st hs]

theorem outcome_store {j : Instr} {rest : List Instr} {k : Fin 10} {v : Word}
    (hpc : (r.thread p).pc = .asm (j :: rest)) (hret : j ≠ .ret) (hje : j ≠ .je)
    (hmem : ∀ buf, j.exec ((r.thread p).cpu, buf) = ((r.thread p).cpu, Function.update buf k v))
    (hst : ∀ st, SameFor P p r st → P.stores st p = [.word (r.thread p).cpu.rdi k v]) : Outcome P p r := by
  refine ⟨{ r.thread p with pc := .asm rest }, r.h, if j = .storeImm 1 8 then [.post p] else [], [], _,
    fun st hs => ⟨hst st hs, ?_⟩⟩
  have hstep : P.step st p = P.stepAsm st p (j :: rest) := P.step_eq (hs.thread ▸ hpc)
  rw [hstep, hs.h]
  unfold Program.stepAsm
  split
  · simp_all
  · simp_all
  · simp_all
  · rename_i j' rest' h1 h2 heq
    obtain ⟨rfl, rfl⟩ := List.cons.inj heq
    dsimp only
    rw [← hs.thread, hmem]
    dsimp only
    split
    · exact State.off_emit_eq_after st p _ _ (State.cells_setBuf st _ k v)
    · exact State.off_eq_after st p _ (State.cells_setBuf st _ k v)

theorem outcome_asm {is : List Instr} (hpc : (r.thread p).pc = .asm is) : Outcome P p r := by
  have hpc' : ∀ {st : State ι S H L}, SameFor P p r st → (st.thread p).pc = .asm is := fun hs => hs.thread ▸ hpc
  -- a word that the instruction reads
  have hread : ∀ (k : Fin 10) {st : State ι S H L}, SameFor P p r st → P.reads r p = [.word (r.thread p).cpu.rdi k] →
      st.off.buf (r.thread p).cpu.rdi k = r.off.buf (r.thread p).cpu.rdi k := by
    intro k st hs hr
    exact (hs.reads (.word (r.thread p).cpu.rdi k) (by rw [hr]; exact List.mem_singleton.mpr rfl)).symm
  match is with
  | [] =>
      refine outcome_move hpc (t := { r.thread p with pc := .lost }) fun st hs => ⟨?_, ?_⟩
      · simp only [Program.stores, hpc' hs]
      · rw [hs.thread]
        rfl
  | .ret :: rest =>
      refine outcome_move hpc (t := { r.thread p with
        cpu := { (r.thread p).cpu with ctx := (r.thread p).cpu.ctx.returned, rip := (r.thread p).cpu.top }
        pc := P.landing (r.thread p).cpu.top }) fun st hs => ⟨?_, ?_⟩
      · simp only [Program.stores, hpc' hs]
      · rw [hs.thread]
        rfl
  | .je :: rest =>
      refine outcome_move hpc
        (t := { r.thread p with pc := .asm (if (r.thread p).cpu.zf then waitLoop else rest) }) fun st hs => ⟨?_, ?_⟩
      · simp only [Program.stores, hpc' hs]
      · rw [hs.thread]
        rfl
  | .store rg k :: rest =>
      refine outcome_store hpc (by simp) (by simp) (fun buf => rfl) fun st hs => ?_
      simp only [Program.stores, ← hs.thread, hpc]
  | .storeImm v k :: rest =>
      refine outcome_store hpc (by simp) (by simp) (fun buf => rfl) fun st hs => ?_
      simp only [Program.stores, ← hs.thread, hpc]
  | .load k rg :: rest =>
      refine outcome_load hpc rfl (fun _ _ => rfl) (fun st h => by simp only [Program.stores, h]) fun st hs => ?_
      simp only [Instr.exec, hread k hs (by simp only [Program.reads, hpc])]
  | .push k :: rest =>
      refine outcome_load hpc rfl (fun _ _ => rfl) (fun st h => by simp only [Program.stores, h]) fun st hs => ?_
      simp only [Instr.exec, hread k hs (by simp only [Program.reads, hpc])]
  | .cmpZero k :: rest =>
      refine outcome_load hpc rfl (fun _ _ => rfl) (fun st h => by simp only [Program.stores, h]) fun st hs => ?_
      simp only [Instr.exec, hread k hs (by simp only [Program.reads, hpc])]
  | .leaRsp :: rest | .loadTop :: rest | .movImm v :: rest | .movRsi :: rest | .pause :: rest =>
      exact outcome_load hpc rfl (fun _ _ => rfl) (fun st h => by simp only [Program.stores, h]) fun _ _ => rfl

theorem outcome_next (hpc : (r.thread p).pc = .next) : Outcome P p r := by
  cases p with
  | hakase =>
      refine ⟨⟨{ r.hakase.cpu with ctx := (P.poll r.hakase.done).called }, .recvTest, r.hakase.done + 1⟩, r.h, [],
        [.enter .hakase (P.poll r.hakase.done)], [], fun st hs => ?_⟩
      have hth : r.hakase = st.hakase := hs.thread
      refine ⟨by simp only [Program.stores, ← hs.thread, hpc], ?_⟩
      rw [P.step_eq (hs.thread ▸ hpc), hs.h, hth]
      exact State.eq_after st .hakase _ rfl rfl rfl (List.append_nil _).symm rfl rfl
  | friend i =>
      cases hs' : (P.prog i)[(r.friend i).done]? with
      | none =>
          refine outcome_move hpc (t := r.friend i) fun st hs => ?_
          have hth : r.friend i = st.friend i := hs.thread
          rw [hth] at hs'
          refine ⟨?_, ?_⟩
          · simp only [Program.stores, ← hs.thread, hpc]
            rw [hs.thread, show st.thread (.friend i) = st.friend i from rfl, hs']
          · simp only [Program.stepAt, Program.stepNext, hs']
            rw [hth, State.setThread, Function.update_eq_self]
      | some s =>
          refine ⟨{ r.friend i with
              cpu := { (r.friend i).cpu with
                ctx := (P.own i (r.friend i).done (r.friend i).cpu.ctx (r.loc i)).1 }
              pc := .lockTest s }, r.h, [], [],
            [.data i (P.own i (r.friend i).done (r.friend i).cpu.ctx (r.loc i)).2], fun st hs => ?_⟩
          have hth : r.friend i = st.friend i := hs.thread
          have hloc : r.loc i = st.loc i := hs.reads (.data i) (by simp only [Program.reads, hpc, List.mem_singleton])
          rw [hth] at hs'
          refine ⟨?_, ?_⟩
          · simp only [Program.stores, ← hs.thread, hpc]
            rw [hs.thread, show st.thread (.friend i) = st.friend i from rfl, hs', hth, hloc]
          · rw [P.step_eq (hs.thread ▸ hpc), hs.h, hth, hloc]
            simp only [Program.stepAt, Program.stepNext, hs']
            exact State.eq_after st (.friend i) _ rfl rfl rfl (List.append_nil _).symm (List.append_nil _).symm
              (State.cells_setLoc st i _)

theorem outcome_block {s : S} (hpc : (r.thread p).pc = .block s) : Outcome P p r := by
  cases ho : P.owner (r.thread p).cpu.ctx.rsp with
  | none =>
      refine outcome_move hpc (t := { r.thread p with pc := .lost }) fun st hs => ⟨?_, ?_⟩
      · simp only [Program.stores, ← hs.thread, hpc, ho]
      · simp only [Program.stepAt, Program.stepBlock, ← hs.thread, ho, State.goto]
  | some i =>
      refine ⟨{ r.thread p with
          cpu := { (r.thread p).cpu with ctx := (P.code s r.h (r.thread p).cpu.ctx (r.loc i)).2.1 }
          pc := .callSet s }, (P.code s r.h (r.thread p).cpu.ctx (r.loc i)).1,
        [.exec p (P.request r (r.thread p).cpu.ctx.rsp) s], [.exec p (P.request r (r.thread p).cpu.ctx.rsp) s],
        [.data i (P.code s r.h (r.thread p).cpu.ctx (r.loc i)).2.2], fun st hs => ?_⟩
      have hloc : r.loc i = st.loc i := hs.reads (.data i) (by simp only [Program.reads, hpc, ho, List.mem_singleton])
      refine ⟨?_, ?_⟩
      · simp only [Program.stores, ← hs.thread, hpc, ho, hs.h, hloc]
      · rw [P.step_eq (hs.thread ▸ hpc)]
        simp only [Program.stepAt, Program.stepBlock, ← hs.thread, ho, hs.h, hloc, hs.request]
        refine State.eq_after st p _ ?_ ?_ rfl rfl rfl ?_
        · cases p <;> rfl
        · cases p <;> rfl
        · rw [← State.cells_setLoc st i]
          funext x
          cases p <;> cases x <;> rfl

/-- **What a step does depends on nothing but what the party sees.** -/
theorem outcome (P : Program ι S H L) (p : Party ι) (r : State ι S H L) : Outcome P p r := by
  have hst : ∀ {st : State ι S H L}, SameFor P p r st → st.thread p = r.thread p := fun hs => hs.thread.symm
  cases hpc : (r.thread p).pc with
  | asm is => exact outcome_asm hpc
  | next => exact outcome_next hpc
  | block s => exact outcome_block hpc
  | lockTest s =>
      refine outcome_move hpc (t := { r.thread p with pc := if r.off.lock ≠ 0 then .lockPause s else .lockCas s })
        fun st hs => ⟨?_, ?_⟩
      · simp only [Program.stores, hst hs, hpc]
      · have hl : r.off.lock = st.off.lock := hs.reads .lock (by simp only [Program.reads, hpc, List.mem_singleton])
        rw [Program.stepAt, State.goto, hst hs, hl]
  | lockCas s =>
      have hl : ∀ {st : State ι S H L}, SameFor P p r st → st.off.lock = r.off.lock := fun hs =>
        (hs.reads .lock (by simp only [Program.reads, hpc, List.mem_singleton])).symm
      by_cases h0 : r.off.lock = 0
      · refine outcome_emit hpc (t := { r.thread p with pc := .callWait s })
          (e := .acquire p (P.request r (r.thread p).cpu.ctx.rsp) s) (w := [.lock 1]) fun st hs => ⟨?_, ?_⟩
        · simp only [Program.stores, hst hs, hpc, hl hs, h0, if_true]
        · refine ⟨{ st.off with lock := 1 }, ?_, State.cells_setLock st 1⟩
          rw [Program.stepAt, if_pos ((hl hs).trans h0), hst hs, hs.request, State.goto,
            show ({ st with off := { st.off with lock := 1 } } : State ι S H L).thread p = st.thread p by cases p <;> rfl,
            hst hs]
      · refine outcome_move hpc (t := { r.thread p with pc := .lockPause s }) fun st hs => ⟨?_, ?_⟩
        · simp only [Program.stores, hst hs, hpc, hl hs, h0, if_false]
        · rw [Program.stepAt, if_neg (by rwa [hl hs]), State.goto, hst hs]
  | callWait s =>
      refine outcome_emit hpc (t := (r.thread p).call toshokanSetjmpWithWait .friendCtx (P.addr (.waitRet s)))
        (e := .save p (P.request r (r.thread p).cpu.ctx.rsp) s (r.thread p).cpu.ctx (P.addr (.waitRet s)))
        (w := []) fun st hs => ⟨?_, st.off, ?_, rfl⟩
      · simp only [Program.stores, hst hs, hpc]
      · rw [Program.stepAt, hst hs, hs.request]
  | callSet s =>
      refine outcome_emit hpc (t := (r.thread p).call toshokanSetjmp .friendCtx (P.addr (.setRet s)))
        (e := .finish p (P.request r (r.thread p).cpu.ctx.rsp) s (r.thread p).cpu.ctx (P.addr (.setRet s)))
        (w := []) fun st hs => ⟨?_, st.off, ?_, rfl⟩
      · simp only [Program.stores, hst hs, hpc]
      · rw [Program.stepAt, hst hs, hs.request]
  | testWait s =>
      by_cases h0 : (r.thread p).cpu.eax ≠ 0
      · refine outcome_emit hpc (t := { r.thread p with pc := .block s })
          (e := .start p (P.request r (r.thread p).cpu.ctx.rsp) s (r.thread p).cpu.ctx (r.thread p).cpu.rip)
          (w := []) fun st hs => ⟨?_, st.off, ?_, rfl⟩
        · simp only [Program.stores, hst hs, hpc]
        · rw [Program.stepAt, hst hs, if_pos h0, hs.request, State.goto, hst hs]
      · refine outcome_move hpc (t := { r.thread p with pc := .unlock s }) fun st hs => ⟨?_, ?_⟩
        · simp only [Program.stores, hst hs, hpc]
        · rw [Program.stepAt, hst hs, if_neg h0, State.goto, hst hs]
  | testSet s =>
      by_cases h0 : (r.thread p).cpu.eax = 0
      · refine outcome_move hpc (t := { r.thread p with pc := .callLong s }) fun st hs => ⟨?_, ?_⟩
        · simp only [Program.stores, hst hs, hpc]
        · rw [Program.stepAt, hst hs, if_pos h0, State.goto, hst hs]
      · refine outcome_emit hpc (t := { r.thread p with pc := .unlock s })
          (e := .resume p (P.request r (r.thread p).cpu.ctx.rsp) s (r.thread p).cpu.ctx (r.thread p).cpu.rip
            (r.thread p).cpu.rax) (w := []) fun st hs => ⟨?_, st.off, ?_, rfl⟩
        · simp only [Program.stores, hst hs, hpc]
        · rw [Program.stepAt, hst hs, if_neg h0, hs.request, State.goto, hst hs]
  | unlock s =>
      refine outcome_emit hpc (t := { r.thread p with pc := .next, done := (r.thread p).done + 1 })
        (e := .release p (P.request r (r.thread p).cpu.ctx.rsp) s) (w := [.lock 0])
        fun st hs => ⟨?_, { st.off with lock := 0 }, ?_, State.cells_setLock st 0⟩
      · simp only [Program.stores, hst hs, hpc]
      · rw [Program.stepAt, hst hs, hs.request]
  | recvClear =>
      refine outcome_emit hpc (t := { r.thread p with pc := .recvCallSet }) (e := .take p)
        (w := [.word .friendCtx 8 0]) fun st hs => ⟨?_, _, ?_, State.cells_setBuf st .friendCtx 8 0⟩
      · simp only [Program.stores, hst hs, hpc]
      · rw [← hst hs]
        cases p <;> rfl
  | recvAnswer =>
      refine outcome_emit hpc (t := { r.thread p with pc := .recvRet true }) (e := .answer p)
        (w := [.word .friendCtx 9 1]) fun st hs => ⟨?_, _, ?_, State.cells_setBuf st .friendCtx 9 1⟩
      · simp only [Program.stores, hst hs, hpc]
      · rw [← hst hs]
        cases p <;> rfl
  | recvRet b =>
      refine ⟨{ r.thread p with cpu := { (r.thread p).cpu with ctx := (r.thread p).cpu.ctx.returned }, pc := .next },
        r.h, [], [.leave p (r.thread p).cpu.ctx.returned b], [], fun st hs => ⟨?_, ?_⟩⟩
      · simp only [Program.stores, hst hs, hpc]
      · rw [P.step_eq (hs.thread ▸ hpc), hs.h, Program.stepAt, hst hs]
        exact State.record_eq_after st p _ _
  | recvTest =>
      refine outcome_move hpc
        (t := { r.thread p with pc := if r.off.friendCtx 8 = 0 then .recvRet false else .recvClear })
        fun st hs => ⟨?_, ?_⟩
      · simp only [Program.stores, hst hs, hpc]
      · have h8 : r.off.friendCtx 8 = st.off.friendCtx 8 :=
          hs.reads (.word .friendCtx 8) (by simp only [Program.reads, hpc, List.mem_singleton])
        rw [Program.stepAt, State.goto, hst hs, h8]
  | recvTestSet =>
      refine outcome_move hpc
        (t := { r.thread p with pc := if (r.thread p).cpu.eax = 0 then .recvCallLong else .recvAnswer })
        fun st hs => ⟨?_, ?_⟩
      · simp only [Program.stores, hst hs, hpc]
      · rw [Program.stepAt, State.goto, hst hs]
  | lockPause s =>
      refine outcome_move hpc (t := { r.thread p with pc := .lockTest s }) fun st hs => ⟨?_, ?_⟩
      · simp only [Program.stores, hst hs, hpc]
      · rw [Program.stepAt, State.goto, hst hs]
  | callLong s =>
      refine outcome_move hpc (t := (r.thread p).callLongjmp .hakaseCtx (P.addr (.longRet s))) fun st hs => ⟨?_, ?_⟩
      · simp only [Program.stores, hst hs, hpc]
      · rw [Program.stepAt, hst hs]
  | recvCallSet =>
      refine outcome_move hpc (t := (r.thread p).call toshokanSetjmp .hakaseCtx (P.addr .recvSetRet))
        fun st hs => ⟨?_, ?_⟩
      · simp only [Program.stores, hst hs, hpc]
      · rw [Program.stepAt, hst hs]
  | recvCallLong =>
      refine outcome_move hpc (t := (r.thread p).callLongjmp .friendCtx (P.addr .recvLongRet)) fun st hs => ⟨?_, ?_⟩
      · simp only [Program.stores, hst hs, hpc]
      · rw [Program.stepAt, hst hs]
  | lost =>
      refine outcome_move hpc (t := r.thread p) fun st hs => ⟨?_, ?_⟩
      · simp only [Program.stores, hst hs, hpc]
      · rw [Program.stepAt, ← hst hs]
        cases p with
        | hakase => rfl
        | friend i => simp only [State.setThread, State.thread, Function.update_eq_self]

theorem cells_step (P : Program ι S H L) (st : State ι S H L) (p : Party ι) :
    (P.step st p).cells = Lib.view st.cells (P.stores st p) := by
  obtain ⟨t, h, es, cs, ws, hout⟩ := outcome P p st
  obtain ⟨hws, hstep⟩ := hout st (.refl P p st)
  rw [hstep, hws, State.after_cells]

/-- Party `p` becomes `t`, and its stores `ws` go to its buffer. -/
def Tso.State.issued (T : Tso.State ι S H L) (p : Party ι) (t : Thread S) (h : H) (es : List (Event ι S))
    (cs : List (Call ι S)) (ws : List (Write ι L)) : Tso.State ι S H L :=
  ⟨T.st.after p t h es cs [], Function.update T.buf p (T.buf p ++ ws)⟩

section
variable (T : Tso.State ι S H L) (p : Party ι) (t : Thread S) (h : H) (es : List (Event ι S)) (cs : List (Call ι S))
  (ws : List (Write ι L))

@[simp] theorem Tso.State.issued_buf : (T.issued p t h es cs ws).buf p = T.buf p ++ ws := Function.update_self ..

theorem Tso.State.issued_buf_of_ne {q : Party ι} (hq : q ≠ p) : (T.issued p t h es cs ws).buf q = T.buf q :=
  Function.update_of_ne hq _ _

@[simp] theorem Tso.State.issued_cells : (T.issued p t h es cs ws).st.cells = T.st.cells :=
  State.after_cells ..

end

/-- **Both machines take the same step**, if the party sees the same: the stores go to memory here, to the buffer
there. -/
theorem exec_same {P : Program ι S H L} {p : Party ι} {T : Tso.State ι S H L} {s : State ι S H L}
    (hs : SameFor P p s (T.view p)) (hl : (s.thread p).pc.locked = false) : ∃ t h es cs ws,
      P.stores s p = ws ∧ P.step s p = s.after p t h es cs ws ∧
      Tso.step P T (.exec p) = T.issued p t h es cs ws := by
  obtain ⟨t, h, es, cs, ws, hout⟩ := outcome P p s
  obtain ⟨hws, hstep⟩ := hout s (.refl P p s)
  obtain ⟨hws', hstep'⟩ := hout _ hs
  have hth : s.thread p = T.st.thread p := by
    rw [hs.thread, Tso.State.view, State.thread_withCells]
  refine ⟨t, h, es, cs, ws, hws, hstep, ?_⟩
  rw [Tso.step, if_neg (by rw [← hth, hl]; decide), hws', hstep', Tso.State.view, State.after_view, Tso.State.issued]

end

end Toshokan.Offload
