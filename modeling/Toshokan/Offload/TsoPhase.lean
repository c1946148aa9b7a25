import Toshokan.Offload.Tso
import Toshokan.Offload.Once

/-!
# Store buffers during a request

How a state with store buffers relates to the state `s` of the machine without them. The stores of a party are all in
`s` as soon as they are issued, with one exception: the store that posts a request counts from the moment it reaches
memory, so that hakase finds the word set in both machines at once. A core that spins on an old value is ahead of or
behind its image in `s`, in the same loop.

* `Spin` : the same core, or the same core at another point of the loop that tries for `_lock`; `Loop`, `SameCore` : a
  core in the wait loop, and the same core up to the loop's flag;
* `Outer` : a core that does not hold `_lock`;
* `Phase` : who may have stores under way at which stage of a request, and where they go;
* `Sim` : the relation, `Phase.outer`, `Phase.poll` : what is none of the holder's business keeps the phase.
-/

namespace Toshokan.Offload

variable {ι S H L : Type}

/-! ## Cores -/

/-- At one of the points of the loop that tries for `_lock` at the call site `a`. -/
def Pc.trying (pc : Pc S) (a : S) : Prop := pc = .lockTest a ∨ pc = .lockCas a ∨ pc = .lockPause a

def Pc.outside : Pc S → Bool
  | .next | .lockTest _ | .lockCas _ | .lockPause _ => true
  | _ => false

/-- The same core, perhaps at another point of the loop that tries for `_lock`. -/
def Spin (t t' : Thread S) : Prop :=
  t = t' ∨ ∃ a, t.pc.trying a ∧ t'.pc.trying a ∧ t.cpu = t'.cpu ∧ t.done = t'.done

structure Loop (t : Thread S) : Prop where
  rdi : t.cpu.rdi = .friendCtx
  pc : ∃ is, t.pc = .asm is ∧ InWait is

/-- The same core up to its position and to the flag of the comparison. -/
structure SameCore (t t' : Thread S) : Prop where
  cpu : t.cpu = { t'.cpu with zf := t.cpu.zf }
  done : t.done = t'.done

theorem SameCore.trans {t t' t'' : Thread S} (h : SameCore t t') (h' : SameCore t' t'') : SameCore t t'' := by
  refine ⟨?_, h.done.trans h'.done⟩
  rw [h.cpu, h'.cpu]

theorem Spin.done {t t' : Thread S} (h : Spin t t') : t.done = t'.done := by
  rcases h with rfl | ⟨-, -, -, -, hd⟩
  · rfl
  · exact hd

namespace Tso

variable {T T' : State ι S H L} {s s' : Offload.State ι S H L}

/-- The completion word while core `i` waits: not stored yet, stored and in memory, or stored and the last in hakase's
buffer. -/
def Completion (T : State ι S H L) (s : Offload.State ι S H L) (ws : List (Write ι L)) : Prop :=
  (s.off.friendCtx 9 = 0 ∧ ∀ w ∈ ws, w.1 ≠ .word .friendCtx 9) ∨ (s.off.friendCtx 9 = 1 ∧ ws = []) ∨
    (s.off.friendCtx 9 = 1 ∧ T.st.off.friendCtx 9 = 0 ∧
      ∃ us, ws = us ++ [.word .friendCtx 9 1] ∧ ∀ w ∈ us, w.1 ≠ .word .friendCtx 9)

theorem Completion.congr {ws : List (Write ι L)} (h : Completion T s ws)
    (h9 : T'.st.off.friendCtx 9 = T.st.off.friendCtx 9) (h9' : s'.off.friendCtx 9 = s.off.friendCtx 9) :
    Completion T' s' ws := by
  unfold Completion at h ⊢
  rwa [h9, h9']

/-- Only core `k`, its buffer and what it keeps for itself have changed. -/
structure OuterMove (k : ι) (T T' : State ι S H L) (s s' : Offload.State ι S H L) : Prop where
  hakase : T'.st.hakase = T.st.hakase ∧ s'.hakase = s.hakase
  h : T'.st.h = T.st.h ∧ s'.h = s.h
  calls : T'.st.calls = T.st.calls ∧ s'.calls = s.calls
  log : T'.st.log = T.st.log ∧ s'.log = s.log
  friend : ∀ j, j ≠ k → T'.st.friend j = T.st.friend j ∧ s'.friend j = s.friend j
  cells : ∀ x, x ≠ .data k → T'.st.cells x = T.st.cells x ∧ s'.cells x = s.cells x
  buf : ∀ q, q ≠ .friend k → T'.buf q = T.buf q

section
variable {k : ι} (hm : OuterMove k T T' s s')
include hm

theorem OuterMove.off (b : Buf) (j : Fin 10) : T'.st.off.buf b j = T.st.off.buf b j ∧ s'.off.buf b j = s.off.buf b j :=
  hm.cells (.word b j) (by simp)

theorem OuterMove.lock : T'.st.off.lock = T.st.off.lock ∧ s'.off.lock = s.off.lock := hm.cells .lock (by simp)

end

variable [DecidableEq ι]

/-- A core that does not hold `_lock`: only what it keeps for itself is in its buffer. -/
structure Outer (T : State ι S H L) (s : Offload.State ι S H L) (k : ι) : Prop where
  writes : ∀ w ∈ T.buf (.friend k), w.1 = .data k
  data : s.loc k = Lib.view T.st.cells (T.buf (.friend k)) (.data k)
  spin : Spin (T.st.friend k) (s.friend k)

def Shared (x : Loc ι) : Prop := ∀ k, x ≠ .data k

/-- Stores to the words of `_friend_ctx` other than the request word. -/
def Words (ws : List (Write ι L)) : Prop := ∀ w ∈ ws, ∃ k, k ≠ 8 ∧ w.1 = .word .friendCtx k

/-- The release of `_lock` by core `i` has not reached memory. -/
structure Released (T : State ι S H L) (s : Offload.State ι S H L) (i : ι) (us vs : List (Write ι L)) : Prop where
  hh : T.buf .hakase = []
  lock : s.off.lock = 0
  held : T.st.off.lock = 1
  buf : T.buf (.friend i) = us ++ .lock 0 :: vs
  hus : Words us
  hvs : ∀ w ∈ vs, w.1 = .data i
  data : s.loc i = Lib.view T.st.cells vs (.data i)
  spin : Spin (T.st.friend i) (s.friend i)
  outer : ∀ k, k ≠ i → Outer T s k
  mem : ∀ x, Shared x → s.cells x = Lib.view T.st.cells (us ++ [.lock 0]) x
  log : T.st.log = s.log

/-- Who may have stores under way. -/
inductive Phase (T : State ι S H L) (s : Offload.State ι S H L) : Prop
  /-- Nobody holds `_lock`. -/
  | idle (hh : T.buf .hakase = []) (lock : s.off.lock = 0) (outer : ∀ k, Outer T s k)
      (mem : ∀ x, Shared x → s.cells x = T.st.cells x) (log : T.st.log = s.log)
  | released (i : ι) (us vs : List (Write ι L)) (h : Released T s i us vs)
  /-- Core `i` holds `_lock` and does not wait. -/
  | turn (i : ι) (hh : T.buf .hakase = []) (inside : (s.friend i).pc.outside = false) (ws : Words (T.buf (.friend i)))
      (thread : T.st.friend i = s.friend i) (noloop : ∀ is, (s.friend i).pc = .asm is → ¬ InWait is)
      (outer : ∀ k, k ≠ i → Outer T s k)
      (mem : ∀ x, (∀ k, k ≠ i → x ≠ .data k) → s.cells x = Lib.view T.st.cells (T.buf (.friend i)) x)
      (log : T.st.log = s.log)
  /-- The request of core `i` has not reached memory: in `s` it has still to be posted. -/
  | posting (i : ι) (us : List (Write ι L)) (hh : T.buf .hakase = [])
      (pc : (s.friend i).pc = .asm (.storeImm 1 8 :: waitLoop))
      (buf : T.buf (.friend i) = us ++ [.word .friendCtx 8 1]) (hus : Words us) (loop : Loop (T.st.friend i))
      (same : SameCore (T.st.friend i) (s.friend i))
      (zf : (T.st.friend i).pc = .asm (waitLoop.drop 2) → (T.st.friend i).cpu.zf = true)
      (outer : ∀ k, k ≠ i → Outer T s k)
      (mem : ∀ x, (∀ k, k ≠ i → x ≠ .data k) → s.cells x = Lib.view T.st.cells us x)
      (log : T.st.log = s.log ++ [.post (.friend i)])
  /-- Core `i` waits for hakase. -/
  | waiting (i : ι) (hi : T.buf (.friend i) = []) (loop : Loop (T.st.friend i)) (loop' : Loop (s.friend i))
      (same : SameCore (T.st.friend i) (s.friend i))
      (zf : (T.st.friend i).pc = .asm (waitLoop.drop 2) → (T.st.friend i).cpu.zf = false →
        s.off.friendCtx 9 = 1 ∧ T.buf .hakase = [])
      (ws : ∀ w ∈ T.buf .hakase, w.1 ≠ .lock ∧ ∀ k, k ≠ i → w.1 ≠ .data k) (nine : Completion T s (T.buf .hakase))
      (outer : ∀ k, k ≠ i → Outer T s k)
      (mem : ∀ x, (∀ k, k ≠ i → x ≠ .data k) → s.cells x = Lib.view T.st.cells (T.buf .hakase) x)
      (log : T.st.log = s.log)

/-- The two machines agree, up to stores under way and turns of a loop. -/
structure Sim (T : State ι S H L) (s : Offload.State ι S H L) : Prop where
  hakase : T.st.hakase = s.hakase
  h : T.st.h = s.h
  calls : T.st.calls = s.calls
  phase : Phase T s

theorem Phase.done (h : Phase T s) (k : ι) : (s.friend k).done = (T.st.friend k).done := by
  -- everybody but the holder is a core that does not hold `_lock`
  have hout : ∀ i, (∀ k, k ≠ i → Outer T s k) → (T.st.friend i).done = (s.friend i).done →
      (s.friend k).done = (T.st.friend k).done := by
    intro i houter hi
    by_cases hk : k = i
    · subst hk
      exact hi.symm
    · exact (houter k hk).spin.done.symm
  cases h with
  | idle _ _ outer => exact (outer k).spin.done.symm
  | released i _ _ h => exact hout i h.outer h.spin.done
  | turn i _ _ _ thread _ outer => exact hout i outer (by rw [thread])
  | posting i _ _ _ _ _ _ same _ outer => exact hout i outer same.done
  | waiting i _ _ _ same _ _ _ outer => exact hout i outer same.done

/-! ## Moves that are none of the holder's business -/

namespace OuterMove

variable {k : ι} (hm : OuterMove k T T' s s')
include hm

theorem outer {j : ι} (hj : j ≠ k) (h : Outer T s j) : Outer T' s' j := by
  have hb : T'.buf (.friend j) = T.buf (.friend j) := hm.buf _ (by simpa using hj)
  have hx : (Loc.data j : Loc ι) ≠ .data k := by simpa using hj
  refine ⟨?_, ?_, ?_⟩
  · rw [hb]
    exact h.writes
  · rw [hb]
    exact ((hm.cells _ hx).2.trans h.data).trans (Lib.view_congr _ (hm.cells _ hx).1.symm)
  · rw [(hm.friend j hj).1, (hm.friend j hj).2]
    exact h.spin

theorem outers {i : ι} (hk : Outer T' s' k) (h : ∀ j, j ≠ i → Outer T s j) : ∀ j, j ≠ i → Outer T' s' j := by
  intro j hj
  by_cases hjk : j = k
  · rw [hjk]
    exact hk
  · exact hm.outer hjk (h j hj)

theorem mem {b : List (Write ι L)} {x : Loc ι} (hx : x ≠ .data k) (h : s.cells x = Lib.view T.st.cells b x) :
    s'.cells x = Lib.view T'.st.cells b x :=
  ((hm.cells x hx).2.trans h).trans (Lib.view_congr b (hm.cells x hx).1.symm)

end OuterMove

/-- **A core outside of a request** has released `_lock` and the store is still under way, or no move of its own
changes the phase. -/
theorem Phase.outer {k : ι} (h : Phase T s) (hk : (s.friend k).pc.outside = true) :
    (∃ us vs, Released T s k us vs) ∨
      Outer T s k ∧ ∀ T' s', OuterMove k T T' s s' → Outer T' s' k → Phase T' s' := by
  have hshared : ∀ {x : Loc ι}, Shared x → x ≠ .data k := fun h => h k
  -- the holder is another core
  have hne : ∀ {i : ι}, (s.friend i).pc.outside = false → k ≠ i := by
    rintro i hi rfl
    rw [hi] at hk
    exact Bool.false_ne_true hk
  have hasm : ∀ {i : ι} {is : List Instr}, (s.friend i).pc = .asm is → k ≠ i := fun h => hne (by rw [h]; rfl)
  have hq : ∀ {i : ι}, k ≠ i → (Party.friend i : Party ι) ≠ .friend k := fun h => by simpa using Ne.symm h
  cases h with
  | idle hh lock outer mem log =>
      refine .inr ⟨outer k, fun T' s' hm ho => ?_⟩
      refine .idle ((hm.buf .hakase (by simp)).trans hh) (hm.lock.2.trans lock) (fun j => ?_) (fun x hx => ?_) ?_
      · by_cases hj : j = k
        · rw [hj]
          exact ho
        · exact hm.outer hj (outer j)
      · exact hm.mem (b := []) (hshared hx) (mem x hx)
      · rw [hm.log.1, hm.log.2, log]
  | released i us vs h =>
      by_cases hki : k = i
      · rw [hki]
        exact .inl ⟨us, vs, h⟩
      · refine .inr ⟨h.outer k hki, fun T' s' hm ho => .released i us vs ?_⟩
        have hi : (Loc.data i : Loc ι) ≠ .data k := by simpa using Ne.symm hki
        exact {
          hh := (hm.buf .hakase (by simp)).trans h.hh
          lock := hm.lock.2.trans h.lock
          held := hm.lock.1.trans h.held
          buf := (hm.buf _ (hq hki)).trans h.buf
          hus := h.hus
          hvs := h.hvs
          data := hm.mem hi h.data
          spin := by rw [(hm.friend i (Ne.symm hki)).1, (hm.friend i (Ne.symm hki)).2]; exact h.spin
          outer := hm.outers ho h.outer
          mem := fun x hx => hm.mem (hshared hx) (h.mem x hx)
          log := by rw [hm.log.1, hm.log.2, h.log] }
  | turn i hh inside ws thread noloop outer mem log =>
      have hki := hne inside
      refine .inr ⟨outer k hki, fun T' s' hm ho => ?_⟩
      obtain ⟨hT, hs⟩ := hm.friend i (Ne.symm hki)
      have hb := hm.buf _ (hq hki)
      refine .turn i ((hm.buf .hakase (by simp)).trans hh) (by rw [hs]; exact inside) (by rw [hb]; exact ws)
        (by rw [hT, hs]; exact thread) (by rw [hs]; exact noloop) (hm.outers ho outer) (fun x hx => ?_)
        (by rw [hm.log.1, hm.log.2, log])
      rw [hb]
      exact hm.mem (hx k hki) (mem x hx)
  | posting i us hh pc buf hus loop same zf outer mem log =>
      have hki := hasm pc
      refine .inr ⟨outer k hki, fun T' s' hm ho => ?_⟩
      obtain ⟨hT, hs⟩ := hm.friend i (Ne.symm hki)
      exact .posting i us ((hm.buf .hakase (by simp)).trans hh) (by rw [hs]; exact pc) ((hm.buf _ (hq hki)).trans buf) hus
        (by rw [hT]; exact loop) (by rw [hT, hs]; exact same) (by rw [hT]; exact zf) (hm.outers ho outer)
        (fun x hx => hm.mem (hx k hki) (mem x hx)) (by rw [hm.log.1, hm.log.2, log])
  | waiting i hi loop loop' same zf ws nine outer mem log =>
      obtain ⟨is, hpc, -⟩ := loop'.pc
      have hki := hasm hpc
      refine .inr ⟨outer k hki, fun T' s' hm ho => ?_⟩
      obtain ⟨hT, hs⟩ := hm.friend i (Ne.symm hki)
      have hb := hm.buf .hakase (by simp)
      have h9 := hm.off .friendCtx 9
      refine .waiting i ((hm.buf _ (hq hki)).trans hi) (by rw [hT]; exact loop) (by rw [hs]; exact loop')
        (by rw [hT, hs]; exact same) ?_ (by rw [hb]; exact ws) (by rw [hb]; exact nine.congr h9.1 h9.2)
        (hm.outers ho outer) (fun x hx => ?_) (by rw [hm.log.1, hm.log.2, log])
      · rw [hT, hb, show s'.off.friendCtx 9 = _ from h9.2]
        exact zf
      · rw [hb]
        exact hm.mem (hx k hki) (mem x hx)

/-- **A turn of hakase's polling** keeps it too. -/
theorem Phase.poll (h : Phase T s) (t : Thread S) (cs : List (Call ι S)) :
    Phase ⟨{ T.st with hakase := t, calls := cs }, T.buf⟩ { s with hakase := t, calls := cs } := by
  have houter : ∀ {k : ι}, Outer T s k →
      Outer ⟨{ T.st with hakase := t, calls := cs }, T.buf⟩ { s with hakase := t, calls := cs } k :=
    fun h => ⟨h.writes, h.data, h.spin⟩
  cases h with
  | idle hh lock outer mem log => exact .idle hh lock (fun k => houter (outer k)) mem log
  | released i us vs h =>
      exact .released i us vs ⟨h.hh, h.lock, h.held, h.buf, h.hus, h.hvs, h.data, h.spin,
        fun k hk => houter (h.outer k hk), h.mem, h.log⟩
  | turn i hh inside ws thread noloop outer mem log =>
      exact .turn i hh inside ws thread noloop (fun k hk => houter (outer k hk)) mem log
  | posting i us hh pc buf hus loop same zf outer mem log =>
      exact .posting i us hh pc buf hus loop same zf (fun k hk => houter (outer k hk)) mem log
  | waiting i hi loop loop' same zf ws nine outer mem log =>
      exact .waiting i hi loop loop' same zf ws nine (fun k hk => houter (outer k hk)) mem log

end Tso

end Toshokan.Offload
