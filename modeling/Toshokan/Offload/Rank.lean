import Toshokan.Offload.Once
import Toshokan.Offload.Progress
import Mathlib.Algebra.BigOperators.Group.Finset.Basic
import Mathlib.Algebra.Order.BigOperators.Group.Finset
import Mathlib.Data.Fintype.Basic

/-!
# How many steps are left

Apart from turns of a loop, the steps of a run are bounded: the log has ten events for each request, and between two
events only so many instructions can be executed.

* `friendRank`, `hakaseRank` : the steps a party can still take before the next event, `localRank` : their sum;
* `Short` : nobody has more of a routine ahead than there is; `length_log_le` : no run has more events than `totalEvents`;
* `Serve.lowers`, `Stage.holder_lowers`, `Out.lowers`, `Outside.lowers` : a useful step is an event or lowers
  `localRank`, wherever the party stands.
-/

namespace Toshokan.Offload

variable {ι S H L : Type} (P : Program ι S H L)

/-! ## Ranks -/

/-- The steps a friend core can take before the next event, and more while it has to wait. -/
def friendRank (o : Offloader) (t : Thread S) : Nat :=
  match t.pc with
  | .next => 5
  | .lockPause _ => if o.lock = 0 then 3 else 4
  | .lockTest _ => if o.lock = 0 then 2 else 4
  | .lockCas _ => if o.lock = 0 then 1 else 4
  | .asm is =>
      if InWait is ∧ o.friendCtx 9 = 0 then 60
      -- the comparison was made before the completion came: one more turn
      else if is = waitLoop.drop 2 ∧ t.cpu.zf = true then 50
      else is.length + 30
  | _ => 0

/-- The buffer of the first of the two routines hakase runs between two events: it saves its own context after taking
a request, the friend's after the block. -/
def firstBuf (log : List (Event ι S)) : Buf :=
  match log.getLast? with
  | some (.take _) => .hakaseCtx
  | _ => .friendCtx

def hakaseRank (first : Buf) (o : Offloader) (t : Thread S) : Nat :=
  match t.pc with
  | .recvRet true => 5
  | .recvRet false => if o.friendCtx 8 = 0 then 4 else 3
  | .next => if o.friendCtx 8 = 0 then 4 else 2
  | .recvTest => if o.friendCtx 8 = 0 then 4 else 1
  | .recvCallSet => 50
  | .asm is => if t.cpu.rdi = first then is.length + 30 else is.length + 5
  | .recvTestSet => if first = .hakaseCtx then 25 else 1
  | .testSet _ => 25
  | .recvCallLong | .callLong _ => 20
  | _ => 0

section
variable [Fintype ι]

def localRank (st : State ι S H L) : Nat :=
  (∑ i, friendRank st.off (st.friend i)) + hakaseRank (firstBuf st.log) st.off st.hakase

/-- The events of a complete run: ten for each `_OFFLOAD`. -/
def totalEvents : Nat := 10 * ∑ i, (P.prog i).length

/-- More than `localRank` can be. -/
def eventWeight (ι : Type) [Fintype ι] : Nat := 60 * Fintype.card ι + 61

def rank (st : State ι S H L) : Nat := eventWeight ι * (totalEvents P - st.log.length) + localRank st

end

/-! ## What the ranks say -/

@[simp] theorem thread_off (st : State ι S H L) (o : Offloader) (q : Party ι) :
    ({ st with off := o } : State ι S H L).thread q = st.thread q := by
  cases q <;> rfl

theorem friendRank_le {o : Offloader} {t : Thread S} (h : ∀ is, t.pc = .asm is → is.length ≤ 25) :
    friendRank o t ≤ 60 := by
  unfold friendRank
  split
  case h_5 is heq =>
    have := h is heq
    split
    · exact le_rfl
    · split <;> omega
  all_goals (try split) <;> omega

theorem hakaseRank_le {b : Buf} {o : Offloader} {t : Thread S} (h : ∀ is, t.pc = .asm is → is.length ≤ 25) :
    hakaseRank b o t ≤ 60 := by
  unfold hakaseRank
  split
  case h_6 is heq =>
    have := h is heq
    split <;> omega
  all_goals (try split) <;> omega

theorem friendRank_of_not_inWait {o : Offloader} {t : Thread S} {l : List Instr} (hpc : t.pc = .asm l)
    (h : ¬ InWait l) : friendRank o t = l.length + 30 := by
  have h2 : l ≠ waitLoop.drop 2 := fun he => h (.inr (.inr he))
  simp only [friendRank, hpc, h, h2, false_and, if_false]

theorem friendRank_of_completed {o : Offloader} {t : Thread S} {l : List Instr} (hpc : t.pc = .asm l)
    (h9 : o.friendCtx 9 ≠ 0) :
    friendRank o t = if l = waitLoop.drop 2 ∧ t.cpu.zf = true then 50 else l.length + 30 := by
  simp only [friendRank, hpc, h9, and_false, if_false]

theorem friendRank_landing (o : Offloader) {t : Thread S} {a : Word} (hpc : t.pc = P.landing a) :
    friendRank o t = 0 := by
  unfold Program.landing at hpc
  split at hpc <;> simp only [friendRank, hpc]

/-- A core that does not hold `_lock` looks at nothing but `_lock`. -/
theorem Outside.rank_congr {σ : Serial ι H L} {k : ι} {t : Thread S} {l : L} (h : Outside P σ k t l)
    {o o' : Offloader} (hl : o'.lock = o.lock) : friendRank o' t = friendRank o t := by
  cases h with
  | next hpc => simp only [friendRank, hpc]
  | trying s hpc => rcases hpc with hpc | hpc | hpc <;> simp only [friendRank, hpc, hl]

/-- Whoever is in a routine of `offload.S` has at most its length ahead. -/
def Short (st : State ι S H L) : Prop := ∀ p is, (st.thread p).pc = .asm is → is.length ≤ 25

theorem short_init (h : H) (loc : ι → L) : Short (P.init h loc) := by
  intro p is hp
  cases p <;> cases hp

section Lower
variable [Fintype ι] {st st' : State ι S H L}

theorem localRank_lt (h : Short st) : localRank st < eventWeight ι := by
  have hsum : ∑ i, friendRank st.off (st.friend i) ≤ Fintype.card ι * 60 := by
    refine (Finset.sum_le_card_nsmul _ _ 60 fun i _ => ?_).trans_eq ?_
    · exact friendRank_le fun is hpc => h (.friend i) is hpc
    · rfl
  have hh := hakaseRank_le (b := firstBuf st.log) (o := st.off) (t := st.hakase) fun is hpc => h .hakase is hpc
  rw [localRank, eventWeight]
  omega

def Lower (st st' : State ι S H L) : Prop := st'.log = st.log ∧ localRank st' < localRank st

theorem lower_hakase (hlog : st'.log = st.log) (hf : st'.friend = st.friend) (hl : st'.off.lock = st.off.lock)
    (h9 : st'.off.friendCtx 9 = st.off.friendCtx 9)
    (hr : hakaseRank (firstBuf st.log) st'.off st'.hakase < hakaseRank (firstBuf st.log) st.off st.hakase) :
    Lower st st' := by
  refine ⟨hlog, ?_⟩
  have hsame : ∀ t : Thread S, friendRank st'.off t = friendRank st.off t := by
    intro t
    simp only [friendRank, hl, h9]
  rw [localRank, localRank, hlog, hf]
  simp only [hsame]
  omega

theorem lower_hakase_thread {t : Thread S} {calls : List (Call ι S)}
    (hst : st' = { st with hakase := t, calls := calls })
    (hr : hakaseRank (firstBuf st.log) st.off t < hakaseRank (firstBuf st.log) st.off st.hakase) : Lower st st' := by
  subst hst
  exact lower_hakase rfl rfl rfl rfl hr

theorem rank_lt (h : Short st) : rank P st < eventWeight ι * (totalEvents P + 1) := by
  have hlt := localRank_lt h
  have hmul := Nat.mul_le_mul_left (eventWeight ι) (Nat.sub_le (totalEvents P) st.log.length)
  rw [rank, Nat.mul_add, Nat.mul_one]
  omega

end Lower

/-! ## Routines are short -/

variable [DecidableEq ι]

theorem thread_setThread_of_ne (st : State ι S H L) {p q : Party ι} (h : q ≠ p) (t : Thread S) :
    (st.setThread p t).thread q = st.thread q := by
  cases p with
  | hakase =>
      cases q with
      | hakase => exact absurd rfl h
      | friend i => rfl
  | friend i =>
      cases q with
      | hakase => rfl
      | friend j => exact Function.update_of_ne (fun hj => h (by rw [hj])) _ _

theorem step_thread_of_ne (st : State ι S H L) {p q : Party ι} (h : q ≠ p) :
    (P.step st p).thread q = st.thread q := by
  have hset : ∀ (o : Offloader) (t : Thread S),
      (({ st with off := o } : State ι S H L).setThread p t).thread q = st.thread q := by
    intro o t
    rw [thread_setThread_of_ne _ h, thread_off]
  have hemit : ∀ (o : Offloader) (t : Thread S) (e : Event ι S),
      ((({ st with off := o } : State ι S H L).setThread p t).emit e).thread q = st.thread q := by
    intro o t e
    rw [thread_emit, hset]
  cases hpc : (st.thread p).pc
  all_goals rw [P.step_eq hpc]
  case lost => rfl
  case next =>
    cases p with
    | hakase => exact hset st.off _
    | friend i =>
        dsimp only [Program.stepAt, Program.stepNext]
        split
        · rfl
        · exact (by cases q <;> rfl : _ = _).trans (hset st.off _)
  case block s =>
    dsimp only [Program.stepAt, Program.stepBlock]
    split
    · exact hset st.off _
    · exact (by cases q <;> rfl : _ = _).trans (hset st.off _)
  case asm is =>
    dsimp only [Program.stepAt]
    unfold Program.stepAsm
    split
    · exact hset st.off _
    · exact hset st.off _
    · exact hset st.off _
    · dsimp only
      split
      · exact hemit _ _ _
      · exact hset _ _
  case recvRet b =>
    dsimp only [Program.stepAt]
    rw [thread_record]
    exact hset st.off _
  case lockCas | testWait =>
    dsimp only [Program.stepAt]
    split
    · exact hemit _ _ _
    · exact hset st.off _
  case testSet =>
    dsimp only [Program.stepAt]
    split
    · exact hset st.off _
    · exact hemit st.off _ _
  case callWait | callSet | unlock | recvClear | recvAnswer => exact hemit _ _ _
  all_goals exact hset st.off _

theorem stepAsm_pc (st : State ι S H L) (p : Party ι) (is js : List Instr) (hs : is.length ≤ 25)
    (h : ((P.stepAsm st p is).thread p).pc = .asm js) : js.length ≤ 25 := by
  unfold Program.stepAsm at h
  split at h
  · simp [State.goto] at h
  · simp only [thread_setThread] at h
    exact absurd h (landing_ne_asm P _ _)
  · simp only [State.goto, thread_setThread, Pc.asm.injEq] at h
    rw [← h]
    rw [List.length_cons] at hs
    split
    · decide
    · omega
  · rw [List.length_cons] at hs
    dsimp only at h
    split at h <;> simp at h <;> rw [← h] <;> omega

theorem short_step (st : State ι S H L) (p : Party ι) (h : Short st) : Short (P.step st p) := by
  intro q js hq
  by_cases hqp : q = p
  · subst hqp
    cases hpc : (st.thread q).pc
    all_goals rw [P.step_eq hpc] at hq
    case asm is => exact stepAsm_pc P st q is js (h q is hpc) hq
    case next =>
      cases q with
      | hakase => cases hq
      | friend i =>
          dsimp only [Program.stepAt, Program.stepNext] at hq
          split at hq
          · exact h _ js hq
          · simp [State.thread] at hq
    case block s =>
      dsimp only [Program.stepAt, Program.stepBlock] at hq
      split at hq
      · simp [State.goto] at hq
      · cases q <;> simp [State.thread, State.setThread] at hq
    case lost => exact h q js hq
    case callWait | callSet | callLong | recvCallSet | recvCallLong =>
      simp only [Program.stepAt, Thread.call, Thread.callLongjmp, thread_emit, thread_setThread, Pc.asm.injEq] at hq
      rw [← hq]
      decide
    case testWait | testSet | lockCas | lockTest | recvTest | recvTestSet =>
      dsimp only [Program.stepAt, State.goto] at hq
      split at hq <;> simp at hq
    all_goals simp [Program.stepAt, State.goto] at hq
  · rw [step_thread_of_ne P st hqp] at hq
    exact h q js hq

/-! ## The length of the log -/

theorem length_sessions (σ : Serial ι H L) (rs : List (Req ι S)) : (sessions P σ rs).length = 10 * rs.length := by
  induction rs generalizing σ with
  | nil => rfl
  | cons r rs ih =>
      rw [sessions, List.length_append, ih, List.length_cons]
      simp only [session, List.length_cons, List.length_nil]
      omega

theorem length_eq_sum_sitesOf [Fintype ι] (rs : List (Req ι S)) : rs.length = ∑ i, (sitesOf i rs).length := by
  induction rs using List.reverseRecOn with
  | nil => simp [sitesOf]
  | append_singleton rs r ih =>
      simp only [sitesOf_concat, List.length_append, Finset.sum_add_distrib, ← ih]
      congr 1
      rw [Finset.sum_eq_single r.core]
      · simp
      · intro i _ hi
        rw [if_neg (Ne.symm hi)]
        rfl
      · intro hr
        exact absurd (Finset.mem_univ _) hr

variable {h₀ : H} {loc₀ : ι → L} {st : State ι S H L}

theorem length_log_le [Fintype ι] (h : Inv P h₀ loc₀ st) : st.log.length ≤ totalEvents P := by
  obtain ⟨rs, hord, hcase⟩ := h
  have hlen : ∀ i, (sitesOf i rs).length ≤ (P.prog i).length := by
    intro i
    rw [length_sitesOf P h₀ loc₀]
    exact (hord i).2
  rw [totalEvents]
  rcases hcase with hfree | ⟨i, s, hheld, -⟩
  · rw [hfree.log, length_sessions, length_eq_sum_sitesOf]
    have := Finset.sum_le_sum (fun i (_ : i ∈ Finset.univ) => hlen i)
    omega
  · -- the request under way is not among those that are over
    have hlt : ∑ k, (sitesOf k rs).length < ∑ k, (P.prog k).length := by
      refine Finset.sum_lt_sum (fun k _ => hlen k) ⟨i, Finset.mem_univ i, ?_⟩
      rw [length_sitesOf P h₀ loc₀]
      exact (List.getElem?_eq_some_iff.mp hheld.site).1
    obtain ⟨k, hk⟩ := hheld.stage.log P
    rw [show st.log = _ from hk, List.length_append, length_sessions, length_eq_sum_sitesOf]
    have htake : ((session P ((Serial.init P h₀ loc₀).runs P rs) i s).take k).length ≤ 10 := by
      rw [List.length_take]
      exact Nat.min_le_right _ _
    omega

/-! ## How ranks change -/

section Local
variable [Fintype ι]

variable {st' : State ι S H L}

theorem lower_friend {i : ι} (hlog : st'.log = st.log) (hh : st'.hakase = st.hakase)
    (h8 : st'.off.friendCtx 8 = st.off.friendCtx 8)
    (hk : ∀ k, k ≠ i → friendRank st'.off (st'.friend k) = friendRank st.off (st.friend k))
    (hr : friendRank st'.off (st'.friend i) < friendRank st.off (st.friend i)) : Lower st st' := by
  refine ⟨hlog, ?_⟩
  have hsame : hakaseRank (firstBuf st.log) st'.off st.hakase = hakaseRank (firstBuf st.log) st.off st.hakase := by
    simp only [hakaseRank, h8]
  have hsum : ∑ k, friendRank st'.off (st'.friend k) < ∑ k, friendRank st.off (st.friend k) := by
    refine Finset.sum_lt_sum (fun k _ => ?_) ⟨i, Finset.mem_univ i, hr⟩
    by_cases hki : k = i
    · rw [hki]
      exact hr.le
    · exact (hk k hki).le
  rw [localRank, localRank, hlog, hh, hsame]
  omega

/-! ## Useful steps -/

def Emits (st st' : State ι S H L) : Prop := ∃ e, st'.log = st.log ++ [e]

section Hakase
variable {σ : Serial ι H L} {i : ι} {s : S} {base : List (Event ι S)}

theorem Out.lowers (ho : Out st.hakase st.calls) (hu : Useful P st .hakase) : Lower st (P.step st .hakase) := by
  have hs : ¬ spinsAt st .hakase st.hakase.pc := hu.2
  cases ho with
  | next hpc =>
      have h8 : st.off.friendCtx 8 ≠ 0 := fun h => hs (by rw [hpc]; exact ⟨rfl, h⟩)
      rw [P.step_eq (p := .hakase) hpc]
      refine lower_hakase_thread rfl ?_
      simp only [hakaseRank, hpc, if_neg h8]
      decide
  | test c hpc =>
      have h8 : st.off.friendCtx 8 ≠ 0 := fun h => hs (by rw [hpc]; exact h)
      rw [P.step_eq (p := .hakase) hpc]
      refine lower_hakase_thread rfl ?_
      simp only [hakaseRank, hpc, if_neg h8]
      decide
  | empty c hpc =>
      have h8 : st.off.friendCtx 8 ≠ 0 := fun h => hs (by rw [hpc]; exact h)
      rw [P.step_eq (p := .hakase) hpc]
      refine lower_hakase_thread rfl ?_
      simp only [hakaseRank, hpc, State.setThread, if_neg h8]
      decide
  | one c id s hpc =>
      rw [P.step_eq (p := .hakase) hpc]
      refine lower_hakase_thread rfl ?_
      simp only [hakaseRank, hpc, State.setThread]
      by_cases h8 : st.off.friendCtx 8 = 0
      · rw [if_pos h8]
        decide
      · rw [if_neg h8]
        decide

/-- A straight-line piece of hakase: at its `ret`, or one instruction further. -/
theorem runs_lower_hakase {b : Buf} {out : Cpu × JmpBuf} (hrdi : st.hakase.cpu.rdi = b)
    (hr : Runs st.hakase (st.off.buf b) [.ret] out) :
    (st.hakase.pc = .asm [.ret] ∧ st.hakase.cpu = out.1) ∨ Lower st (P.step st .hakase) := by
  rcases hr.inv with ⟨hpc, hout⟩ | ⟨j, rest, hpc, hj, -⟩
  · exact .inl ⟨hpc, by rw [← hout]⟩
  · right
    rw [step_plain P (p := .hakase) hrdi hpc hj]
    refine lower_hakase rfl rfl (by cases b <;> rfl) ?_ ?_
    · cases b with
      | hakaseCtx => rfl
      | friendCtx => exact Instr.exec_flag hj (by decide) _
    · have hrdi' : (j.exec (st.hakase.cpu, st.off.buf b)).1.rdi = b := (j.exec_rdi _).trans hrdi
      simp only [hakaseRank, hpc, State.setThread, State.thread, hrdi, hrdi', List.length_cons]
      split <;> omega

theorem ret_hakase {out : Cpu × JmpBuf} (hpc : st.hakase.pc = .asm [.ret]) (hcpu : st.hakase.cpu = out.1)
    {a : Word} (htop : out.1.top = a)
    (hr : ∀ t : Thread S, t.pc = P.landing a →
      hakaseRank (firstBuf st.log) st.off t < hakaseRank (firstBuf st.log) st.off st.hakase) :
    Lower st (P.step st .hakase) := by
  rw [step_ret P (p := .hakase) hpc]
  refine lower_hakase_thread rfl (hr _ ?_)
  rw [← htop, ← hcpu]
  rfl

theorem Serve.lowers (hσ : σ.Owned P) {c₀ : Ctx} {k : Nat} {b : Bool} (hs : Serve P σ i s c₀ st.off st.hakase k b)
    (hl : st.log = base ++ (session P σ i s).take k) :
    Emits st (P.step st .hakase) ∨ Lower st (P.step st .hakase) := by
  have hA : k = 4 → firstBuf st.log = .hakaseCtx := by
    rintro rfl
    rw [hl]
    simp [firstBuf, session]
  have hB : k = 7 → firstBuf st.log = .friendCtx := by
    rintro rfl
    rw [hl]
    simp [firstBuf, session]
  cases hs with
  | clear hpc =>
      rw [P.step_eq (p := .hakase) hpc]
      exact .inl ⟨_, rfl⟩
  | callSet hpc =>
      right
      rw [P.step_eq (p := .hakase) hpc]
      refine lower_hakase_thread rfl ?_
      simp [hakaseRank, hpc, hA rfl, Thread.call, toshokanSetjmp]
  | set out hr hrdi _ htop =>
      right
      rcases runs_lower_hakase P hrdi hr with ⟨hpc, hcpu⟩ | hlow
      · refine ret_hakase P hpc hcpu htop fun t ht => ?_
        rw [landing_recvSetRet] at ht
        simp [hakaseRank, ht, hpc, hA rfl, hrdi]
      · exact hlow
  | testSet hpc _ hrax =>
      right
      rw [P.step_eq (p := .hakase) hpc]
      refine lower_hakase_thread rfl ?_
      have heax : (st.thread .hakase).cpu.eax = 0 := by
        rw [Cpu.eax, show (st.thread .hakase).cpu.rax = 0 from hrax]
        rfl
      simp [hakaseRank, hpc, hA rfl, heax]
  | callLong hpc =>
      right
      rw [P.step_eq (p := .hakase) hpc]
      refine lower_hakase_thread rfl ?_
      simp [hakaseRank, hpc, hA rfl, Thread.callLongjmp, toshokanLongjmp]
  | jump out hr hrdi _ htop =>
      right
      rcases runs_lower_hakase P hrdi hr with ⟨hpc, hcpu⟩ | hlow
      · refine ret_hakase P hpc hcpu htop fun t ht => ?_
        rw [landing_waitRet] at ht
        simp [hakaseRank, ht, hpc, hA rfl, hrdi]
      · exact hlow
  | testWait hpc _ hrax =>
      rw [P.step_eq (p := .hakase) hpc, Program.stepAt, Cpu.eax,
        show (st.thread .hakase).cpu.rax = 1 from hrax, if_pos (by decide)]
      exact .inl ⟨_, rfl⟩
  | block hpc hctx =>
      have ho : P.owner (st.thread .hakase).cpu.ctx.rsp = some i := by
        rw [show (st.thread .hakase).cpu.ctx = _ from hctx]
        exact Serial.owner_before P hσ i
      rw [P.step_eq (p := .hakase) hpc, Program.stepAt, Program.stepBlock, ho]
      exact .inl ⟨_, rfl⟩
  | callSet' hpc =>
      rw [P.step_eq (p := .hakase) hpc]
      exact .inl ⟨_, rfl⟩
  | set' out hr hrdi htop =>
      right
      rcases runs_lower_hakase P hrdi hr with ⟨hpc, hcpu⟩ | hlow
      · refine ret_hakase P hpc hcpu htop fun t ht => ?_
        rw [landing_setRet] at ht
        simp [hakaseRank, ht, hpc, hB rfl, hrdi]
      · exact hlow
  | testSet' hpc hrax =>
      right
      rw [P.step_eq (p := .hakase) hpc, Program.stepAt, Cpu.eax,
        show (st.thread .hakase).cpu.rax = 0 from hrax, if_pos (by decide)]
      refine lower_hakase_thread rfl ?_
      simp [hakaseRank, hpc]
  | callLong' hpc =>
      right
      rw [P.step_eq (p := .hakase) hpc]
      refine lower_hakase_thread rfl ?_
      simp [hakaseRank, hpc, hB rfl, Thread.callLongjmp, toshokanLongjmp]
  | jump' out hr hrdi _ htop =>
      right
      rcases runs_lower_hakase P hrdi hr with ⟨hpc, hcpu⟩ | hlow
      · refine ret_hakase P hpc hcpu htop fun t ht => ?_
        rw [landing_recvSetRet] at ht
        simp [hakaseRank, ht, hpc, hB rfl, hrdi]
      · exact hlow
  | testSet'' hpc _ hrax =>
      right
      rw [P.step_eq (p := .hakase) hpc, Program.stepAt, Cpu.eax,
        show (st.thread .hakase).cpu.rax = 1 from hrax, if_neg (by decide)]
      refine lower_hakase_thread rfl ?_
      simp [hakaseRank, hpc, hB rfl]
  | answer hpc =>
      rw [P.step_eq (p := .hakase) hpc]
      exact .inl ⟨_, rfl⟩

end Hakase

section Friend
variable {σ : Serial ι H L} {i : ι} {s : S} {base : List (Event ι S)}

theorem lower_friend_thread {t : Thread S} {l : ι → L}
    (hst : st' = { st with friend := Function.update st.friend i t, loc := l })
    (hr : friendRank st.off t < friendRank st.off (st.friend i)) : Lower st st' := by
  subst hst
  refine lower_friend (i := i) rfl rfl rfl (fun k hk => ?_) ?_
  · simp only [Function.update_of_ne hk]
  · simpa only [Function.update_self] using hr

theorem lower_holder (hothers : ∀ k, k ≠ i → Outside P σ k (st.friend k) (st.loc k)) {o : Offloader} {t : Thread S}
    (hst : st' = ({ st with off := o }).setThread (.friend i) t) (hl : o.lock = st.off.lock)
    (h8 : o.friendCtx 8 = st.off.friendCtx 8) (hr : friendRank o t < friendRank st.off (st.friend i)) :
    Lower st st' := by
  subst hst
  refine lower_friend (i := i) rfl rfl h8 (fun k hk => ?_) ?_
  · simp only [State.setThread, Function.update_of_ne hk]
    exact (hothers k hk).rank_congr P hl
  · simpa only [State.setThread, Function.update_self] using hr

theorem Outside.lowers (ho : Outside P σ i (st.friend i) (st.loc i)) (hu : Useful P st (.friend i)) :
    Emits st (P.step st (.friend i)) ∨ Lower st (P.step st (.friend i)) := by
  have hs : ¬ spinsAt st (.friend i) (st.friend i).pc := hu.2
  cases ho with
  | next hpc =>
      right
      have hstep : P.step st (.friend i) = P.stepNext st (.friend i) := P.step_eq (p := .friend i) hpc
      have hne := hu.1
      rw [hstep] at hne ⊢
      unfold Program.stepNext at hne ⊢
      dsimp only at hne ⊢
      split at hne
      · exact absurd rfl hne
      · refine lower_friend_thread rfl ?_
        simp only [friendRank, hpc]
        split <;> omega
  | trying s hpc =>
      have hlock : st.off.lock = 0 := by
        by_contra hl
        rcases hpc with hpc | hpc | hpc <;> exact hs (by rw [hpc]; exact hl)
      have hgoto : ∀ pc, friendRank st.off { st.friend i with pc := pc } < friendRank st.off (st.friend i) →
          Lower st (st.goto (.friend i) pc) := fun pc hr => lower_friend_thread (l := st.loc) rfl hr
      rcases hpc with hpc | hpc | hpc
      · right
        rw [P.step_eq (p := .friend i) hpc, Program.stepAt, if_neg (not_not_intro hlock)]
        refine hgoto _ ?_
        simp only [friendRank, hpc, if_pos hlock]
        decide
      · left
        rw [P.step_eq (p := .friend i) hpc, Program.stepAt, if_pos hlock]
        exact ⟨_, rfl⟩
      · right
        rw [P.step_eq (p := .friend i) hpc]
        refine hgoto _ ?_
        simp only [friendRank, hpc, if_pos hlock]
        decide

/-- A straight-line piece of the holder: at its end, or one instruction further. -/
theorem runs_lower_friend (hothers : ∀ k, k ≠ i → Outside P σ k (st.friend k) (st.loc k)) {cont : List Instr}
    {out : Cpu × JmpBuf} (hrdi : (st.friend i).cpu.rdi = .friendCtx)
    (hr : Runs (st.friend i) st.off.friendCtx cont out)
    (hcont : ∀ body : List Instr, body.all Instr.plain = true → ¬ InWait (body ++ cont)) :
    (st.friend i).pc = .asm cont ∨ Lower st (P.step st (.friend i)) := by
  obtain ⟨body, hpc, hb, -⟩ := hr
  cases body with
  | nil => exact .inl hpc
  | cons j body =>
      right
      have hj : j.plain = true ∧ body.all Instr.plain = true := by
        rwa [List.all_cons, Bool.and_eq_true] at hb
      rw [step_plain P (p := .friend i) (b := .friendCtx) hrdi hpc hj.1]
      refine lower_holder P hothers rfl rfl (Instr.exec_flag hj.1 (by decide) _) ?_
      rw [friendRank_of_not_inWait (l := body ++ cont) rfl (hcont body hj.2),
        friendRank_of_not_inWait hpc (hcont _ hb), List.cons_append, List.length_cons]
      omega

theorem waiting_lower (hothers : ∀ k, k ≠ i → Outside P σ k (st.friend k) (st.loc k))
    (ht : Waiting (st.friend i) true) (h9 : st.off.friendCtx 9 = 1) : Lower st (P.step st (.friend i)) := by
  have h9' : st.off.friendCtx 9 ≠ 0 := by
    rw [h9]
    decide
  obtain ⟨hrdi, hpc | hpc | ⟨hpc, -⟩⟩ := ht
  · rw [step_plain P (p := .friend i) (b := .friendCtx) (i := .pause) hrdi hpc rfl]
    refine lower_holder P hothers (o := st.off) rfl rfl rfl ?_
    rw [friendRank_of_completed (l := waitLoop.drop 1) rfl h9', friendRank_of_completed hpc h9',
      if_neg (fun h => absurd h.1 (by decide)), if_neg (fun h => absurd h.1 (by decide))]
    decide
  · rw [step_plain P (p := .friend i) (b := .friendCtx) (i := .cmpZero 9) hrdi hpc rfl]
    refine lower_holder P hothers (o := st.off) rfl rfl rfl ?_
    have hzf : (st.off.friendCtx 9 == 0) = false := beq_eq_false_iff_ne.mpr h9'
    rw [friendRank_of_completed (l := waitLoop.drop 2) rfl h9', friendRank_of_completed hpc h9',
      if_neg (fun h => absurd (hzf.symm.trans h.2) Bool.false_ne_true), if_neg (fun h => absurd h.1 (by decide))]
    decide
  · rw [step_je P (p := .friend i) hpc]
    refine lower_holder P hothers (o := st.off) rfl rfl rfl ?_
    rw [friendRank_of_completed rfl h9', friendRank_of_completed hpc h9']
    by_cases hzf : (st.friend i).cpu.zf = true
    · rw [if_pos (show (st.thread (.friend i)).cpu.zf = true from hzf), if_neg (fun h => absurd h.1 (by decide)),
        if_pos ⟨rfl, hzf⟩]
      decide
    · rw [if_neg (show ¬ (st.thread (.friend i)).cpu.zf = true from hzf), if_neg (fun h => absurd h.1 (by decide)),
        if_neg (fun h => hzf h.2)]
      decide

theorem Stage.holder_lowers (hothers : ∀ k, k ≠ i → Outside P σ k (st.friend k) (st.loc k))
    (h : Stage P σ i s base (st.view i)) (hu : Useful P st (.friend i)) :
    Emits st (P.step st (.friend i)) ∨ Lower st (P.step st (.friend i)) := by
  have hs : ¬ spinsAt st (.friend i) (st.friend i).pc := hu.2
  -- before the completion comes, a core in the wait loop only spins
  have hwait : Waiting (st.friend i) false → st.off.friendCtx 9 ≠ 0 := by
    rintro ⟨-, hpc | hpc | ⟨hpc, -⟩⟩ h9
    · exact hs (by rw [hpc]; exact ⟨.inl rfl, h9⟩)
    · exact hs (by rw [hpc]; exact ⟨.inr (.inl rfl), h9⟩)
    · exact hs (by rw [hpc]; exact ⟨.inr (.inr rfl), h9⟩)
  cases h with
  | entered hpc =>
      rw [P.step_eq (p := .friend i) hpc]
      exact .inl ⟨_, rfl⟩
  | saving out hr hrdi =>
      rcases runs_lower_friend P hothers hrdi hr (fun body _ => not_inWait_saving body) with hpc | hlow
      · rw [step_post P (p := .friend i) hpc hrdi]
        exact .inl ⟨_, rfl⟩
      · exact .inr hlow
  | posted ht _ hw => exact absurd hw.2 (hwait ht)
  | serving _ _ _ _ ht h9 => exact absurd h9 (hwait ht)
  | served ht _ hw => exact .inr (waiting_lower P hothers ht hw.2)
  | loading out hr hrdi =>
      right
      rcases runs_lower_friend P hothers hrdi hr (fun body hb => not_inWait_append hb (by decide)) with hpc | hlow
      · rw [step_noted P (p := .friend i) hpc hrdi]
        refine lower_holder P hothers rfl rfl rfl ?_
        rw [friendRank_of_not_inWait (l := [.movImm 1, .ret]) rfl (by decide),
          friendRank_of_not_inWait hpc (by decide)]
        decide
      · exact hlow
  | cleared out hr hrdi hctx htop =>
      right
      rcases runs_lower_friend P hothers hrdi hr (fun body hb => not_inWait_append hb (by decide)) with hpc | hlow
      · rw [step_ret P (p := .friend i) hpc]
        refine lower_holder P hothers (o := st.off) rfl rfl rfl ?_
        rw [friendRank_of_not_inWait hpc (by decide), friendRank_landing P st.off rfl]
        decide
      · exact hlow
  | resumed hpc _ hrax =>
      rw [P.step_eq (p := .friend i) hpc, Program.stepAt, Cpu.eax,
        show (st.thread (.friend i)).cpu.rax = 1 from hrax, if_neg (by decide)]
      exact .inl ⟨_, rfl⟩
  | unlocking hpc =>
      rw [P.step_eq (p := .friend i) hpc]
      exact .inl ⟨_, rfl⟩

end Friend

end Local

end Toshokan.Offload
