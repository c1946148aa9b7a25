import Toshokan.Offload.Keep

/-!
# No request is lost

The words 8 and 9 of `_friend_ctx` and who waits for them, for every interleaving.

* `InService st i` : hakase is in the call of `TryReceive` that took the request of core `i`;
* `Spins st p` : the next step of `p` is one more turn of a loop that cannot be left yet; `Useful` : a step that is not;
* `flags_exclusive`, `waiting_heard`, `useful_exists` : the words are never both set, a waiting core is always heard,
  and somebody can always go on;
* `no_lost_request` : the three for every run.
-/

namespace Toshokan.Offload

variable {ι S H L : Type} (P : Program ι S H L)

/-! ## Loops -/

/-- In the loop of `toshokan_setjmp_with_wait`: `pause`, `cmpq`, `je`. -/
def InWait (is : List Instr) : Prop := is = waitLoop ∨ is = waitLoop.drop 1 ∨ is = waitLoop.drop 2

instance (is : List Instr) : Decidable (InWait is) := inferInstanceAs (Decidable (_ ∨ _ ∨ _))

/-- Between the clearing of word 8 and the store of word 9, in the control of whoever is there. -/
def Pc.answering : Pc S → Bool
  | .recvCallSet | .recvTestSet | .recvCallLong | .recvAnswer | .testWait _ | .block _ | .callSet _ | .testSet _
  | .callLong _ | .asm _ => true
  | .next | .lockTest _ | .lockCas _ | .lockPause _ | .callWait _ | .unlock _ | .recvTest | .recvClear | .recvRet _
  | .lost => false

/-- Hakase is inside the call of `TryReceive` that took the request core `i` posted last, and has not answered it. -/
def InService (st : State ι S H L) (i : ι) : Prop :=
  st.hakase.pc.answering = true ∧ (∃ c ex, Calling st.calls c ex) ∧
    ∃ l₁ l₂, st.log = l₁ ++ .post (.friend i) :: .take .hakase :: l₂ ∧
      ∀ e ∈ l₂, ∀ p, e ≠ .post p ∧ e ≠ .take p ∧ e ≠ .answer p

/-- One more turn of a loop that cannot be left yet: trying for a taken `_lock`, waiting for a completion that has
not come, polling while no request is posted. -/
def spinsAt (st : State ι S H L) (p : Party ι) : Pc S → Prop
  | .lockTest _ | .lockCas _ | .lockPause _ => st.off.lock ≠ 0
  | .asm is => InWait is ∧ st.off.friendCtx 9 = 0
  | .next => p = .hakase ∧ st.off.friendCtx 8 = 0
  | .recvTest | .recvRet false => st.off.friendCtx 8 = 0
  | _ => False

def Spins (st : State ι S H L) (p : Party ι) : Prop := spinsAt st p (st.thread p).pc

/-- The wait loop has a jump in it. -/
theorem not_inWait_append {body cont : List Instr} (hb : body.all Instr.plain = true) (hc : .je ∉ cont) :
    ¬ InWait (body ++ cont) := by
  intro h
  have hmem : Instr.je ∈ body ++ cont := by
    rcases h with h | h | h <;> rw [h] <;> decide
  rcases List.mem_append.mp hmem with hm | hm
  · exact absurd (List.all_eq_true.mp hb _ hm) Bool.false_ne_true
  · exact hc hm

theorem not_inWait_saving (body : List Instr) : ¬ InWait (body ++ .storeImm 1 8 :: waitLoop) := by
  intro h
  have hlen : (body ++ Instr.storeImm 1 8 :: waitLoop).length ≤ waitLoop.length := by
    rcases h with h | h | h <;> rw [h] <;> decide
  rw [List.length_append, List.length_cons] at hlen
  omega

/-! ## The stages of a request -/

@[simp] theorem thread_emit (st : State ι S H L) (p : Party ι) (e : Event ι S) :
    (st.emit e).thread p = st.thread p := by
  cases p <;> rfl

@[simp] theorem thread_record (st : State ι S H L) (p : Party ι) (e : Call ι S) :
    (st.record e).thread p = st.thread p := by
  cases p <;> rfl

theorem landing_ne_asm (a : Word) (is : List Instr) : P.landing a ≠ .asm is := by
  unfold Program.landing
  split <;> simp

section
variable {st : State ι S H L} {σ : Serial ι H L} {i : ι} {s : S} {base : List (Event ι S)} {v : View ι S H L}

/-- While hakase serves, word 8 is still set, or it is on its way to the answer. -/
theorem Serve.answering {c₀ : Ctx} {o : Offloader} {t : Thread S} {k : Nat} {b : Bool}
    (h : Serve P σ i s c₀ o t k b) :
    (o.friendCtx 8 = 1 ∧ t.pc = .recvClear) ∨ (o.friendCtx 8 = 0 ∧ 4 ≤ k ∧ k ≤ 7 ∧ t.pc.answering = true) := by
  cases h with
  | clear hpc _ h8 => exact .inl ⟨h8, hpc⟩
  | set _ hr _ _ _ _ _ h8 | jump _ hr _ _ _ _ _ h8 | set' _ hr _ _ _ _ _ h8 | jump' _ hr _ _ _ _ _ h8 =>
      obtain ⟨body, hpc, -⟩ := hr
      exact .inr ⟨h8, by omega, by omega, by rw [hpc]; rfl⟩
  | callSet hpc _ h8 | testSet hpc _ _ _ h8 | callLong hpc _ h8 | testWait hpc _ _ _ _ h8 | block hpc _ _ h8
  | callSet' hpc _ _ h8 | testSet' hpc _ _ _ h8 | callLong' hpc _ _ h8 | testSet'' hpc _ _ _ h8
  | answer hpc _ _ h8 => exact .inr ⟨h8, by omega, by omega, by rw [hpc]; rfl⟩

theorem Stage.hakase_cases (h : Stage P σ i s base v) : Out v.hakase v.calls ∨
    ∃ c₀ k b, Serve P σ i s c₀ v.off v.hakase k b ∧ v.log = base ++ (session P σ i s).take k ∧
      v.off.friendCtx 9 = 0 := by
  cases h with
  | entered _ _ _ ho | saving _ _ _ _ _ ho | posted _ _ _ ho | served _ _ _ ho | loading _ _ _ _ _ _ ho
  | cleared _ _ _ _ _ _ _ ho | resumed _ _ _ _ _ ho | unlocking _ _ _ ho => exact .inl ho
  | serving c₀ k b hs _ h9 _ hl => exact .inr ⟨c₀, k, b, hs, hl, h9⟩

theorem Stage.flags (h : Stage P σ i s base v) : v.off.friendCtx 8 = 0 ∨ v.off.friendCtx 9 = 0 := by
  cases h with
  | entered _ _ hw | saving _ _ _ _ hw | served _ _ hw | loading _ _ _ _ _ hw | cleared _ _ _ _ _ _ hw
  | resumed _ _ _ _ hw | unlocking _ _ hw => exact .inl hw.1
  | posted _ _ hw => exact .inr hw.2
  | serving _ _ _ _ _ h9 => exact .inr h9

/-- A holder in the wait loop is heard. -/
theorem Stage.heard (h : Stage P σ i s base (st.view i)) {is : List Instr} (hpc : (st.friend i).pc = .asm is)
    (hi : InWait is) : st.off.friendCtx 8 = 1 ∨ InService st i ∨ st.off.friendCtx 9 = 1 := by
  have hne : ∀ {pc : Pc S}, (st.friend i).pc = pc → pc = .asm is := fun h => h.symm.trans hpc
  cases h with
  | entered hpc' | resumed hpc' | unlocking hpc' => cases hne hpc'
  | saving _ hr =>
      obtain ⟨body, hpc', -⟩ := hr
      cases hne hpc'
      exact absurd hi (not_inWait_saving body)
  | cleared _ hr =>
      obtain ⟨body, hpc', hb, -⟩ := hr
      cases hne hpc'
      exact absurd hi (not_inWait_append hb (by decide))
  | posted _ _ hw => exact .inl hw.1
  | served _ _ hw | loading _ _ _ _ _ hw => exact .inr (.inr hw.2)
  | serving c₀ k b hs _ _ _ hl hc =>
      rcases hs.answering P with ⟨h8, -⟩ | ⟨-, h4, h7, hans⟩
      · exact .inl h8
      · refine .inr (.inl ⟨hans, ⟨c₀, _, hc⟩, base ++ (session P σ i s).take 2, ((session P σ i s).take k).drop 4, ?_⟩)
        have hk : k = 4 ∨ k = 5 ∨ k = 6 ∨ k = 7 := by omega
        rcases hk with rfl | rfl | rfl | rfl
        all_goals
          refine ⟨?_, by simp [session]⟩
          rw [show st.log = _ from hl, List.append_assoc]
          rfl

theorem Stage.holder_ne_next (h : Stage P σ i s base (st.view i)) : (st.friend i).pc ≠ .next := by
  cases h with
  | entered hpc | resumed hpc | unlocking hpc =>
      rw [show (st.friend i).pc = _ from hpc]
      simp
  | saving _ hr | loading _ hr | cleared _ hr =>
      obtain ⟨body, hpc, -⟩ := hr
      rw [show (st.friend i).pc = _ from hpc]
      simp
  | posted ht | served ht | serving _ _ _ _ ht =>
      rcases ht.2 with hpc | hpc | ⟨hpc, -⟩ <;> rw [show (st.friend i).pc = _ from hpc] <;> simp

end

/-! ## Who can move -/

variable [DecidableEq ι]

/-- `p` can move, and does not only spin. -/
def Useful (st : State ι S H L) (p : Party ι) : Prop := P.step st p ≠ st ∧ ¬ Spins st p

@[simp] theorem thread_setThread (st : State ι S H L) (p : Party ι) (t : Thread S) :
    (st.setThread p t).thread p = t := by
  cases p with
  | hakase => rfl
  | friend i => exact Function.update_self i t st.friend

theorem stepAsm_pc_ne (st : State ι S H L) (p : Party ι) (is : List Instr) :
    ((P.stepAsm st p is).thread p).pc ≠ .asm is := by
  unfold Program.stepAsm
  split
  · simp [State.goto]
  · simpa using landing_ne_asm P _ _
  · simp only [State.goto, thread_setThread]
    split
    · simp [waitLoop]
    · simp
  · dsimp only
    split <;> simp

theorem stepBlock_pc_ne (st : State ι S H L) (p : Party ι) (s : S) :
    ((P.stepBlock st p s).thread p).pc ≠ .block s := by
  unfold Program.stepBlock
  dsimp only
  split
  · simp [State.goto]
  · cases p <;> simp [State.thread, State.setThread]

variable {st : State ι S H L} {p : Party ι} {pc : Pc S}

/-- A party that has not come to the end of its work moves. -/
theorem step_ne (hpc : (st.thread p).pc = pc) (hl : pc ≠ .lost)
    (hn : pc = .next → p = .hakase ∨ ∃ i, p = .friend i ∧ (st.friend i).done < (P.prog i).length) :
    P.step st p ≠ st := by
  intro heq
  have h : ((P.stepAt st p pc).thread p).pc = pc := by
    rw [← P.step_eq hpc, heq, hpc]
  cases pc with
  | next =>
      rcases hn rfl with rfl | ⟨i, rfl, hlt⟩
      · cases h
      · simp only [Program.stepAt, Program.stepNext, List.getElem?_eq_getElem hlt, State.thread,
          Function.update_self] at h
        cases h
  | lockTest s =>
      simp only [Program.stepAt, State.goto, thread_setThread] at h
      split at h <;> cases h
  | lockCas s =>
      simp only [Program.stepAt] at h
      split at h
      · simp [State.goto] at h
      · simp [State.goto] at h
  | testWait s | testSet s | recvTest | recvTestSet =>
      simp only [Program.stepAt] at h
      split at h <;> simp [State.goto] at h
  | block s => exact stepBlock_pc_ne P st p s h
  | asm is => exact stepAsm_pc_ne P st p is h
  | lost => exact hl rfl
  | lockPause s | callWait s | callSet s | callLong s | unlock s | recvClear | recvCallSet | recvCallLong | recvAnswer
  | recvRet b => simp [Program.stepAt, State.goto, Thread.call, Thread.callLongjmp] at h

theorem useful_of_pc (hpc : (st.thread p).pc = pc) (hl : pc ≠ .lost) (hn : pc ≠ .next) (hs : ¬ spinsAt st p pc) :
    Useful P st p := by
  refine ⟨step_ne P hpc hl fun h => absurd h hn, ?_⟩
  rw [Spins, hpc]
  exact hs

/-! ## The invariant at work -/

section
variable {σ : Serial ι H L} {i : ι} {s : S} {base : List (Event ι S)} {v : View ι S H L}

theorem Serve.useful {c₀ : Ctx} {k : Nat} {b : Bool} (h : Serve P σ i s c₀ st.off st.hakase k b) :
    Useful P st .hakase := by
  cases h with
  | set _ hr | jump _ hr | set' _ hr | jump' _ hr =>
      obtain ⟨body, hpc, hb, -⟩ := hr
      exact useful_of_pc P (p := .hakase) hpc nofun nofun fun hs => not_inWait_append hb (by decide) hs.1
  | clear hpc | callSet hpc | testSet hpc | callLong hpc | testWait hpc | block hpc | callSet' hpc | testSet' hpc
  | callLong' hpc | testSet'' hpc | answer hpc => exact useful_of_pc P (p := .hakase) hpc nofun nofun id

theorem Out.useful (h : Out st.hakase st.calls) (h8 : st.off.friendCtx 8 = 1) : Useful P st .hakase := by
  have hne : st.off.friendCtx 8 ≠ 0 := by
    rw [h8]
    decide
  cases h with
  | next hpc =>
      refine ⟨step_ne P (p := .hakase) hpc nofun fun _ => .inl rfl, ?_⟩
      rw [Spins, show (st.thread .hakase).pc = _ from hpc]
      exact fun h => hne h.2
  | test _ hpc | empty _ hpc => exact useful_of_pc P (p := .hakase) hpc nofun nofun hne
  | one _ _ _ hpc => exact useful_of_pc P (p := .hakase) hpc nofun nofun id

/-- At every stage of a request the holder of `_lock` or hakase can move on. -/
theorem Stage.useful_cases (h : Stage P σ i s base (st.view i)) : Useful P st .hakase ∨ Useful P st (.friend i) := by
  cases h with
  | entered hpc | resumed hpc | unlocking hpc =>
      exact .inr (useful_of_pc P (p := .friend i) hpc nofun nofun id)
  | saving _ hr =>
      obtain ⟨body, hpc, -⟩ := hr
      exact .inr (useful_of_pc P (p := .friend i) hpc nofun nofun fun hs => not_inWait_saving body hs.1)
  | posted _ _ hw ho => exact .inl (ho.useful P hw.1)
  | serving _ _ _ hs => exact .inl (hs.useful P)
  | served ht _ hw =>
      have h9 : st.off.friendCtx 9 ≠ 0 := by
        rw [show st.off.friendCtx 9 = _ from hw.2]
        decide
      right
      rcases ht.2 with hpc | hpc | ⟨hpc, -⟩ <;>
        exact useful_of_pc P (p := .friend i) hpc nofun nofun fun hs => h9 hs.2
  | loading _ hr _ _ _ hw =>
      have h9 : st.off.friendCtx 9 ≠ 0 := by
        rw [show st.off.friendCtx 9 = _ from hw.2]
        decide
      obtain ⟨body, hpc, -⟩ := hr
      exact .inr (useful_of_pc P (p := .friend i) hpc nofun nofun fun hs => h9 hs.2)
  | cleared _ hr =>
      obtain ⟨body, hpc, hb, -⟩ := hr
      exact .inr (useful_of_pc P (p := .friend i) hpc nofun nofun fun hs => not_inWait_append hb (by decide) hs.1)

end

variable {h₀ : H} {loc₀ : ι → L}

theorem flags_exclusive (h : Inv P h₀ loc₀ st) : st.off.friendCtx 8 = 0 ∨ st.off.friendCtx 9 = 0 := by
  obtain ⟨rs, -, hfree | ⟨i, s, hheld, -⟩⟩ := h
  · exact .inl hfree.flags.1
  · exact hheld.stage.flags P

theorem flags_of_free (h : Inv P h₀ loc₀ st) (hlock : st.off.lock = 0) :
    st.off.friendCtx 8 = 0 ∧ st.off.friendCtx 9 = 0 := by
  obtain ⟨rs, -, hfree | ⟨i, s, hheld, -⟩⟩ := h
  · exact hfree.flags
  · have h1 : st.off.lock = 1 := hheld.lock
    rw [hlock] at h1
    exact absurd h1 (by decide)

theorem waiting_heard (h : Inv P h₀ loc₀ st) {i : ι} {is : List Instr} (hpc : (st.friend i).pc = .asm is)
    (hi : InWait is) : st.off.friendCtx 8 = 1 ∨ InService st i ∨ st.off.friendCtx 9 = 1 := by
  -- only the holder of `_lock` is in a routine
  have hout : ∀ {σ : Serial ι H L}, ¬ Outside P σ i (st.friend i) (st.loc i) := by
    intro σ ho
    cases ho with
    | next hpc' => simp [hpc] at hpc'
    | trying _ hpc' => rcases hpc' with hpc' | hpc' | hpc' <;> simp [hpc] at hpc'
  obtain ⟨rs, -, hfree | ⟨j, s, hheld, hothers⟩⟩ := h
  · exact absurd (hfree.cores i) hout
  · by_cases hj : i = j
    · subst hj
      exact hheld.stage.heard P hpc hi
    · exact absurd (hothers i hj) hout

/-- While core `i` has an `_OFFLOAD` before it, hakase can go on, or `i`, or another core in the middle of its own. -/
theorem useful_near (h : Inv P h₀ loc₀ st) {i : ι} (hi : (st.friend i).done < (P.prog i).length) :
    ∃ p, Useful P st p ∧ (p = .hakase ∨ ∃ j, p = .friend j ∧ (j = i ∨ (st.friend j).pc ≠ .next)) := by
  obtain ⟨rs, -, hfree | ⟨j, s, hheld, -⟩⟩ := h
  · refine ⟨.friend i, ?_, .inr ⟨i, rfl, .inl rfl⟩⟩
    cases hfree.cores i with
    | next hpc =>
        refine ⟨step_ne P (p := .friend i) hpc nofun fun _ => .inr ⟨i, rfl, hi⟩, ?_⟩
        rw [Spins, show (st.thread (.friend i)).pc = _ from hpc]
        exact fun hs => nomatch hs.1
    | trying s hpc =>
        rcases hpc with hpc | hpc | hpc <;>
          exact useful_of_pc P (p := .friend i) hpc nofun nofun fun hs => hs hfree.lock
  · rcases hheld.stage.useful_cases P with hu | hu
    · exact ⟨.hakase, hu, .inl rfl⟩
    · exact ⟨.friend j, hu, .inr ⟨j, rfl, .inr (hheld.stage.holder_ne_next P)⟩⟩

theorem useful_exists (h : Inv P h₀ loc₀ st) {i : ι} (hi : (st.friend i).done < (P.prog i).length) :
    ∃ p, Useful P st p := by
  obtain ⟨p, hp, -⟩ := useful_near P h hi
  exact ⟨p, hp⟩

/-- **No lost request, no stuck mailbox.** In every state of every interleaving: the request and the completion word
are never both set, and both are clear while `_lock` is; a core in the wait loop has its request posted, or in
service, or completed; and while an `_OFFLOAD` is unfinished somebody has a step that is not a turn of a loop that
cannot be left yet. -/
theorem no_lost_request (h : H) (loc : ι → L) (ts : List (Party ι)) :
    let st := Lib.run P.step (P.init h loc) ts
    (st.off.friendCtx 8 = 0 ∨ st.off.friendCtx 9 = 0) ∧
    (st.off.lock = 0 → st.off.friendCtx 8 = 0 ∧ st.off.friendCtx 9 = 0) ∧
    (∀ i is, (st.friend i).pc = .asm is → InWait is →
      st.off.friendCtx 8 = 1 ∨ InService st i ∨ st.off.friendCtx 9 = 1) ∧
    ((∃ i, (st.friend i).done < (P.prog i).length) → ∃ p, Useful P st p) := by
  intro st
  have hinv : Inv P h loc st := inv_run P ts
  refine ⟨flags_exclusive P hinv, flags_of_free P hinv, fun i is hpc hi => waiting_heard P hinv hpc hi, ?_⟩
  rintro ⟨i, hi⟩
  exact useful_exists P hinv hi

end Toshokan.Offload
