import Toshokan.Friend.Init

/-!
# The stop signal is not missed

Every core compares the `returned_count` it made with an `init_count` that may have moved since. Of the cores that have
come back so far, the one that made the last value still finds it equal, as long as no other core has begun meanwhile.

* `finalisation` : what a core has done of the `__fini_array` loop; `finiLoop` : the whole of it;
* `Looping` : how far a core is in it; `Signalled` : one core has been through it and the flag is set;
* `Due` : the flag is set, or somebody is on the way to set it, or some core is still to come back;
* `signal_not_missed` : once all cores that began have left, the flag is set.
-/

namespace Toshokan.Friend

def Event.finiOf {n : Nat} (c : Fin n) : Event n → Bool
  | .fini c' | .dtor c' _ | .dtorRet c' _ => c' == c
  | _ => false

namespace Boot

variable {B : Boot}

/-- What core `c` has done of the `__fini_array` loop. -/
def State.finalisation (st : B.State) (c : Fin B.cores) : List (Event B.cores) := st.log.filter (Event.finiOf c)

@[simp] theorem State.finalisation_goto (st : B.State) (c c' : Fin B.cores) (ph : Phase) :
    (st.goto c ph).finalisation c' = st.finalisation c' := rfl

theorem State.finalisation_emit (st : B.State) (e : Event B.cores) (c : Fin B.cores) :
    (st.emit e).finalisation c = if e.finiOf c = true then st.finalisation c ++ [e] else st.finalisation c := by
  unfold finalisation emit
  rw [List.filter_append]
  cases he : e.finiOf c with
  | true => rw [if_pos rfl, List.filter_singleton, he]; rfl
  | false => rw [if_neg Bool.false_ne_true, List.filter_singleton, he]; exact List.append_nil _

/-- The loop on core `c` up to the return of destructor `k - 1`. -/
def finiLoop {n : Nat} (c : Fin n) : Nat → List (Event n)
  | 0 => [.fini c]
  | k + 1 => finiLoop c k ++ [.dtor c k, .dtorRet c k]

variable (B)

def Looping (c : Fin B.cores) (l : List (Event B.cores)) : Phase → Prop
  | .dtor k => k ≤ B.finiArray ∧ l = finiLoop c k
  | .inDtor k => k < B.finiArray ∧ l = finiLoop c k ++ [.dtor c k]
  | .setFlag => l = finiLoop c B.finiArray
  | .done => True
  | _ => l = []

/-- The flag is set, by a core that has been through the whole loop. -/
def Signalled (st : B.State) : Prop :=
  st.sync = 1 ∧ ∃ c, st.phase c = .done ∧ st.finalisation c = finiLoop c B.finiArray

/-- Somebody will set the flag, or some core that has begun is not yet counted, or nobody has begun. -/
def Due (st : B.State) : Prop :=
  B.Signalled st ∨ (∃ c, (st.phase c).finalising = true) ∨
    (st.returnedCount = st.initCount → st.initCount ≠ 0 → ∃ c, st.phase c = .test st.returnedCount)

variable {B}

/-! ## The loop -/

theorem looping_update {st st' : B.State} (h : ∀ c, B.Looping c (st.finalisation c) (st.phase c)) {c : Fin B.cores}
    {ph : Phase} (hp : st'.phase = Function.update st.phase c ph)
    (hl : ∀ c', c' ≠ c → st'.finalisation c' = st.finalisation c') (hc : B.Looping c (st'.finalisation c) ph) :
    ∀ c, B.Looping c (st'.finalisation c) (st'.phase c) := by
  intro c'
  rw [hp]
  by_cases he : c' = c
  · subst he
    rw [Function.update_self]
    exact hc
  · rw [Function.update_of_ne he, hl c' he]
    exact h c'

theorem phase_step_of_ne (st : B.State) {c c' : Fin B.cores} (h : c' ≠ c) : (B.step st c).phase c' = st.phase c' := by
  unfold step
  cases st.phase c with
  | ctor k | test r | dtor k =>
      rw [stepAt]
      split
      · exact Function.update_of_ne h _ _
      · exact Function.update_of_ne h _ _
  | done => rfl
  | _ => exact Function.update_of_ne h _ _

theorem finalisation_step_of_ne (st : B.State) {c c' : Fin B.cores} (h : c' ≠ c) :
    (B.step st c).finalisation c' = st.finalisation c' := by
  have hne : (c == c') = false := beq_false_of_ne h.symm
  unfold step
  cases st.phase c with
  | start | back | setFlag | done => rfl
  | ctor k | test r | dtor k =>
      rw [stepAt]
      split
      · rw [State.finalisation_emit, if_neg (by simp [Event.finiOf, hne])]
        rfl
      · rfl
  | inCtor k | call | main | inDtor k =>
      rw [stepAt, State.finalisation_emit, if_neg (by simp [Event.finiOf, hne])]
      rfl

theorem finalisation_emit_other (st : B.State) {e : Event B.cores} {c : Fin B.cores} (he : e.finiOf c = false)
    (ph : Phase) : ((st.goto c ph).emit e).finalisation c = st.finalisation c := by
  rw [State.finalisation_emit, he, if_neg Bool.false_ne_true, State.finalisation_goto]

theorem finalisation_emit_fini (st : B.State) {e : Event B.cores} {c : Fin B.cores} (he : e.finiOf c = true)
    (ph : Phase) : ((st.goto c ph).emit e).finalisation c = st.finalisation c ++ [e] := by
  rw [State.finalisation_emit, if_pos he, State.finalisation_goto]

theorem looping_step (st : B.State) (c : Fin B.cores) (h : ∀ c, B.Looping c (st.finalisation c) (st.phase c)) :
    ∀ c', B.Looping c' ((B.step st c).finalisation c') ((B.step st c).phase c') := by
  have hc := h c
  have hl : ∀ c', c' ≠ c → (B.step st c).finalisation c' = st.finalisation c' :=
    fun c' hne => finalisation_step_of_ne st hne
  cases hph : st.phase c with
  | start =>
      rw [B.step_eq hph] at hl ⊢
      rw [hph] at hc
      refine looping_update h rfl hl ?_
      split
      · exact hc
      · exact hc
  | ctor k =>
      rw [B.step_eq hph, stepAt] at hl ⊢
      rw [hph] at hc
      split at hl
      · rename_i hk
        rw [if_pos hk]
        refine looping_update h rfl hl ?_
        rw [finalisation_emit_other st rfl]
        exact hc
      · rename_i hk
        rw [if_neg hk]
        exact looping_update h rfl hl hc
  | inCtor k | call | main =>
      rw [B.step_eq hph, stepAt] at hl ⊢
      rw [hph] at hc
      refine looping_update h rfl hl ?_
      rw [finalisation_emit_other st rfl]
      exact hc
  | back =>
      rw [B.step_eq hph] at hl ⊢
      rw [hph] at hc
      exact looping_update h rfl hl hc
  | test r =>
      rw [B.step_eq hph, stepAt] at hl ⊢
      rw [hph] at hc
      split at hl
      · rename_i hr
        rw [if_pos hr]
        refine looping_update h rfl hl ⟨Nat.zero_le _, ?_⟩
        rw [finalisation_emit_fini st (e := .fini c) (beq_self_eq_true c), show st.finalisation c = [] from hc]
        rfl
      · rename_i hr
        rw [if_neg hr]
        exact looping_update h rfl hl trivial
  | dtor k =>
      rw [B.step_eq hph, stepAt] at hl ⊢
      rw [hph] at hc
      split at hl
      · rename_i hk
        rw [if_pos hk]
        refine looping_update h rfl hl ⟨hk, ?_⟩
        rw [finalisation_emit_fini st (e := .dtor c k) (beq_self_eq_true c), hc.2]
      · rename_i hk
        rw [if_neg hk]
        have hend : k = B.finiArray := Nat.le_antisymm hc.1 (Nat.not_lt.mp hk)
        subst hend
        exact looping_update h rfl hl hc.2
  | inDtor k =>
      rw [B.step_eq hph, stepAt] at hl ⊢
      rw [hph] at hc
      refine looping_update h rfl hl ⟨hc.1, ?_⟩
      rw [finalisation_emit_fini st (e := .dtorRet c k) (beq_self_eq_true c), hc.2, List.append_assoc]
      rfl
  | setFlag =>
      rw [B.step_eq hph] at hl ⊢
      exact looping_update h rfl hl trivial
  | done =>
      rw [B.step_eq hph]
      exact h

/-! ## Who sets the flag -/

theorem Signalled.step {st : B.State} (h : B.Signalled st) (c : Fin B.cores) : B.Signalled (B.step st c) := by
  obtain ⟨hs, c₀, hd, hl⟩ := h
  by_cases he : c₀ = c
  · subst he
    rw [B.step_eq hd]
    exact ⟨hs, c₀, hd, hl⟩
  · refine ⟨?_, c₀, ?_, ?_⟩
    · unfold Boot.step
      cases st.phase c with
      | ctor k | test r | dtor k => rw [stepAt]; split <;> exact hs
      | setFlag => rfl
      | _ => exact hs
    · rw [phase_step_of_ne st he]
      exact hd
    · rw [finalisation_step_of_ne st he]
      exact hl

/-- A step of `c` that neither begins nor comes back, from a phase in which it is not bound to set the flag. -/
theorem Due.pass {st : B.State} (h : B.Due st) {c : Fin B.cores} (hf : (st.phase c).finalising = false)
    (ht : ∀ r, st.phase c = .test r → r ≠ st.initCount) (hi : (B.step st c).initCount = st.initCount)
    (hr : (B.step st c).returnedCount = st.returnedCount) : B.Due (B.step st c) := by
  rcases h with h | ⟨c', hc'⟩ | h
  · exact .inl (h.step c)
  · have hne : c' ≠ c := by
      rintro rfl
      rw [hf] at hc'
      cases hc'
    exact .inr (.inl ⟨c', by rwa [phase_step_of_ne st hne]⟩)
  · refine .inr (.inr fun heq h0 => ?_)
    rw [hi] at heq h0
    rw [hr] at heq
    obtain ⟨c', hc'⟩ := h heq h0
    have hne : c' ≠ c := by
      rintro rfl
      exact ht _ hc' heq
    exact ⟨c', by rwa [phase_step_of_ne st hne, hr]⟩

theorem due_of_finalising {st : B.State} {c : Fin B.cores} (h : (st.phase c).finalising = true) : B.Due st :=
  .inr (.inl ⟨c, h⟩)

theorem due_step (st : B.State) (c : Fin B.cores) (hcount : B.Counts st)
    (hloop : ∀ c, B.Looping c (st.finalisation c) (st.phase c)) (h : B.Due st) : B.Due (B.step st c) := by
  have hle := hcount.returned_le
  have hadd : (st.initCount + 1).toNat = st.initCount.toNat + 1 :=
    toNat_add_one (B := B) (by rw [hcount.init]; exact count_le _ _)
  cases hph : st.phase c with
  | start =>
      -- from here on `init_count` is ahead
      refine .inr (.inr fun heq _ => ?_)
      rw [B.step_eq hph] at heq
      have hval : st.returnedCount = st.initCount + 1 := heq
      rw [hval] at hle
      omega
  | back =>
      refine .inr (.inr fun _ _ => ⟨c, ?_⟩)
      rw [B.step_eq hph]
      exact Function.update_self ..
  | test r =>
      by_cases hr : r = st.initCount
      · apply due_of_finalising (c := c)
        rw [B.step_eq hph, stepAt, if_pos hr]
        simp only [State.emit, State.goto, Function.update_self]
        rfl
      · apply h.pass
        · rw [hph]
          rfl
        · intro r' hr'
          rw [hph] at hr'
          cases hr'
          exact hr
        · rw [B.step_eq hph, stepAt, if_neg hr]
          rfl
        · rw [B.step_eq hph, stepAt, if_neg hr]
          rfl
  | dtor k =>
      apply due_of_finalising (c := c)
      rw [B.step_eq hph, stepAt]
      split
      · simp only [State.emit, State.goto, Function.update_self]
        rfl
      · simp only [State.goto, Function.update_self]
        rfl
  | inDtor k =>
      apply due_of_finalising (c := c)
      rw [B.step_eq hph]
      simp only [stepAt, State.emit, State.goto, Function.update_self]
      rfl
  | setFlag =>
      have hl := hloop c
      rw [hph] at hl
      refine .inl ⟨?_, c, ?_, ?_⟩
      · rw [B.step_eq hph]
        rfl
      · rw [B.step_eq hph]
        exact Function.update_self ..
      · rw [B.step_eq hph]
        exact hl
  | ctor k =>
      apply h.pass (by rw [hph]; rfl) (by rw [hph]; simp)
      · rw [B.step_eq hph, stepAt]
        split <;> rfl
      · rw [B.step_eq hph, stepAt]
        split <;> rfl
  | inCtor k | call | main =>
      apply h.pass (by rw [hph]; rfl) (by rw [hph]; simp)
      · rw [B.step_eq hph]
        rfl
      · rw [B.step_eq hph]
        rfl
  | done =>
      rw [B.step_eq hph]
      exact h

/-! ## All runs -/

theorem due_run (ts : List (Fin B.cores)) : B.Due (Lib.run B.step B.init ts) := by
  have hinv := Lib.run_induct B.step (s := B.init)
    (P := fun st => B.Counts st ∧ (∀ c, B.Looping c (st.finalisation c) (st.phase c)) ∧ B.Due st)
    ⟨counts_init, fun _ => rfl, .inr (.inr fun _ h0 => absurd rfl h0)⟩
    (fun st c h => ⟨counts_step st c h.1, looping_step st c h.2.1, due_step st c h.1 h.2.1 h.2.2⟩) ts
  exact hinv.2.2

/-- **The stop signal is not missed.** In every state of every run, `returned_count` is at most `init_count`, and if some
core has begun `friend_init` and all that have begun it have left it, the flag is set and some core has run the whole
`__fini_array` loop. -/
theorem signal_not_missed (B : Boot) (ts : List (Fin B.cores)) :
    let st := Lib.run B.step B.init ts
    st.returnedCount.toInt ≤ st.initCount.toInt ∧
    ((∃ c, (st.phase c).begun = true) → (∀ c, (st.phase c).begun = true → st.phase c = .done) →
      st.sync = 1 ∧ B.isFriendStopped st = true ∧ ∃ c, st.finalisation c = finiLoop c B.finiArray) := by
  intro st
  have hcount : B.Counts st := counts_run ts
  refine ⟨hcount.toInt_le, fun ⟨c₀, hc₀⟩ hall => ?_⟩
  have hleft : ∀ c ph, st.phase c = ph → ph.begun = true → ph = .done := by
    rintro c ph rfl hb
    exact hall c hb
  rcases due_run ts with ⟨hs, c, -, hl⟩ | ⟨c, hc⟩ | hdue
  · exact ⟨hs, beq_iff_eq.mpr hs, c, hl⟩
  · -- a core in the loop has begun and not left
    have hdone := hall c (Phase.begun_of_finalising hc)
    rw [hdone] at hc
    cases hc
  · have heq : st.returnedCount = st.initCount := by
      apply BitVec.eq_of_toNat_eq
      rw [hcount.returned, hcount.init]
      apply Lib.count_congr
      intro c
      refine ⟨fun h => Phase.begun_of_returned (Phase.returned_of_counted h), fun h => ?_⟩
      rw [hall c h]
      rfl
    have hne : st.initCount ≠ 0 := by
      intro h0
      rw [hcount.initCount_eq_zero_iff] at h0
      rw [h0 c₀] at hc₀
      cases hc₀
    obtain ⟨c, hc⟩ := hdue heq hne
    cases hleft c _ hc rfl

end Boot
end Toshokan.Friend
