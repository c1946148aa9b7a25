import Toshokan.Friend.Init

/-!
# Stopping: `returned_count == init_count`

A core that comes back from `friend_main` runs the destructors and sets the flag if the `returned_count` it made equals
the `init_count` it then reads. That is the right moment only if no core is still to come.

* `StopSound` : `is_friend_stopped` only after all cores have returned, destructors once and after them;
* `NotEarly` : the comparison does not succeed before all cores have begun;
* `Ranks`, `Finalised` : the invariants; `always_stopSound_iff` : a run is sound iff none of its comparisons is early;
* `stop_sound_iff` : all runs are iff there is one core only;
* `stops_early` : a run of two cores that is not.
-/

namespace Toshokan.Friend

def Event.isFini {n : Nat} : Event n → Bool
  | .fini _ => true
  | _ => false

namespace Boot

variable {B : Boot}

def State.finis (st : B.State) : Nat := st.log.countP Event.isFini

@[simp] theorem State.finis_goto (st : B.State) (c : Fin B.cores) (ph : Phase) : (st.goto c ph).finis = st.finis := rfl

@[simp] theorem State.finis_emit (st : B.State) (e : Event B.cores) :
    (st.emit e).finis = st.finis + e.isFini.toNat := by
  unfold finis emit
  rw [List.countP_append, List.countP_singleton]
  cases e.isFini <;> rfl

variable (B)

/-- Hakase is not told too early, and finalisation comes once and last. -/
structure StopSound (st : B.State) : Prop where
  stopped : B.isFriendStopped st = true → ∀ c, (st.phase c).returned = true
  once : st.finis ≤ 1
  last : 0 < st.finis → ∀ c, (st.phase c).returned = true

/-- The step of `c` does not find its `returned_count` equal to `init_count` before all cores have begun. -/
def NotEarly (st : B.State) (c : Fin B.cores) : Prop :=
  ∀ r, st.phase c = .test r → r = st.initCount → st.initCount.toNat = B.cores

/-- The values of `returned_count` the cores compare with are below the current one, and all different. -/
structure Ranks (st : B.State) : Prop where
  le : ∀ c r, st.phase c = .test r → r.toNat ≤ st.returnedCount.toNat
  inj : ∀ c c' r, st.phase c = .test r → st.phase c' = .test r → c = c'

/-- Finalisation has not been entered, or all cores have been counted and no other will enter it. -/
structure Finalised (st : B.State) : Prop where
  once : st.finis ≤ 1
  last : 0 < st.finis → ∀ c, (st.phase c).counted = true
  rest : 0 < st.finis → ∀ c r, st.phase c = .test r → r.toNat < B.cores
  loop : ∀ c, (st.phase c).finalising = true → 0 < st.finis
  flag : st.sync = 1 → 0 < st.finis

variable {B}

/-! ## The values compared -/

theorem Ranks.update {st st' : B.State} (h : B.Ranks st) {c : Fin B.cores} {ph : Phase}
    (hp : st'.phase = Function.update st.phase c ph) (hr : st'.returnedCount = st.returnedCount)
    (ht : ∀ r, ph ≠ .test r) : B.Ranks st' := by
  have hold : ∀ c' r, st'.phase c' = .test r → st.phase c' = .test r := by
    intro c' r hc'
    rw [hp] at hc'
    by_cases hc : c' = c
    · subst hc
      rw [Function.update_self] at hc'
      exact absurd hc' (ht r)
    · rwa [Function.update_of_ne hc] at hc'
  refine ⟨fun c' r hc' => ?_, fun c₁ c₂ r h₁ h₂ => h.inj c₁ c₂ r (hold c₁ r h₁) (hold c₂ r h₂)⟩
  rw [hr]
  exact h.le c' r (hold c' r hc')

/-- The increment gives `c` a value of its own. -/
theorem Ranks.back {st : B.State} (hc : B.Counts st) (h : B.Ranks st) {c : Fin B.cores} (hph : st.phase c = .back) :
    B.Ranks (B.step st c) := by
  have hadd : (st.returnedCount + 1).toNat = st.returnedCount.toNat + 1 :=
    toNat_add_one (B := B) (by rw [hc.returned]; exact count_le _ _)
  rw [B.step_eq hph]
  have hphase : ∀ c' r, (B.stepAt st c .back).phase c' = .test r →
      (c' = c ∧ r = st.returnedCount + 1) ∨ (st.phase c' = .test r ∧ r.toNat ≤ st.returnedCount.toNat) := by
    intro c' r hc'
    by_cases he : c' = c
    · subst he
      simp only [stepAt, State.goto, Function.update_self] at hc'
      cases hc'
      exact .inl ⟨rfl, rfl⟩
    · simp only [stepAt, State.goto, Function.update_of_ne he] at hc'
      exact .inr ⟨hc', h.le c' r hc'⟩
  refine ⟨fun c' r hc' => ?_, fun c₁ c₂ r h₁ h₂ => ?_⟩
  · rw [show (B.stepAt st c .back).returnedCount = st.returnedCount + 1 from rfl, hadd]
    rcases hphase c' r hc' with ⟨-, rfl⟩ | ⟨-, hle⟩
    · exact hadd.le
    · omega
  · rcases hphase c₁ r h₁ with ⟨rfl, hr₁⟩ | ⟨h₁, hle₁⟩ <;> rcases hphase c₂ r h₂ with ⟨rfl, hr₂⟩ | ⟨h₂, hle₂⟩
    · rfl
    · rw [hr₁, hadd] at hle₂
      omega
    · rw [hr₂, hadd] at hle₁
      omega
    · exact h.inj c₁ c₂ r h₁ h₂

theorem ranks_step (st : B.State) (c : Fin B.cores) (hc : B.Counts st) (h : B.Ranks st) : B.Ranks (B.step st c) := by
  cases hph : st.phase c with
  | back => exact h.back hc hph
  | start =>
      rw [B.step_eq hph]
      refine h.update rfl rfl fun r => ?_
      split <;> simp
  | ctor k | test r | dtor k =>
      rw [B.step_eq hph, stepAt]
      split
      · exact h.update rfl rfl (by simp)
      · exact h.update rfl rfl (by simp)
  | inCtor k | call | main | inDtor k | setFlag =>
      rw [B.step_eq hph]
      exact h.update rfl rfl (by simp)
  | done =>
      rw [B.step_eq hph]
      exact h

/-! ## Finalisation -/

theorem Finalised.update {st st' : B.State} (h : B.Finalised st) {c : Fin B.cores} {ph : Phase}
    (hp : st'.phase = Function.update st.phase c ph) (hf : st'.finis = st.finis) (hs : st'.sync = st.sync)
    (hc : (st.phase c).counted = true → ph.counted = true) (hl : ph.finalising = true → (st.phase c).finalising = true)
    (ht : ∀ r, ph = .test r → (st.phase c).counted = false) : B.Finalised st' := by
  have hcount : 0 < st.finis → ∀ c', (st'.phase c').counted = true := by
    intro hpos c'
    rw [hp]
    by_cases he : c' = c
    · subst he
      rw [Function.update_self]
      exact hc (h.last hpos c')
    · rw [Function.update_of_ne he]
      exact h.last hpos c'
  refine ⟨hf ▸ h.once, hf ▸ hcount, fun hpos c' r hc' => ?_, fun c' hc' => ?_, fun h1 => ?_⟩
  · rw [hf] at hpos
    rw [hp] at hc'
    by_cases he : c' = c
    · subst he
      rw [Function.update_self] at hc'
      exact absurd (h.last hpos c') (by rw [ht r hc']; exact Bool.false_ne_true)
    · rw [Function.update_of_ne he] at hc'
      exact h.rest hpos c' r hc'
  · rw [hf]
    rw [hp] at hc'
    by_cases he : c' = c
    · subst he
      rw [Function.update_self] at hc'
      exact h.loop c' (hl hc')
    · rw [Function.update_of_ne he] at hc'
      exact h.loop c' hc'
  · rw [hf]
    exact h.flag (hs ▸ h1)

theorem Finalised.early {st st' : B.State} (h : B.Finalised st) {c : Fin B.cores} {ph : Phase}
    (hp : st'.phase = Function.update st.phase c ph) (hf : st'.finis = st.finis) (hs : st'.sync = st.sync)
    (hc : (st.phase c).counted = false) (hl : ph.finalising = false) : B.Finalised st' := by
  refine h.update hp hf hs (fun hc' => ?_) (fun hl' => ?_) fun _ _ => hc
  · rw [hc] at hc'
    cases hc'
  · rw [hl] at hl'
    cases hl'

/-- Entering it when `init_count` has reached the number of cores: `c` was the last to be counted. -/
theorem Finalised.enter {st : B.State} (hc : B.Counts st) (hr : B.Ranks st) (h : B.Finalised st) {c : Fin B.cores}
    (hph : st.phase c = .test st.initCount) (hn : st.initCount.toNat = B.cores) : B.Finalised (B.step st c) := by
  have hall : ∀ c', (st.phase c').counted = true := by
    have hle := hr.le c _ hph
    have hub := count_le Phase.counted st.phase
    rw [hn, hc.returned] at hle
    rw [← Lib.count_eq_card_iff, Fintype.card_fin]
    omega
  -- nobody was here before: it would have left only smaller values to compare with
  have hnone : st.finis = 0 := by
    by_contra hne
    have := h.rest (Nat.pos_of_ne_zero hne) c _ hph
    omega
  rw [B.step_eq hph, stepAt, if_pos rfl]
  have hone : ((st.goto c (.dtor 0)).emit (.fini c)).finis = 1 := by
    rw [State.finis_emit, State.finis_goto, hnone]
    rfl
  refine ⟨hone.le, fun _ c' => ?_, fun _ c' r hc' => ?_, fun _ _ => by omega, fun _ => by omega⟩
  · by_cases he : c' = c
    · subst he
      simp only [State.emit, State.goto, Function.update_self]
      rfl
    · simp only [State.emit, State.goto, Function.update_of_ne he]
      exact hall c'
  · by_cases he : c' = c
    · subst he
      simp only [State.emit, State.goto, Function.update_self] at hc'
      cases hc'
    · simp only [State.emit, State.goto, Function.update_of_ne he] at hc'
      have hle := hr.le c' r hc'
      have hub := count_le Phase.counted st.phase
      rw [hc.returned] at hle
      have hne : r.toNat ≠ B.cores := by
        intro heq
        have hri : r = st.initCount := BitVec.eq_of_toNat_eq (heq.trans hn.symm)
        exact he (hr.inj c' c _ (hri ▸ hc') hph)
      omega

theorem finalised_step (st : B.State) (c : Fin B.cores) (hc : B.Counts st) (hr : B.Ranks st) (h : B.Finalised st)
    (hne : B.NotEarly st c) : B.Finalised (B.step st c) := by
  cases hph : st.phase c with
  | test r =>
      by_cases he : r = st.initCount
      · subst he
        exact h.enter hc hr hph (hne _ hph rfl)
      · rw [B.step_eq hph, stepAt, if_neg he]
        exact h.update rfl rfl rfl (fun _ => rfl) (absurd · Bool.false_ne_true) (by simp)
  | setFlag =>
      have hpos := h.loop c (by rw [hph]; rfl)
      have hkeep : B.Finalised (st.goto c .done) :=
        h.update rfl rfl rfl (fun _ => rfl) (absurd · Bool.false_ne_true) (by simp)
      rw [B.step_eq hph]
      exact ⟨hkeep.once, hkeep.last, hkeep.rest, hkeep.loop, fun _ => hpos⟩
  | start =>
      rw [B.step_eq hph, stepAt]
      split
      · exact h.early rfl rfl rfl (by rw [hph]; rfl) rfl
      · exact h.early rfl rfl rfl (by rw [hph]; rfl) rfl
  | ctor k =>
      rw [B.step_eq hph, stepAt]
      split
      · exact h.early rfl (by simp [Event.isFini]) rfl (by rw [hph]; rfl) rfl
      · exact h.early rfl rfl rfl (by rw [hph]; rfl) rfl
  | inCtor k | call | main =>
      rw [B.step_eq hph]
      exact h.early rfl (by simp [stepAt, Event.isFini]) rfl (by rw [hph]; rfl) rfl
  | back =>
      rw [B.step_eq hph]
      exact h.early rfl rfl rfl (by rw [hph]; rfl) rfl
  | dtor k =>
      rw [B.step_eq hph, stepAt]
      split
      · exact h.update rfl (by simp [Event.isFini]) rfl (fun _ => rfl) (by rw [hph]; exact fun _ => rfl) (by simp)
      · exact h.update rfl rfl rfl (fun _ => rfl) (by rw [hph]; exact fun _ => rfl) (by simp)
  | inDtor k =>
      rw [B.step_eq hph]
      exact h.update rfl (by simp [stepAt, Event.isFini]) rfl (fun _ => rfl) (by rw [hph]; exact fun _ => rfl) (by simp)
  | done =>
      rw [B.step_eq hph]
      exact h

/-! ## Sound runs -/

theorem ranks_init : B.Ranks B.init := ⟨nofun, nofun⟩

theorem finalised_init : B.Finalised B.init := ⟨Nat.zero_le 1, nofun, nofun, nofun, nofun⟩

theorem Finalised.sound {st : B.State} (h : B.Finalised st) : B.StopSound st := by
  have hlast : 0 < st.finis → ∀ c, (st.phase c).returned = true :=
    fun hpos c => Phase.returned_of_counted (h.last hpos c)
  refine ⟨fun hs => hlast (h.flag ?_), h.once, hlast⟩
  exact beq_iff_eq.mp hs

theorem StopSound.notEarly {st : B.State} {c : Fin B.cores} (hc : B.Counts st) (h : B.StopSound (B.step st c)) :
    B.NotEarly st c := by
  intro r hph hr
  rw [hc.initCount_eq_cores_iff]
  rw [B.step_eq hph, stepAt, if_pos hr] at h
  intro c'
  have hret := h.last (by rw [State.finis_emit]; exact Nat.succ_pos _) c'
  by_cases he : c' = c
  · subst he
    rw [hph]
    rfl
  · simp only [State.emit, State.goto, Function.update_of_ne he] at hret
    exact Phase.begun_of_returned hret

theorem always_stopSound_iff (ts : List (Fin B.cores)) :
    Lib.Always B.step B.StopSound B.init ts ↔ Lib.Meets B.step B.NotEarly B.init ts := by
  constructor
  · intro h us c hu
    exact (h.after B.step hu).notEarly (counts_run us)
  · intro h us hu
    have hinv := Lib.always_of_meets B.step (P := fun st => B.Counts st ∧ B.Ranks st ∧ B.Finalised st)
      ⟨counts_init, ranks_init, finalised_init⟩
      (fun st c hst hne => ⟨counts_step st c hst.1, ranks_step st c hst.1 hst.2.1,
        finalised_step st c hst.1 hst.2.1 hst.2.2 hne⟩) h us hu
    exact hinv.2.2.sound

/-! ## Which boots are sound -/

/-- Core `w` has run by itself up to the phase `ph`, with `r` in `returned_count`. -/
structure Alone (st : B.State) (w : Fin B.cores) (ph : Phase) (r : BitVec 32) : Prop where
  phase : st.phase = Function.update (fun _ => .start) w ph
  init : st.initCount = 1
  returned : st.returnedCount = r

theorem Alone.step {st : B.State} {w : Fin B.cores} {ph ph' : Phase} {r r' : BitVec 32} (h : Alone st w ph r)
    (hp : (B.stepAt st w ph).phase = Function.update st.phase w ph')
    (hi : (B.stepAt st w ph).initCount = st.initCount) (hr : (B.stepAt st w ph).returnedCount = r') :
    Alone (B.step st w) w ph' r' := by
  rw [B.step_eq (show st.phase w = ph by rw [h.phase, Function.update_self])]
  refine ⟨?_, hi.trans h.init, hr⟩
  rw [hp, h.phase, Function.update_idem]

theorem exists_alone_ctor (w : Fin B.cores) {k : Nat} (hk : k ≤ B.initArray) :
    ∃ us, Alone (Lib.run B.step B.init us) w (.ctor k) 0 := by
  induction k with
  | zero => exact ⟨[w], rfl, rfl, rfl⟩
  | succ k ih =>
      obtain ⟨us, h⟩ := ih (by omega)
      have hstep : B.stepAt (Lib.run B.step B.init us) w (.ctor k) =
          ((Lib.run B.step B.init us).goto w (.inCtor k)).emit (.ctor w k) := if_pos (by omega)
      have hin : Alone (B.step (Lib.run B.step B.init us) w) w (.inCtor k) 0 :=
        h.step (by rw [hstep]; rfl) (by rw [hstep]; rfl) (by rw [hstep]; exact h.returned)
      refine ⟨us ++ [w] ++ [w], ?_⟩
      rw [Lib.run_concat, Lib.run_concat]
      exact hin.step rfl rfl hin.returned

/-- A core that runs by itself comes to compare 1 with 1. -/
theorem exists_alone_test (w : Fin B.cores) : ∃ us, Alone (Lib.run B.step B.init us) w (.test 1) 1 := by
  obtain ⟨us, h⟩ := exists_alone_ctor w le_rfl
  have hstep : B.stepAt (Lib.run B.step B.init us) w (.ctor B.initArray) =
      (Lib.run B.step B.init us).goto w .call := if_neg (Nat.lt_irrefl _)
  have hcall : Alone (B.step (Lib.run B.step B.init us) w) w .call 0 :=
    h.step (by rw [hstep]; rfl) (by rw [hstep]; rfl) (by rw [hstep]; exact h.returned)
  have hmain : Alone (B.step _ w) w .main 0 := hcall.step rfl rfl hcall.returned
  have hback : Alone (B.step _ w) w .back 0 := hmain.step rfl rfl hmain.returned
  refine ⟨us ++ [w] ++ [w] ++ [w] ++ [w], ?_⟩
  simp only [Lib.run_concat]
  refine hback.step ?_ rfl ?_
  · rw [show (1 : BitVec 32) = 0 + 1 from rfl, ← hback.returned]
    rfl
  · exact congrArg (· + 1) hback.returned

theorem notEarly_of_cores_le (hn : B.cores ≤ 1) {st : B.State} (hc : B.Counts st) (c : Fin B.cores) :
    B.NotEarly st c := by
  intro r hph _
  rw [hc.initCount_eq_cores_iff]
  intro c'
  have he : c' = c := Fin.ext (by omega)
  rw [he, hph]
  rfl

/-- **When stopping is sound.** In every state of a run the flag tells that all cores have returned, and the destructors
are run at most once and after that, iff no core of the run finds `returned_count == init_count` while another has still
to begin `friend_init`; and this is so in all runs iff there is no other core. -/
theorem stop_sound_iff (B : Boot) :
    (∀ ts : List (Fin B.cores),
      Lib.Always B.step B.StopSound B.init ts ↔ Lib.Meets B.step B.NotEarly B.init ts) ∧
    ((∀ ts : List (Fin B.cores), Lib.Always B.step B.StopSound B.init ts) ↔ B.cores ≤ 1) := by
  refine ⟨always_stopSound_iff, fun h => ?_, fun hn ts => ?_⟩
  · by_contra hn
    obtain ⟨us, hus⟩ := exists_alone_test (B := B) ⟨0, by omega⟩
    have hne := (always_stopSound_iff _).mp (h (us ++ [⟨0, by omega⟩])) us _ (List.prefix_refl _)
    have hcores := hne 1 (by rw [hus.phase, Function.update_self]) hus.init.symm
    rw [hus.init, show (1 : BitVec 32).toNat = 1 from rfl] at hcores
    omega
  · rw [always_stopSound_iff]
    exact fun us c _ => notEarly_of_cores_le hn (counts_run us) c

/-- Two cores, the second of which comes up after the first has been through `friend_init`: hakase is told that all
have stopped before the second has begun, and then the destructors are run again. -/
theorem stops_early :
    let B : Boot := ⟨2, by decide, 1, 1⟩
    let st := Lib.run B.step B.init (List.replicate 12 0)
    let st' := Lib.run B.step B.init (List.replicate 12 0 ++ List.replicate 9 1)
    B.isFriendStopped st = true ∧ st.phase 1 = .start ∧ ¬ B.StopSound st ∧ st'.finis = 2 ∧ ¬ B.StopSound st' := by
  intro B st st'
  have hstop : B.isFriendStopped st = true := by decide
  have hphase : st.phase 1 = .start := by decide
  have htwo : st'.finis = 2 := by decide
  refine ⟨hstop, hphase, fun h => ?_, htwo, fun h => ?_⟩
  · have := h.stopped hstop 1
    rw [hphase] at this
    cases this
  · have := h.once
    omega

end Boot
end Toshokan.Friend
