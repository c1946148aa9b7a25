import Toshokan.Friend.Init

/-!
# Constructors before mains

The core that finds `init_count` at 0 runs the `__init_array` loop; the others do not wait for it.

* `calls`, `rets` : the calls and returns of constructors in the log; `table w n` : the first `n` entries, by core `w`;
* `Led` : one core runs the loop, in order, in every run;
* `CtorsFirst` : a core is in `friend_main` only after all constructors have returned; `AfterCtors` : a step does not
  call `friend_main` before that;
* `always_ctorsFirst_iff` : a run is right iff its steps are; `ctors_first_iff` : all runs are iff there are no
  constructors or no other cores; `main_before_ctor` : a run of two cores that is not.
-/

namespace Toshokan.Friend

def Event.ctorCall {n : Nat} : Event n → Option (Fin n × Nat)
  | .ctor c k => some (c, k)
  | _ => none

def Event.ctorReturn {n : Nat} : Event n → Option (Fin n × Nat)
  | .ctorRet c k => some (c, k)
  | _ => none

namespace Boot

variable {B : Boot}

/-- The calls of constructors so far, with the cores that made them. -/
def State.calls (st : B.State) : List (Fin B.cores × Nat) := st.log.filterMap Event.ctorCall

def State.rets (st : B.State) : List (Fin B.cores × Nat) := st.log.filterMap Event.ctorReturn

/-- The first `n` entries of `__init_array`, in order, by core `w`. -/
def table (w : Fin B.cores) (n : Nat) : List (Fin B.cores × Nat) := (List.range n).map fun k => (w, k)

@[simp] theorem State.calls_goto (st : B.State) (c : Fin B.cores) (ph : Phase) : (st.goto c ph).calls = st.calls := rfl

@[simp] theorem State.rets_goto (st : B.State) (c : Fin B.cores) (ph : Phase) : (st.goto c ph).rets = st.rets := rfl

@[simp] theorem State.calls_emit (st : B.State) (e : Event B.cores) :
    (st.emit e).calls = st.calls ++ e.ctorCall.toList := by
  unfold calls emit
  rw [List.filterMap_append]
  cases h : e.ctorCall <;> simp [h]

@[simp] theorem State.rets_emit (st : B.State) (e : Event B.cores) :
    (st.emit e).rets = st.rets ++ e.ctorReturn.toList := by
  unfold rets emit
  rw [List.filterMap_append]
  cases h : e.ctorReturn <;> simp [h]

theorem table_succ (w : Fin B.cores) (n : Nat) : table w (n + 1) = table w n ++ [(w, n)] := by
  unfold table
  rw [List.range_succ, List.map_append]
  rfl

@[simp] theorem length_table (w : Fin B.cores) (n : Nat) : (table w n).length = n := by
  simp [table]

variable (B)

def constructing : Phase → Bool
  | .ctor k => k < B.initArray
  | .inCtor _ => true
  | _ => false

/-- How many constructors the leading core has called in the phase `ph`. -/
def called : Phase → Nat
  | .ctor k => k
  | .inCtor k => k + 1
  | _ => B.initArray

def finished : Phase → Nat
  | .ctor k | .inCtor k => k
  | _ => B.initArray

/-- Core `w` runs the constructors, and nobody else does. -/
structure Led (st : B.State) (w : Fin B.cores) : Prop where
  begun : st.phase w ≠ .start
  others : ∀ c, c ≠ w → ∀ k, st.phase c ≠ .ctor k ∧ st.phase c ≠ .inCtor k
  le : B.called (st.phase w) ≤ B.initArray
  calls : st.calls = table w (B.called (st.phase w))
  rets : st.rets = table w (B.finished (st.phase w))

def OneLeads (st : B.State) : Prop :=
  ((∀ c, st.phase c = .start) ∧ st.calls = [] ∧ st.rets = []) ∨ ∃ w, B.Led st w

/-- The constructors are called once each, in order, by one core, and all have returned when a core is in
`friend_main` or has been there. -/
structure CtorsFirst (st : B.State) : Prop where
  order : st.calls = [] ∨ ∃ w, ∃ n ≤ B.initArray, st.calls = table w n
  first : ∀ c, (st.phase c).entered = true → ∃ w, st.calls = table w B.initArray ∧ st.rets = table w B.initArray

/-- The step of `c` does not call `friend_main` while a constructor is still to be called or to return. -/
def AfterCtors (st : B.State) (c : Fin B.cores) : Prop :=
  st.phase c = .call → ∀ c', B.constructing (st.phase c') = false

variable {B}

/-! ## One core leads -/

theorem Led.update {st st' : B.State} {w : Fin B.cores} (h : B.Led st w) {ph : Phase}
    (hp : st'.phase = Function.update st.phase w ph) (hs : ph ≠ .start) (hle : B.called ph ≤ B.initArray)
    (hc : st'.calls = table w (B.called ph)) (hr : st'.rets = table w (B.finished ph)) : B.Led st' w := by
  have hw : st'.phase w = ph := by rw [hp, Function.update_self]
  refine ⟨hw ▸ hs, fun c hc => ?_, hw ▸ hle, hw ▸ hc, hw ▸ hr⟩
  rw [hp, Function.update_of_ne hc]
  exact h.others c hc

theorem Led.past {st st' : B.State} {w : Fin B.cores} (h : B.Led st w) {ph : Phase}
    (hp : st'.phase = Function.update st.phase w ph) (hs : ph ≠ .start)
    (ho : B.called (st.phase w) = B.initArray ∧ B.finished (st.phase w) = B.initArray)
    (hn : B.called ph = B.initArray ∧ B.finished ph = B.initArray)
    (hc : st'.calls = st.calls) (hr : st'.rets = st.rets) : B.Led st' w := by
  refine h.update hp hs hn.1.le ?_ ?_
  · rw [hc, h.calls, ho.1, hn.1]
  · rw [hr, h.rets, ho.2, hn.2]

theorem Led.other {st st' : B.State} {w c : Fin B.cores} (h : B.Led st w) (hcw : c ≠ w) {ph : Phase}
    (hp : st'.phase = Function.update st.phase c ph) (hn : ∀ k, ph ≠ .ctor k ∧ ph ≠ .inCtor k)
    (hc : st'.calls = st.calls) (hr : st'.rets = st.rets) : B.Led st' w := by
  have hw : st'.phase w = st.phase w := by rw [hp, Function.update_of_ne (Ne.symm hcw)]
  refine ⟨hw ▸ h.begun, fun c' hc' => ?_, hw ▸ h.le, by rw [hw, hc]; exact h.calls, by rw [hw, hr]; exact h.rets⟩
  by_cases he : c' = c
  · subst he
    rw [hp, Function.update_self]
    exact hn
  · rw [hp, Function.update_of_ne he]
    exact h.others c' hc'

theorem Led.step_self {st : B.State} {w : Fin B.cores} (h : B.Led st w) : B.Led (B.step st w) w := by
  have hle := h.le
  have hcalls := h.calls
  have hrets := h.rets
  cases hph : st.phase w with
  | start => exact absurd hph h.begun
  | ctor k =>
      rw [hph] at hle hcalls hrets
      rw [B.step_eq hph, stepAt]
      split
      · refine h.update rfl (by simp) ‹_› ?_ ?_
        · rw [State.calls_emit, State.calls_goto, hcalls, called, called, table_succ]
          rfl
        · rw [State.rets_emit, State.rets_goto, hrets]
          exact List.append_nil _
      · have hk : k = B.initArray := Nat.le_antisymm hle (Nat.le_of_not_lt ‹_›)
        subst hk
        exact h.update rfl (by simp) le_rfl hcalls hrets
  | inCtor k =>
      rw [hph] at hle hcalls hrets
      rw [B.step_eq hph]
      refine h.update rfl (by simp) hle ?_ ?_
      · rw [stepAt, State.calls_emit, State.calls_goto, hcalls]
        exact List.append_nil _
      · rw [stepAt, State.rets_emit, State.rets_goto, hrets, finished, finished, table_succ]
        rfl
  | test r | dtor k =>
      rw [B.step_eq hph, stepAt]
      split
      · exact h.past rfl (by simp) (by rw [hph]; exact ⟨rfl, rfl⟩) ⟨rfl, rfl⟩ (by simp [Event.ctorCall])
          (by simp [Event.ctorReturn])
      · exact h.past rfl (by simp) (by rw [hph]; exact ⟨rfl, rfl⟩) ⟨rfl, rfl⟩ rfl rfl
  | call | main | back | inDtor k | setFlag =>
      rw [B.step_eq hph]
      exact h.past rfl (by simp) (by rw [hph]; exact ⟨rfl, rfl⟩) ⟨rfl, rfl⟩ (by simp [stepAt, State.calls, State.goto,
        State.emit, Event.ctorCall]) (by simp [stepAt, State.rets, State.goto, State.emit, Event.ctorReturn])
  | done =>
      rw [B.step_eq hph]
      exact h

theorem Led.step_other {st : B.State} {w c : Fin B.cores} (hc : B.Counts st) (h : B.Led st w) (hcw : c ≠ w) :
    B.Led (B.step st c) w := by
  have hinit : st.initCount ≠ 0 := fun h0 => h.begun (hc.initCount_eq_zero_iff.mp h0 w)
  cases hph : st.phase c with
  | start =>
      rw [B.step_eq hph, stepAt, if_neg hinit]
      exact h.other hcw rfl (by simp) rfl rfl
  | ctor k => exact absurd hph (h.others c hcw k).1
  | inCtor k => exact absurd hph (h.others c hcw k).2
  | test r | dtor k =>
      rw [B.step_eq hph, stepAt]
      split
      · exact h.other hcw rfl (by simp) (by simp [Event.ctorCall]) (by simp [Event.ctorReturn])
      · exact h.other hcw rfl (by simp) rfl rfl
  | call | main | back | inDtor k | setFlag =>
      rw [B.step_eq hph]
      exact h.other hcw rfl (by simp) (by simp [stepAt, State.calls, State.goto, State.emit,
        Event.ctorCall]) (by simp [stepAt, State.rets, State.goto, State.emit, Event.ctorReturn])
  | done =>
      rw [B.step_eq hph]
      exact h

theorem oneLeads_step (st : B.State) (c : Fin B.cores) (hc : B.Counts st) (h : B.OneLeads st) :
    B.OneLeads (B.step st c) := by
  rcases h with ⟨hs, hcalls, hrets⟩ | ⟨w, hw⟩
  · -- the first core to begin takes the lead
    refine .inr ⟨c, ?_⟩
    rw [B.step_eq (hs c), stepAt, if_pos (hc.initCount_eq_zero_iff.mpr hs)]
    refine ⟨?_, fun c' hc' k => ?_, ?_, ?_, ?_⟩
    · simp [State.goto]
    · simp [State.goto, Function.update_of_ne hc', hs c']
    · simp [State.goto, called]
    · simpa [State.goto, State.calls, called, table] using hcalls
    · simpa [State.goto, State.rets, finished, table] using hrets
  · by_cases he : c = w
    · subst he
      exact .inr ⟨c, hw.step_self⟩
    · exact .inr ⟨w, hw.step_other hc he⟩

theorem oneLeads_run (ts : List (Fin B.cores)) :
    B.Counts (Lib.run B.step B.init ts) ∧ B.OneLeads (Lib.run B.step B.init ts) := by
  refine Lib.run_induct B.step (P := fun st => B.Counts st ∧ B.OneLeads st) ?_ ?_ ts
  · exact ⟨counts_init, .inl ⟨fun _ => rfl, rfl, rfl⟩⟩
  · intro st c h
    exact ⟨counts_step st c h.1, oneLeads_step st c h.1 h.2⟩

/-! ## Right runs -/

/-- Nobody is in `friend_main`, or the constructors are over. -/
def Settled (st : B.State) : Prop := ∀ c, (st.phase c).entered = true → ∀ c', B.constructing (st.phase c') = false

/-- A step that takes `c` neither into `friend_main` nor into the constructors. -/
theorem Settled.update {st st' : B.State} (h : Settled st) {c : Fin B.cores} {ph : Phase}
    (hp : st'.phase = Function.update st.phase c ph) (he : ph.entered = true → (st.phase c).entered = true)
    (hc : B.constructing ph = true → B.constructing (st.phase c) = true) : Settled st' := by
  have hent : ∀ c', (st'.phase c').entered = true → (st.phase c').entered = true := by
    intro c' h'
    by_cases hcc : c' = c
    · subst hcc
      rw [hp, Function.update_self] at h'
      exact he h'
    · rwa [hp, Function.update_of_ne hcc] at h'
  intro c₁ h₁ c₂
  have hold := h c₁ (hent c₁ h₁) c₂
  by_cases hcc : c₂ = c
  · subst hcc
    rw [hp, Function.update_self]
    by_contra hne
    rw [Bool.not_eq_false] at hne
    rw [hc hne] at hold
    cases hold
  · rwa [hp, Function.update_of_ne hcc]

theorem settled_step (st : B.State) (c : Fin B.cores) (hc : B.Counts st) (h : Settled st) (ha : B.AfterCtors st c) :
    Settled (B.step st c) := by
  cases hph : st.phase c with
  | start =>
      rw [B.step_eq hph, stepAt]
      split
      · rename_i h0
        -- the first core: nobody can have entered `friend_main` yet
        have hs := hc.initCount_eq_zero_iff.mp h0
        intro c₁ h₁
        by_cases hcc : c₁ = c
        · subst hcc
          simp only [State.goto, Function.update_self] at h₁
          cases h₁
        · simp only [State.goto, Function.update_of_ne hcc, hs c₁] at h₁
          cases h₁
      · exact h.update rfl (absurd · Bool.false_ne_true) (absurd · Bool.false_ne_true)
  | ctor k =>
      rw [B.step_eq hph, stepAt]
      split
      · rename_i hk
        exact h.update rfl (absurd · Bool.false_ne_true) (fun _ => by rw [hph]; exact decide_eq_true hk)
      · exact h.update rfl (absurd · Bool.false_ne_true) (absurd · Bool.false_ne_true)
  | inCtor k =>
      rw [B.step_eq hph]
      exact h.update rfl (absurd · Bool.false_ne_true) (fun _ => by rw [hph]; rfl)
  | call =>
      have hall := ha hph
      rw [B.step_eq hph]
      intro _ _ c₂
      by_cases hcc : c₂ = c
      · subst hcc
        simp only [stepAt, State.emit, State.goto, Function.update_self]
        rfl
      · simp only [stepAt, State.emit, State.goto, Function.update_of_ne hcc]
        exact hall c₂
  | test r | dtor k =>
      rw [B.step_eq hph, stepAt]
      split
      · exact h.update rfl (fun _ => by rw [hph]; rfl) (absurd · Bool.false_ne_true)
      · exact h.update rfl (fun _ => by rw [hph]; rfl) (absurd · Bool.false_ne_true)
  | main | back | inDtor k | setFlag =>
      rw [B.step_eq hph]
      exact h.update rfl (fun _ => by rw [hph]; rfl) (absurd · Bool.false_ne_true)
  | done =>
      rw [B.step_eq hph]
      exact h

/-- With the loop over, the leading core has called all constructors and all have returned. -/
theorem Led.over {st : B.State} {w : Fin B.cores} (h : B.Led st w) (hc : B.constructing (st.phase w) = false) :
    st.calls = table w B.initArray ∧ st.rets = table w B.initArray := by
  have hle := h.le
  rw [h.calls, h.rets]
  cases hph : st.phase w with
  | ctor k =>
      rw [hph] at hc hle
      have hk : k = B.initArray := Nat.le_antisymm hle (Nat.le_of_not_lt (of_decide_eq_false hc))
      rw [hk]
      exact ⟨rfl, rfl⟩
  | inCtor k =>
      rw [hph] at hc
      cases hc
  | _ => exact ⟨rfl, rfl⟩

theorem ctorsFirst_of_settled {st : B.State} (hl : B.OneLeads st) (h : Settled st) : B.CtorsFirst st := by
  rcases hl with ⟨hs, hcalls, -⟩ | ⟨w, hw⟩
  · refine ⟨.inl hcalls, fun c hc => ?_⟩
    rw [hs c] at hc
    cases hc
  · exact ⟨.inr ⟨w, _, hw.le, hw.calls⟩, fun c hc => ⟨w, hw.over (h c hc w)⟩⟩

/-- Calling `friend_main` before the constructors are over breaks it. -/
theorem CtorsFirst.afterCtors {st : B.State} {c : Fin B.cores} (hl : B.OneLeads st)
    (h : B.CtorsFirst (B.step st c)) : B.AfterCtors st c := by
  intro hph c'
  rw [B.step_eq hph] at h
  obtain ⟨w', -, hrets⟩ := h.first c (by simp [stepAt, State.emit, State.goto, Phase.entered])
  rcases hl with ⟨hs, -⟩ | ⟨w, hw⟩
  · rw [hs c']
    rfl
  · have hlen := congrArg List.length hrets
    rw [stepAt, State.rets_emit, State.rets_goto, hw.rets, show (Event.enter c).ctorReturn = none from rfl,
      Option.toList_none, List.append_nil, length_table, length_table] at hlen
    by_cases he : c' = w
    · subst he
      cases hw' : st.phase c' with
      | ctor k =>
          rw [hw'] at hlen
          exact decide_eq_false (by rw [show k = _ from hlen]; exact Nat.lt_irrefl _)
      | inCtor k =>
          have hle := hw.le
          rw [hw'] at hlen hle
          have : k + 1 ≤ B.initArray := hle
          have : k = B.initArray := hlen
          omega
      | _ => rfl
    · have hno := hw.others c' he
      cases hc' : st.phase c' with
      | ctor k => exact absurd hc' (hno k).1
      | inCtor k => exact absurd hc' (hno k).2
      | _ => rfl

theorem always_ctorsFirst_iff (ts : List (Fin B.cores)) :
    Lib.Always B.step B.CtorsFirst B.init ts ↔ Lib.Meets B.step B.AfterCtors B.init ts := by
  constructor
  · intro h us c hu
    exact (h.after B.step hu).afterCtors (oneLeads_run us).2
  · intro h us hu
    have hinv := Lib.always_of_meets B.step (P := fun st => B.Counts st ∧ Settled st)
      ⟨counts_init, nofun⟩
      (fun st c hst ha => ⟨counts_step st c hst.1, settled_step st c hst.1 hst.2 ha⟩) h us hu
    exact ctorsFirst_of_settled (oneLeads_run us).2 hinv.2

/-! ## Which boots are right -/

/-- Without constructors, or without another core, there is nothing to wait for. -/
theorem afterCtors_of_small (h : B.initArray = 0 ∨ B.cores ≤ 1) {st : B.State} (hl : B.OneLeads st)
    (c : Fin B.cores) : B.AfterCtors st c := by
  intro hph c'
  rcases h with h0 | hn
  · cases hc' : st.phase c' with
    | ctor k => exact decide_eq_false (by omega)
    | inCtor k =>
        rcases hl with ⟨hs, -⟩ | ⟨w, hw⟩
        · rw [hs c'] at hc'
          cases hc'
        · have hcw : c' = w := by
            by_contra hne
            exact (hw.others c' hne k).2 hc'
          have hle := hw.le
          rw [← hcw, hc', h0] at hle
          exact absurd hle (Nat.not_succ_le_zero k)
    | _ => rfl
  · have he : c' = c := Fin.ext (by omega)
    rw [he, hph]
    rfl

/-- Another core overtakes the one that is in the first constructor. -/
theorem exists_overtaking (h0 : 0 < B.initArray) {w c : Fin B.cores} (hcw : c ≠ w) :
    (Lib.run B.step B.init [w, w, c]).phase w = .inCtor 0 ∧ (Lib.run B.step B.init [w, w, c]).phase c = .call := by
  have hfirst : B.step B.init w = { B.init with initCount := 1 }.goto w (.ctor 0) := rfl
  have hsecond : B.step (B.step B.init w) w =
      (({ B.init with initCount := 1 }.goto w (.ctor 0)).goto w (.inCtor 0)).emit (.ctor w 0) := by
    rw [hfirst, B.step_eq (show ({ B.init with initCount := 1 }.goto w (.ctor 0)).phase w = .ctor 0 from
      Function.update_self ..)]
    exact if_pos h0
  have hstart : (B.step (B.step B.init w) w).phase c = .start := by
    rw [hsecond]
    simp [State.emit, State.goto, Function.update_of_ne hcw, init]
  rw [Lib.run_cons, Lib.run_cons, Lib.run_cons, Lib.run_nil, B.step_eq hstart, hsecond]
  constructor
  · simp [stepAt, State.emit, State.goto, Function.update_of_ne hcw.symm]
  · simp [stepAt, State.emit, State.goto]

/-- **When constructors come first.** In every state of a run each constructor has been called at most once, in order
and by one core, and all have returned before a core entered `friend_main`, iff no core of the run calls `friend_main`
while one is still to be called or to return; and this is so in all runs iff there are no constructors or no other
cores. -/
theorem ctors_first_iff (B : Boot) :
    (∀ ts : List (Fin B.cores),
      Lib.Always B.step B.CtorsFirst B.init ts ↔ Lib.Meets B.step B.AfterCtors B.init ts) ∧
    ((∀ ts : List (Fin B.cores), Lib.Always B.step B.CtorsFirst B.init ts) ↔ B.initArray = 0 ∨ B.cores ≤ 1) := by
  refine ⟨always_ctorsFirst_iff, fun h => ?_, fun hs ts => ?_⟩
  · by_contra hs
    rw [not_or] at hs
    let w : Fin B.cores := ⟨0, by omega⟩
    let c : Fin B.cores := ⟨1, by omega⟩
    obtain ⟨hw, hc⟩ := exists_overtaking (B := B) (by omega) (show c ≠ w by simp [c, w])
    have hafter := (always_ctorsFirst_iff _).mp (h ([w, w, c] ++ [c])) [w, w, c] c (List.prefix_refl _) hc w
    rw [hw] at hafter
    cases hafter
  · rw [always_ctorsFirst_iff]
    exact fun us c _ => afterCtors_of_small hs (oneLeads_run us).2 c

/-- Two cores and one constructor: while the first core is in the constructor, the second enters `friend_main`. -/
theorem main_before_ctor :
    let B : Boot := ⟨2, by decide, 1, 0⟩
    let st := Lib.run B.step B.init [0, 0, 1, 1]
    st.phase 0 = .inCtor 0 ∧ st.phase 1 = .main ∧ st.rets = [] ∧ ¬ B.CtorsFirst st := by
  intro B st
  have hrets : st.rets = [] := by decide
  refine ⟨by decide, by decide, hrets, fun h => ?_⟩
  obtain ⟨w, -, hw⟩ := h.first 1 (by decide)
  have hlen := congrArg List.length hw
  rw [hrets, length_table] at hlen
  cases hlen

end Boot
end Toshokan.Friend
