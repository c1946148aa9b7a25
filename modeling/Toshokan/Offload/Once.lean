import Toshokan.Offload.Keep

/-!
# Each block once, in the order of `_lock`

What the invariant says about the log of a run, for every interleaving.

* `Follows`, `Justified` : which events an event comes right after; `justified_log` : every run's log is justified;
* `ofRequest r l` : the events of the request `r`, `requestEvents` : those of a whole request;
* `exactly_once` : the blocks are executed by hakase, one at a time and once each, and together they do what running
  them one after another does;
* `contexts_kept` : hakase starts a block with the context saved for it, the core resumes with the context left for
  it, and `TryReceive` returns with the registers it was called with.
-/

namespace Toshokan.Offload

variable {ι S H L : Type} (P : Program ι S H L)

/-! ## What an event comes right after -/

/-- The event `e` may be added to the log `l`. -/
def Follows (l : List (Event ι S)) : Event ι S → Prop
  | .start p id s c a => ∃ i n, p = .hakase ∧ id = some (i, n) ∧
      [.acquire (.friend i) id s, .save (.friend i) id s c a, .post (.friend i), .take .hakase] <:+ l
  | .exec p id s => ∃ i n c a, p = .hakase ∧ id = some (i, n) ∧ [.start .hakase id s c a] <:+ l
  | .finish p id s _ a => p = .hakase ∧ a = P.addr (.setRet s) ∧ [.exec .hakase id s] <:+ l
  | .resume p id s c a r => ∃ i n, p = .friend i ∧ id = some (i, n) ∧ r = 1 ∧
      [.finish .hakase id s c a, .answer .hakase] <:+ l
  | .release p id s => ∃ i n c a, p = .friend i ∧ id = some (i, n) ∧ [.resume (.friend i) id s c a 1] <:+ l
  | .acquire .. | .save .. | .post .. | .take .. | .answer .. => True

/-- Every event of the log comes after what it should. -/
inductive Justified : List (Event ι S) → Prop
  | nil : Justified []
  | concat {l : List (Event ι S)} {e : Event ι S} (h : Justified l) (hf : Follows P l e) : Justified (l ++ [e])

variable {P}

theorem Follows.append_left {l : List (Event ι S)} {e : Event ι S} (h : Follows P l e) (m : List (Event ι S)) :
    Follows P (m ++ l) e := by
  have hs : ∀ {u : List (Event ι S)}, u <:+ l → u <:+ m ++ l := fun hu => hu.trans (List.suffix_append m l)
  cases e with
  | start =>
      obtain ⟨i, n, hp, hid, hl⟩ := h
      exact ⟨i, n, hp, hid, hs hl⟩
  | exec =>
      obtain ⟨i, n, c, a, hp, hid, hl⟩ := h
      exact ⟨i, n, c, a, hp, hid, hs hl⟩
  | finish =>
      obtain ⟨hp, ha, hl⟩ := h
      exact ⟨hp, ha, hs hl⟩
  | resume =>
      obtain ⟨i, n, hp, hid, hr, hl⟩ := h
      exact ⟨i, n, hp, hid, hr, hs hl⟩
  | release =>
      obtain ⟨i, n, c, a, hp, hid, hl⟩ := h
      exact ⟨i, n, c, a, hp, hid, hs hl⟩
  | acquire | save | post | take | answer => trivial

theorem Justified.append {l m : List (Event ι S)} (hl : Justified P l) (hm : Justified P m) : Justified P (l ++ m) := by
  induction hm with
  | nil => rwa [List.append_nil]
  | concat _ hf ih =>
      rw [← List.append_assoc]
      exact ih.concat (hf.append_left l)

theorem Justified.of_append {l m : List (Event ι S)} (h : Justified P (l ++ m)) : Justified P l := by
  induction m using List.reverseRecOn with
  | nil => rwa [List.append_nil] at h
  | append_singleton m e ih =>
      rw [← List.append_assoc] at h
      generalize hk : l ++ m ++ [e] = k at h
      cases h with
      | nil => simp at hk
      | concat h' _ =>
          obtain ⟨rfl, -⟩ := List.append_inj' hk rfl
          exact ih h'

theorem Justified.follows {l l₁ l₂ : List (Event ι S)} {e : Event ι S} (h : Justified P l)
    (hl : l = l₁ ++ e :: l₂) : Follows P l₁ e := by
  have h' : Justified P (l₁ ++ [e]) := by
    rw [hl, List.append_cons] at h
    exact h.of_append
  generalize hk : l₁ ++ [e] = k at h'
  cases h' with
  | nil => simp at hk
  | concat _ hf =>
      obtain ⟨rfl, he⟩ := List.append_inj' hk rfl
      rwa [List.singleton_inj.mp he]

variable (P)

theorem justified_of_take {l : List (Event ι S)} (h : ∀ k e, l[k]? = some e → Follows P (l.take k) e) :
    Justified P l := by
  have htake : ∀ k, Justified P (l.take k) := by
    intro k
    induction k with
    | zero => exact .nil
    | succ k ih =>
        rw [List.take_add_one]
        cases hk : l[k]? with
        | none => rwa [Option.toList_none, List.append_nil]
        | some e => exact ih.concat (h k e hk)
  rw [← List.take_length (l := l)]
  exact htake l.length

theorem justified_session (σ : Serial ι H L) (i : ι) (s : S) : Justified P (session P σ i s) := by
  refine justified_of_take P fun k e hk => ?_
  match k, hk with
  | 0, rfl | 1, rfl | 2, rfl | 3, rfl | 7, rfl => trivial
  | 4, rfl => exact ⟨i, _, rfl, rfl, List.suffix_refl _⟩
  | 5, rfl => exact ⟨i, _, _, _, rfl, rfl, (session P σ i s).take 4, rfl⟩
  | 6, rfl => exact ⟨rfl, rfl, (session P σ i s).take 5, rfl⟩
  | 8, rfl => exact ⟨i, _, rfl, rfl, rfl, (session P σ i s).take 6, rfl⟩
  | 9, rfl => exact ⟨i, _, _, _, rfl, rfl, (session P σ i s).take 8, rfl⟩

theorem Stage.log {σ : Serial ι H L} {i : ι} {s : S} {base : List (Event ι S)} {v : View ι S H L}
    (h : Stage P σ i s base v) : ∃ k, v.log = base ++ (session P σ i s).take k := by
  cases h with
  | entered _ _ _ _ _ hl | saving _ _ _ _ _ _ _ hl | posted _ _ _ _ _ hl | serving _ _ _ _ _ _ _ hl
  | served _ _ _ _ _ hl | loading _ _ _ _ _ _ _ _ hl | cleared _ _ _ _ _ _ _ _ _ hl | resumed _ _ _ _ _ _ _ hl
  | unlocking _ _ _ _ _ hl => exact ⟨_, hl⟩

theorem Outside.done {σ : Serial ι H L} {k : ι} {t : Thread S} {l : L} (h : Outside P σ k t l) : t.done = σ.count k := by
  cases h with
  | next _ hd | trying _ _ hd => exact hd

variable [DecidableEq ι]

theorem justified_sessions (σ : Serial ι H L) (rs : List (Req ι S)) : Justified P (sessions P σ rs) := by
  induction rs generalizing σ with
  | nil => exact .nil
  | cons r rs ih => exact (justified_session P σ r.core r.site).append (ih _)

/-! ## How far a run has got -/

variable {h₀ : H} {loc₀ : ι → L} {st : State ι S H L}

/-- The requests that are over, and the one under way. -/
theorem Inv.log (h : Inv P h₀ loc₀ st) : ∃ rs, let σ := (Serial.init P h₀ loc₀).runs P rs
    let base := sessions P (Serial.init P h₀ loc₀) rs
    (∀ i, sitesOf i rs = (P.prog i).take (σ.count i)) ∧ (∀ i, (st.friend i).done = σ.count i) ∧
      (st.log = base ∨ ∃ i s k, st.log = base ++ (session P σ i s).take k) := by
  obtain ⟨rs, hord, hfree | ⟨i, s, hheld, hothers⟩⟩ := h
  · exact ⟨rs, fun i => (hord i).1, fun i => (hfree.cores i).done P, .inl hfree.log⟩
  · obtain ⟨k, hk⟩ := hheld.stage.log P
    refine ⟨rs, fun i => (hord i).1, fun j => ?_, .inr ⟨i, s, k, hk⟩⟩
    by_cases hj : j = i
    · rw [hj]
      exact hheld.done
    · exact (hothers j hj).done P

theorem justified_log (h : Inv P h₀ loc₀ st) : Justified P st.log := by
  obtain ⟨rs, -, -, hl | ⟨i, s, k, hl⟩⟩ := h.log P
  · rw [hl]
    exact justified_sessions P _ rs
  · rw [hl]
    have hs := justified_session P ((Serial.init P h₀ loc₀).runs P rs) i s
    rw [← List.take_append_drop k (session P _ i s)] at hs
    exact (justified_sessions P _ rs).append hs.of_append

/-! ## The events of one request -/

def Event.request : Event ι S → Option (ι × Nat)
  | .acquire _ id _ | .save _ id _ _ _ | .start _ id _ _ _ | .exec _ id _ | .finish _ id _ _ _ | .resume _ id _ _ _ _
  | .release _ id _ => id
  | .post _ | .take _ | .answer _ => none

/-- The events of the request `r`: core `r.1`'s `_OFFLOAD` number `r.2`. -/
def ofRequest (r : ι × Nat) (l : List (Event ι S)) : List (Event ι S) := l.filter fun e => e.request = some r

/-- A whole request: one execution, by hakase, between the acquisition and the release by core `i`. -/
def requestEvents (i : ι) (n : Nat) (s : S) (c d : Ctx) : List (Event ι S) :=
  [.acquire (.friend i) (some (i, n)) s, .save (.friend i) (some (i, n)) s c (P.addr (.waitRet s)),
    .start .hakase (some (i, n)) s c (P.addr (.waitRet s)), .exec .hakase (some (i, n)) s,
    .finish .hakase (some (i, n)) s d (P.addr (.setRet s)),
    .resume (.friend i) (some (i, n)) s d (P.addr (.setRet s)) 1, .release (.friend i) (some (i, n)) s]

def Event.isExec : Event ι S → Bool
  | .exec .. => true
  | _ => false

def executions (r : ι × Nat) (l : List (Event ι S)) : Nat := (ofRequest r l).countP Event.isExec

theorem ofRequest_append (r : ι × Nat) (l m : List (Event ι S)) :
    ofRequest r (l ++ m) = ofRequest r l ++ ofRequest r m := List.filter_append l m

theorem ofRequest_session (σ : Serial ι H L) (i : ι) (s : S) (r : ι × Nat) :
    ofRequest r (session P σ i s) = if r = (i, σ.count i)
      then requestEvents P i (σ.count i) s (σ.before P i).1 (σ.after P i s).2.1 else [] := by
  unfold ofRequest session requestEvents
  by_cases hr : r = (i, σ.count i)
  · simp [hr, Event.request]
  · simp [hr, Event.request, Ne.symm hr]

theorem ofRequest_take (σ : Serial ι H L) (i : ι) (s : S) (k : Nat) (r : ι × Nat) :
    ofRequest r ((session P σ i s).take k) <+: ofRequest r (session P σ i s) :=
  (List.take_prefix k _).filter _

/-- A request that has not begun has no events. -/
theorem ofRequest_sessions_of_le {i : ι} {n : Nat} (rs : List (Req ι S))
    (hn : ((Serial.init P h₀ loc₀).runs P rs).count i ≤ n) :
    ofRequest (i, n) (sessions P (Serial.init P h₀ loc₀) rs) = [] := by
  induction rs using List.reverseRecOn with
  | nil => rfl
  | append_singleton rs r ih =>
      rw [Serial.runs_concat] at hn
      by_cases hr : r.core = i
      · subst hr
        simp only [Serial.exec, Function.update_self] at hn
        rw [sessions_concat, ofRequest_append, ih (by omega), ofRequest_session, if_neg]
        · rfl
        · rw [Prod.mk.injEq]
          omega
      · simp only [Serial.exec, Function.update_of_ne (Ne.symm hr)] at hn
        rw [sessions_concat, ofRequest_append, ih hn, ofRequest_session, if_neg]
        · rfl
        · rw [Prod.mk.injEq]
          exact fun h => hr h.1.symm

theorem length_sitesOf (h : H) (loc : ι → L) (i : ι) (rs : List (Req ι S)) :
    (sitesOf i rs).length = ((Serial.init P h loc).runs P rs).count i := by
  induction rs using List.reverseRecOn with
  | nil => rfl
  | append_singleton rs r ih =>
      rw [sitesOf_concat, List.length_append, ih, Serial.runs_concat]
      by_cases hr : r.core = i
      · subst hr
        simp [Serial.exec]
      · simp [Serial.exec, hr, Function.update_of_ne (Ne.symm hr)]

/-- A request that is over has all its events, once. -/
theorem ofRequest_sessions_of_lt {i : ι} {n : Nat} (rs : List (Req ι S))
    (hn : n < ((Serial.init P h₀ loc₀).runs P rs).count i) :
    ∃ s c d, (sitesOf i rs)[n]? = some s ∧
      ofRequest (i, n) (sessions P (Serial.init P h₀ loc₀) rs) = requestEvents P i n s c d := by
  induction rs using List.reverseRecOn with
  | nil => exact absurd hn (Nat.not_lt_zero n)
  | append_singleton rs r ih =>
      have hlen := length_sitesOf P h₀ loc₀ i rs
      rw [Serial.runs_concat] at hn
      rw [sessions_concat, ofRequest_append, sitesOf_concat, ofRequest_session]
      by_cases hr : r.core = i
      · subst hr
        simp only [Serial.exec, Function.update_self] at hn
        rcases Nat.lt_succ_iff_lt_or_eq.mp hn with hlt | rfl
        · obtain ⟨s, c, d, hs, he⟩ := ih hlt
          refine ⟨s, c, d, ?_, ?_⟩
          · rw [List.getElem?_append_left (by omega)]
            exact hs
          · rw [he, if_neg, List.append_nil]
            rw [Prod.mk.injEq]
            omega
        · rw [if_pos rfl, if_pos rfl, ofRequest_sessions_of_le P rs le_rfl]
          refine ⟨r.site, _, _, ?_, rfl⟩
          rw [List.getElem?_append_right (by omega), hlen, Nat.sub_self]
          rfl
      · simp only [Serial.exec, Function.update_of_ne (Ne.symm hr)] at hn
        obtain ⟨s, c, d, hs, he⟩ := ih hn
        refine ⟨s, c, d, ?_, ?_⟩
        · rw [if_neg hr, List.append_nil]
          exact hs
        · rw [he, if_neg, List.append_nil]
          rw [Prod.mk.injEq]
          exact fun h => hr h.1.symm

/-- At every moment a request has its first few events, if any. -/
theorem ofRequest_log (h : Inv P h₀ loc₀ st) (r : ι × Nat) :
    ofRequest r st.log = [] ∨ ∃ s c d, ofRequest r st.log <+: requestEvents P r.1 r.2 s c d := by
  obtain ⟨rs, -, -, hl⟩ := h.log P
  rcases Nat.lt_or_ge r.2 (((Serial.init P h₀ loc₀).runs P rs).count r.1) with hlt | hge
  · obtain ⟨s, c, d, -, he⟩ := ofRequest_sessions_of_lt P rs hlt
    rcases hl with hl | ⟨i, s', k, hl⟩
    · rw [hl, he]
      exact .inr ⟨s, c, d, List.prefix_refl _⟩
    · have hne : r ≠ (i, ((Serial.init P h₀ loc₀).runs P rs).count i) := by
        rintro rfl
        exact Nat.lt_irrefl _ hlt
      have hk := ofRequest_take P ((Serial.init P h₀ loc₀).runs P rs) i s' k r
      rw [ofRequest_session, if_neg hne, List.prefix_nil] at hk
      rw [hl, ofRequest_append, he, hk, List.append_nil]
      exact .inr ⟨s, c, d, List.prefix_refl _⟩
  · have hnil := ofRequest_sessions_of_le P rs hge
    rcases hl with hl | ⟨i, s, k, hl⟩
    · rw [hl]
      exact .inl hnil
    · have hk := ofRequest_take P ((Serial.init P h₀ loc₀).runs P rs) i s k r
      rw [hl, ofRequest_append, hnil, List.nil_append]
      rw [ofRequest_session] at hk
      by_cases hr : r = (i, ((Serial.init P h₀ loc₀).runs P rs).count i)
      · rw [if_pos hr] at hk
        subst hr
        exact .inr ⟨s, _, _, hk⟩
      · rw [if_neg hr, List.prefix_nil] at hk
        exact .inl hk

theorem executions_le_one (h : Inv P h₀ loc₀ st) (r : ι × Nat) : executions r st.log ≤ 1 := by
  unfold executions
  rcases ofRequest_log P h r with hnil | ⟨s, c, d, hp⟩
  · rw [hnil]
    exact Nat.zero_le 1
  · exact hp.sublist.countP_le

theorem ofRequest_of_done (h : Inv P h₀ loc₀ st) {i : ι} {n : Nat} (hn : n < (st.friend i).done) :
    ∃ s c d, (P.prog i)[n]? = some s ∧ ofRequest (i, n) st.log = requestEvents P i n s c d := by
  obtain ⟨rs, hsites, hdone, hl⟩ := h.log P
  rw [hdone i] at hn
  obtain ⟨s, c, d, hs, he⟩ := ofRequest_sessions_of_lt P rs hn
  refine ⟨s, c, d, ?_, ?_⟩
  · rw [hsites i, List.getElem?_take_of_lt hn] at hs
    exact hs
  · rcases hl with hl | ⟨j, s', k, hl⟩
    · rw [hl, he]
    · have hk := ofRequest_take P ((Serial.init P h₀ loc₀).runs P rs) j s' k (i, n)
      rw [ofRequest_session, if_neg, List.prefix_nil] at hk
      · rw [hl, ofRequest_append, he, hk, List.append_nil]
      · rintro ⟨rfl, rfl⟩
        exact Nat.lt_irrefl _ hn

/-! ## Exactly once, and in order -/

theorem friend_not_in_block (h : Inv P h₀ loc₀ st) (i : ι) (s : S) : (st.friend i).pc ≠ .block s := by
  have hout : ∀ {σ : Serial ι H L}, Outside P σ i (st.friend i) (st.loc i) → (st.friend i).pc ≠ .block s := by
    intro σ ho
    cases ho with
    | next hpc => simp [hpc]
    | trying _ hpc => rcases hpc with hpc | hpc | hpc <;> simp [hpc]
  obtain ⟨rs, -, hfree | ⟨j, s', hheld, hothers⟩⟩ := h
  · exact hout (hfree.cores i)
  · by_cases hj : i = j
    · subst hj
      exact (hheld.stage.holder_pc P s).2.1
    · exact hout (hothers i hj)

/-- Core `i` has been through all its `_OFFLOAD`s. -/
def Finished (st : State ι S H L) (i : ι) : Prop :=
  (st.friend i).pc = .next ∧ (st.friend i).done = (P.prog i).length

theorem finished_serial (h : Inv P h₀ loc₀ st) (hf : ∀ i, Finished P st i) :
    st.h = ((Serial.init P h₀ loc₀).runs P (acquired st.log)).h ∧
    st.loc = ((Serial.init P h₀ loc₀).runs P (acquired st.log)).loc ∧
    ∀ i, sitesOf i (acquired st.log) = P.prog i := by
  obtain ⟨rs, hord, hfree | ⟨i, s, hheld, -⟩⟩ := h
  · rw [hfree.log, acquired_sessions]
    refine ⟨hfree.data, funext fun i => ?_, fun i => ?_⟩
    · cases hfree.cores i with
      | next _ _ _ hl => exact hl
      | trying _ hpc => rcases hpc with hpc | hpc | hpc <;> simp [(hf i).1] at hpc
    · rw [(hord i).1, ← (hfree.cores i).done P, (hf i).2, List.take_length]
  · have hlt := (List.getElem?_eq_some_iff.mp hheld.site).1
    have hdone : (st.friend i).done = _ := hheld.done
    rw [← hdone, (hf i).2] at hlt
    exact absurd hlt (Nat.lt_irrefl _)

/-- **Exactly once, one after another.** In every state of every interleaving: no friend core is in a block or has
executed one; no two parties are in a block; a request's block has been executed at most once, and exactly once,
between the acquisition and the release of `_lock`, if its `_OFFLOAD` has returned; and when all cores are through,
hakase's state and the cores' are those of running the blocks one after another in the order in which `_lock` was
acquired, in which every core's blocks stand in program order. -/
theorem exactly_once (h : H) (loc : ι → L) (ts : List (Party ι)) :
    let st := Lib.run P.step (P.init h loc) ts
    (∀ i s, (st.friend i).pc ≠ .block s) ∧
    (∀ p id s, .exec p id s ∈ st.log → p = .hakase ∧ ∃ i n, id = some (i, n)) ∧
    (∀ p q s s', (st.thread p).pc = .block s → (st.thread q).pc = .block s' → p = q) ∧
    (∀ r, executions r st.log ≤ 1) ∧
    (∀ i n, n < (st.friend i).done →
      ∃ s c d, (P.prog i)[n]? = some s ∧ ofRequest (i, n) st.log = requestEvents P i n s c d) ∧
    ((∀ i, Finished P st i) →
      st.h = ((Serial.init P h loc).runs P (acquired st.log)).h ∧
      st.loc = ((Serial.init P h loc).runs P (acquired st.log)).loc ∧
      ∀ i, sitesOf i (acquired st.log) = P.prog i) := by
  intro st
  have hinv : Inv P h loc st := inv_run P ts
  refine ⟨friend_not_in_block P hinv, fun p id s hmem => ?_, fun p q s s' hp hq => ?_, executions_le_one P hinv,
    fun i n hn => ofRequest_of_done P hinv hn, finished_serial P hinv⟩
  · obtain ⟨l₁, l₂, hl⟩ := List.append_of_mem hmem
    obtain ⟨i, n, -, -, hh, hid, -⟩ := (justified_log P hinv).follows hl
    exact ⟨hh, i, n, hid⟩
  · cases p with
    | friend i => exact absurd hp (friend_not_in_block P hinv i s)
    | hakase =>
        cases q with
        | hakase => rfl
        | friend j => exact absurd hq (friend_not_in_block P hinv j s')

/-! ## Contexts -/

/-- Hakase's calls of `TryReceive`: the finished ones, and at most one under way, with at most one block so far. -/
theorem calls_complete (h : Inv P h₀ loc₀ st) : ∃ l, Complete l ∧ (st.calls = l ∨
    ∃ c ex, st.calls = l ++ .enter .hakase c :: ex ∧ (ex = [] ∨ ∃ id s, ex = [.exec .hakase id s])) := by
  have hout : Out st.hakase st.calls → ∃ l, Complete l ∧ (st.calls = l ∨
      ∃ c ex, st.calls = l ++ .enter .hakase c :: ex ∧ (ex = [] ∨ ∃ id s, ex = [.exec .hakase id s])) := by
    intro ho
    cases ho with
    | next _ hc => exact ⟨_, hc, .inl rfl⟩
    | test c _ _ hc | empty c _ _ hc =>
        obtain ⟨l, hl, he⟩ := hc
        exact ⟨l, hl, .inr ⟨c, [], he, .inl rfl⟩⟩
    | one c id s _ _ hc =>
        obtain ⟨l, hl, he⟩ := hc
        exact ⟨l, hl, .inr ⟨c, _, he, .inr ⟨id, s, rfl⟩⟩⟩
  obtain ⟨rs, -, hfree | ⟨i, s, hheld, -⟩⟩ := h
  · exact hout hfree.out
  · cases hheld.stage with
    | entered _ _ _ ho | saving _ _ _ _ _ ho | posted _ _ _ ho | served _ _ _ ho | loading _ _ _ _ _ _ ho
    | cleared _ _ _ _ _ _ _ ho | resumed _ _ _ _ _ ho | unlocking _ _ _ ho => exact hout ho
    | serving c k b _ _ _ _ _ hc =>
        obtain ⟨l, hl, he⟩ := hc
        refine ⟨l, hl, .inr ⟨c, _, he, ?_⟩⟩
        cases b with
        | false => exact .inl rfl
        | true => exact .inr ⟨_, s, rfl⟩

/-- **Contexts are never mixed up.** In every state of every interleaving: hakase has started each block with the
registers and at the return point that the core saved for this request, while it held `_lock`; a core has left its
`_OFFLOAD` only by resuming with the registers, and at the return point, with which hakase made the second
`toshokan_setjmp` of this request, and with 1 in `%rax`; and each call of `TryReceive` has returned with the registers
it was made with, `true` after one block and `false` after none. -/
theorem contexts_kept (h : H) (loc : ι → L) (ts : List (Party ι)) :
    let st := Lib.run P.step (P.init h loc) ts
    (∀ l₁ l₂ p id s c a, st.log = l₁ ++ .start p id s c a :: l₂ → ∃ i n, p = .hakase ∧ id = some (i, n) ∧
      [.acquire (.friend i) id s, .save (.friend i) id s c a, .post (.friend i), .take .hakase] <:+ l₁) ∧
    (∀ l₁ l₂ p id s c a r, st.log = l₁ ++ .resume p id s c a r :: l₂ → ∃ i n, p = .friend i ∧ id = some (i, n) ∧
      r = 1 ∧ [.finish .hakase id s c a, .answer .hakase] <:+ l₁) ∧
    (∀ l₁ l₂ p id s c a, st.log = l₁ ++ .finish p id s c a :: l₂ → a = P.addr (.setRet s)) ∧
    (∀ l₁ l₂ p id s, st.log = l₁ ++ .release p id s :: l₂ → ∃ i n c a, p = .friend i ∧ id = some (i, n) ∧
      [.resume (.friend i) id s c a 1] <:+ l₁) ∧
    ∃ l, Complete l ∧ (st.calls = l ∨
      ∃ c ex, st.calls = l ++ .enter .hakase c :: ex ∧ (ex = [] ∨ ∃ id s, ex = [.exec .hakase id s])) := by
  intro st
  have hinv : Inv P h loc st := inv_run P ts
  have hj := justified_log P hinv
  refine ⟨?_, ?_, ?_, ?_, calls_complete P hinv⟩
  · intro l₁ l₂ p id s c a hl
    exact hj.follows hl
  · intro l₁ l₂ p id s c a r hl
    exact hj.follows hl
  · intro l₁ l₂ p id s c a hl
    exact (hj.follows hl).2.1
  · intro l₁ l₂ p id s hl
    exact hj.follows hl

end Toshokan.Offload
