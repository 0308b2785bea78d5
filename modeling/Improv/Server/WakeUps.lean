import Mathlib.Data.List.Perm.Basic
import Improv.Server.Streams
/-!
# No stream sleeps on a change

A stream has been told of every bump of the counter but those its mark is behind,
and the authority's version moves only with a bump.  What breaks this is the
mark a stream sets after its first look, when the version moved in between.
-/

namespace Improv.Server

open Improv.Lib

variable {Who Ver : Type} [LinearOrder Who]

namespace Gui

variable {s s' : Gui Who Ver} {maxStreams : Nat}

/-! ## Stages -/

/-- A stream that has seen every bump has seen the authority's version. -/
def UpToDate (authority : Option Ver) (changed mark : Nat) (seen : Ver) : Prop :=
  mark ≤ changed ∧ authority.isSome = true ∧ (mark = changed → authority = some seen)

/-- What holds at each stage of a stream's task. -/
def StageOk (authority : Option Ver) (changed : Nat) : Stage Ver → Prop
  | .taken => True
  | .subscribed mark => mark ≤ changed
  | .looked mark _ _ => mark ≤ changed ∧ authority.isSome = true
  | .idle mark seen _ => UpToDate authority changed mark seen
  | .waiting mark seen => UpToDate authority changed mark seen
  | .woken mark _ => mark ≤ changed ∧ authority.isSome = true

theorem UpToDate.bump {authority authority' : Option Ver} {changed mark : Nat} {seen : Ver}
    (h : UpToDate authority changed mark seen) (hsome : authority'.isSome = true) :
    UpToDate authority' (changed + 1) mark seen :=
  ⟨Nat.le_succ_of_le h.1, hsome, fun heq => absurd h.1 (by omega)⟩

/-- A bump keeps every stage right, whatever the authority's version becomes. -/
theorem StageOk.bump {authority authority' : Option Ver} {changed : Nat} {stage : Stage Ver}
    (h : StageOk authority changed stage)
    (hsome : authority.isSome = true → authority'.isSome = true) :
    StageOk authority' (changed + 1) stage := by
  cases stage with
  | taken => trivial
  | subscribed mark => exact Nat.le_succ_of_le h
  | looked mark seen pending => exact ⟨Nat.le_succ_of_le h.1, hsome h.2⟩
  | idle mark seen pending => exact UpToDate.bump h (hsome h.2.1)
  | waiting mark seen => exact UpToDate.bump h (hsome h.2.1)
  | woken mark seen => exact ⟨Nat.le_succ_of_le h.1, hsome h.2⟩

theorem StageOk.opened {changed : Nat} {stage : Stage Ver} (found : Ver)
    (h : StageOk none changed stage) : StageOk (some found) changed stage := by
  cases stage with
  | taken => trivial
  | subscribed mark => exact h
  | looked mark seen pending => exact ⟨h.1, rfl⟩
  | idle mark seen pending => exact absurd h.2.1 (by simp)
  | waiting mark seen => exact absurd h.2.1 (by simp)
  | woken mark seen => exact ⟨h.1, rfl⟩

/-- A call on the authority keeps every stage right. -/
theorem StageOk.withAuthority [DecidableEq Ver] {stage : Stage Ver}
    (h : StageOk s.authority s.changed stage)
    (opened found : Ver) :
    StageOk (s.withAuthority opened found).authority (s.withAuthority opened found).changed
      stage := by
  unfold Gui.withAuthority
  simp only
  by_cases hsame : found = s.authority.getD opened
  · rw [if_pos hsame]
    cases hauth : s.authority with
    | none =>
        rw [hauth] at h
        exact h.opened found
    | some v =>
        rw [hauth] at h hsame
        rw [hsame]
        exact h
  · rw [if_neg hsame]
    exact h.bump fun _ => rfl

/-! ## The invariant -/

structure Inv (maxStreams : Nat) (s : Gui Who Ver) : Prop where
  stages : ∀ st ∈ s.streams, StageOk s.authority s.changed st.stage
  total : s.total = s.streams.length ∧ s.total ≤ maxStreams
  per : ∀ who, s.per.get? who = (if s.held who = 0 then none else some (s.held who)) ∧
    s.held who ≤ maxStreamsPerCaller
  polling : s.streams ≠ [] → s.polling = true
  pollers : s.pollers.length = if s.polling then 1 else 0

theorem inv_start : (start : Gui Who Ver).Inv maxStreams where
  stages st h := by cases h
  total := ⟨rfl, Nat.zero_le _⟩
  per who := ⟨rfl, Nat.zero_le _⟩
  polling h := absurd rfl h
  pollers := rfl

theorem Inv.awake (h : s.Inv maxStreams) : s.Awake maxStreams where
  waiting st hst mark seen hstage hmark := by
    have hok := h.stages st hst
    rw [hstage] at hok
    exact hok.2.2 hmark
  total := h.total
  per := h.per
  poller hopen := by
    rw [h.pollers, h.polling hopen]
    rfl

/-- A step that moves only the authority, the counter and the pollers' rounds. -/
theorem Inv.keep (h : s.Inv maxStreams) (hstreams : s'.streams = s.streams)
    (htotal : s'.total = s.total) (hper : s'.per = s.per) (hpolling : s'.polling = s.polling)
    (hpollers : s'.pollers.length = s.pollers.length)
    (hstages : ∀ stage, StageOk s.authority s.changed stage →
      StageOk s'.authority s'.changed stage) : s'.Inv maxStreams where
  stages st hst := hstages _ (h.stages st (hstreams ▸ hst))
  total := by
    rw [htotal, hstreams]
    exact h.total
  per who := by
    unfold held
    rw [hper, hstreams]
    exact h.per who
  polling hopen := by
    rw [hpolling]
    exact h.polling (hstreams ▸ hopen)
  pollers := by
    rw [hpollers, hpolling]
    exact h.pollers

theorem Inv.withAuthority [DecidableEq Ver] (h : s.Inv maxStreams) (opened found : Ver) :
    (s.withAuthority opened found).Inv maxStreams :=
  h.keep rfl rfl rfl rfl rfl fun _ hok => hok.withAuthority opened found

/-! ## Slots -/

theorem Inv.takeSlot (h : s.Inv maxStreams) {who : Who}
    (hstep : s.takeSlot maxStreams who = some s') : s'.Inv maxStreams := by
  unfold Gui.takeSlot at hstep
  split at hstep
  · cases hstep
  · rename_i hroom
    simp only at hstep
    split at hstep
    · cases hstep
    · rename_i hmine
      have hget : (s.per.get? who).getD 0 = s.held who := by
        rw [(h.per who).1]
        split
        · rename_i hnone
          exact hnone.symm
        · rfl
      rw [hget] at hmine hstep
      cases hstep
      refine ⟨fun st hst => ?_, ⟨?_, ?_⟩, fun who' => ?_, fun _ => rfl, ?_⟩
      · rcases List.mem_append.mp hst with hst | hst
        · exact h.stages st hst
        · rw [List.mem_singleton.mp hst]
          trivial
      · simp only [List.length_append, List.length_singleton]
        rw [h.total.1]
      · simp only
        omega
      · have hheld : ∀ w, (s.streams ++ [(⟨who, .taken⟩ : Stream Who Ver)]).countP
            (fun st => st.who = w) = s.held w + if who = w then 1 else 0 := by
          intro w
          rw [List.countP_append, List.countP_singleton]
          simp only [decide_eq_true_eq]
          rfl
        unfold held
        simp only
        rw [hheld, SortedMap.get?_insert]
        by_cases hw : who' = who
        · subst hw
          rw [if_pos rfl, if_pos rfl, if_neg (by omega)]
          exact ⟨rfl, by omega⟩
        · rw [if_neg hw, if_neg (Ne.symm hw), Nat.add_zero]
          exact h.per who'
      · simp only [if_true]
        split
        · rename_i hpolling
          rw [h.pollers, hpolling]
          rfl
        · rename_i hpolling
          rw [List.length_append, h.pollers, if_neg hpolling]
          rfl

theorem Inv.dropSlot (h : s.Inv maxStreams) {i : Nat} {st : Stream Who Ver}
    (hi : s.streams[i]? = some st) : (s.dropSlot i st).Inv maxStreams := by
  obtain ⟨hlt, hget⟩ := List.getElem?_eq_some_iff.mp hi
  have hheld : ∀ w, s.held w =
      (s.streams.eraseIdx i).countP (fun st => st.who = w) + if st.who = w then 1 else 0 := by
    intro w
    unfold held
    rw [← (List.getElem_cons_eraseIdx_perm hlt).countP_eq, List.countP_cons, hget]
    simp only [decide_eq_true_eq]
  refine ⟨fun st' hst' => ?_, ⟨?_, ?_⟩, fun who => ?_, fun hopen => ?_, h.pollers⟩
  · exact h.stages st' ((List.eraseIdx_sublist _ _).mem hst')
  · unfold Gui.dropSlot
    simp only
    rw [List.length_eraseIdx_of_lt hlt, h.total.1]
  · exact (Nat.sub_le _ _).trans h.total.2
  · have hper := h.per who
    have hmine := h.per st.who
    rw [hheld] at hper hmine
    rw [if_pos rfl] at hmine
    unfold Gui.dropSlot held
    simp only
    rw [hmine.1, if_neg (by omega)]
    simp only [Nat.add_sub_cancel]
    by_cases hw : who = st.who
    · subst hw
      refine ⟨?_, by omega⟩
      split
      · exact SortedMap.get?_erase_self _ _
      · exact SortedMap.get?_insert_self _ _ _
    · rw [if_neg (Ne.symm hw), Nat.add_zero] at hper
      refine ⟨?_, hper.2⟩
      split
      · rw [SortedMap.get?_erase, if_neg hw]
        exact hper.1
      · rw [SortedMap.get?_insert, if_neg hw]
        exact hper.1
  · refine h.polling fun hnil => hopen ?_
    unfold Gui.dropSlot
    simp only
    rw [hnil]
    rfl

theorem Inv.setStage (h : s.Inv maxStreams) {i : Nat} {st : Stream Who Ver}
    (hi : s.streams[i]? = some st) {stage : Stage Ver}
    (hok : StageOk s.authority s.changed stage) : (s.setStage i st stage).Inv maxStreams := by
  obtain ⟨hlt, hget⟩ := List.getElem?_eq_some_iff.mp hi
  have hwho : (s.streams.set i { st with stage := stage }).map Stream.who =
      s.streams.map Stream.who := by
    rw [List.map_set]
    show (s.streams.map Stream.who).set i st.who = _
    have hmap : i < (s.streams.map Stream.who).length := by
      rw [List.length_map]
      exact hlt
    have hat : (s.streams.map Stream.who)[i] = st.who := by
      rw [List.getElem_map, hget]
    rw [← hat, List.set_getElem_self]
  have hheld : ∀ who, (s.setStage i st stage).held who = s.held who := by
    intro who
    have hcount := congrArg (List.countP fun w => decide (w = who)) hwho
    rw [List.countP_map, List.countP_map] at hcount
    exact hcount
  refine ⟨fun st' hst' => ?_, ?_, fun who => ?_, fun hopen => ?_, h.pollers⟩
  · rcases List.mem_or_eq_of_mem_set hst' with hst' | rfl
    · exact h.stages st' hst'
    · exact hok
  · unfold Gui.setStage
    simp only [List.length_set]
    exact h.total
  · rw [hheld]
    exact h.per who
  · refine h.polling fun hnil => hopen ?_
    unfold Gui.setStage
    simp only
    rw [hnil]
    rfl

/-! ## Steps -/

/-- A bump of the counter. -/
theorem Inv.bump (h : s.Inv maxStreams) {pollers : List Poller} {writers : Nat}
    (hlength : pollers.length = s.pollers.length) :
    ({ s with changed := s.changed + 1, pollers := pollers, writers := writers } :
      Gui Who Ver).Inv maxStreams :=
  h.keep rfl rfl rfl rfl hlength fun _ hok => hok.bump id

variable [DecidableEq Ver]

/-- What must hold of a step: the version has not moved between a stream's first
look and the mark it sets after it. -/
def Meets (s : Gui Who Ver) : Act Who Ver → Prop
  | .markUnchanged i => ∀ who mark seen pending,
      s.streams[i]? = some ⟨who, .looked mark seen pending⟩ → s.authority = some seen
  | _ => True

/-- The steps of a run all meet the condition. -/
def AllMeet (maxStreams : Nat) : Gui Who Ver → List (Act Who Ver) → Prop
  | _, [] => True
  | s, act :: acts => s.Meets act ∧
      ∀ s', s.step maxStreams act = some s' → s'.AllMeet maxStreams acts

theorem Inv.streamStep (h : s.Inv maxStreams) {act : Act Who Ver} (hmeets : s.Meets act)
    {st : Stream Who Ver} (hi : s.streams[act.place]? = some st)
    (hstep : s.streamStep act.place st act = some s') : s'.Inv maxStreams := by
  obtain ⟨who, stage⟩ := st
  have hok : StageOk s.authority s.changed stage := h.stages _ (List.mem_of_getElem? hi)
  cases act with
  | subscribe i =>
      cases stage with
      | taken =>
          cases hstep
          exact h.setStage hi (Nat.le_refl _)
      | _ => cases hstep
  | firstLook i opened found sees =>
      cases stage with
      | subscribed mark =>
          cases hstep
          refine (h.withAuthority opened found).setStage hi ⟨?_, rfl⟩
          exact StageOk.withAuthority hok opened found
      | _ => cases hstep
  | markUnchanged i =>
      cases stage with
      | looked mark seen pending =>
          cases hstep
          exact h.setStage hi ⟨Nat.le_refl _, hok.2, fun _ => hmeets who mark seen pending hi⟩
      | _ => cases hstep
  | read i =>
      cases stage with
      | idle mark seen pending =>
          cases pending with
          | true =>
              cases hstep
              exact h.setStage hi hok
          | false =>
              cases hstep
              exact h.setStage hi hok
      | _ => cases hstep
  | wake i =>
      cases stage with
      | waiting mark seen =>
          simp only [Gui.streamStep] at hstep
          split at hstep
          · cases hstep
          · cases hstep
            exact h.setStage hi ⟨Nat.le_refl _, hok.2.1⟩
      | _ => cases hstep
  | look i sees =>
      cases stage with
      | woken mark seen =>
          cases hauth : s.authority with
          | none =>
              simp only [Gui.streamStep, hauth] at hstep
              cases hstep
          | some now =>
              have hnow : UpToDate s.authority s.changed mark now :=
                ⟨hok.1, hok.2, fun _ => hauth⟩
              simp only [Gui.streamStep, hauth] at hstep
              split at hstep
              · cases hstep
                exact h.setStage hi hnow
              · split at hstep
                · rename_i hsame
                  cases hstep
                  rw [hsame] at hnow
                  exact h.setStage hi hnow
                · cases hstep
                  exact h.setStage hi hnow
      | _ =>
          simp only [Gui.streamStep] at hstep
          cases hstep
  | drop i =>
      cases hstep
      exact h.dropSlot hi
  | _ => cases hstep

theorem Inv.pollerStep (h : s.Inv maxStreams) {act : Act Who Ver} {p : Poller}
    (hj : s.pollers[act.place]? = some p) (hstep : s.pollerStep act.place p act = some s') :
    s'.Inv maxStreams := by
  have hlt : act.place < s.pollers.length := (List.getElem?_eq_some_iff.mp hj).1
  cases act with
  | pollerWakes j =>
      cases p with
      | sleeping =>
          simp only [Gui.pollerStep] at hstep
          split at hstep
          · rename_i htotal
            cases hstep
            -- The one poller ends, as the last stream is closed.
            have hnil : s.streams = [] := by
              rw [← List.length_eq_zero_iff, ← h.total.1]
              exact htotal
            refine ⟨h.stages, h.total, h.per, fun hopen => absurd hnil hopen, ?_⟩
            have hone := h.pollers
            have hle : s.pollers.length ≤ 1 := by
              rw [hone]
              split <;> omega
            rw [List.length_eraseIdx_of_lt hlt]
            simp only [Bool.false_eq_true, if_false]
            omega
          · cases hstep
            exact h.keep rfl rfl rfl rfl List.length_set fun _ hok => hok
      | _ => cases hstep
  | pollerLooks j opened found quiet =>
      cases p with
      | asked =>
          cases hstep
          exact (h.withAuthority opened found).keep rfl rfl rfl rfl List.length_set fun _ hok => hok
      | _ => cases hstep
  | pollerWakesStreams j =>
      cases p with
      | moved =>
          cases hstep
          exact h.bump List.length_set
      | _ => cases hstep
  | _ => cases hstep

/-- What one step keeps. -/
theorem Inv.step (h : s.Inv maxStreams) {act : Act Who Ver} (hmeets : s.Meets act)
    (hstep : s.step maxStreams act = some s') : s'.Inv maxStreams := by
  have hstream : (s.streams[act.place]?).bind (fun st => s.streamStep act.place st act) = some s' →
      s'.Inv maxStreams := by
    intro heq
    obtain ⟨st, hi, hst⟩ := Option.bind_eq_some_iff.mp heq
    exact h.streamStep hmeets hi hst
  have hpoller : (s.pollers[act.place]?).bind (fun p => s.pollerStep act.place p act) = some s' →
      s'.Inv maxStreams := by
    intro heq
    obtain ⟨p, hj, hp⟩ := Option.bind_eq_some_iff.mp heq
    exact h.pollerStep hj hp
  cases act with
  | take who => exact h.takeSlot hstep
  | request opened found writes =>
      cases hstep
      exact (h.withAuthority opened found).keep rfl rfl rfl rfl rfl fun _ hok => hok
  | wrote =>
      simp only [Gui.step] at hstep
      split at hstep
      · cases hstep
      · cases hstep
        exact h.bump rfl
  | cancel =>
      simp only [Gui.step] at hstep
      split at hstep
      · cases hstep
      · cases hstep
        exact h.keep rfl rfl rfl rfl rfl fun _ hok => hok
  | pollerWakes j => exact hpoller hstep
  | pollerLooks j opened found quiet => exact hpoller hstep
  | pollerWakesStreams j => exact hpoller hstep
  | _ => exact hstream hstep

/-- What a run keeps. -/
theorem Inv.run (h : s.Inv maxStreams) {acts : List (Act Who Ver)}
    (hmeets : s.AllMeet maxStreams acts) (hrun : s.run maxStreams acts = some s') :
    s'.Inv maxStreams := by
  induction acts generalizing s with
  | nil =>
      cases hrun
      exact h
  | cons act acts ih =>
      unfold Gui.run at hrun
      rw [List.foldlM_cons] at hrun
      obtain ⟨t, ht, hrest⟩ := Option.bind_eq_some_iff.mp hrun
      exact ih (h.step hmeets.1 ht) (hmeets.2 t ht) hrest

/-- In every run where no version moves between a stream's first look and its
mark, no stream ever sleeps on a change. -/
theorem awake_of_marks (maxStreams : Nat) (acts : List (Act Who Ver)) (s : Gui Who Ver)
    (hmeets : (start : Gui Who Ver).AllMeet maxStreams acts)
    (hrun : (start : Gui Who Ver).run maxStreams acts = some s) : s.Awake maxStreams :=
  (inv_start.run hmeets hrun).awake

/-- A stream that takes a slot, looks and waits. -/
def quietRun : List (Act Nat Nat) :=
  [.take 1, .subscribe 0, .firstLook 0 1 1 false, .markUnchanged 0, .read 0]

theorem awake_of_marks_quiet :
    ∃ s, (start : Gui Nat Nat).AllMeet 1 quietRun ∧ (start : Gui Nat Nat).run 1 quietRun = some s ∧
      s.Awake 1 := by
  have hmeets : (start : Gui Nat Nat).AllMeet 1 quietRun := by
    refine ⟨trivial, fun s₁ h₁ => ?_⟩
    cases h₁
    refine ⟨trivial, fun s₂ h₂ => ?_⟩
    cases h₂
    refine ⟨trivial, fun s₃ h₃ => ?_⟩
    cases h₃
    refine ⟨fun who mark seen pending hst => ?_, fun s₄ h₄ => ?_⟩
    · cases hst
      rfl
    cases h₄
    refine ⟨trivial, fun s₅ h₅ => ?_⟩
    cases h₅
    exact trivial
  exact ⟨_, hmeets, rfl, awake_of_marks 1 quietRun _ hmeets rfl⟩

/-- Another request's refresh finds a change between a stream's first look and
its mark. -/
theorem not_awake_of_marked :
    ∃ s, (start : Gui Nat Nat).run 1 [.take 1, .subscribe 0, .firstLook 0 1 1 false,
      .request 1 2 false, .markUnchanged 0, .read 0] = some s ∧ ¬s.Awake 1 := by
  refine ⟨_, rfl, fun h => ?_⟩
  have hseen := h.waiting _ List.mem_cons_self 1 1 rfl rfl
  cases hseen

end Gui

end Improv.Server
