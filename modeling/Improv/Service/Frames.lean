import Improv.Service.Authority
/-!
# What an operation leaves alone

A refused store call changes only the world and whether a handle is held, and a
check reads only the structure.  Every later invariant rests on these frames,
one for each operation that reaches the store.
-/

namespace Improv.Service

open Improv.Lib Improv.CoreModel Improv.Engine

namespace Authority

variable {S E : Type} {env : Env S E}

/-- `b` is `a` but for the world, the store handle and the count of probes. -/
structure Kept (a b : Authority S E) : Prop where
  model : b.model = a.model
  tx : b.tx = a.tx
  engine : b.engine = a.engine
  snapshot : b.snapshot = a.snapshot
  log : b.log = a.log
  sessions : b.sessions = a.sessions
  structureVersion : b.structureVersion = a.structureVersion
  loads : b.loads = a.loads

namespace Kept

variable {a b c : Authority S E}

@[refl] theorem refl (a : Authority S E) : Kept a a := ⟨rfl, rfl, rfl, rfl, rfl, rfl, rfl, rfl⟩

theorem trans (h : Kept a b) (h' : Kept b c) : Kept a c where
  model := h'.model.trans h.model
  tx := h'.tx.trans h.tx
  engine := h'.engine.trans h.engine
  snapshot := h'.snapshot.trans h.snapshot
  log := h'.log.trans h.log
  sessions := h'.sessions.trans h.sessions
  structureVersion := h'.structureVersion.trans h.structureVersion
  loads := h'.loads.trans h.loads

end Kept

/-! ## The store calls -/

theorem openStore_ok {a a' : Authority S E} (h : openStore env a = .ok () a') : Kept a a' := by
  unfold openStore at h
  split at h
  · cases h
    rfl
  · split at h
    · cases h
      exact ⟨rfl, rfl, rfl, rfl, rfl, rfl, rfl, rfl⟩
    · cases h

theorem openStore_error {a a' : Authority S E} {r : Refusal}
    (h : openStore env a = .error r a') : Kept a a' := by
  unfold openStore at h
  split at h
  · cases h
  · split at h
    · cases h
    · cases h
      exact ⟨rfl, rfl, rfl, rfl, rfl, rfl, rfl, rfl⟩

/-- A saved model moves the version, and nothing else. -/
theorem save_ok {m : Model} {changes : ChangeSet} {a a' : Authority S E}
    (h : save env m changes a = .ok () a') : Kept { a with tx := a'.tx } a' := by
  unfold save at h
  split at h
  · cases h
  · rename_i hopen
    have hk := openStore_ok hopen
    split at h
    · cases h
      exact ⟨hk.model, rfl, hk.engine, hk.snapshot, hk.log, hk.sessions,
        hk.structureVersion, hk.loads⟩
    · cases h

theorem save_error {m : Model} {changes : ChangeSet} {a a' : Authority S E} {r : Refusal}
    (h : save env m changes a = .error r a') : Kept a a' := by
  unfold save at h
  split at h
  · rename_i hopen
    cases h
    exact openStore_error hopen
  · rename_i hopen
    have hk := openStore_ok hopen
    split at h
    · cases h
    · cases h
      exact ⟨hk.model, hk.tx, hk.engine, hk.snapshot, hk.log, hk.sessions,
        hk.structureVersion, hk.loads⟩

theorem reload_error {a a' : Authority S E} {r : Refusal}
    (h : reload env a = .error r a') : Kept a a' := by
  unfold reload at h
  split at h
  · rename_i hopen
    cases h
    exact openStore_error hopen
  · rename_i hopen
    have hk := openStore_ok hopen
    split at h
    · cases h
      exact ⟨hk.model, hk.tx, hk.engine, hk.snapshot, hk.log, hk.sessions,
        hk.structureVersion, hk.loads⟩
    · cases h

/-- A reload takes the model and the transaction the store answers, and builds
its engine. -/
theorem reload_ok {a c : Authority S E} (h : reload env a = .ok () c) :
    ∃ b m tx world, openStore env a = .ok () b ∧
      env.store.loadModel b.world = (.ok (m, tx), world) ∧
      c = rebuild env { b with
        world
        loads := b.loads + 1
        structureVersion := b.structureVersion + 1
        model := m
        tx } := by
  unfold reload at h
  split at h
  · cases h
  · rename_i b hopen
    split at h
    · cases h
    · rename_i m tx world hload
      cases h
      exact ⟨b, m, tx, world, hopen, hload, rfl⟩

/-- A refresh finds the store where it was, fails, or loads the model again and
logs a reload. -/
theorem refresh_cases (env : Env S E) (a : Authority S E) :
    (∃ a', refresh env a = .ok false a' ∧ Kept a a') ∨
    (∃ r a', refresh env a = .error r a' ∧ Kept a a') ∨
    ∃ b c, refresh env a = .ok true (c.pushLog none) ∧ Kept a b ∧ reload env b = .ok () c := by
  have hprobe : Kept a { a with probes := a.probes + 1 } :=
    ⟨rfl, rfl, rfl, rfl, rfl, rfl, rfl, rfl⟩
  unfold refresh
  cases hopen : openStore env { a with probes := a.probes + 1 } with
  | error r b => exact .inr (.inl ⟨r, b, rfl, hprobe.trans (openStore_error hopen)⟩)
  | ok _ b =>
      have hb := hprobe.trans (openStore_ok hopen)
      have hworld : ∀ (w : S) (held : Bool), Kept a { b with world := w, store := held } :=
        fun w _ => ⟨hb.model, hb.tx, hb.engine, hb.snapshot, hb.log, hb.sessions,
          hb.structureVersion, hb.loads⟩
      cases hhigh : env.store.txHighWater b.world with
      | mk hw w =>
          cases hw with
          | error e => exact .inr (.inl ⟨.ofStore e, _, by simp only [hhigh], hworld w false⟩)
          | ok hw =>
              by_cases heq : some hw = b.tx
              · exact .inl ⟨_, by simp only [hhigh, if_pos heq], hworld w b.store⟩
              · cases hload : reload env { b with world := w } with
                | error r c =>
                    exact .inr (.inl ⟨r, c, by simp only [hhigh, if_neg heq, hload],
                      (hworld w b.store).trans (reload_error hload)⟩)
                | ok _ c =>
                    exact .inr (.inr ⟨_, c, by simp only [hhigh, if_neg heq, hload],
                      hworld w b.store, hload⟩)

/-- A check that finds the store where it was changes nothing. -/
theorem refresh_unmoved {a a' : Authority S E} (h : refresh env a = .ok false a') :
    Kept a a' := by
  rcases refresh_cases env a with ⟨_, h', hk⟩ | ⟨_, _, h', _⟩ | ⟨_, _, h', _⟩ <;>
    rw [h] at h' <;> cases h'
  exact hk

theorem refresh_error {a a' : Authority S E} {r : Refusal}
    (h : refresh env a = .error r a') : Kept a a' := by
  rcases refresh_cases env a with ⟨_, h', _⟩ | ⟨_, _, h', hk⟩ | ⟨_, _, h', _⟩ <;>
    rw [h] at h' <;> cases h'
  exact hk

/-- A store that moved is loaded again, which is logged. -/
theorem refresh_moved {a a' : Authority S E} (h : refresh env a = .ok true a') :
    ∃ b c, Kept a b ∧ reload env b = .ok () c ∧ a' = c.pushLog none := by
  rcases refresh_cases env a with ⟨_, h', _⟩ | ⟨_, _, h', _⟩ | ⟨b, c, h', hb, hc⟩ <;>
    rw [h] at h' <;> cases h'
  exact ⟨b, c, hb, hc, rfl⟩

/-! ## The checks read the structure -/

/-- Two states that differ in no data a check reads. -/
structure SameStructure (a b : Authority S E) : Prop where
  model : b.model.structureOf = a.model.structureOf
  version : b.structureVersion = a.structureVersion

namespace SameStructure

variable {a b : Authority S E}

theorem symm (h : SameStructure a b) : SameStructure b a := ⟨h.model.symm, h.version.symm⟩

theorem session (h : SameStructure a b) (who : Principal) :
    env.policy.session b.model b.structureVersion who =
      env.policy.session a.model a.structureVersion who := by
  rw [← env.policy.session_structureOf b.model, ← env.policy.session_structureOf a.model,
    h.model, h.version]

/-- A check with the cells cleared and the principal's access given. -/
theorem checkEdit_eq (who : Principal) (a : Authority S E) (e : CellEdit) :
    checkEdit env who a e =
      checkEdit { env with policy := ⟨fun _ _ _ =>
          env.policy.session a.model a.structureVersion who, fun _ _ _ => rfl⟩ } who
        { a with model := a.model.structureOf } e := rfl

theorem checkEdit (h : SameStructure a b) (who : Principal) (e : CellEdit) :
    checkEdit env who b e = checkEdit env who a e := by
  rw [checkEdit_eq, checkEdit_eq who a, h.session, h.model]
  rfl

theorem checkEdits (h : SameStructure a b) (who : Principal) (i : Nat) (es : List CellEdit) :
    checkEdits env who b i es = checkEdits env who a i es := by
  induction es generalizing i with
  | nil => rfl
  | cons e es ih => simp only [Authority.checkEdits, h.checkEdit, ih]

end SameStructure

end Authority

end Improv.Service
