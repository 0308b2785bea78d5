import Mathlib.Algebra.Order.Group.Nat
import Mathlib.Data.List.Nodup
import Improv.StorageMentat.Handles
/-!
# No update is lost

Where a save takes the write lock while its handle is still fresh, and policies
are saved on what was last loaded, transactions and entities are numbered apart
and every save builds on all that was committed before it.
-/

namespace Improv.StorageMentat

/-! ## The log -/

theorem logOf_append (as bs : List Commit) : logOf (as ++ bs) = logOf as ++ logOf bs :=
  List.flatMap_append

/-- A file whose transactions and entities are numbered in order. -/
structure File.Sound (f : File) : Prop where
  txs : ((logOf f.commits).map Tx.id).Pairwise (· < ·)
  positive : ∀ t ∈ logOf f.commits, 0 < t.id
  entities : (f.commits.flatMap Commit.entities).Pairwise (· < ·)
  below : ∀ e ∈ f.commits.flatMap Commit.entities, e < f.nextEntity

theorem le_newest {f : File} (h : f.Sound) {t : Tx} (ht : t ∈ logOf f.commits) :
    t.id ≤ f.newest := by
  unfold File.newest
  obtain ⟨ts, u, hlog⟩ := List.eq_nil_or_concat (logOf f.commits) |>.resolve_left
    (List.ne_nil_of_mem ht)
  have htxs := h.txs
  rw [List.concat_eq_append] at hlog
  rw [hlog] at ht htxs ⊢
  rw [List.getLast?_concat, Option.elim_some]
  rw [List.map_append, List.pairwise_append] at htxs
  rcases List.mem_append.mp ht with hmem | hmem
  · exact (htxs.2.2 _ (List.mem_map_of_mem hmem) _ List.mem_cons_self).le
  · rw [List.mem_singleton.mp hmem]

/-- A high-water is 0, or a transaction's that changed something. -/
theorem highWaterOf_cases (cs : List Commit) :
    (highWaterOf cs = 0 ∧ ∀ c ∈ cs, c.Quiet) ∨
      ∃ t ∈ logOf cs, t.changes = true ∧ highWaterOf cs = t.id := by
  unfold highWaterOf
  cases hlast : ((logOf cs).filter Tx.changes).getLast? with
  | none =>
      refine .inl ⟨rfl, fun c hc t ht => ?_⟩
      have hnil := List.getLast?_eq_none_iff.mp hlast
      by_contra hchanges
      have hmem : t ∈ (logOf cs).filter Tx.changes :=
        List.mem_filter.mpr ⟨List.mem_flatMap.mpr ⟨c, hc, ht⟩, by simpa using hchanges⟩
      rw [hnil] at hmem
      cases hmem
  | some t =>
      have hmem := List.mem_filter.mp (List.mem_of_getLast? hlast)
      exact .inr ⟨t, hmem.1, hmem.2, rfl⟩

/-- Where the high-water has not moved, the commits since changed nothing. -/
theorem quiet_of_highWaterOf {a b : List Commit}
    (htxs : ((logOf (a ++ b)).map Tx.id).Pairwise (· < ·))
    (hpos : ∀ t ∈ logOf (a ++ b), 0 < t.id)
    (h : highWaterOf (a ++ b) = highWaterOf a) : ∀ c ∈ b, c.Quiet := by
  have hsplit : highWaterOf (a ++ b) =
      (((logOf b).filter Tx.changes).getLast?.or
        ((logOf a).filter Tx.changes).getLast?).elim 0 Tx.id := by
    unfold highWaterOf
    rw [logOf_append, List.filter_append, List.getLast?_append]
  rcases highWaterOf_cases b with ⟨_, hquiet⟩ | ⟨t, ht, hchanges, hwater⟩
  · exact hquiet
  · exfalso
    -- The newest change of `b` is the file's, and above all of `a`.
    have hlast : highWaterOf (a ++ b) = t.id := by
      rw [hsplit, ← hwater]
      unfold highWaterOf
      cases hbs : ((logOf b).filter Tx.changes).getLast? with
      | none =>
          have hmem : t ∈ (logOf b).filter Tx.changes := List.mem_filter.mpr ⟨ht, hchanges⟩
          rw [List.getLast?_eq_none_iff.mp hbs] at hmem
          cases hmem
      | some u => rfl
    have hmem : t ∈ logOf (a ++ b) := by
      rw [logOf_append]
      exact List.mem_append_right _ ht
    rcases highWaterOf_cases a with ⟨hzero, _⟩ | ⟨u, hu, _, hu'⟩
    · have := hpos t hmem
      omega
    · rw [logOf_append, List.map_append, List.pairwise_append] at htxs
      have hlt := htxs.2.2 _ (List.mem_map_of_mem hu) _ (List.mem_map_of_mem ht)
      omega

/-! ## One commit -/

theorem map_id_written (h : Handle) (changes : List Bool) :
    (written h changes).map Tx.id = List.range' (h.lastTx + 1) changes.length := by
  unfold written
  rw [List.map_map]
  change (changes.zipIdx (h.lastTx + 1)).map Prod.snd = _
  exact List.zipIdx_map_snd _ _

theorem newest_append (f : File) (c : Commit) (next : Nat) :
    File.newest ⟨f.commits ++ [c], next⟩ = c.txs.getLast?.elim f.newest Tx.id := by
  unfold File.newest
  rw [logOf_append, List.getLast?_append]
  have hone : logOf [c] = c.txs := by simp [logOf]
  rw [hone]
  cases c.txs.getLast? <;> rfl

/-- A commit of a fresh handle numbers its transactions next. -/
theorem newest_commit {f : File} {h : Handle} (hfresh : h.lastTx = f.newest) (i : Nat)
    (k : SaveKind) (changes : List Bool) (entities : Nat) :
    (f.commit i h k changes entities).newest = h.lastTx + changes.length := by
  unfold File.commit
  rw [newest_append]
  have hids := map_id_written h changes
  have hlast : (written h changes).getLast?.map Tx.id =
      (List.range' (h.lastTx + 1) changes.length).getLast? := by
    rw [← hids, List.getLast?_map]
  change (written h changes).getLast?.elim f.newest Tx.id = _
  cases hw : (written h changes).getLast? with
  | none =>
      have hnil := List.getLast?_eq_none_iff.mp hw
      rw [hnil] at hids
      have hlen := congrArg List.length hids
      rw [List.length_range'] at hlen
      change f.newest = _
      rw [← hlen, hfresh]
      rfl
  | some t =>
      rw [hw, Option.map_some, List.getLast?_range'] at hlast
      by_cases hzero : changes.length = 0
      · rw [if_pos hzero] at hlast
        cases hlast
      · rw [if_neg hzero, Option.some.injEq] at hlast
        change t.id = _
        omega

theorem File.Sound.commit {f : File} (hf : f.Sound) {h : Handle} (hfresh : h.lastTx = f.newest)
    (hnext : h.nextEntity = f.nextEntity) (i : Nat) (k : SaveKind) (changes : List Bool)
    (entities : Nat) : (f.commit i h k changes entities).Sound := by
  have hlog : logOf (f.commit i h k changes entities).commits =
      logOf f.commits ++ written h changes := by
    change logOf (f.commits ++ [commitOf i h k changes entities]) = _
    rw [logOf_append]
    simp [logOf, commitOf]
  have hents : (f.commit i h k changes entities).commits.flatMap Commit.entities =
      f.commits.flatMap Commit.entities ++ List.range' h.nextEntity entities := by
    change (f.commits ++ [commitOf i h k changes entities]).flatMap Commit.entities = _
    rw [List.flatMap_append]
    simp [commitOf]
  have hids : ∀ t ∈ written h changes, f.newest < t.id := by
    intro t ht
    have hmem := List.mem_map_of_mem (f := Tx.id) ht
    rw [map_id_written, List.mem_range'_1] at hmem
    omega
  constructor
  · rw [hlog, List.map_append, List.pairwise_append]
    refine ⟨hf.txs, ?_, ?_⟩
    · rw [map_id_written]
      exact List.pairwise_lt_range'
    · intro a ha b hb
      obtain ⟨t, ht, rfl⟩ := List.mem_map.mp ha
      obtain ⟨u, hu, rfl⟩ := List.mem_map.mp hb
      exact (le_newest hf ht).trans_lt (hids u hu)
  · intro t ht
    rw [hlog, List.mem_append] at ht
    rcases ht with ht | ht
    · exact hf.positive t ht
    · exact (Nat.zero_le _).trans_lt (hids t ht)
  · rw [hents, List.pairwise_append]
    refine ⟨hf.entities, List.pairwise_lt_range', ?_⟩
    intro a ha b hb
    rw [List.mem_range'_1] at hb
    have hlt := hf.below a ha
    omega
  · intro e he
    rw [hents, List.mem_append] at he
    change e < h.nextEntity + entities
    rcases he with he | he
    · have hlt := hf.below e he
      omega
    · rw [List.mem_range'_1] at he
      omega

/-! ## What a handle holds -/

/-- The commits from one on, up to another, changed nothing of the model. -/
def ModelKept (commits : List Commit) (n m : Nat) : Prop :=
  ∀ j d, n ≤ j → j < m → commits[j]? = some d → d.Quiet ∨ d.kind = .policies

/-- What was last loaded or saved stands in the file's history. -/
structure Held (commits : List Commit) (b : Base) : Prop where
  seen : b.seen ≤ commits.length
  tx : b.tx = highWaterOf (commits.take b.seen)
  read : b.read ≤ b.seen
  kept : ModelKept commits b.read b.seen

theorem Held.append {cs : List Commit} {b : Base} (h : Held cs b) (ds : List Commit) :
    Held (cs ++ ds) b := by
  have hseen := h.seen
  refine ⟨?_, ?_, h.read, ?_⟩
  · rw [List.length_append]
    omega
  · rw [List.take_append_of_le_length hseen]
    exact h.tx
  · intro j d hj hjm hd
    rw [List.getElem?_append_left (by omega)] at hd
    exact h.kept j d hj hjm hd

/-- A load's base. -/
theorem held_now (cs : List Commit) : Held cs ⟨highWaterOf cs, cs.length, cs.length⟩ := by
  refine ⟨le_refl _, ?_, le_refl _, ?_⟩
  · rw [List.take_length]
  · intro j d hj hjm
    exact absurd hjm (not_lt.mpr hj)

/-- Where the high-water is what a handle holds, the commits since changed
nothing. -/
theorem Held.quiet {f : File} (hf : f.Sound) {b : Base} (h : Held f.commits b)
    (hwater : f.highWater = b.tx) {j : Nat} {d : Commit} (hj : b.seen ≤ j)
    (hd : f.commits[j]? = some d) : d.Quiet := by
  have hsplit := List.take_append_drop b.seen f.commits
  have hmem : d ∈ f.commits.drop b.seen := by
    rw [List.mem_iff_getElem?]
    refine ⟨j - b.seen, ?_⟩
    rw [List.getElem?_drop, ← hd]
    congr 1
    omega
  refine quiet_of_highWaterOf (a := f.commits.take b.seen) ?_ ?_ ?_ d hmem
  · rw [hsplit]
    exact hf.txs
  · rw [hsplit]
    exact hf.positive
  · rw [hsplit, ← h.tx, ← hwater]
    rfl

/-! ## The invariant -/

/-- What no interleaving may break: transactions and entities are numbered
apart, a commit of a handle that has loaded follows none that changed anything
since, and a model is saved on all that was saved of it before. -/
structure Safe (commits : List Commit) : Prop where
  txs : ((logOf commits).map Tx.id).Nodup
  entities : (commits.flatMap Commit.entities).Nodup
  quiet : ∀ i (c : Commit) b, commits[i]? = some c → c.base = some b →
    ∀ j (d : Commit), b.seen ≤ j → j < i → commits[j]? = some d → d.Quiet
  kept : ∀ i (c : Commit) b, commits[i]? = some c → c.base = some b → c.kind = .model →
    ModelKept commits b.read i

/-- How a handle stands to the file: its counters are the file's or behind them,
and the lock's holder is fresh, on what it last loaded or saved. -/
structure Standing (f : File) (lock : Option Nat) (i : Nat) (h : Handle) : Prop where
  behind : h.lastTx ≤ f.newest
  counters : h.lastTx = f.newest → h.nextEntity = f.nextEntity
  loaded : ∀ b, h.loadedTx = some b → Held f.commits b
  loading : ∀ b, h.phase = .loading b → Held f.commits b
  writing : ∀ k, h.phase = .writing k → lock = some i ∧ h.lastTx = f.newest ∧
    ∀ b, h.loadedTx = some b → f.highWater = b.tx

structure Inv (s : State) : Prop where
  sound : s.file.Sound
  safe : Safe s.file.commits
  held : ∀ b ∈ s.bases, Held s.file.commits b
  standing : ∀ i, Standing s.file s.lock i (s.handles i)

/-- A save that takes the write lock and is not refused is still fresh, and one
of policies follows what its handle last loaded or saved. -/
def Timely (s : State) (i : Nat) : Prop :=
  ∀ k, (s.handles i).phase = .fresh k → conflicts s.file (s.handles i) k = false →
    (s.handles i).lastTx = s.file.newest ∧
      (k = .policies → ∀ b, (s.handles i).loadedTx = some b → s.file.highWater = b.tx)

/-! ## One step -/

/-- A step that moves one handle on, where the lock is another's or nobody's. -/
theorem Inv.moved {s s' : State} (hs : Inv s) {i : Nat} {h : Handle} (hfile : s'.file = s.file)
    (hhandles : s'.handles = Function.update s.handles i h)
    (hbases : ∀ b ∈ s'.bases, Held s.file.commits b)
    (hstanding : Standing s.file s'.lock i h)
    (hlock : ∀ j, j ≠ i → s.lock = some j → s'.lock = some j) : Inv s' := by
  refine ⟨hfile ▸ hs.sound, hfile ▸ hs.safe, hfile ▸ hbases, fun j => ?_⟩
  rw [hfile, hhandles]
  by_cases hj : j = i
  · rw [hj, Function.update_self]
    exact hstanding
  · rw [Function.update_of_ne hj]
    have hold := hs.standing j
    refine ⟨hold.behind, hold.counters, hold.loaded, hold.loading, fun k hk => ?_⟩
    obtain ⟨hmine, hfresh⟩ := hold.writing k hk
    exact ⟨hlock j hj hmine, hfresh⟩

/-- A handle not writing stands as it did where only its phase ended. -/
theorem Standing.idle {f : File} {lock : Option Nat} {i : Nat} {h : Handle}
    (hs : Standing f lock i h) (lock' : Option Nat) :
    Standing f lock' i { h with phase := .idle } :=
  ⟨hs.behind, hs.counters, hs.loaded, fun b hb => (by cases hb), fun k hk => (by cases hk)⟩

theorem standing_openStore (f : File) (lock : Option Nat) (i : Nat) :
    Standing f lock i (openStore f) :=
  ⟨le_refl _, fun _ => rfl, fun b hb => (by cases hb), fun b hb => (by cases hb),
    fun k hk => (by cases hk)⟩

theorem Standing.freshForWrite {f : File} {lock : Option Nat} {i : Nat} {h : Handle}
    (hs : Standing f lock i h) (k : SaveKind) :
    Standing f lock i { freshForWrite f h with phase := .fresh k } := by
  unfold StorageMentat.freshForWrite
  by_cases hne : f.newest ≠ h.lastTx
  · rw [if_pos hne]
    exact ⟨le_refl _, fun _ => rfl, hs.loaded, fun b hb => (by cases hb), fun k hk => (by cases hk)⟩
  · rw [if_neg hne]
    exact ⟨hs.behind, hs.counters, hs.loaded, fun b hb => (by cases hb), fun k hk => (by cases hk)⟩

/-- A save not refused is on what was last loaded or saved. -/
theorem highWater_of_not_conflicts {f : File} {h : Handle} {b : Base}
    (hb : h.loadedTx = some b) (h : conflicts f h .model = false) : f.highWater = b.tx := by
  unfold conflicts at h
  rw [hb] at h
  simpa using h

/-! ## A commit -/

section Committing

variable {f : File} {i : Nat} {h : Handle} {k : SaveKind} {changes : List Bool} {entities : Nat}

/-- A commit of the lock's holder breaks nothing. -/
theorem Safe.commit (hf : f.Sound) (hsafe : Safe f.commits)
    (hs : Standing f (some i) i h) (hk : h.phase = .writing k) :
    Safe (f.commit i h k changes entities).commits := by
  obtain ⟨_, hfresh, hwater⟩ := hs.writing k hk
  have hsound := hf.commit hfresh (hs.counters hfresh) i k changes entities
  have hlast : ∀ n (c : Commit), (f.commit i h k changes entities).commits[n]? = some c →
      f.commits[n]? = some c ∨ n = f.commits.length ∧ c = commitOf i h k changes entities := by
    intro n c hc
    change (f.commits ++ [commitOf i h k changes entities])[n]? = some c at hc
    by_cases hn : n < f.commits.length
    · rw [List.getElem?_append_left hn] at hc
      exact .inl hc
    · rw [List.getElem?_append_right (by omega), List.getElem?_singleton] at hc
      by_cases heq : n - f.commits.length = 0
      · rw [if_pos heq, Option.some.injEq] at hc
        exact .inr ⟨by omega, hc.symm⟩
      · rw [if_neg heq] at hc
        cases hc
  have hlt : ∀ {n : Nat} {c : Commit}, f.commits[n]? = some c → n < f.commits.length :=
    fun hc => (List.getElem?_eq_some_iff.mp hc).1
  refine ⟨hsound.txs.nodup, hsound.entities.nodup, ?_, ?_⟩
  · intro n c b hc hb j d hj hjn hd
    rcases hlast j d hd with hdold | ⟨hjlast, _⟩
    · rcases hlast n c hc with hcold | ⟨_, rfl⟩
      · exact hsafe.quiet n c b hcold hb j d hj hjn hdold
      · exact (hs.loaded b hb).quiet hf (hwater b hb) hj hdold
    · rcases hlast n c hc with hcold | ⟨hnlast, _⟩
      · have hn := hlt hcold
        omega
      · omega
  · intro n c b hc hb hmodel j d hj hjn hd
    rcases hlast j d hd with hdold | ⟨hjlast, _⟩
    · rcases hlast n c hc with hcold | ⟨_, rfl⟩
      · exact hsafe.kept n c b hcold hb hmodel j d hj hjn hdold
      · by_cases hseen : j < b.seen
        · exact (hs.loaded b hb).kept j d hj hseen hdold
        · exact .inl ((hs.loaded b hb).quiet hf (hwater b hb) (by omega) hdold)
    · rcases hlast n c hc with hcold | ⟨hnlast, _⟩
      · have hn := hlt hcold
        omega
      · omega

/-- What the handle then holds. -/
theorem held_committed (hf : f.Sound) (hs : Standing f (some i) i h) (hk : h.phase = .writing k)
    {b : Base} (hb : (committed f i h k changes entities).loadedTx = some b) :
    Held (f.commit i h k changes entities).commits b := by
  obtain ⟨_, _, hwater⟩ := hs.writing k hk
  cases k with
  | model =>
      cases hb
      exact held_now _
  | policies =>
      obtain ⟨b0, hb0, rfl⟩ := Option.map_eq_some_iff.mp hb
      have hheld := hs.loaded b0 hb0
      have hlen : (f.commit i h .policies changes entities).commits.length =
          f.commits.length + 1 := List.length_append
      refine ⟨le_refl _, (held_now _).tx, ?_, ?_⟩
      · change b0.read ≤ (f.commit i h .policies changes entities).commits.length
        have hread := hheld.read
        have hseen := hheld.seen
        omega
      · intro j d hj hjn hd
        change j < (f.commit i h .policies changes entities).commits.length at hjn
        change (f.commits ++ [commitOf i h .policies changes entities])[j]? = some d at hd
        by_cases hlast : j < f.commits.length
        · rw [List.getElem?_append_left hlast] at hd
          by_cases hseen : j < b0.seen
          · exact hheld.kept j d hj hseen hd
          · exact .inl (hheld.quiet hf (hwater b0 hb0) (by omega) hd)
        · have hjlast : j = f.commits.length := by omega
          rw [hjlast, List.getElem?_concat_length, Option.some.injEq] at hd
          exact .inr (hd ▸ rfl)

/-- How the others then stand. -/
theorem Standing.commit {j : Nat} {h' : Handle} (hs : Standing f (some i) i h)
    (hk : h.phase = .writing k) (hnew : entities = 0 ∨ true ∈ changes) (hj : j ≠ i)
    (hother : Standing f (some i) j h') :
    Standing (f.commit i h k changes entities) none j h' := by
  obtain ⟨_, hfresh, _⟩ := hs.writing k hk
  have hnewest := newest_commit hfresh i k changes entities
  have hbehind := hother.behind
  refine ⟨by omega, ?_, fun b hb => (hother.loaded b hb).append _,
    fun b hb => (hother.loading b hb).append _, ?_⟩
  · intro heq
    have hlen : changes.length = 0 := by omega
    have hentities : entities = 0 := by
      rcases hnew with hzero | hmem
      · exact hzero
      · rw [List.length_eq_zero_iff.mp hlen] at hmem
        cases hmem
    change h'.nextEntity = h.nextEntity + entities
    rw [hother.counters (by omega), hs.counters hfresh, hentities]
    rfl
  · intro k' hk'
    obtain ⟨hlock, _⟩ := hother.writing k' hk'
    exact absurd (Option.some.inj hlock).symm hj

/-- How the handle itself then stands. -/
theorem standing_committed (hf : f.Sound) (hs : Standing f (some i) i h)
    (hk : h.phase = .writing k) :
    Standing (f.commit i h k changes entities) none i (committed f i h k changes entities) := by
  obtain ⟨_, hfresh, _⟩ := hs.writing k hk
  have hnewest := newest_commit hfresh i k changes entities
  refine ⟨hnewest.ge, fun _ => rfl, fun b hb => held_committed hf hs hk hb,
    fun b hb => (by cases hb), fun k' hk' => (by cases hk')⟩

end Committing

/-! ## Runs -/

/-- A timely step breaks nothing. -/
theorem Inv.step {s s' : State} (hs : Inv s) {i : Nat} {op : Op}
    (htimely : op = .beginTransaction → Timely s i) (h : s.step i op = some s') : Inv s' := by
  have hi := hs.standing i
  unfold State.step at h
  cases hphase : (s.handles i).phase with
  | idle =>
      cases op with
      | openStore =>
          simp only [hphase, Option.some.injEq] at h
          subst h
          exact hs.moved rfl rfl hs.held (standing_openStore _ _ _) fun _ _ hl => hl
      | beginLoad =>
          simp only [hphase, Option.some.injEq] at h
          subst h
          refine hs.moved rfl rfl hs.held ⟨hi.behind, hi.counters, hi.loaded, ?_, ?_⟩
            fun _ _ hl => hl
          · intro b hb
            cases hb
            exact held_now _
          · intro k hk
            cases hk
      | setLoadedTx b =>
          simp only [hphase] at h
          split at h
          · rename_i hmem
            cases h
            exact hs.moved rfl rfl hs.held ⟨hi.behind, hi.counters,
              fun x hx => hs.held x (hmem x hx), fun x hx => (by cases hx),
              fun k hk => (by cases hk)⟩ fun _ _ hl => hl
          · cases h
      | freshForWrite k =>
          simp only [hphase, Option.some.injEq] at h
          subst h
          exact hs.moved rfl rfl hs.held (hi.freshForWrite k) fun _ _ hl => hl
      | endLoad => simp [hphase] at h
      | failLoad => simp [hphase] at h
      | beginTransaction => simp [hphase] at h
      | rollback => simp [hphase] at h
      | commit changes entities => simp [hphase] at h
  | loading b =>
      cases op with
      | endLoad =>
          simp only [hphase, Option.some.injEq] at h
          subst h
          refine hs.moved rfl rfl ?_ ⟨hi.behind, hi.counters, ?_, fun x hx => (by cases hx),
            fun k hk => (by cases hk)⟩ fun _ _ hl => hl
          · intro x hx
            rcases List.mem_cons.mp hx with rfl | hx
            · exact hi.loading _ hphase
            · exact hs.held x hx
          · intro x hx
            cases hx
            exact hi.loading _ hphase
      | failLoad =>
          simp only [hphase, Option.some.injEq] at h
          subst h
          exact hs.moved rfl rfl hs.held (hi.idle _) fun _ _ hl => hl
      | openStore => simp [hphase] at h
      | beginLoad => simp [hphase] at h
      | setLoadedTx b => simp [hphase] at h
      | freshForWrite k => simp [hphase] at h
      | beginTransaction => simp [hphase] at h
      | rollback => simp [hphase] at h
      | commit changes entities => simp [hphase] at h
  | fresh k =>
      cases op with
      | beginTransaction =>
          simp only [hphase] at h
          split at h
          · cases h
          · rename_i hfree
            split at h
            · cases h
              exact hs.moved rfl rfl hs.held (hi.idle _) fun _ _ hl => hl
            · rename_i hok
              cases h
              have hok : conflicts s.file (s.handles i) k = false := by simpa using hok
              obtain ⟨hfresh, hpolicies⟩ := htimely rfl k hphase hok
              refine hs.moved rfl rfl hs.held ⟨hi.behind, hi.counters, hi.loaded,
                fun b hb => (by cases hb), ?_⟩ fun j _ hl => ?_
              · intro k' hk'
                cases hk'
                refine ⟨rfl, hfresh, fun b hb => ?_⟩
                cases k with
                | model => exact highWater_of_not_conflicts hb hok
                | policies => exact hpolicies rfl b hb
              · rw [hl] at hfree
                exact absurd (Option.some_ne_none j) hfree
      | openStore => simp [hphase] at h
      | beginLoad => simp [hphase] at h
      | endLoad => simp [hphase] at h
      | failLoad => simp [hphase] at h
      | setLoadedTx b => simp [hphase] at h
      | freshForWrite k' => simp [hphase] at h
      | rollback => simp [hphase] at h
      | commit changes entities => simp [hphase] at h
  | writing k =>
      obtain ⟨hlock, _, _⟩ := hi.writing k hphase
      cases op with
      | rollback =>
          simp only [hphase, Option.some.injEq] at h
          subst h
          refine hs.moved rfl rfl hs.held (hi.idle _) fun j hj hl => ?_
          rw [hlock] at hl
          exact absurd (Option.some.inj hl).symm hj
      | commit changes entities =>
          simp only [hphase] at h
          split at h
          · cases h
          · rename_i hnew
            cases h
            have hnew' : entities = 0 ∨ true ∈ changes := by
              by_contra hnot
              rw [not_or] at hnot
              exact hnew hnot
            rw [hlock] at hi
            refine ⟨hs.sound.commit (hi.writing k hphase).2.1 (hi.counters
              (hi.writing k hphase).2.1) i k changes entities, hs.safe.commit hs.sound hi hphase,
              ?_, ?_⟩
            · intro b hb
              rcases List.mem_append.mp hb with hb | hb
              · exact held_committed hs.sound hi hphase (Option.mem_toList.mp hb)
              · exact (hs.held b hb).append _
            · intro j
              change Standing _ none j (Function.update s.handles i _ j)
              by_cases hj : j = i
              · rw [hj, Function.update_self]
                exact standing_committed hs.sound hi hphase
              · rw [Function.update_of_ne hj]
                have hother := hs.standing j
                rw [hlock] at hother
                exact hi.commit hphase hnew' hj hother
      | openStore => simp [hphase] at h
      | beginLoad => simp [hphase] at h
      | endLoad => simp [hphase] at h
      | failLoad => simp [hphase] at h
      | setLoadedTx b => simp [hphase] at h
      | freshForWrite k' => simp [hphase] at h
      | beginTransaction => simp [hphase] at h

/-- Handles opened on a file. -/
def State.start (f : File) : State := ⟨f, fun _ => openStore f, none, []⟩

/-- A file before any handle of the run: its transactions and entities are
numbered in order, and its commits are of handles that had loaded nothing. -/
structure File.Fresh (f : File) : Prop extends f.Sound where
  unloaded : ∀ c ∈ f.commits, c.base = none

theorem inv_start {f : File} (hf : f.Fresh) : Inv (.start f) := by
  refine ⟨hf.toSound, ⟨hf.txs.nodup, hf.entities.nodup, ?_, ?_⟩, fun b hb => (by cases hb),
    fun i => standing_openStore f none i⟩
  · intro i c b hc hb
    rw [hf.unloaded c (List.mem_of_getElem? hc)] at hb
    cases hb
  · intro i c b hc hb
    rw [hf.unloaded c (List.mem_of_getElem? hc)] at hb
    cases hb

/-- The states that timely steps reach. -/
inductive Reached (f : File) : State → Prop
  | start : Reached f (.start f)
  | step {s s' : State} {i : Nat} {op : Op} (hs : Reached f s)
      (htimely : op = .beginTransaction → Timely s i) (h : s.step i op = some s') : Reached f s'

theorem Reached.inv {f : File} (hf : f.Fresh) {s : State} (h : Reached f s) : Inv s := by
  induction h with
  | start => exact inv_start hf
  | step _ htimely h ih => exact ih.step htimely h

/-- No update is lost where every save is timely: transactions and entities are
numbered apart, each commit of a handle that has loaded follows nothing changed
since, and a save that would not is refused and writes nothing. -/
theorem no_update_lost {f : File} (hf : f.Fresh) {s : State} (h : Reached f s) :
    Safe s.file.commits ∧
      ∀ i b, (s.handles i).phase = .fresh .model → (s.handles i).loadedTx = some b →
        (∃ j d, b.seen ≤ j ∧ s.file.commits[j]? = some d ∧ ¬d.Quiet) →
        conflicts s.file (s.handles i) .model = true ∧
          ∀ s', s.step i .beginTransaction = some s' →
            s'.file = s.file ∧ (s'.handles i).phase = .idle := by
  have hs := h.inv hf
  refine ⟨hs.safe, fun i b hphase hb hmoved => ?_⟩
  have hconflicts : conflicts s.file (s.handles i) .model = true := by
    by_contra hok
    rw [Bool.not_eq_true] at hok
    obtain ⟨j, d, hj, hd, hchanged⟩ := hmoved
    have hwater := highWater_of_not_conflicts hb hok
    exact hchanged (((hs.standing i).loaded b hb).quiet hs.sound hwater hj hd)
  refine ⟨hconflicts, fun s' hstep => ?_⟩
  unfold State.step at hstep
  simp only [hphase, hconflicts, if_true] at hstep
  split at hstep
  · cases hstep
  · cases hstep
    refine ⟨rfl, ?_⟩
    change (Function.update s.handles i _ i).phase = .idle
    rw [Function.update_self]

/-! ## Two handles -/

/-- A file of one commit, which made the schema. -/
def schemaFile : File := ⟨[⟨[⟨1, true⟩], [1, 2], .model, 0, none⟩], 3⟩

theorem fresh_schemaFile : schemaFile.Fresh :=
  ⟨⟨by decide, by decide, by decide, by decide⟩, by decide⟩

/-- One handle loads and saves. -/
theorem no_update_lost_once :
    ∃ s, (State.start schemaFile).run [(1, .beginLoad), (1, .endLoad), (1, .freshForWrite .model),
        (1, .beginTransaction), (1, .commit [true] 1)] = some s ∧
      (s.file.commits.map Commit.entities) = [[1, 2], [3]] ∧ Safe s.file.commits := by
  have hloaded : Reached schemaFile _ :=
    .step (.step .start (fun h => by cases h)
      (rfl : (State.start schemaFile).step 1 .beginLoad = some _)) (fun h => by cases h)
      (rfl : State.step _ 1 .endLoad = some _)
  have hfresh : Reached schemaFile _ := .step hloaded (fun h => by cases h)
    (rfl : State.step _ 1 (.freshForWrite .model) = some _)
  have hbegun : Reached schemaFile _ := .step hfresh (by
      intro _ k hk _
      cases hk
      exact ⟨rfl, fun hpolicies => by cases hpolicies⟩)
    (rfl : State.step _ 1 .beginTransaction = some _)
  have hsaved : Reached schemaFile _ := .step hbegun (fun h => by cases h)
    (rfl : State.step _ 1 (.commit [true] 1) = some _)
  exact ⟨_, rfl, by decide, (no_update_lost fresh_schemaFile hsaved).1⟩

/-- A handle that has loaded nothing finds itself fresh, and another saves
before it takes the write lock. -/
def overtaken : List (Nat × Op) :=
  [(1, .freshForWrite .model), (2, .freshForWrite .model), (2, .beginTransaction),
    (2, .commit [true] 1), (1, .beginTransaction), (1, .commit [true] 1)]

/-- A handle loads, another saves the model, and the first saves policies and
then the model it had loaded. -/
def overwritten : List (Nat × Op) :=
  [(1, .beginLoad), (1, .endLoad), (2, .beginLoad), (2, .endLoad), (2, .freshForWrite .model),
    (2, .beginTransaction), (2, .commit [true] 1), (1, .freshForWrite .policies),
    (1, .beginTransaction), (1, .commit [true] 0), (1, .freshForWrite .model),
    (1, .beginTransaction), (1, .commit [true] 1)]

/-- Of two handles one takes the other's transaction and entity ids, and of two
others one saves its model over the other's. -/
theorem updates_lost :
    (∃ s, (State.start schemaFile).run overtaken = some s ∧
      (logOf s.file.commits).map Tx.id = [1, 2, 2] ∧
      s.file.commits.map Commit.entities = [[1, 2], [3], [3]]) ∧
      ∃ s, (State.start schemaFile).run overwritten = some s ∧
        s.file.commits.map (fun c => (c.handle, c.kind, c.base)) =
          [(0, .model, none), (2, .model, some ⟨1, 1, 1⟩), (1, .policies, some ⟨1, 1, 1⟩),
            (1, .model, some ⟨3, 3, 1⟩)] ∧
        ¬Safe s.file.commits := by
  refine ⟨⟨_, rfl, by decide, by decide⟩, _, rfl, by decide, fun hsafe => ?_⟩
  have hquiet := hsafe.quiet 2 _ _ rfl rfl 1 _ (by decide) (by decide) rfl ⟨2, true⟩ (by decide)
  cases hquiet

end Improv.StorageMentat
