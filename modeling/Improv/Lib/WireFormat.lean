import Mathlib.Data.List.Induction
import Mathlib.Data.String.Basic
import Mathlib.Tactic.Common
import Improv.Lib.ExceptLemmas
/-!
# Wire formats

A reader consumes the front of a byte string.  It is exact for a relation
between values and encodings when it reads every encoding, whatever follows it,
and reads nothing else.  Exact readers compose, and the encodings they read are
prefix free.
-/

namespace Improv.Lib.WireFormat

/-- A cursor over the bytes not read yet. -/
abbrev Reader (ε : Type) := StateT (List UInt8) (Except ε)

variable {ε α β : Type}

/-! ## Exact readers -/

/-- The encodings of a value, as a relation: a format may leave the sender a
choice that the reader forgets. -/
abbrev Format (α : Type) := α → List UInt8 → Prop

structure Accepts (r : Reader ε α) (E : Format α) : Prop where
  complete : ∀ {a bs}, E a bs → ∀ rest, r.run (bs ++ rest) = .ok (a, rest)
  sound : ∀ {bs a rest}, r.run bs = .ok (a, rest) → ∃ enc, E a enc ∧ bs = enc ++ rest

/-- First an encoding of some value, then one that depends on it. -/
def Format.bind (E : Format α) (F : α → Format β) : Format β :=
  fun b bs => ∃ a enc enc', E a enc ∧ F a b enc' ∧ bs = enc ++ enc'

theorem Accepts.congr {r : Reader ε α} {E E' : Format α} (h : Accepts r E)
    (hE : ∀ a bs, E a bs ↔ E' a bs) : Accepts r E' := by
  constructor
  · intro a bs henc
    exact h.complete ((hE a bs).mpr henc)
  · intro bs a rest hrun
    have ⟨enc, henc, hbs⟩ := h.sound hrun
    exact ⟨enc, (hE a enc).mp henc, hbs⟩

theorem Accepts.pure (a : α) : Accepts (pure a : Reader ε α) fun b bs => b = a ∧ bs = [] := by
  constructor
  · intro b bs h rest
    rw [h.1, h.2]
    rfl
  · intro bs b rest h
    have hpair := Prod.mk.inj (Except.ok.inj h)
    exact ⟨[], ⟨hpair.1.symm, rfl⟩, hpair.2⟩

theorem Accepts.throw (e : ε) : Accepts (throw e : Reader ε α) fun _ _ => False := by
  constructor
  · intro a bs h
    exact h.elim
  · intro bs a rest h
    cases h

theorem Accepts.bind {r : Reader ε α} {f : α → Reader ε β} {E : Format α} {F : α → Format β}
    (hr : Accepts r E) (hf : ∀ a, Accepts (f a) (F a)) : Accepts (r >>= f) (E.bind F) := by
  constructor
  · intro b bs h rest
    obtain ⟨a, enc, enc', ha, hb, rfl⟩ := h
    rw [StateT.run_bind, List.append_assoc, hr.complete ha]
    exact (hf a).complete hb rest
  · intro bs b rest h
    rw [StateT.run_bind, bind_eq_ok_iff] at h
    obtain ⟨⟨a, mid⟩, ha, hb⟩ := h
    obtain ⟨enc, henc, rfl⟩ := hr.sound ha
    obtain ⟨enc', henc', rfl⟩ := (hf a).sound hb
    exact ⟨enc ++ enc', ⟨a, enc, enc', henc, henc', rfl⟩, (List.append_assoc ..).symm⟩

theorem Accepts.map {r : Reader ε α} {E : Format α} (hr : Accepts r E) (f : α → β) :
    Accepts (f <$> r) fun b bs => ∃ a, E a bs ∧ b = f a := by
  have h := hr.bind fun a => Accepts.pure (ε := ε) (f a)
  rw [bind_pure_comp] at h
  refine h.congr fun b bs => ?_
  constructor
  · intro ⟨a, enc, enc', ha, ⟨hb, hnil⟩, hbs⟩
    rw [hnil, List.append_nil] at hbs
    exact ⟨a, hbs ▸ ha, hb⟩
  · intro ⟨a, ha, hb⟩
    exact ⟨a, bs, [], ha, ⟨hb, rfl⟩, (List.append_nil bs).symm⟩

theorem Accepts.ite {p : Prop} [Decidable p] {r s : Reader ε α} {E F : Format α}
    (hr : Accepts r E) (hs : Accepts s F) :
    Accepts (if p then r else s) fun a bs => if p then E a bs else F a bs := by
  by_cases hp : p
  · simpa only [hp, if_true] using hr
  · simpa only [hp, if_false] using hs

/-! ## Repetition -/

/-- The same reader a number of times. -/
def times (r : Reader ε α) : Nat → Reader ε (List α)
  | 0 => pure []
  | n + 1 => do
      let a ← r
      let as ← times r n
      return a :: as

/-- One encoding after the other. -/
def Format.list (E : Format α) : Format (List α)
  | [], bs => bs = []
  | a :: as, bs => ∃ enc enc', E a enc ∧ Format.list E as enc' ∧ bs = enc ++ enc'

theorem Accepts.times {r : Reader ε α} {E : Format α} (hr : Accepts r E) (n : Nat) :
    Accepts (times r n) fun as bs => as.length = n ∧ E.list as bs := by
  induction n with
  | zero =>
      refine (Accepts.pure []).congr fun as bs => ?_
      constructor
      · intro ⟨has, hbs⟩
        rw [has]
        exact ⟨rfl, hbs⟩
      · intro ⟨hlen, hbs⟩
        rw [List.length_eq_zero_iff] at hlen
        rw [hlen] at hbs
        exact ⟨hlen, hbs⟩
  | succ n ih =>
      refine (hr.bind fun a => ih.bind fun as => Accepts.pure (a :: as)).congr fun as bs => ?_
      constructor
      · rintro ⟨a, enc, enc', ha, ⟨as', enc₁, enc₂, ⟨hlen, has⟩, ⟨rfl, rfl⟩, rfl⟩, rfl⟩
        rw [List.append_nil]
        exact ⟨congrArg (· + 1) hlen, enc, enc₁, ha, has, rfl⟩
      · intro ⟨hlen, hlist⟩
        cases as with
        | nil => cases hlen
        | cons a as =>
            obtain ⟨enc, enc', ha, has, rfl⟩ := hlist
            have hn : as.length = n := Nat.succ.inj hlen
            exact ⟨a, enc, enc', ha,
              ⟨as, enc', [], ⟨hn, has⟩, ⟨rfl, rfl⟩, (List.append_nil _).symm⟩, rfl⟩

/-- A list whose elements have one encoding each is sent as these in a row. -/
theorem Format.list_map {γ : Type} (f : γ → α) (g : γ → List UInt8) (P : γ → Prop)
    (as : List α) (bs : List UInt8) :
    Format.list (fun a enc => ∃ c, P c ∧ f c = a ∧ enc = g c) as bs ↔
      ∃ cs : List γ, (∀ c ∈ cs, P c) ∧ cs.map f = as ∧ bs = cs.flatMap g := by
  induction as generalizing bs with
  | nil =>
      constructor
      · intro h
        exact ⟨[], by simp, rfl, h⟩
      · intro ⟨cs, _, hmap, hbs⟩
        rw [List.map_eq_nil_iff] at hmap
        rw [hbs, hmap]
        rfl
  | cons a as ih =>
      constructor
      · rintro ⟨enc, enc', ⟨c, hc, hca, rfl⟩, hlist, rfl⟩
        obtain ⟨cs, hcs, hmap, rfl⟩ := (ih enc').mp hlist
        refine ⟨c :: cs, ?_, by rw [List.map_cons, hca, hmap], List.flatMap_cons.symm⟩
        exact List.forall_mem_cons.mpr ⟨hc, hcs⟩
      · rintro ⟨cs, hcs, hmap, rfl⟩
        cases cs with
        | nil => cases hmap
        | cons c cs =>
            have ⟨hc, hcs⟩ := List.forall_mem_cons.mp hcs
            have ⟨hca, hmap⟩ := List.cons.inj hmap
            exact ⟨g c, cs.flatMap g, ⟨c, hc, hca, rfl⟩, (ih _).mpr ⟨cs, hcs, hmap, rfl⟩,
              List.flatMap_cons⟩

/-! ## Whole strings -/

/-- Read a value and nothing else; `trailing` is told how many bytes are left. -/
def whole (trailing : Nat → ε) (r : Reader ε α) (bs : List UInt8) : Except ε α := do
  let (a, rest) ← r.run bs
  if rest.isEmpty then return a else throw (trailing rest.length)

variable {trailing : Nat → ε} {r : Reader ε α} {E : Format α}

theorem whole_of_run {bs rest : List UInt8} {a : α} (h : r.run bs = .ok (a, rest)) :
    whole trailing r bs = if rest = [] then .ok a else .error (trailing rest.length) := by
  unfold whole
  rw [h]
  cases rest <;> rfl

/-- The strings read as a whole are the encodings. -/
theorem whole_eq_ok_iff (h : Accepts r E) {bs : List UInt8} {a : α} :
    whole trailing r bs = .ok a ↔ E a bs := by
  constructor
  · intro hw
    cases hrun : r.run bs with
    | error e =>
        unfold whole at hw
        rw [hrun] at hw
        cases hw
    | ok p =>
        obtain ⟨b, rest⟩ := p
        rw [whole_of_run hrun] at hw
        by_cases hrest : rest = []
        · rw [if_pos hrest] at hw
          have ⟨enc, henc, hbs⟩ := h.sound hrun
          rw [hrest, List.append_nil] at hbs
          rw [hbs, ← Except.ok.inj hw]
          exact henc
        · rw [if_neg hrest] at hw
          cases hw
  · intro henc
    have hrun := h.complete henc []
    rw [List.append_nil] at hrun
    rw [whole_of_run hrun, if_pos rfl]

/-- What follows an encoding is refused, and counted. -/
theorem whole_append (h : Accepts r E) {bs ext : List UInt8} {a : α}
    (hw : whole trailing r bs = .ok a) (hext : ext ≠ []) :
    whole trailing r (bs ++ ext) = .error (trailing ext.length) := by
  have hrun := h.complete ((whole_eq_ok_iff h).mp hw) ext
  rw [whole_of_run hrun, if_neg hext]

/-- No strict prefix of an encoding is one. -/
theorem whole_prefix (h : Accepts r E) {bs ext : List UInt8} {a : α}
    (hw : whole trailing r (bs ++ ext) = .ok a) (hext : ext ≠ []) :
    ∃ e, whole trailing r bs = .error e := by
  cases hbs : whole trailing r bs with
  | error e => exact ⟨e, rfl⟩
  | ok b =>
      rw [whole_append h hbs hext] at hw
      cases hw

/-! ## Fixed lengths and big-endian numbers -/

/-- The next `n` bytes. -/
def take (short : ε) (n : Nat) : Reader ε (List UInt8) := do
  let bs ← get
  if bs.length < n then throw short
  set (bs.drop n)
  return bs.take n

theorem take_run (short : ε) (n : Nat) (bs : List UInt8) :
    (take short n).run bs =
      if bs.length < n then .error short else .ok (bs.take n, bs.drop n) := by
  by_cases h : bs.length < n
  · simp [take, h]
    rfl
  · simp [take, h]
    rfl

theorem take_exact (short : ε) (n : Nat) :
    Accepts (take short n) fun a bs => a = bs ∧ bs.length = n := by
  constructor
  · intro a bs ⟨ha, hlen⟩ rest
    have hlong : ¬(bs ++ rest).length < n := by
      rw [List.length_append]
      omega
    rw [take_run, if_neg hlong, ← hlen, List.take_left, List.drop_left, ha]
  · intro bs a rest h
    rw [take_run] at h
    by_cases hlen : bs.length < n
    · rw [if_pos hlen] at h
      cases h
    · rw [if_neg hlen] at h
      have hpair := Prod.mk.inj (Except.ok.inj h)
      refine ⟨bs.take n, ⟨hpair.1.symm, ?_⟩, ?_⟩
      · rw [List.length_take]
        omega
      · rw [← hpair.2, List.take_append_drop]

/-- The number that bytes spell, the most significant first. -/
def ofBytes (bs : List UInt8) : Nat := bs.foldl (fun n b => n * 256 + b.toNat) 0

/-- The lowest `k` bytes of a number, the most significant first. -/
def toBytes : Nat → Nat → List UInt8
  | 0, _ => []
  | k + 1, n => toBytes k (n / 256) ++ [UInt8.ofNat n]

@[simp] theorem length_toBytes (k n : Nat) : (toBytes k n).length = k := by
  induction k generalizing n with
  | zero => rfl
  | succ k ih => simp [toBytes, ih]

theorem ofBytes_concat (bs : List UInt8) (b : UInt8) :
    ofBytes (bs ++ [b]) = ofBytes bs * 256 + b.toNat := by
  simp [ofBytes]

theorem ofBytes_toBytes {k n : Nat} (h : n < 256 ^ k) : ofBytes (toBytes k n) = n := by
  induction k generalizing n with
  | zero =>
      have hn : n = 0 := by omega
      subst hn
      rfl
  | succ k ih =>
      have hdiv : n / 256 < 256 ^ k := by
        rw [Nat.div_lt_iff_lt_mul (by omega)]
        rw [← Nat.pow_succ]
        exact h
      calc
        ofBytes (toBytes (k + 1) n) = ofBytes (toBytes k (n / 256)) * 256
            + (UInt8.ofNat n).toNat := ofBytes_concat _ _
        _ = n / 256 * 256 + n % 256 := by
            rw [ih hdiv]
            simp
        _ = n := by omega

theorem toBytes_ofBytes (bs : List UInt8) : toBytes bs.length (ofBytes bs) = bs := by
  induction bs using List.reverseRecOn with
  | nil => rfl
  | append_singleton bs b ih =>
      have hb := b.toNat_lt
      have hdiv : (ofBytes bs * 256 + b.toNat) / 256 = ofBytes bs := by omega
      have hlast : UInt8.ofNat (ofBytes bs * 256 + b.toNat) = b := by
        apply UInt8.toNat_inj.mp
        simp only [UInt8.toNat_ofNat']
        omega
      rw [ofBytes_concat, List.length_append, List.length_singleton, toBytes, hdiv, ih, hlast]

theorem ofBytes_lt (bs : List UInt8) : ofBytes bs < 256 ^ bs.length := by
  induction bs using List.reverseRecOn with
  | nil => decide
  | append_singleton bs b ih =>
      have hb := b.toNat_lt
      rw [ofBytes_concat, List.length_append, List.length_singleton, Nat.pow_succ]
      omega

/-- Fixed-length bytes are a number below the power of their count. -/
theorem number_exact (short : ε) (k : Nat) :
    Accepts (ofBytes <$> take short k) fun n bs => n < 256 ^ k ∧ bs = toBytes k n := by
  refine ((take_exact short k).map _).congr fun n bs => ?_
  constructor
  · rintro ⟨bs, ⟨rfl, hlen⟩, rfl⟩
    have hlt := ofBytes_lt bs
    rw [hlen] at hlt
    refine ⟨hlt, ?_⟩
    rw [← hlen, toBytes_ofBytes]
  · intro ⟨hn, hbs⟩
    refine ⟨bs, ⟨rfl, by rw [hbs, length_toBytes]⟩, ?_⟩
    rw [hbs, ofBytes_toBytes hn]

/-- A type of the numbers below such a power is read as its number. -/
theorem fixed_exact (short : ε) (k : Nat) {f : Nat → α} {g : α → Nat}
    (hg : ∀ a, g a < 256 ^ k) (hfg : ∀ a, f (g a) = a) (hgf : ∀ n < 256 ^ k, g (f n) = n) :
    Accepts (f <$> ofBytes <$> take short k) fun a bs => bs = toBytes k (g a) := by
  refine ((number_exact short k).map f).congr fun a bs => ?_
  constructor
  · rintro ⟨n, ⟨hn, rfl⟩, rfl⟩
    rw [hgf n hn]
  · intro hbs
    exact ⟨g a, ⟨hg a, hbs⟩, (hfg a).symm⟩

/-! ## Texts -/

/-- The bytes of a text. -/
def utf8 (s : String) : List UInt8 := s.toByteArray.data.toList

/-- The text that bytes spell, if they spell one. -/
def fromUtf8? (bs : List UInt8) : Option String := String.fromUTF8? ⟨bs.toArray⟩

theorem fromUtf8?_eq_some_iff {bs : List UInt8} {s : String} :
    fromUtf8? bs = some s ↔ bs = utf8 s := by
  unfold fromUtf8? utf8 String.fromUTF8?
  constructor
  · intro h
    split at h
    · rw [← Option.some.inj h]
      rfl
    · cases h
  · intro h
    have hbytes : (⟨bs.toArray⟩ : ByteArray) = s.toByteArray := by
      rw [h]
    have hvalid : ByteArray.IsValidUTF8 ⟨bs.toArray⟩ := by
      rw [hbytes]
      exact s.isValidUTF8
    rw [dif_pos hvalid]
    exact congrArg some (String.toByteArray_inj.mp hbytes)

/-- The bytes before the first zero, which is consumed too. -/
def untilZero (bad : ε) : Reader ε (List UInt8) := do
  let bs ← get
  match bs.findIdx? (· = 0) with
  | none => throw bad
  | some n =>
      set (bs.drop (n + 1))
      return bs.take n

theorem untilZero_run (bad : ε) (bs : List UInt8) :
    (untilZero bad).run bs = (bs.findIdx? (· = 0)).elim (.error bad) fun n =>
      .ok (bs.take n, bs.drop (n + 1)) := by
  cases h : bs.findIdx? (· = 0) <;> simp [untilZero, h] <;> rfl

theorem untilZero_exact (bad : ε) :
    Accepts (untilZero bad) fun a bs => bs = a ++ [0] ∧ 0 ∉ a := by
  constructor
  · intro a bs ⟨hbs, ha⟩ rest
    have hnone : a.findIdx? (· = 0) = none := by
      rw [List.findIdx?_eq_none_iff]
      intro b hb
      simpa using ne_of_mem_of_not_mem hb ha
    rw [hbs, List.append_assoc, untilZero_run, List.findIdx?_append, hnone]
    simp [List.findIdx?_cons]
  · intro bs a rest h
    rw [untilZero_run] at h
    cases hn : bs.findIdx? (· = 0) with
    | none =>
        rw [hn] at h
        cases h
    | some n =>
        rw [hn] at h
        have hpair := Prod.mk.inj (Except.ok.inj h)
        obtain ⟨hlt, hzero, hbefore⟩ := List.findIdx?_eq_some_iff_getElem.mp hn
        refine ⟨a ++ [0], ⟨rfl, ?_⟩, ?_⟩
        · intro hmem
          rw [← hpair.1, List.mem_take_iff_getElem] at hmem
          obtain ⟨i, hi, hget⟩ := hmem
          have hne := hbefore i (by omega)
          simp [hget] at hne
        · have hget : bs[n] = 0 := by simpa using hzero
          rw [← hpair.1, ← hpair.2, List.append_assoc, List.singleton_append, ← hget,
            ← List.drop_eq_getElem_cons hlt, List.take_append_drop]

/-- Bytes taken as a text. -/
def asText (bad : ε) (bs : List UInt8) : Reader ε String :=
  (fromUtf8? bs).elim (throw bad) pure

theorem asText_exact (bad : ε) (bs : List UInt8) :
    Accepts (asText bad bs) fun s enc => bs = utf8 s ∧ enc = [] := by
  unfold asText
  cases h : fromUtf8? bs with
  | none =>
      refine (Accepts.throw bad).congr fun s enc => ?_
      constructor
      · intro hfalse
        exact hfalse.elim
      · intro ⟨hs, _⟩
        rw [fromUtf8?_eq_some_iff.mpr hs] at h
        cases h
  | some t =>
      refine (Accepts.pure t).congr fun s enc => ?_
      rw [← fromUtf8?_eq_some_iff, h, Option.some.injEq, eq_comm (a := s)]

end Improv.Lib.WireFormat
