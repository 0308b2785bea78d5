import Mathlib.Order.Lattice
import Mathlib.Tactic.Common
/-!
# JSON texts

A JSON tree over any kind of number, its text in any layout, and how deep a
reader of some bytes has been: which brackets it has open, and how many it has
had open at once.  The text of a tree reads whole, as deep as the tree nests.
-/

namespace Improv.Lib

inductive Json (ν : Type)
  | null
  | bool (b : Bool)
  | number (n : ν)
  | string (s : String)
  | array (items : List (Json ν))
  | object (fields : List (String × Json ν))

namespace Json

variable {ν μ : Type}

/-- Structural induction with the hypothesis for every item and field. -/
@[elab_as_elim, induction_eliminator]
theorem ind {motive : Json ν → Prop} (null : motive null) (bool : ∀ b, motive (bool b))
    (number : ∀ n, motive (number n)) (string : ∀ s, motive (string s))
    (array : ∀ items, (∀ x ∈ items, motive x) → motive (array items))
    (object : ∀ fields, (∀ f ∈ fields, motive f.2) → motive (object fields)) (j : Json ν) :
    motive j :=
  @Json.rec ν motive (fun items => ∀ x ∈ items, motive x) (fun fields => ∀ f ∈ fields, motive f.2)
    (fun f => motive f.2) null bool number string array object (by simp) (by simp +contextual)
    (by simp) (by simp +contextual) (fun _ _ h => h) j

/-- How many arrays and objects stand inside one another. -/
def depth : Json ν → Nat
  | .array items => 1 + depthOf items
  | .object fields => 1 + depthOfFields fields
  | _ => 0
where
  depthOf : List (Json ν) → Nat
    | [] => 0
    | x :: xs => max x.depth (depthOf xs)
  depthOfFields : List (String × Json ν) → Nat
    | [] => 0
    | f :: fs => max (depthOfField f) (depthOfFields fs)
  depthOfField : String × Json ν → Nat
    | (_, x) => x.depth

/-- The tree with its numbers changed. -/
def map (g : ν → μ) : Json ν → Json μ
  | .null => .null
  | .bool b => .bool b
  | .number n => .number (g n)
  | .string s => .string s
  | .array items => .array (mapItems items)
  | .object fields => .object (mapFields fields)
where
  mapItems : List (Json ν) → List (Json μ)
    | [] => []
    | x :: xs => x.map g :: mapItems xs
  mapFields : List (String × Json ν) → List (String × Json μ)
    | [] => []
    | f :: fs => mapField f :: mapFields fs
  mapField : String × Json ν → String × Json μ
    | (k, x) => (k, x.map g)

theorem depthOfField_eq (f : String × Json ν) : depth.depthOfField f = f.2.depth := by
  cases f
  rfl

theorem mapField_eq (g : ν → μ) (f : String × Json ν) :
    map.mapField g f = (f.1, f.2.map g) := by
  cases f
  rfl

theorem depthOf_le_iff {items : List (Json ν)} {d : Nat} :
    depth.depthOf items ≤ d ↔ ∀ x ∈ items, x.depth ≤ d := by
  induction items with
  | nil => simp [depth.depthOf]
  | cons x xs ih => simp [depth.depthOf, ih]

theorem depthOfFields_le_iff {fields : List (String × Json ν)} {d : Nat} :
    depth.depthOfFields fields ≤ d ↔ ∀ f ∈ fields, f.2.depth ≤ d := by
  induction fields with
  | nil => simp [depth.depthOfFields]
  | cons f fs ih => simp [depth.depthOfFields, depthOfField_eq, ih]

@[simp] theorem depth_array_le_iff {items : List (Json ν)} {d : Nat} :
    (array items).depth ≤ d + 1 ↔ ∀ x ∈ items, x.depth ≤ d := by
  rw [depth, Nat.add_comm, Nat.add_le_add_iff_right, depthOf_le_iff]

@[simp] theorem depth_object_le_iff {fields : List (String × Json ν)} {d : Nat} :
    (object fields).depth ≤ d + 1 ↔ ∀ f ∈ fields, f.2.depth ≤ d := by
  rw [depth, Nat.add_comm, Nat.add_le_add_iff_right, depthOfFields_le_iff]

@[simp] theorem mapItems_eq (g : ν → μ) (items : List (Json ν)) :
    map.mapItems g items = items.map (·.map g) := by
  induction items with
  | nil => rfl
  | cons x xs ih => rw [map.mapItems, ih, List.map_cons]

@[simp] theorem mapFields_eq (g : ν → μ) (fields : List (String × Json ν)) :
    map.mapFields g fields = fields.map fun f => (f.1, f.2.map g) := by
  induction fields with
  | nil => rfl
  | cons f fs ih =>
      rw [map.mapFields, ih, mapField_eq, List.map_cons]

/-! ## Bytes -/

def quote : UInt8 := 0x22

def backslash : UInt8 := 0x5C

/-- A byte that, outside a string, neither opens nor closes anything. -/
def plain (b : UInt8) : Bool :=
  b != quote && b != 0x5B && b != 0x5D && b != 0x7B && b != 0x7D

/-- The insignificant white space. -/
def blank (b : UInt8) : Bool := b == 0x20 || b == 0x0A || b == 0x0D || b == 0x09

/-- What may stand between the quotes of a string. -/
inductive Inside : List UInt8 → Prop
  | nil : Inside []
  | byte {b : UInt8} {s : List UInt8} : b ≠ quote → b ≠ backslash → Inside s → Inside (b :: s)
  | escape {b : UInt8} {s : List UInt8} : Inside s → Inside (backslash :: b :: s)

theorem plain_of_blank {b : UInt8} (h : blank b = true) : plain b = true := by
  unfold blank at h
  simp only [Bool.or_eq_true, beq_iff_eq] at h
  obtain ((rfl | rfl) | rfl) | rfl := h <;> decide

/-! ## Reading -/

/-- A reader that has read some bytes without an error: the closing brackets it
waits for, the next one first, and the most it has waited for at once.  It
stands outside a string. -/
inductive Scans : List UInt8 → List UInt8 → Nat → Prop
  | start : Scans [] [] 0
  | plain {p waits : List UInt8} {m : Nat} {b : UInt8} : Scans p waits m → plain b = true →
      Scans (p ++ [b]) waits m
  | string {p waits s : List UInt8} {m : Nat} : Scans p waits m → Inside s →
      Scans (p ++ quote :: (s ++ [quote])) waits m
  | array {p waits : List UInt8} {m : Nat} : Scans p waits m →
      Scans (p ++ [0x5B]) (0x5D :: waits) (max m (waits.length + 1))
  | object {p waits : List UInt8} {m : Nat} : Scans p waits m →
      Scans (p ++ [0x7B]) (0x7D :: waits) (max m (waits.length + 1))
  | close {p waits : List UInt8} {m : Nat} {c : UInt8} : Scans p (c :: waits) m →
      Scans (p ++ [c]) waits m

variable {p waits : List UInt8} {m : Nat}

theorem Scans.plains (h : Scans p waits m) {s : List UInt8} (hs : ∀ b ∈ s, Json.plain b = true) :
    Scans (p ++ s) waits m := by
  induction s generalizing p with
  | nil => rwa [List.append_nil]
  | cons b s ih =>
      rw [List.append_cons]
      exact ih (h.plain (hs b List.mem_cons_self)) fun c hc => hs c (List.mem_cons_of_mem b hc)

theorem Scans.length_le (h : Scans p waits m) : waits.length ≤ m := by
  induction h with
  | start => exact le_rfl
  | plain _ _ ih => exact ih
  | string _ _ ih => exact ih
  | array _ ih => exact le_max_right _ _
  | object _ ih => exact le_max_right _ _
  | close _ ih => exact (Nat.le_succ _).trans ih

theorem Scans.waits_eq (h : Scans p waits m) : ∀ c ∈ waits, c = 0x5D ∨ c = 0x7D := by
  induction h with
  | start => exact fun c hc => absurd hc List.not_mem_nil
  | plain _ _ ih => exact ih
  | string _ _ ih => exact ih
  | array _ ih => exact List.forall_mem_cons.mpr ⟨Or.inl rfl, ih⟩
  | object _ ih => exact List.forall_mem_cons.mpr ⟨Or.inr rfl, ih⟩
  | close _ ih => exact fun c hc => ih c (List.mem_cons_of_mem _ hc)

/-- A reader reads nothing that starts with a closing bracket. -/
theorem Scans.head_ne (h : Scans p waits m) :
    (p = [] ∧ waits = [] ∧ m = 0) ∨ ∃ b q, p = b :: q ∧ b ≠ 0x5D ∧ b ≠ 0x7D := by
  have hfirst : ∀ {p : List UInt8} {b : UInt8} (s : List UInt8), b ≠ 0x5D → b ≠ 0x7D →
      (p = [] ∨ ∃ b q, p = b :: q ∧ b ≠ 0x5D ∧ b ≠ 0x7D) →
      ∃ c q, p ++ b :: s = c :: q ∧ c ≠ 0x5D ∧ c ≠ 0x7D := by
    intro p b s hb hb' hp
    obtain rfl | ⟨c, q, rfl, hc⟩ := hp
    · exact ⟨b, s, rfl, hb, hb'⟩
    · exact ⟨c, q ++ b :: s, rfl, hc⟩
  induction h with
  | start => exact Or.inl ⟨rfl, rfl, rfl⟩
  | plain _ hb ih =>
      unfold Json.plain at hb
      simp only [Bool.and_eq_true, bne_iff_ne] at hb
      exact Or.inr (hfirst [] hb.1.1.2 hb.2 (ih.imp_left And.left))
  | string _ _ ih => exact Or.inr (hfirst _ (by decide) (by decide) (ih.imp_left And.left))
  | array _ ih => exact Or.inr (hfirst [] (by decide) (by decide) (ih.imp_left And.left))
  | object _ ih => exact Or.inr (hfirst [] (by decide) (by decide) (ih.imp_left And.left))
  | close _ ih =>
      obtain ⟨-, hwaits, -⟩ | ⟨b, q, rfl, hb⟩ := ih
      · cases hwaits
      · exact Or.inr ⟨b, q ++ [_], rfl, hb⟩

/-! ## Writing -/

/-- How numbers and the insides of strings are written. -/
structure Tokens (ν : Type) where
  number : ν → List UInt8
  string : String → List UInt8
  number_plain : ∀ n, ∀ b ∈ number n, plain b = true
  string_inside : ∀ s, Inside (string s)

/-- Where white space stands: before an item or a key, before a closing bracket
and after a colon. -/
structure Layout where
  before : Nat → List UInt8
  after : Nat → List UInt8
  colon : List UInt8
  before_blank : ∀ level, ∀ b ∈ before level, blank b = true
  after_blank : ∀ level, ∀ b ∈ after level, blank b = true
  colon_blank : ∀ b ∈ colon, blank b = true

/-- No white space. -/
def Layout.compact : Layout where
  before _ := []
  after _ := []
  colon := []
  before_blank := by simp
  after_blank := by simp
  colon_blank := by simp

/-- Some texts in a row, a comma between two of them. -/
def members (L : Layout) (level : Nat) : Bool → List (List UInt8) → List UInt8
  | _, [] => []
  | first, t :: ts =>
    (if first then [] else [0x2C]) ++ L.before level ++ t ++ members L level false ts

/-- Texts between brackets that stand `level` deep. -/
def bracketed (L : Layout) (level : Nat) (start stop : UInt8) (ts : List (List UInt8)) :
    List UInt8 :=
  [start] ++ members L (level + 1) true ts ++ (if ts.isEmpty then [] else L.after level) ++ [stop]

def quoted (T : Tokens ν) (s : String) : List UInt8 := quote :: (T.string s ++ [quote])

/-- The text of a tree that stands `level` deep. -/
def write (T : Tokens ν) (L : Layout) : Json ν → Nat → List UInt8
  | .null, _ => [0x6E, 0x75, 0x6C, 0x6C]
  | .bool true, _ => [0x74, 0x72, 0x75, 0x65]
  | .bool false, _ => [0x66, 0x61, 0x6C, 0x73, 0x65]
  | .number n, _ => T.number n
  | .string s, _ => quoted T s
  | .array items, level => bracketed L level 0x5B 0x5D (writeItems items (level + 1))
  | .object fields, level => bracketed L level 0x7B 0x7D (writeFields fields (level + 1))
where
  writeItems : List (Json ν) → Nat → List (List UInt8)
    | [], _ => []
    | x :: xs, level => x.write T L level :: writeItems xs level
  writeFields : List (String × Json ν) → Nat → List (List UInt8)
    | [], _ => []
    | f :: fs, level => writeField f level :: writeFields fs level
  writeField : String × Json ν → Nat → List UInt8
    | (k, x), level => quoted T k ++ [0x3A] ++ L.colon ++ x.write T L level

/-- The digits `0` to `9` and `a` to `f`. -/
def hexDigits : List UInt8 :=
  [0x30, 0x31, 0x32, 0x33, 0x34, 0x35, 0x36, 0x37, 0x38, 0x39, 0x61, 0x62, 0x63, 0x64, 0x65, 0x66]

def hexDigit (n : Nat) : UInt8 := hexDigits.getD n 0x30

/-- One byte of a string, between its quotes. -/
def escapeByte (b : UInt8) : List UInt8 :=
  if b = quote then [backslash, quote]
  else if b = backslash then [backslash, backslash]
  else if b = 0x08 then [backslash, 0x62]
  else if b = 0x09 then [backslash, 0x74]
  else if b = 0x0A then [backslash, 0x6E]
  else if b = 0x0C then [backslash, 0x66]
  else if b = 0x0D then [backslash, 0x72]
  else if b < 0x20 then
    [backslash, 0x75, 0x30, 0x30, hexDigit (b.toNat / 16), hexDigit (b.toNat % 16)]
  else [b]

/-- Bytes as they stand between the quotes of a string. -/
def escape (s : List UInt8) : List UInt8 := s.flatMap escapeByte

theorem Inside.hexDigit (n : Nat) {s : List UInt8} (h : Inside s) : Inside (hexDigit n :: s) := by
  have hdigit : Json.hexDigit n ≠ quote ∧ Json.hexDigit n ≠ backslash := by
    by_cases hn : n < 16
    · exact (by decide : ∀ n < 16, Json.hexDigit n ≠ quote ∧ Json.hexDigit n ≠ backslash) n hn
    · unfold Json.hexDigit
      rw [List.getD_eq_getElem?_getD, List.getElem?_eq_none (not_lt.mp hn)]
      decide
  exact h.byte hdigit.1 hdigit.2

theorem inside_escapeByte (b : UInt8) {s : List UInt8} (h : Inside s) :
    Inside (escapeByte b ++ s) := by
  unfold escapeByte
  split_ifs with hquote hslash
  · exact h.escape
  · exact h.escape
  · exact h.escape
  · exact h.escape
  · exact h.escape
  · exact h.escape
  · exact h.escape
  · have hdigits := (h.hexDigit (b.toNat % 16)).hexDigit (b.toNat / 16)
    exact ((hdigits.byte (by decide) (by decide)).byte (by decide) (by decide)).escape
  · exact h.byte hquote hslash

theorem inside_escape (s : List UInt8) : Inside (escape s) := by
  induction s with
  | nil => exact Inside.nil
  | cons b s ih => exact inside_escapeByte b ih

theorem map_id {g : ν → ν} (h : ∀ n, g n = n) (j : Json ν) : j.map g = j := by
  induction j with
  | number n => rw [map, h]
  | array items ih =>
      rw [map, mapItems_eq]
      exact congrArg array ((List.map_congr_left ih).trans (List.map_id items))
  | object fields ih =>
      rw [map, mapFields_eq]
      have hfields : fields.map (fun f => (f.1, f.2.map g)) = fields.map id :=
        List.map_congr_left fun f hf => by rw [ih f hf]; rfl
      rw [hfields, List.map_id]
  | _ => rfl

/-! ## What a text enters -/

/-- Reading `t` whole enters `d` levels. -/
def Enters (t : List UInt8) (d : Nat) : Prop :=
  ∀ (p waits : List UInt8) (m : Nat), Scans p waits m →
    Scans (p ++ t) waits (max m (waits.length + d))

namespace Enters

variable {t u : List UInt8} {d e : Nat}

theorem plains (h : ∀ b ∈ t, Json.plain b = true) : Enters t 0 := by
  intro p waits m hp
  rw [Nat.add_zero, max_eq_left hp.length_le]
  exact hp.plains h

theorem blanks (h : ∀ b ∈ t, blank b = true) : Enters t 0 :=
  plains fun b hb => plain_of_blank (h b hb)

theorem append (h : Enters t d) (h' : Enters u e) : Enters (t ++ u) (max d e) := by
  intro p waits m hp
  rw [← List.append_assoc, ← Nat.add_max_add_left, ← max_assoc]
  exact h' _ _ _ (h p waits m hp)

theorem append_zero (h : Enters t d) (h' : Enters u 0) : Enters (t ++ u) d := by
  have happ := h.append h'
  rwa [max_eq_left (Nat.zero_le d)] at happ

theorem zero_append (h : Enters t 0) (h' : Enters u d) : Enters (t ++ u) d := by
  have happ := h.append h'
  rwa [max_eq_right (Nat.zero_le d)] at happ

theorem quoted (T : Tokens ν) (s : String) : Enters (quoted T s) 0 := by
  intro p waits m hp
  rw [Nat.add_zero, max_eq_left hp.length_le]
  exact hp.string (T.string_inside s)

theorem members (L : Layout) (level : Nat) (first : Bool) {ts : List (List UInt8)} {ds : List Nat}
    (h : List.Forall₂ Enters ts ds) : Enters (members L level first ts) (ds.foldr max 0) := by
  induction h generalizing first with
  | nil => exact plains fun b hb => absurd hb List.not_mem_nil
  | cons ht _ ih =>
      have hcomma : Enters (if first then [] else [0x2C]) 0 := plains fun b hb => by
        cases first with
        | true => exact absurd hb List.not_mem_nil
        | false => rw [List.mem_singleton.mp hb]; decide
      have hbefore : Enters (L.before level) 0 := blanks (L.before_blank level)
      exact ((hcomma.append_zero hbefore).zero_append ht).append (ih false)

theorem bracketed (L : Layout) (level : Nat) {ts : List (List UInt8)} {ds : List Nat}
    (h : List.Forall₂ Enters ts ds) {start stop : UInt8}
    (hstart : ∀ {p waits : List UInt8} {m : Nat}, Scans p waits m →
      Scans (p ++ [start]) (stop :: waits) (max m (waits.length + 1))) :
    Enters (bracketed L level start stop ts) (1 + ds.foldr max 0) := by
  have hafter : Enters (if ts.isEmpty then [] else L.after level) 0 := by
    cases ts with
    | nil => exact plains fun b hb => absurd hb List.not_mem_nil
    | cons t ts => exact blanks (L.after_blank level)
  intro p waits m hp
  have hinside := (members L (level + 1) true h).append_zero hafter _ _ _ (hstart hp)
  have hclose := hinside.close
  rw [List.length_cons, max_assoc, Nat.add_assoc,
    max_eq_right (Nat.add_le_add_left (Nat.le_add_right 1 _) _)] at hclose
  unfold Json.bracketed
  simpa only [List.append_assoc] using hclose

end Enters

theorem depthOf_eq (items : List (Json ν)) :
    depth.depthOf items = (items.map depth).foldr max 0 := by
  induction items with
  | nil => rfl
  | cons x xs ih => rw [depth.depthOf, ih, List.map_cons, List.foldr_cons]

theorem depthOfFields_eq (fields : List (String × Json ν)) :
    depth.depthOfFields fields = (fields.map fun f => f.2.depth).foldr max 0 := by
  induction fields with
  | nil => rfl
  | cons f fs ih =>
      rw [depth.depthOfFields, ih, depthOfField_eq, List.map_cons, List.foldr_cons]

/-- The text of a tree enters as many levels as the tree nests. -/
theorem enters_write (T : Tokens ν) (L : Layout) (j : Json ν) (level : Nat) :
    Enters (j.write T L level) j.depth := by
  induction j generalizing level with
  | null => exact Enters.plains (t := [0x6E, 0x75, 0x6C, 0x6C]) (by decide +kernel)
  | bool b =>
      cases b with
      | true => exact Enters.plains (t := [0x74, 0x72, 0x75, 0x65]) (by decide +kernel)
      | false => exact Enters.plains (t := [0x66, 0x61, 0x6C, 0x73, 0x65]) (by decide +kernel)
  | number n => exact Enters.plains (T.number_plain n)
  | string s => exact Enters.quoted T s
  | array items ih =>
      rw [write, depth, depthOf_eq]
      refine Enters.bracketed L level ?_ Scans.array
      induction items with
      | nil => exact List.Forall₂.nil
      | cons x xs ihx =>
          exact List.Forall₂.cons (ih x List.mem_cons_self _)
            (ihx fun y hy => ih y (List.mem_cons_of_mem x hy))
  | object fields ih =>
      rw [write, depth, depthOfFields_eq]
      refine Enters.bracketed L level ?_ Scans.object
      induction fields with
      | nil => exact List.Forall₂.nil
      | cons f fs ihf =>
          have hcolon : Enters ([0x3A] ++ L.colon) 0 :=
            (Enters.plains (by decide +kernel)).append_zero (Enters.blanks L.colon_blank)
          have hfield : Enters (write.writeField T L f (level + 1)) f.2.depth := by
            obtain ⟨k, x⟩ := f
            have happ := ((Enters.quoted T k).append_zero hcolon).zero_append
              (ih (k, x) List.mem_cons_self (level + 1))
            rwa [← List.append_assoc] at happ
          exact List.Forall₂.cons hfield (ihf fun g hg => ih g (List.mem_cons_of_mem f hg))

/-- The text of a tree reads whole and leaves nothing open. -/
theorem scans_write (T : Tokens ν) (L : Layout) (j : Json ν) :
    Scans (j.write T L 0) [] j.depth := by
  have h := enters_write T L j 0 [] [] 0 Scans.start
  rwa [List.nil_append, Nat.zero_max, List.length_nil, Nat.zero_add] at h

end Json

end Improv.Lib
