import Mathlib.Data.List.Basic
import Mathlib.Data.List.MinMax
import Mathlib.Order.Basic
/-!
# Byte offsets

A text indexed by the bytes of its UTF-8 form: where a pattern is found, and the
pieces that offsets cut, none where an offset is inside a character or past the
end.
-/

namespace Improv.Lib.ByteOffsets

/-- The bytes that characters take. -/
def bytes : List Char → Nat
  | [] => 0
  | c :: cs => c.utf8Size + bytes cs

@[simp] theorem bytes_nil : bytes [] = 0 := rfl

theorem bytes_cons (c : Char) (cs : List Char) : bytes (c :: cs) = c.utf8Size + bytes cs := rfl

@[simp] theorem bytes_append (cs ds : List Char) : bytes (cs ++ ds) = bytes cs + bytes ds := by
  induction cs with
  | nil => rw [List.nil_append, bytes_nil, Nat.zero_add]
  | cons c cs ih => rw [List.cons_append, bytes_cons, bytes_cons, ih, Nat.add_assoc]

theorem length_le_bytes (cs : List Char) : cs.length ≤ bytes cs := by
  induction cs with
  | nil => exact le_rfl
  | cons c cs ih =>
      have hpos := c.utf8Size_pos
      rw [List.length_cons, bytes_cons]
      omega

/-! ## Cutting -/

/-- The text cut at an offset. -/
def cutAt : List Char → Nat → Option (List Char × List Char)
  | cs, 0 => some ([], cs)
  | [], _ + 1 => none
  | c :: cs, n + 1 =>
    if c.utf8Size ≤ n + 1 then (cutAt cs (n + 1 - c.utf8Size)).map fun p => (c :: p.1, p.2)
    else none

/-- The text from an offset on. -/
def sliceFrom (s : List Char) (i : Nat) : Option (List Char) := (cutAt s i).map (·.2)

/-- The text between two offsets. -/
def slice (s : List Char) (i j : Nat) : Option (List Char) :=
  if i ≤ j then (sliceFrom s i).bind fun t => (cutAt t (j - i)).map (·.1) else none

theorem cutAt_bytes (cs ds : List Char) : cutAt (cs ++ ds) (bytes cs) = some (cs, ds) := by
  induction cs with
  | nil => cases ds <;> rfl
  | cons c cs ih =>
      have hpos := c.utf8Size_pos
      rw [bytes_cons]
      obtain ⟨n, hn⟩ : ∃ n, c.utf8Size + bytes cs = n + 1 :=
        ⟨c.utf8Size + bytes cs - 1, by omega⟩
      have hrest : n + 1 - c.utf8Size = bytes cs := by omega
      rw [hn, List.cons_append, cutAt, if_pos (by omega), hrest, ih]
      rfl

theorem of_cutAt {s before rest : List Char} {n : Nat} (h : cutAt s n = some (before, rest)) :
    s = before ++ rest ∧ bytes before = n := by
  induction s generalizing n before with
  | nil =>
      cases n with
      | zero =>
          cases h
          exact ⟨rfl, rfl⟩
      | succ n => cases h
  | cons c cs ih =>
      cases n with
      | zero =>
          cases h
          exact ⟨rfl, rfl⟩
      | succ n =>
          rw [cutAt] at h
          by_cases hfits : c.utf8Size ≤ n + 1
          · rw [if_pos hfits, Option.map_eq_some_iff] at h
            obtain ⟨⟨front, rest'⟩, hcut, heq⟩ := h
            cases heq
            obtain ⟨hcs, hbytes⟩ := ih hcut
            refine ⟨by rw [hcs, List.cons_append], ?_⟩
            rw [bytes_cons, hbytes]
            omega
          · rw [if_neg hfits] at h
            cases h

@[simp] theorem sliceFrom_bytes (cs ds : List Char) :
    sliceFrom (cs ++ ds) (bytes cs) = some ds := by
  rw [sliceFrom, cutAt_bytes]
  rfl

theorem slice_bytes (cs ds es : List Char) :
    slice (cs ++ (ds ++ es)) (bytes cs) (bytes cs + bytes ds) = some ds := by
  rw [slice, if_pos (Nat.le_add_right _ _), sliceFrom_bytes, Option.bind_some,
    Nat.add_sub_cancel_left, cutAt_bytes]
  rfl

/-! ## Finding -/

/-- The offset of the first place where a pattern stands. -/
def find (pat : List Char) : List Char → Option Nat
  | [] => if pat = [] then some 0 else none
  | c :: cs => if pat <+: c :: cs then some 0 else (find pat cs).map (c.utf8Size + ·)

/-- The least of the offsets there are. -/
def least (offsets : List (Option Nat)) : Option Nat := (offsets.filterMap id).min?

/-- The text before the first suffix that is a hit, and that suffix; the empty
one is none. -/
def splitBy (hit : List Char → Bool) : List Char → Option (List Char × List Char)
  | [] => none
  | c :: cs => if hit (c :: cs) then some ([], c :: cs)
    else (splitBy hit cs).map fun p => (c :: p.1, p.2)

/-- One of the patterns stands at the front. -/
def startsAny (pats : List (List Char)) (s : List Char) : Bool := pats.any fun pat => pat <+: s

theorem splitBy_eq {hit : List Char → Bool} {s before rest : List Char}
    (h : splitBy hit s = some (before, rest)) :
    s = before ++ rest ∧ hit rest = true ∧ rest ≠ [] := by
  induction s generalizing before with
  | nil => cases h
  | cons c cs ih =>
      rw [splitBy] at h
      by_cases hhit : hit (c :: cs) = true
      · rw [if_pos hhit, Option.some.injEq, Prod.mk.injEq] at h
        rw [← h.1, ← h.2]
        exact ⟨rfl, hhit, List.cons_ne_nil _ _⟩
      · rw [if_neg hhit, Option.map_eq_some_iff] at h
        obtain ⟨p, hp, heq⟩ := h
        rw [Prod.mk.injEq] at heq
        rw [← heq.1, ← heq.2, List.cons_append]
        have ⟨hcs, hrest⟩ := @ih p.1 (by rw [hp, ← heq.2])
        rw [← heq.2] at hcs hrest
        exact ⟨congrArg (c :: ·) hcs, hrest⟩

theorem splitBy_map (hit : List Char → Bool) (f : Char → Char) (s : List Char) :
    splitBy hit (s.map f) =
      (splitBy (fun t => hit (t.map f)) s).map fun p => (p.1.map f, p.2.map f) := by
  induction s with
  | nil => rfl
  | cons c cs ih =>
      rw [List.map_cons, splitBy, splitBy, List.map_cons]
      by_cases hhit : hit (f c :: cs.map f) = true
      · rw [if_pos hhit, if_pos hhit]
        rfl
      · rw [if_neg hhit, if_neg hhit, ih, Option.map_map, Option.map_map]
        rfl

/-- Text with no hit in it is passed over. -/
theorem splitBy_append {hit : List Char → Bool} {before rest : List Char}
    (h : ∀ pre post, before = pre ++ post → post ≠ [] → hit (post ++ rest) = false) :
    splitBy hit (before ++ rest) = (splitBy hit rest).map fun p => (before ++ p.1, p.2) := by
  induction before with
  | nil => simp
  | cons c cs ih =>
      have hhere := h [] (c :: cs) rfl (List.cons_ne_nil _ _)
      have hlater : ∀ pre post, cs = pre ++ post → post ≠ [] → hit (post ++ rest) = false :=
        fun pre post hcs hne => h (c :: pre) post (congrArg (c :: ·) hcs) hne
      rw [List.cons_append] at hhere
      rw [List.cons_append, splitBy, hhere, ih hlater]
      simp [Function.comp_def]

theorem least_map (k : Nat) (offsets : List (Option Nat)) :
    least (offsets.map (Option.map (k + ·))) = (least offsets).map (k + ·) := by
  have hsome : (offsets.map (Option.map (k + ·))).filterMap id =
      (offsets.filterMap id).map (k + ·) := by
    induction offsets with
    | nil => rfl
    | cons o offsets ih =>
        cases o with
        | none => exact ih
        | some n => exact congrArg ((k + n) :: ·) ih
  unfold least
  rw [hsome]
  induction offsets.filterMap id with
  | nil => rfl
  | cons n ns ih =>
      rw [List.map_cons, List.min?_cons, List.min?_cons, ih]
      cases ns.min? with
      | none => rfl
      | some m => simp [Nat.add_min_add_left]

/-- The least offset of some patterns is where the first of them stands. -/
theorem least_find {pats : List (List Char)} (hpats : [] ∉ pats) (s : List Char) :
    least (pats.map (find · s)) = (splitBy (startsAny pats) s).map fun p => bytes p.1 := by
  induction s with
  | nil =>
      have hnone : pats.map (find · []) = pats.map fun _ => none := by
        apply List.map_congr_left
        intro pat hpat
        rw [find, if_neg fun h : pat = [] => hpats (h ▸ hpat)]
      rw [hnone]
      unfold least
      simp [splitBy]
  | cons c cs ih =>
      rw [splitBy]
      by_cases hhit : startsAny pats (c :: cs) = true
      · rw [if_pos hhit]
        obtain ⟨pat, hpat, hprefix⟩ := List.any_eq_true.mp hhit
        have hzero : find pat (c :: cs) = some 0 := if_pos (of_decide_eq_true hprefix)
        unfold least
        rw [Option.map_some, bytes_nil, List.min?_eq_some_iff]
        refine ⟨?_, fun n _ => Nat.zero_le n⟩
        rw [List.mem_filterMap]
        exact ⟨some 0, List.mem_map.mpr ⟨pat, hpat, hzero⟩, rfl⟩
      · rw [if_neg hhit]
        have hlater : pats.map (find · (c :: cs)) =
            (pats.map (find · cs)).map (Option.map (c.utf8Size + ·)) := by
          rw [List.map_map]
          apply List.map_congr_left
          intro pat hpat
          rw [find, if_neg]
          · rfl
          · intro hprefix
            exact hhit (List.any_eq_true.mpr ⟨pat, hpat, decide_eq_true hprefix⟩)
        rw [hlater, least_map, ih, Option.map_map, Option.map_map]
        rfl

/-- A pattern is found where it first stands. -/
theorem find_eq {pat : List Char} (hpat : pat ≠ []) (s : List Char) :
    find pat s = (splitBy (startsAny [pat]) s).map fun p => bytes p.1 := by
  rw [← least_find (by simpa using hpat.symm)]
  unfold least
  cases h : find pat s <;> simp [h]

end Improv.Lib.ByteOffsets
