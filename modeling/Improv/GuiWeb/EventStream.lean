import Mathlib.Data.List.Induction
import Improv.Lib.ListLemmas
import Improv.Lib.Utf8
/-!
# The change stream

The server writes change events and keep-alive comments as server-sent events;
the client takes the complete ones from the front of what it has read.  How an
event is printed and read as JSON is a parameter.
-/

namespace Improv.GuiWeb

open Improv.Lib

/-- A change event's version, its JSON text, and what a text is read as. -/
structure Wire (E : Type) where
  version : E → List Char
  toJson : E → List Char
  fromJson : List Char → Option E

variable {E : Type}

/-- What the server sends: an event, or a comment that keeps the connection
alive. -/
inductive Frame (E : Type)
  | event (ev : E)
  | comment (text : List Char)

namespace Frame

/-- The lines of a frame. -/
def lines (w : Wire E) : Frame E → List (List Char)
  | .event ev => ["id: ".toList ++ w.version ev, "data: ".toList ++ w.toJson ev]
  | .comment text => [':' :: text]

/-- The frame as it is sent: its lines and a blank one. -/
def write (w : Wire E) (f : Frame E) : List Char := (f.lines w).flatMap (· ++ ['\n']) ++ ['\n']

/-- The event of a frame, if it is one. -/
def event? : Frame E → Option E
  | .event ev => some ev
  | .comment _ => none

end Frame

/-! ## Reading -/

/-- The text up to its first blank line, and the text after. -/
def splitFrame : List Char → Option (List Char × List Char)
  | [] => none
  | c :: cs =>
    if c = '\n' ∧ cs.head? = some '\n' then some (['\n', '\n'], cs.tail)
    else (splitFrame cs).map fun p => (c :: p.1, p.2)

/-- A line without the carriage return at its end. -/
def stripReturn (line : List Char) : List Char :=
  if line.getLast? = some '\r' then line.dropLast else line

/-- The lines of a text; a newline at its end starts no other. -/
def lines (text : List Char) : List (List Char) :=
  let parts := text.splitOn '\n'
  (if parts.getLast? = some [] then parts.dropLast else parts).map stripReturn

/-- What follows a text at the front of another. -/
def dropPrefix? (p text : List Char) : Option (List Char) :=
  if p <+: text then some (text.drop p.length) else none

/-- The data lines of a frame, put together. -/
def dataOf (frame : List Char) : List Char :=
  ((lines frame).filterMap fun l =>
    (dropPrefix? "data:".toList l).map fun d => d.dropWhile isWhitespace).flatten

/-- The complete frames at the front of a buffer, and the rest; `fuel` bounds the
frames. -/
def takeFrames : (fuel : Nat) → List Char → List (List Char) × List Char
  | 0, buf => ([], buf)
  | fuel + 1, buf =>
    match splitFrame buf with
    | none => ([], buf)
    | some (frame, rest) =>
      let taken := takeFrames fuel rest
      (frame :: taken.1, taken.2)

/-- The complete events at the front of a buffer (each ends with a blank line),
parsed; what is left stays for the next chunk. -/
def takeEvents (w : Wire E) (buf : List Char) : List E × List Char :=
  let taken := takeFrames buf.length buf
  (taken.1.filterMap fun frame => w.fromJson (dataOf frame), taken.2)

/-- What a stream's reader holds: the events pushed and the buffer. -/
structure Reader (E : Type) where
  out : List E
  buf : List Char
deriving DecidableEq

/-- One chunk read. -/
def Reader.read (w : Wire E) (r : Reader E) (bytes : List UInt8) : Reader E :=
  let taken := takeEvents w (r.buf ++ Utf8.fromUtf8Lossy bytes)
  ⟨r.out ++ taken.1, taken.2⟩

/-- The chunks of a stream read one after the other. -/
def readStream (w : Wire E) (chunks : List (List UInt8)) : Reader E :=
  chunks.foldl (Reader.read w) ⟨[], []⟩

/-! ## Frames of a text -/

theorem splitFrame_append {text frame rest : List Char} (h : splitFrame text = some (frame, rest))
    (more : List Char) : splitFrame (text ++ more) = some (frame, rest ++ more) := by
  induction text generalizing frame rest with
  | nil => cases h
  | cons c cs ih =>
      rw [splitFrame] at h
      rw [List.cons_append, splitFrame]
      by_cases hblank : c = '\n' ∧ cs.head? = some '\n'
      · rw [if_pos hblank, Option.some.injEq, Prod.mk.injEq] at h
        cases cs with
        | nil => cases hblank.2
        | cons d ds =>
            rw [if_pos ⟨hblank.1, hblank.2⟩, ← h.1, ← h.2]
            rfl
      · rw [if_neg hblank, Option.map_eq_some_iff] at h
        obtain ⟨p, hp, heq⟩ := h
        rw [Prod.mk.injEq] at heq
        have hne : cs ≠ [] := by
          intro hnil
          rw [hnil] at hp
          cases hp
        have hhead : (cs ++ more).head? = cs.head? := by
          cases cs with
          | nil => exact absurd rfl hne
          | cons d ds => rfl
        rw [hhead, if_neg hblank, ih hp, ← heq.1, ← heq.2]
        rfl

/-- A frame and the rest are the text, and the frame is not empty. -/
theorem splitFrame_eq {text frame rest : List Char} (h : splitFrame text = some (frame, rest)) :
    text = frame ++ rest ∧ 2 ≤ frame.length := by
  induction text generalizing frame rest with
  | nil => cases h
  | cons c cs ih =>
      rw [splitFrame] at h
      by_cases hblank : c = '\n' ∧ cs.head? = some '\n'
      · rw [if_pos hblank, Option.some.injEq, Prod.mk.injEq] at h
        cases cs with
        | nil => cases hblank.2
        | cons d ds =>
            have hd : d = '\n' := Option.some.inj hblank.2
            rw [← h.1, ← h.2, hblank.1, hd]
            exact ⟨rfl, le_rfl⟩
      · rw [if_neg hblank, Option.map_eq_some_iff] at h
        obtain ⟨p, hp, heq⟩ := h
        rw [Prod.mk.injEq] at heq
        have ⟨htext, hlen⟩ := ih hp
        rw [← heq.1, ← heq.2, List.cons_append, ← htext, List.length_cons]
        exact ⟨rfl, by omega⟩

/-- With fuel for a frame of two characters, what is taken does not depend on
it. -/
theorem takeFrames_fuel {fuel fuel' : Nat} {buf : List Char} (h : buf.length ≤ fuel)
    (h' : buf.length ≤ fuel') : takeFrames fuel buf = takeFrames fuel' buf := by
  induction fuel generalizing fuel' buf with
  | zero =>
      have hnil : buf = [] := List.length_eq_zero_iff.mp (by omega)
      rw [hnil]
      cases fuel' <;> rfl
  | succ fuel ih =>
      cases fuel' with
      | zero =>
          have hnil : buf = [] := List.length_eq_zero_iff.mp (by omega)
          rw [hnil]
          rfl
      | succ fuel' =>
          rw [takeFrames, takeFrames]
          cases hsplit : splitFrame buf with
          | none => rfl
          | some p =>
              have ⟨hbuf, hlen⟩ := @splitFrame_eq _ p.1 p.2 hsplit
              have hlength := congrArg List.length hbuf
              rw [List.length_append] at hlength
              simp only
              rw [@ih fuel' p.2 (by omega) (by omega)]

/-- The frames of a text and its rest. -/
def framesOf (buf : List Char) : List (List Char) × List Char := takeFrames buf.length buf

theorem framesOf_of_none {buf : List Char} (h : splitFrame buf = none) :
    framesOf buf = ([], buf) := by
  unfold framesOf
  cases hlen : buf.length with
  | zero => rfl
  | succ n => rw [takeFrames, h]

theorem framesOf_of_some {buf frame rest : List Char} (h : splitFrame buf = some (frame, rest)) :
    framesOf buf = (frame :: (framesOf rest).1, (framesOf rest).2) := by
  have ⟨hbuf, hlen⟩ := splitFrame_eq h
  have hlength := congrArg List.length hbuf
  rw [List.length_append] at hlength
  unfold framesOf
  obtain ⟨n, hn⟩ : ∃ n, buf.length = n + 1 := ⟨buf.length - 1, by omega⟩
  rw [hn, takeFrames, h]
  simp only
  rw [@takeFrames_fuel _ rest.length _ (by omega) le_rfl]

/-- Text read in two pieces has the frames of the whole. -/
theorem framesOf_append (buf more : List Char) :
    framesOf (buf ++ more) = ((framesOf buf).1 ++ (framesOf ((framesOf buf).2 ++ more)).1,
      (framesOf ((framesOf buf).2 ++ more)).2) := by
  induction hn : buf.length using Nat.strong_induction_on generalizing buf with
  | _ n ih =>
      cases hsplit : splitFrame buf with
      | none => rw [framesOf_of_none hsplit, List.nil_append]
      | some p =>
          have ⟨hbuf, hlen⟩ := @splitFrame_eq _ p.1 p.2 hsplit
          have hlength := congrArg List.length hbuf
          rw [List.length_append] at hlength
          rw [framesOf_of_some (splitFrame_append hsplit more), framesOf_of_some hsplit,
            ih p.2.length (by omega) p.2 rfl]
          rfl

/-! ## Frames as they are written -/

/-- A line: no newline and no carriage return in it. -/
def IsLine (text : List Char) : Prop := '\n' ∉ text ∧ '\r' ∉ text

namespace Frame

/-- What the writers keep to: a version and a JSON text are one line each, a JSON
text starts with its brace, and is read as the event that was printed. -/
def Written (w : Wire E) : Frame E → Prop
  | .event ev => IsLine (w.version ev) ∧ IsLine (w.toJson ev) ∧
      (∃ c cs, w.toJson ev = c :: cs ∧ isWhitespace c = false) ∧
      w.fromJson (w.toJson ev) = some ev
  | .comment text => IsLine text

end Frame

theorem isLine_append {a b : List Char} (ha : IsLine a) (hb : IsLine b) : IsLine (a ++ b) := by
  constructor
  · exact List.not_mem_append ha.1 hb.1
  · exact List.not_mem_append ha.2 hb.2

theorem lines_of_written {w : Wire E} {f : Frame E} (h : f.Written w) :
    ∀ l ∈ f.lines w, IsLine l ∧ l ≠ [] := by
  cases f with
  | event ev =>
      intro l hl
      rw [Frame.lines, List.mem_cons, List.mem_singleton] at hl
      rcases hl with rfl | rfl
      · exact ⟨isLine_append ⟨by decide, by decide⟩ h.1, by simp⟩
      · exact ⟨isLine_append ⟨by decide, by decide⟩ h.2.1, by simp⟩
  | comment text =>
      intro l hl
      rw [Frame.lines, List.mem_singleton] at hl
      rw [hl]
      exact ⟨isLine_append (a := [':']) ⟨by decide, by decide⟩ h, by simp⟩

theorem splitFrame_line {l : List Char} (hl : '\n' ∉ l) (rest : List Char) :
    splitFrame (l ++ rest) = (splitFrame rest).map fun p => (l ++ p.1, p.2) := by
  induction l with
  | nil => simp
  | cons c cs ih =>
      rw [List.mem_cons, not_or] at hl
      rw [List.cons_append, splitFrame, if_neg fun h => hl.1 h.1.symm, ih hl.2, Option.map_map]
      rfl

/-- Lines and a blank one are split off whole. -/
theorem splitFrame_lines {ls : List (List Char)} (hne : ls ≠ [])
    (hls : ∀ l ∈ ls, IsLine l ∧ l ≠ []) (rest : List Char) :
    splitFrame (ls.flatMap (· ++ ['\n']) ++ '\n' :: rest) =
      some (ls.flatMap (· ++ ['\n']) ++ ['\n'], rest) := by
  induction ls with
  | nil => exact absurd rfl hne
  | cons l ls ih =>
      have ⟨hl, hls'⟩ := List.forall_mem_cons.mp hls
      rw [List.flatMap_cons, List.append_assoc, List.append_assoc, splitFrame_line hl.1.1]
      cases ls with
      | nil => simp [splitFrame]
      | cons l' ls =>
          have hrest := ih (List.cons_ne_nil _ _) hls'
          obtain ⟨c, cs, hc⟩ := List.exists_cons_of_ne_nil (hls' l' List.mem_cons_self).2
          have hcn : c ≠ '\n' := by
            intro heq
            refine (hls' l' List.mem_cons_self).1.1 ?_
            rw [hc, heq]
            exact List.mem_cons_self
          have hstep : splitFrame (['\n'] ++ ((l' :: ls).flatMap (· ++ ['\n']) ++ '\n' :: rest)) =
              (splitFrame ((l' :: ls).flatMap (· ++ ['\n']) ++ '\n' :: rest)).map
                fun p => ('\n' :: p.1, p.2) := by
            rw [List.singleton_append, splitFrame, if_neg]
            rw [List.flatMap_cons, hc]
            simpa using hcn
          rw [hstep, hrest]
          simp

theorem splitFrame_write {w : Wire E} {f : Frame E} (h : f.Written w) (rest : List Char) :
    splitFrame (f.write w ++ rest) = some (f.write w, rest) := by
  have hne : f.lines w ≠ [] := by cases f <;> exact List.cons_ne_nil _ _
  unfold Frame.write
  rw [List.append_assoc, List.singleton_append]
  exact splitFrame_lines hne (lines_of_written h) rest

theorem splitOn_lines {ls : List (List Char)} (hls : ∀ l ∈ ls, IsLine l ∧ l ≠ []) :
    (ls.flatMap (· ++ ['\n']) ++ ['\n']).splitOn '\n' = ls ++ [[], []] := by
  induction ls with
  | nil => rfl
  | cons l ls ih =>
      have ⟨hl, hls'⟩ := List.forall_mem_cons.mp hls
      rw [List.flatMap_cons, List.append_assoc, List.append_assoc, List.singleton_append,
        List.splitOn_append_cons_self_of_not_mem hl.1.1, ih hls']
      rfl

theorem stripReturn_line {l : List Char} (hl : IsLine l) : stripReturn l = l := by
  unfold stripReturn
  rw [if_neg]
  intro hlast
  exact hl.2 (List.mem_of_getLast? hlast)

theorem lines_write {w : Wire E} {f : Frame E} (h : f.Written w) :
    lines (f.write w) = f.lines w ++ [[]] := by
  have hls := lines_of_written h
  have hparts : (f.lines w ++ [[], []]).getLast? = some [] := by simp
  have hdrop : (f.lines w ++ [[], []]).dropLast = f.lines w ++ [[]] := by
    rw [show f.lines w ++ [[], []] = (f.lines w ++ [[]]) ++ [[]] by simp, List.dropLast_concat]
  unfold lines Frame.write
  simp only [splitOn_lines hls]
  rw [if_pos hparts, hdrop, List.map_append]
  have hkept : (f.lines w).map stripReturn = (f.lines w).map id :=
    List.map_congr_left fun l hl => stripReturn_line (hls l hl).1
  rw [hkept, List.map_id]
  rfl

/-- The data of a frame as it was written is read as its event, or as none. -/
theorem fromJson_dataOf {w : Wire E} (hempty : w.fromJson [] = none) {f : Frame E}
    (h : f.Written w) : w.fromJson (dataOf (f.write w)) = f.event? := by
  unfold dataOf
  rw [lines_write h]
  cases f with
  | event ev =>
      obtain ⟨_, _, ⟨c, cs, hjson, hc⟩, hread⟩ := h
      have hdata : dropPrefix? "data:".toList ("data: ".toList ++ w.toJson ev) =
          some (' ' :: w.toJson ev) := by
        unfold dropPrefix?
        rw [if_pos ⟨' ' :: w.toJson ev, rfl⟩]
        rfl
      have htrim : (' ' :: w.toJson ev).dropWhile isWhitespace = w.toJson ev := by
        rw [List.dropWhile_cons, if_pos (by decide), hjson, List.dropWhile_cons, hc]
        rfl
      have hid : dropPrefix? "data:".toList ("id: ".toList ++ w.version ev) = none := by
        unfold dropPrefix?
        rw [if_neg]
        rintro ⟨t, ht⟩
        cases ht
      have hblank : dropPrefix? "data:".toList [] = none := rfl
      rw [Frame.lines, List.cons_append, List.cons_append, List.nil_append]
      rw [List.filterMap_cons, hid, List.filterMap_cons, hdata, List.filterMap_cons, hblank]
      simp only [Option.map_none, Option.map_some, List.filterMap_nil, htrim,
        List.flatten_cons, List.flatten_nil, List.append_nil]
      exact hread
  | comment text =>
      have hcomment : dropPrefix? "data:".toList (':' :: text) = none := by
        unfold dropPrefix?
        rw [if_neg]
        rintro ⟨t, ht⟩
        cases ht
      have hblank : dropPrefix? "data:".toList [] = none := rfl
      rw [Frame.lines, List.singleton_append, List.filterMap_cons, hcomment, List.filterMap_cons,
        hblank]
      exact hempty

/-! ## The stream -/

/-- The start of a frame that is not all of it. -/
def Unfinished (w : Wire E) (text : List Char) : Prop :=
  ∃ (f : Frame E) (more : List Char), f.Written w ∧ more ≠ [] ∧ text ++ more = f.write w

theorem splitFrame_unfinished {w : Wire E} {text : List Char} (h : Unfinished w text) :
    splitFrame text = none := by
  obtain ⟨f, more, hf, hmore, heq⟩ := h
  cases hsplit : splitFrame text with
  | none => rfl
  | some p =>
      -- a frame inside the start would be split off the whole as well
      have hwhole := @splitFrame_append _ p.1 p.2 hsplit more
      have hwrite := splitFrame_write hf []
      rw [List.append_nil, ← heq, hwhole, Option.some.injEq, Prod.mk.injEq] at hwrite
      have hnone := (List.append_eq_nil_iff.mp hwrite.2).2
      exact absurd hnone hmore

theorem framesOf_write {w : Wire E} {frames : List (Frame E)} (hframes : ∀ f ∈ frames, f.Written w)
    {rest : List Char} (hrest : splitFrame rest = none) :
    framesOf (frames.flatMap (·.write w) ++ rest) = (frames.map (·.write w), rest) := by
  induction frames with
  | nil => exact framesOf_of_none hrest
  | cons f frames ih =>
      have ⟨hf, hframes'⟩ := List.forall_mem_cons.mp hframes
      rw [List.flatMap_cons, List.append_assoc, framesOf_of_some (splitFrame_write hf _),
        ih hframes']
      rfl

/-- Text pieces read one after the other leave what the whole text does. -/
theorem readStream_encode (w : Wire E) (texts : List (List Char)) :
    readStream w (texts.map Utf8.encode) =
      ⟨(framesOf texts.flatten).1.filterMap fun frame => w.fromJson (dataOf frame),
        (framesOf texts.flatten).2⟩ := by
  unfold readStream
  induction texts using List.reverseRecOn with
  | nil => rfl
  | append_singleton texts text ih =>
      rw [List.map_append, List.foldl_append, ih, List.flatten_append, framesOf_append,
        List.filterMap_append]
      show Reader.read w _ (Utf8.encode text) = _
      unfold Reader.read
      rw [Utf8.fromUtf8Lossy_encode, List.flatten_singleton]
      rfl

/-- Events come out of a stream as they were written, each once and in order,
and what is left is the unfinished frame, when no chunk ends inside a
character. -/
theorem readStream_events (w : Wire E) (hempty : w.fromJson [] = none) {frames : List (Frame E)}
    (hframes : ∀ f ∈ frames, f.Written w) {rest : List Char}
    (hrest : rest = [] ∨ Unfinished w rest) {chunks : List (List UInt8)}
    (hchunks : chunks.flatten = Utf8.encode (frames.flatMap (·.write w) ++ rest))
    (hwhole : ∀ bytes ∈ chunks, ∃ text, bytes = Utf8.encode text) :
    readStream w chunks = ⟨frames.filterMap Frame.event?, rest⟩ := by
  obtain ⟨texts, rfl⟩ : ∃ texts : List (List Char), chunks = texts.map Utf8.encode := by
    refine ⟨chunks.map Utf8.fromUtf8Lossy, ?_⟩
    rw [List.map_map]
    refine (List.map_id chunks).symm.trans (List.map_congr_left fun bytes hbytes => ?_)
    obtain ⟨text, rfl⟩ := hwhole bytes hbytes
    rw [Function.comp_apply, Utf8.fromUtf8Lossy_encode]
    rfl
  have htext : texts.flatten = frames.flatMap (·.write w) ++ rest := by
    apply Utf8.encode_inj
    rw [← hchunks, Utf8.encode_flatten]
  have hnone : splitFrame rest = none := by
    rcases hrest with rfl | hrest
    · rfl
    · exact splitFrame_unfinished hrest
  rw [readStream_encode, htext, framesOf_write hframes hnone, List.filterMap_map]
  congr 1
  apply List.filterMap_congr
  intro f hf
  exact fromJson_dataOf hempty (hframes f hf)

/-! ## A cell text -/

/-- A change of one cell's text. -/
structure TextChange where
  version : List Char
  text : List Char
deriving DecidableEq

/-- The texts around a change's version and its text in JSON. -/
def jsonParts : List Char × List Char × List Char :=
  ("\x7b\x22version\x22:\x22".toList,
    "\x22,\x22cells\x22:[\x7b\x22measure\x22:7,\x22at\x22:[],\x22value\x22:\x22".toList,
    "\x22\x7d]\x7d".toList)

/-- Changes whose texts need no escape, printed and read. -/
def textWire : Wire TextChange where
  version := TextChange.version
  toJson ev := jsonParts.1 ++ ev.version ++ jsonParts.2.1 ++ ev.text ++ jsonParts.2.2
  fromJson json := do
    let json ← dropPrefix? jsonParts.1 json
    let version := json.takeWhile (· ≠ '\x22')
    let json ← dropPrefix? jsonParts.2.1 (json.drop version.length)
    let text := json.takeWhile (· ≠ '\x22')
    if json.drop text.length = jsonParts.2.2 then some ⟨version, text⟩ else none

/-- One accented letter. -/
def accent : TextChange := ⟨['1'], ['é']⟩

theorem written_accent : (Frame.event accent).Written textWire :=
  ⟨⟨by decide, by decide⟩, ⟨by decide, by decide⟩, ⟨_, _, rfl, by decide⟩, by decide⟩

/-- A comment and a change, cut between the newlines of the comment. -/
theorem readStream_events_accent :
    readStream textWire
      ([":\n".toList, '\n' :: (Frame.event accent).write textWire].map Utf8.encode) =
      ⟨[accent], []⟩ :=
  @readStream_events _ textWire (by decide) [.comment [], .event accent]
    (by
      intro f hf
      rw [List.mem_cons, List.mem_singleton] at hf
      rcases hf with rfl | rfl
      · exact ⟨by decide, by decide⟩
      · exact written_accent)
    [] (.inl rfl) _ (by decide) (by
      intro bytes hbytes
      obtain ⟨text, _, rfl⟩ := List.mem_map.mp hbytes
      exact ⟨text, rfl⟩)

/-- The same change cut inside its letter comes out with another text. -/
theorem readStream_cut_accent :
    (Frame.event accent).Written textWire ∧
      ∃ cut, readStream textWire [(Utf8.encode ((Frame.event accent).write textWire)).take cut,
        (Utf8.encode ((Frame.event accent).write textWire)).drop cut] =
        ⟨[⟨['1'], ['\uFFFD', '\uFFFD']⟩], []⟩ :=
  ⟨written_accent, 67, by decide⟩

end Improv.GuiWeb
