import Improv.PgModel.PgOutput
/-!
# The decoder accepts the wire format

Each reader of the decoder is exact for the encodings the server may send: first
the cursor's own readers, then tuples, then one lemma per kind of message.
-/

namespace Improv.PgModel.PgOutput

open Improv.Lib.WireFormat

/-! ## Numbers, names and markers -/

theorem u8_exact : Accepts u8 fun n bs => bs = [n] := by
  have hf := fixed_exact DecodeError.truncated 1 (f := UInt8.ofNat) (g := UInt8.toNat)
    (fun a => a.toNat_lt) (fun _ => UInt8.ofNat_toNat)
    fun n hn => Nat.mod_eq_of_lt hn
  refine hf.congr fun n bs => ?_
  simp [toBytes]

theorem u16_exact : Accepts u16 fun n bs => bs = u16Bytes n :=
  fixed_exact DecodeError.truncated 2 (fun a => a.toNat_lt) (fun _ => UInt16.ofNat_toNat)
    fun _ hn => Nat.mod_eq_of_lt hn

theorem u32_exact : Accepts u32 fun n bs => bs = u32Bytes n :=
  fixed_exact DecodeError.truncated 4 (fun a => a.toNat_lt) (fun _ => UInt32.ofNat_toNat)
    fun _ hn => Nat.mod_eq_of_lt hn

theorem u64_exact : Accepts u64 fun n bs => bs = u64Bytes n :=
  fixed_exact DecodeError.truncated 8 (fun a => a.toNat_lt) (fun _ => UInt64.ofNat_toNat)
    fun _ hn => Nat.mod_eq_of_lt hn

theorem i32_exact : Accepts i32 fun n bs => bs = i32Bytes n := by
  refine (u32_exact.map UInt32.toInt32).congr fun n bs => ?_
  constructor
  · rintro ⟨m, rfl, rfl⟩
    rfl
  · intro hbs
    exact ⟨n.toUInt32, hbs, rfl⟩

theorem i64_exact : Accepts i64 fun n bs => bs = i64Bytes n := by
  refine (u64_exact.map UInt64.toInt64).congr fun n bs => ?_
  constructor
  · rintro ⟨m, rfl, rfl⟩
    rfl
  · intro hbs
    exact ⟨n.toUInt64, hbs, rfl⟩

theorem string_exact : Accepts string fun s bs => NameFits s ∧ bs = stringBytes s := by
  refine ((untilZero_exact _).bind (asText_exact _)).congr fun s bs => ?_
  constructor
  · rintro ⟨_, enc, enc', ⟨rfl, hzero⟩, ⟨rfl, rfl⟩, rfl⟩
    exact ⟨hzero, List.append_nil _⟩
  · intro ⟨hzero, hbs⟩
    exact ⟨utf8 s, stringBytes s, [], ⟨rfl, hzero⟩, ⟨rfl, rfl⟩, by rw [hbs, List.append_nil]⟩

theorem marker_exact (ok : List Char) :
    Accepts (marker ok) fun m bs => m ∈ ok.map ascii ∧ bs = [m] := by
  refine (u8_exact.bind fun m => (Accepts.pure m).ite (Accepts.throw _)).congr fun m bs => ?_
  constructor
  · rintro ⟨c, enc, enc', rfl, hite, rfl⟩
    by_cases hc : c ∈ ok.map ascii
    · rw [if_pos hc] at hite
      obtain ⟨rfl, rfl⟩ := hite
      exact ⟨hc, rfl⟩
    · rw [if_neg hc] at hite
      exact hite.elim
  · intro ⟨hm, hbs⟩
    exact ⟨m, [m], [], rfl, (if_pos hm).mpr ⟨rfl, rfl⟩, hbs⟩

/-! ## Tuples -/

theorem u32_toNat_ofNat {n : Nat} (h : n < 256 ^ 4) : (UInt32.ofNat n).toNat = n :=
  Nat.mod_eq_of_lt h

theorem u16_toNat_ofNat {n : Nat} (h : n < 256 ^ 2) : (UInt16.ofNat n).toNat = n :=
  Nat.mod_eq_of_lt h

theorem datum_exact : Accepts datum fun d bs => DatumFits d ∧ bs = datumBytes d := by
  refine (u8_exact.bind fun c => (Accepts.pure Datum.null).ite ((Accepts.pure Datum.unchanged).ite
    ((u32_exact.bind fun len => (take_exact _ len.toNat).bind fun bytes =>
      (asText_exact _ bytes).bind fun s => Accepts.pure (Datum.text s)).ite
        (Accepts.throw _)))).congr fun d bs => ?_
  constructor
  · rintro ⟨c, _, enc, rfl, h, rfl⟩
    split_ifs at h with hn hu ht
    · rw [h.1, h.2, hn]
      exact ⟨trivial, rfl⟩
    · rw [h.1, h.2, hu]
      exact ⟨trivial, rfl⟩
    · obtain ⟨len, _, _, rfl, ⟨_, _, _, ⟨rfl, hlen⟩, ⟨s, _, _, ⟨rfl, rfl⟩, ⟨rfl, rfl⟩, rfl⟩, rfl⟩,
        rfl⟩ := h
      refine ⟨?_, ?_⟩
      · show (utf8 s).length < 256 ^ 4
        rw [hlen]
        exact len.toNat_lt
      · rw [ht, datumBytes, hlen, UInt32.ofNat_toNat, List.append_nil, List.append_nil]
        rfl
  · rintro ⟨hfits, rfl⟩
    cases d with
    | null => exact ⟨ascii 'n', _, [], rfl, (if_pos rfl).mpr ⟨rfl, rfl⟩, rfl⟩
    | unchanged => exact ⟨ascii 'u', _, [], rfl, ⟨rfl, rfl⟩, rfl⟩
    | text s =>
        have hlen := u32_toNat_ofNat hfits
        exact ⟨ascii 't', _, _, rfl, ⟨_, _, _, rfl, ⟨_, _, [], ⟨rfl, hlen.symm⟩,
          ⟨s, [], [], ⟨rfl, rfl⟩, ⟨rfl, rfl⟩, rfl⟩, (List.append_nil _).symm⟩, rfl⟩, rfl⟩

/-- Values in a row, each encoded its one way. -/
theorem list_flatMap {α : Type} (P : α → Prop) (g : α → List UInt8) (as : List α)
    (bs : List UInt8) :
    Format.list (fun a enc => P a ∧ enc = g a) as bs ↔
      (∀ a ∈ as, P a) ∧ bs = as.flatMap g := by
  simpa using Format.list_map id g P as bs

theorem tuple_exact : Accepts tuple fun t bs => TupleFits t ∧ bs = tupleBytes t := by
  refine (u16_exact.bind fun n => datum_exact.times n.toNat).congr fun t bs => ?_
  simp only [list_flatMap]
  constructor
  · rintro ⟨n, _, _, rfl, ⟨hlen, hfits, rfl⟩, rfl⟩
    refine ⟨⟨?_, hfits⟩, ?_⟩
    · rw [hlen]
      exact n.toNat_lt
    · rw [tupleBytes, hlen, UInt16.ofNat_toNat]
  · rintro ⟨⟨hlen, hfits⟩, rfl⟩
    exact ⟨_, _, _, rfl, ⟨(u16_toNat_ofNat hlen).symm, hfits, rfl⟩, rfl⟩

/-! ## Messages -/

/-- The encodings of a message after its first byte. -/
def IsBody (c : UInt8) : Format Message := fun m bs =>
  ∃ w : Sent, w.kind = c ∧ w.Fits ∧ w.message = m ∧ bs = w.bodyBytes

theorem begin_exact : Accepts (body (ascii 'B')) (IsBody (ascii 'B')) := by
  refine (u64_exact.bind fun finalLsn => i64_exact.bind fun commitTs => u32_exact.bind fun xid =>
    Accepts.pure (Message.begin finalLsn commitTs xid)).congr fun m bs => ?_
  constructor
  · rintro ⟨finalLsn, _, _, rfl, ⟨commitTs, _, _, rfl, ⟨xid, _, _, rfl, ⟨rfl, rfl⟩, rfl⟩, rfl⟩,
      rfl⟩
    refine ⟨.begin finalLsn commitTs xid, rfl, trivial, rfl, ?_⟩
    rw [List.append_nil]
    rfl
  · rintro ⟨w, hkind, hfits, rfl, rfl⟩
    cases w with
    | begin finalLsn commitTs xid =>
        refine ⟨_, _, _, rfl, ⟨_, _, _, rfl, ⟨_, _, [], rfl, ⟨rfl, rfl⟩, rfl⟩, rfl⟩, ?_⟩
        rw [List.append_nil]
        rfl
    | _ => exact absurd hkind (by simp only [Sent.kind]; decide)

theorem commit_exact : Accepts (body (ascii 'C')) (IsBody (ascii 'C')) := by
  refine (u8_exact.bind fun flags => u64_exact.bind fun commitLsn => u64_exact.bind fun endLsn =>
    i64_exact.bind fun commitTs =>
      Accepts.pure (Message.commit flags commitLsn endLsn commitTs)).congr fun m bs => ?_
  constructor
  · rintro ⟨flags, _, _, rfl, ⟨commitLsn, _, _, rfl, ⟨endLsn, _, _, rfl,
      ⟨commitTs, _, _, rfl, ⟨rfl, rfl⟩, rfl⟩, rfl⟩, rfl⟩, rfl⟩
    refine ⟨.commit flags commitLsn endLsn commitTs, rfl, trivial, rfl, ?_⟩
    rw [List.append_nil]
    rfl
  · rintro ⟨w, hkind, hfits, rfl, rfl⟩
    cases w with
    | commit flags commitLsn endLsn commitTs =>
        refine ⟨_, _, _, rfl, ⟨_, _, _, rfl, ⟨_, _, _, rfl, ⟨_, _, [], rfl, ⟨rfl, rfl⟩, rfl⟩, rfl⟩,
          rfl⟩, ?_⟩
        rw [List.append_nil]
        rfl
    | _ => exact absurd hkind (by simp only [Sent.kind]; decide)

theorem origin_exact : Accepts (body (ascii 'O')) (IsBody (ascii 'O')) := by
  refine (u64_exact.bind fun lsn => string_exact.bind fun name =>
    Accepts.pure (Message.origin lsn name)).congr fun m bs => ?_
  constructor
  · rintro ⟨lsn, _, _, rfl, ⟨name, _, _, ⟨hname, rfl⟩, ⟨rfl, rfl⟩, rfl⟩, rfl⟩
    refine ⟨.origin lsn name, rfl, hname, rfl, ?_⟩
    rw [List.append_nil]
    rfl
  · rintro ⟨w, hkind, hfits, rfl, rfl⟩
    cases w with
    | origin lsn name =>
        refine ⟨_, _, _, rfl, ⟨_, _, [], ⟨hfits, rfl⟩, ⟨rfl, rfl⟩, rfl⟩, ?_⟩
        rw [List.append_nil]
        rfl
    | _ => exact absurd hkind (by simp only [Sent.kind]; decide)

theorem column_exact :
    Accepts column fun c bs => ∃ w : SentColumn, NameFits w.name ∧ w.column = c ∧
      bs = columnBytes w := by
  refine (u8_exact.bind fun flags => string_exact.bind fun name => u32_exact.bind fun typeOid =>
    i32_exact.bind fun typeMod => Accepts.pure
      (Column.mk (flags &&& 1 = 1) name typeOid typeMod)).congr fun c bs => ?_
  constructor
  · rintro ⟨flags, _, _, rfl, ⟨name, _, _, ⟨hname, rfl⟩, ⟨typeOid, _, _, rfl,
      ⟨typeMod, _, _, rfl, ⟨rfl, rfl⟩, rfl⟩, rfl⟩, rfl⟩, rfl⟩
    refine ⟨⟨flags, name, typeOid, typeMod⟩, hname, rfl, ?_⟩
    rw [List.append_nil]
    rfl
  · rintro ⟨⟨flags, name, typeOid, typeMod⟩, hname, rfl, rfl⟩
    refine ⟨_, _, _, rfl, ⟨_, _, _, ⟨hname, rfl⟩, ⟨_, _, _, rfl, ⟨_, _, [], rfl, ⟨rfl, rfl⟩, rfl⟩,
      rfl⟩, rfl⟩, ?_⟩
    rw [List.append_nil]
    rfl

theorem relation_exact : Accepts (body (ascii 'R')) (IsBody (ascii 'R')) := by
  refine (u32_exact.bind fun id => string_exact.bind fun namespaceName =>
    string_exact.bind fun name => u8_exact.bind fun replicaIdentity => u16_exact.bind fun n =>
      (column_exact.times n.toNat).bind fun columns => Accepts.pure (Message.relation
        ⟨id, namespaceName, name, replicaIdentity, columns⟩)).congr fun m bs => ?_
  simp only [Format.list_map]
  constructor
  · rintro ⟨id, _, _, rfl, ⟨namespaceName, _, _, ⟨hspace, rfl⟩, ⟨name, _, _, ⟨hname, rfl⟩,
      ⟨replicaIdentity, _, _, rfl, ⟨n, _, _, rfl, ⟨_, _, _, ⟨hlen, columns, hcolumns, rfl, rfl⟩,
        ⟨rfl, rfl⟩, rfl⟩, rfl⟩, rfl⟩, rfl⟩, rfl⟩, rfl⟩
    rw [List.length_map] at hlen
    refine ⟨.relation id namespaceName name replicaIdentity columns, rfl,
      ⟨hspace, hname, ?_, hcolumns⟩, rfl, ?_⟩
    · rw [hlen]
      exact n.toNat_lt
    · rw [List.append_nil, Sent.bodyBytes, hlen, UInt16.ofNat_toNat]
      rfl
  · rintro ⟨w, hkind, hfits, rfl, rfl⟩
    cases w with
    | relation id namespaceName name replicaIdentity columns =>
        obtain ⟨hspace, hname, hlen, hcolumns⟩ := hfits
        have hcount := u16_toNat_ofNat hlen
        refine ⟨_, _, _, rfl, ⟨_, _, _, ⟨hspace, rfl⟩, ⟨_, _, _, ⟨hname, rfl⟩, ⟨_, _, _, rfl,
          ⟨.ofNat columns.length, _, _, rfl, ⟨_, _, [], ⟨?_, columns, hcolumns, rfl, rfl⟩,
            ⟨rfl, rfl⟩, rfl⟩, rfl⟩, rfl⟩, rfl⟩, rfl⟩, ?_⟩
        · rw [List.length_map, hcount]
        · rw [List.append_nil]
          rfl
    | _ => exact absurd hkind (by simp only [Sent.kind]; decide)

theorem type_exact : Accepts (body (ascii 'Y')) (IsBody (ascii 'Y')) := by
  refine (u32_exact.bind fun id => string_exact.bind fun namespaceName =>
    string_exact.bind fun name =>
      Accepts.pure (Message.type id namespaceName name)).congr fun m bs => ?_
  constructor
  · rintro ⟨id, _, _, rfl, ⟨namespaceName, _, _, ⟨hspace, rfl⟩, ⟨name, _, _, ⟨hname, rfl⟩,
      ⟨rfl, rfl⟩, rfl⟩, rfl⟩, rfl⟩
    refine ⟨.type id namespaceName name, rfl, ⟨hspace, hname⟩, rfl, ?_⟩
    rw [List.append_nil]
    rfl
  · rintro ⟨w, hkind, hfits, rfl, rfl⟩
    cases w with
    | type id namespaceName name =>
        refine ⟨_, _, _, rfl, ⟨_, _, _, ⟨hfits.1, rfl⟩, ⟨_, _, [], ⟨hfits.2, rfl⟩, ⟨rfl, rfl⟩, rfl⟩,
          rfl⟩, ?_⟩
        rw [List.append_nil]
        rfl
    | _ => exact absurd hkind (by simp only [Sent.kind]; decide)

theorem insert_exact : Accepts (body (ascii 'I')) (IsBody (ascii 'I')) := by
  refine (u32_exact.bind fun rel => (marker_exact ['N']).bind fun _ => tuple_exact.bind fun new =>
    Accepts.pure (Message.insert rel new)).congr fun m bs => ?_
  constructor
  · rintro ⟨rel, _, _, rfl, ⟨mark, _, _, ⟨hmark, rfl⟩, ⟨new, _, _, ⟨hnew, rfl⟩, ⟨rfl, rfl⟩, rfl⟩,
      rfl⟩, rfl⟩
    have hmark := List.mem_singleton.mp hmark
    refine ⟨.insert rel new, rfl, hnew, rfl, ?_⟩
    rw [List.append_nil, hmark]
    rfl
  · rintro ⟨w, hkind, hfits, rfl, rfl⟩
    cases w with
    | insert rel new =>
        refine ⟨_, _, _, rfl, ⟨_, _, _, ⟨List.mem_singleton.mpr rfl, rfl⟩, ⟨_, _, [], ⟨hfits, rfl⟩,
          ⟨rfl, rfl⟩, rfl⟩, rfl⟩, ?_⟩
        rw [List.append_nil]
        rfl
    | _ => exact absurd hkind (by simp only [Sent.kind]; decide)

theorem mem_oldMarkers {m : UInt8} :
    m ∈ ['K', 'O'].map ascii ↔ ∃ mark : OldRow, m = mark.marker := by
  constructor
  · intro h
    rcases List.mem_cons.mp h with h | h
    · exact ⟨.key, h⟩
    · exact ⟨.whole, List.mem_singleton.mp h⟩
  · rintro ⟨mark, rfl⟩
    cases mark with
    | key => decide
    | whole => decide

theorem delete_exact : Accepts (body (ascii 'D')) (IsBody (ascii 'D')) := by
  refine (u32_exact.bind fun rel => (marker_exact ['K', 'O']).bind fun _ =>
    tuple_exact.bind fun old => Accepts.pure (Message.delete rel old)).congr fun m bs => ?_
  constructor
  · rintro ⟨rel, _, _, rfl, ⟨_, _, _, ⟨hmark, rfl⟩, ⟨old, _, _, ⟨hold, rfl⟩, ⟨rfl, rfl⟩, rfl⟩,
      rfl⟩, rfl⟩
    obtain ⟨mark, rfl⟩ := mem_oldMarkers.mp hmark
    refine ⟨.delete rel mark old, rfl, hold, rfl, ?_⟩
    rw [List.append_nil]
    rfl
  · rintro ⟨w, hkind, hfits, rfl, rfl⟩
    cases w with
    | delete rel mark old =>
        refine ⟨_, _, _, rfl, ⟨_, _, _, ⟨mem_oldMarkers.mpr ⟨mark, rfl⟩, rfl⟩, ⟨_, _, [],
          ⟨hfits, rfl⟩, ⟨rfl, rfl⟩, rfl⟩, rfl⟩, ?_⟩
        rw [List.append_nil]
        rfl
    | _ => exact absurd hkind (by simp only [Sent.kind]; decide)

theorem truncate_exact : Accepts (body (ascii 'T')) (IsBody (ascii 'T')) := by
  have hrel : Accepts u32 fun n bs => True ∧ bs = u32Bytes n :=
    u32_exact.congr fun n bs => (true_and _).symm ▸ Iff.rfl
  refine (u32_exact.bind fun n => u8_exact.bind fun options => (hrel.times n.toNat).bind
    fun rels => Accepts.pure (Message.truncate options rels)).congr fun m bs => ?_
  simp only [list_flatMap]
  constructor
  · rintro ⟨n, _, _, rfl, ⟨options, _, _, rfl, ⟨rels, _, _, ⟨hlen, _, rfl⟩, ⟨rfl, rfl⟩, rfl⟩, rfl⟩,
      rfl⟩
    refine ⟨.truncate options rels, rfl, ?_, rfl, ?_⟩
    · show rels.length < 256 ^ 4
      rw [hlen]
      exact n.toNat_lt
    · rw [List.append_nil, Sent.bodyBytes, hlen, UInt32.ofNat_toNat]
      rfl
  · rintro ⟨w, hkind, hfits, rfl, rfl⟩
    cases w with
    | truncate options rels =>
        refine ⟨_, _, _, rfl, ⟨_, _, _, rfl, ⟨_, _, [], ⟨(u32_toNat_ofNat hfits).symm,
          fun _ _ => trivial, rfl⟩, ⟨rfl, rfl⟩, rfl⟩, rfl⟩, ?_⟩
        rw [List.append_nil]
        rfl
    | _ => exact absurd hkind (by simp only [Sent.kind]; decide)

theorem old_exact : Accepts oldTuple fun old bs =>
      ∃ sent : Option (OldRow × Tuple), (∀ p ∈ sent, TupleFits p.2) ∧ sent.map Prod.snd = old ∧
        bs = oldBytes sent ++ [ascii 'N'] := by
  refine ((marker_exact ['K', 'O', 'N']).bind fun m => (Accepts.pure none).ite
    (tuple_exact.bind fun old => (marker_exact ['N']).bind fun _ =>
      Accepts.pure (some old))).congr fun old bs => ?_
  constructor
  · rintro ⟨m, _, enc, ⟨hm, rfl⟩, h, rfl⟩
    split_ifs at h with hn
    · refine ⟨none, by simp, h.1.symm, ?_⟩
      rw [h.2, hn]
      rfl
    · obtain ⟨t, _, _, ⟨ht, rfl⟩, ⟨mark', _, _, ⟨hmark', rfl⟩, ⟨rfl, rfl⟩, rfl⟩, rfl⟩ := h
      have hmark' := List.mem_singleton.mp hmark'
      have hm : m ∈ ['K', 'O'].map ascii := by
        simp only [List.map_cons, List.map_nil, List.mem_cons, List.not_mem_nil, or_false] at hm ⊢
        tauto
      obtain ⟨mark, rfl⟩ := mem_oldMarkers.mp hm
      refine ⟨some (mark, t), ?_, rfl, ?_⟩
      · intro p hp
        rw [← Option.some.inj hp]
        exact ht
      · rw [hmark', List.append_nil]
        rfl
  · rintro ⟨sent, hfits, rfl, rfl⟩
    cases sent with
    | none => exact ⟨ascii 'N', _, [], ⟨by decide, rfl⟩, ⟨rfl, rfl⟩, rfl⟩
    | some p =>
        obtain ⟨mark, t⟩ := p
        have hmem : mark.marker ∈ ['K', 'O', 'N'].map ascii := by cases mark <;> decide
        have hne : mark.marker ≠ ascii 'N' := by cases mark <;> decide
        refine ⟨mark.marker, [mark.marker], tupleBytes t ++ [ascii 'N'], ⟨hmem, rfl⟩,
          (if_neg hne).mpr ?_, rfl⟩
        exact ⟨t, _, _, ⟨hfits _ rfl, rfl⟩, ⟨ascii 'N', [ascii 'N'], [],
          ⟨List.mem_singleton.mpr rfl, rfl⟩, ⟨rfl, rfl⟩, rfl⟩, rfl⟩

theorem update_exact : Accepts (body (ascii 'U')) (IsBody (ascii 'U')) := by
  refine (u32_exact.bind fun rel => old_exact.bind fun old => tuple_exact.bind fun new =>
    Accepts.pure (Message.update rel old new)).congr fun m bs => ?_
  constructor
  · rintro ⟨rel, _, _, rfl, ⟨_, _, _, ⟨old, hold, rfl, rfl⟩, ⟨new, _, _, ⟨hnew, rfl⟩, ⟨rfl, rfl⟩,
      rfl⟩, rfl⟩, rfl⟩
    refine ⟨.update rel old new, rfl, ⟨hold, hnew⟩, rfl, ?_⟩
    rw [List.append_nil, List.append_assoc]
    rfl
  · rintro ⟨w, hkind, hfits, rfl, rfl⟩
    cases w with
    | update rel old new =>
        refine ⟨_, _, _, rfl, ⟨_, _, _, ⟨old, hfits.1, rfl, rfl⟩, ⟨_, _, [], ⟨hfits.2, rfl⟩,
          ⟨rfl, rfl⟩, rfl⟩, rfl⟩, ?_⟩
        rw [List.append_nil, List.append_assoc]
        rfl
    | _ => exact absurd hkind (by simp only [Sent.kind]; decide)

theorem body_exact (c : UInt8) : Accepts (body c) (IsBody c) := by
  by_cases hB : c = ascii 'B'
  · exact hB ▸ begin_exact
  by_cases hC : c = ascii 'C'
  · exact hC ▸ commit_exact
  by_cases hO : c = ascii 'O'
  · exact hO ▸ origin_exact
  by_cases hR : c = ascii 'R'
  · exact hR ▸ relation_exact
  by_cases hY : c = ascii 'Y'
  · exact hY ▸ type_exact
  by_cases hI : c = ascii 'I'
  · exact hI ▸ insert_exact
  by_cases hU : c = ascii 'U'
  · exact hU ▸ update_exact
  by_cases hD : c = ascii 'D'
  · exact hD ▸ delete_exact
  by_cases hT : c = ascii 'T'
  · exact hT ▸ truncate_exact
  rw [body, if_neg hB, if_neg hC, if_neg hO, if_neg hR, if_neg hY, if_neg hI, if_neg hU, if_neg hD,
    if_neg hT]
  refine (Accepts.throw _).congr fun m bs => ?_
  constructor
  · intro hfalse
    exact hfalse.elim
  · intro ⟨w, hkind, _⟩
    cases w <;> exact absurd hkind.symm ‹_›

/-! ## Whole messages -/

/-- The encodings of a decoded message. -/
def Encodes : Format Message := fun m bs => ∃ w : Sent, w.Fits ∧ w.message = m ∧ bs = w.encode

theorem message_exact : Accepts (u8 >>= body) Encodes := by
  refine (u8_exact.bind body_exact).congr fun m bs => ?_
  constructor
  · rintro ⟨c, _, _, rfl, ⟨w, rfl, hfits, rfl, rfl⟩, rfl⟩
    exact ⟨w, hfits, rfl, rfl⟩
  · rintro ⟨w, hfits, rfl, rfl⟩
    exact ⟨w.kind, _, _, rfl, ⟨w, rfl, hfits, rfl, rfl⟩, rfl⟩

/-- The decoder accepts exactly the encodings. -/
theorem decode_eq_ok_iff {bs : List UInt8} {m : Message} : decode bs = .ok m ↔ Encodes m bs :=
  whole_eq_ok_iff message_exact

end Improv.PgModel.PgOutput
