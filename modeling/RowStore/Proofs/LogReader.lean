import RowStore.Proofs.CheckedReads

/-!
# What the log reader accepts

The reader of a log accepts a byte string if and only if it is what some records are written as, one behind the other,
and then returns these records. Where a written log is cut, the reader finds the records in front of the cut. It
returns them if the cut lies between two records, and otherwise says how many they are, and whether it is the header
of the next record or its images that are cut.
-/

namespace RowStore.UpdateRecord

variable {whole : Nat} {bs rest part cut : Bytes} {r : UpdateRecord} {rs : List UpdateRecord}

theorem ofNat_field {offset width : Nat} (h : offset + width ≤ bs.length) :
    Bytes.ofNat width (field bs offset width) = (bs.drop offset).take width ∧
      field bs offset width < Nat.pow 256 width := by
  have hlength : ((bs.drop offset).take width).length = width := by
    rw [List.length_take, List.length_drop]
    omega
  have hwrite := Bytes.ofNat_toNat ((bs.drop offset).take width)
  have hlt := Bytes.toNat_lt ((bs.drop offset).take width)
  rw [hlength] at hwrite hlt
  exact ⟨hwrite, hlt⟩

/-- The bytes from a field on are those that write its number, and the bytes behind it. -/
theorem drop_eq_field {offset width : Nat} (h : offset + width ≤ bs.length) :
    bs.drop offset = Bytes.ofNat width (field bs offset width) ++ bs.drop (offset + width) := by
  rw [(ofNat_field h).1, ← List.drop_drop, List.take_append_drop]

/-- A record that is taken off the front of some bytes is written there, and its numbers fit its header. -/
theorem eq_of_decode (h : decode whole bs = .ok (r, rest)) : r.Storable ∧ bs = r.encode ++ rest := by
  unfold decode at h
  split at h
  · cases h
  · rename_i hheader
    have hsize : 24 ≤ bs.length := Nat.le_of_not_lt hheader
    simp only at h
    split at h
    · cases h
    · rename_i himages
      cases h
      have hbefore : ((bs.drop headerSize).take (field bs 16 4)).length = field bs 16 4 := by
        rw [List.length_take]
        omega
      have hafter : (((bs.drop headerSize).drop (field bs 16 4)).take (field bs 20 4)).length = field bs 20 4 := by
        rw [List.length_take, List.length_drop]
        omega
      refine ⟨⟨(ofNat_field (by omega)).2, (ofNat_field (by omega)).2, (ofNat_field (by omega)).2, ?_, ?_⟩, ?_⟩
      · rw [hbefore]
        exact (ofNat_field (by omega)).2
      · rw [hafter]
        exact (ofNat_field (by omega)).2
      · have h₀ : bs.drop 0 = Bytes.ofNat 8 (field bs 0 8) ++ bs.drop 8 := drop_eq_field (by omega)
        have h₈ : bs.drop 8 = Bytes.ofNat 4 (field bs 8 4) ++ bs.drop 12 := drop_eq_field (by omega)
        have h₁₂ : bs.drop 12 = Bytes.ofNat 4 (field bs 12 4) ++ bs.drop 16 := drop_eq_field (by omega)
        have h₁₆ : bs.drop 16 = Bytes.ofNat 4 (field bs 16 4) ++ bs.drop 20 := drop_eq_field (by omega)
        have h₂₀ : bs.drop 20 = Bytes.ofNat 4 (field bs 20 4) ++ bs.drop headerSize := drop_eq_field (by omega)
        have himage : bs.drop headerSize = (bs.drop headerSize).take (field bs 16 4) ++
            (((bs.drop headerSize).drop (field bs 16 4)).take (field bs 20 4) ++
              (bs.drop headerSize).drop (field bs 16 4 + field bs 20 4)) := by
          rw [← List.drop_drop, List.take_append_drop, List.take_append_drop]
        unfold encode
        simp only [hbefore, hafter, List.append_assoc]
        rw [← himage, ← h₂₀, ← h₁₆, ← h₁₂, ← h₈, ← h₀, List.drop_zero]

/-- A reader that succeeds has come to the end, or has read one record and then the others. -/
theorem readFrom_eq_ok (h : readFrom whole bs = .ok rs) :
    (bs = [] ∧ rs = []) ∨ ∃ r rest later, decode whole bs = .ok (r, rest) ∧ readFrom (whole + 1) rest = .ok later ∧
      rs = r :: later := by
  by_cases hend : bs = []
  · subst hend
    rw [readFrom] at h
    cases h
    exact .inl ⟨rfl, rfl⟩
  · cases hd : decode whole bs with
    | error damage =>
      rw [readFrom_of_error hend hd] at h
      cases h
    | ok first =>
      obtain ⟨r, rest⟩ := first
      rw [readFrom_of_ok hd] at h
      cases hlater : readFrom (whole + 1) rest with
      | error damage =>
        rw [hlater] at h
        cases h
      | ok later =>
        rw [hlater] at h
        cases h
        exact .inr ⟨r, rest, later, rfl, hlater, rfl⟩

/-- The records that are read from some bytes are written as these bytes. -/
theorem eq_of_readFrom (h : readFrom whole bs = .ok rs) : (∀ r ∈ rs, r.Storable) ∧ rs.flatMap encode = bs := by
  induction rs generalizing whole bs with
  | nil =>
    obtain ⟨rfl, _⟩ | ⟨_, _, _, _, _, hnil⟩ := readFrom_eq_ok h
    · exact ⟨nofun, rfl⟩
    · cases hnil
  | cons r rs ih =>
    obtain ⟨_, hnil⟩ | ⟨_, rest, _, hd, hlater, hcons⟩ := readFrom_eq_ok h
    · cases hnil
    · cases hcons
      obtain ⟨hr, rfl⟩ := eq_of_decode hd
      obtain ⟨hrs, hrest⟩ := ih hlater
      exact ⟨List.forall_mem_cons.mpr ⟨hr, hrs⟩, by rw [List.flatMap_cons, hrest]⟩

theorem readAll_eq_ok_iff : readAll bs = .ok rs ↔ readFrom 0 bs = .ok rs := by
  unfold readAll
  cases readFrom 0 bs <;> simp

/-- A byte string is what the first `whole` records are written as and a part of the next one, which is shorter than
it. -/
structure CutAfter (rs : List UpdateRecord) (whole : Nat) (part cut : Bytes) : Prop where
  bytes : cut = (rs.take whole).flatMap encode ++ part
  whole_le : whole ≤ rs.length
  part_lt : part = [] ∨ ∃ r, rs[whole]? = some r ∧ part <+: r.encode ∧ part ≠ r.encode

theorem exists_cutAfter (h : cut <+: rs.flatMap encode) : ∃ whole part, CutAfter rs whole part cut := by
  induction rs generalizing cut with
  | nil =>
    obtain rfl := List.prefix_nil.mp h
    exact ⟨0, [], rfl, Nat.le_refl 0, .inl rfl⟩
  | cons r rs ih =>
    rw [List.flatMap_cons] at h
    -- The cut lies in the first record or behind it.
    rcases Nat.lt_or_ge cut.length r.encode.length with hlt | hge
    · refine ⟨0, cut, rfl, Nat.zero_le _, .inr ⟨r, rfl, ?_, fun he => ?_⟩⟩
      · exact List.prefix_of_prefix_length_le h (List.prefix_append ..) (Nat.le_of_lt hlt)
      · rw [he] at hlt
        exact Nat.lt_irrefl _ hlt
    · obtain ⟨later, rfl⟩ := List.prefix_of_prefix_length_le (List.prefix_append r.encode _) h hge
      obtain ⟨whole, part, hbytes, hle, hpart⟩ := ih ((List.prefix_append_right_inj r.encode).mp h)
      refine ⟨whole + 1, part, ?_, Nat.succ_le_succ hle, hpart⟩
      rw [hbytes, List.take_succ_cons, List.flatMap_cons, List.append_assoc]

/-- Where a record is cut off, the reader misses its header or its images. -/
theorem decode_part (h : r.Storable) (hp : part <+: r.encode) (hne : part ≠ r.encode) (whole : Nat) :
    decode whole part = .error (if part.length < headerSize then .header whole else .images whole) := by
  by_cases hheader : part.length < headerSize
  · rw [decode, if_pos hheader, if_pos hheader]
  · rw [if_neg hheader]
    have hlt : part.length < r.encode.length :=
      Nat.lt_of_le_of_ne hp.length_le fun hl => hne (hp.eq_of_length hl)
    -- The whole header is there, so the reader knows how long the images should be.
    rw [encode_eq_header, List.append_assoc] at hp hlt
    obtain ⟨images, rfl⟩ := List.prefix_of_prefix_length_le (List.prefix_append r.header _) hp
      (by rw [length_header]; exact Nat.le_of_not_lt hheader)
    obtain ⟨_, _, _, hbefore, hafter⟩ := field_header h images
    have hshort : images.length < r.before.length + r.after.length := by
      simp only [List.length_append] at hlt
      omega
    rw [decode, if_neg hheader]
    simp only [hbefore, hafter, List.drop_left' (length_header r), if_pos hshort]

/-- A log that is cut is read up to the cut. -/
theorem readAll_of_cutAfter (hs : ∀ r ∈ rs, r.Storable) (h : CutAfter rs whole part cut) :
    readAll cut = if part = [] then .ok (rs.take whole)
      else .error (.corruptedLog (if part.length < headerSize then .header whole else .images whole)) := by
  obtain ⟨rfl, hle, hpart⟩ := h
  have htaken : ∀ r ∈ rs.take whole, r.Storable := fun r hr => hs r (List.mem_of_mem_take hr)
  have hread := readFrom_append htaken 0 part
  rw [List.length_take, Nat.min_eq_left hle, Nat.zero_add] at hread
  rw [readAll, hread]
  by_cases hnil : part = []
  · rw [if_pos hnil, hnil, readFrom]
    exact congrArg Except.ok (List.append_nil _)
  · obtain ⟨r, hr, hprefix, hne⟩ := hpart.resolve_left hnil
    rw [if_neg hnil, readFrom_of_error hnil (decode_part (hs r (List.mem_of_getElem? hr)) hprefix hne whole)]
    rfl

/-- The reader accepts a byte string if and only if it is what some records are written as, and then it returns these.
Of a written log that is cut anywhere it returns the records in front of the cut if the cut lies between two records,
and otherwise it says how many there are. It reads no byte behind the end of a log, whatever is in it, and makes no
more passes than headers would fit into it and one more. -/
theorem log_reader_exact :
    (∀ bs rs, readAll bs = .ok rs ↔ (∀ r ∈ rs, r.Storable) ∧ rs.flatMap encode = bs) ∧
    (∀ rs, (∀ r ∈ rs, r.Storable) → ∀ cut, cut <+: rs.flatMap encode →
      (∃ whole part, CutAfter rs whole part cut) ∧
      ∀ whole part, CutAfter rs whole part cut →
        readAll cut = if part = [] then .ok (rs.take whole)
          else .error (.corruptedLog (if part.length < headerSize then .header whole else .images whole))) ∧
    ∀ bs, readWithin bs (bs.length / headerSize + 1) 0 0 = some (readFrom 0 bs) := by
  refine ⟨fun bs rs => ⟨fun h => eq_of_readFrom (readAll_eq_ok_iff.mp h), ?_⟩,
    fun rs hs cut hcut => ⟨exists_cutAfter hcut, fun whole part h => readAll_of_cutAfter hs h⟩, readWithin_all⟩
  rintro ⟨hs, rfl⟩
  exact readAll_flatMap hs

/-- A record whose image looks like a header, and another one behind it: the log is cut between them, in the header of
the second and in its images. -/
theorem log_reader_exact_of_two_records :
    let first : UpdateRecord := ⟨⟨7⟩, ⟨⟨3⟩, 9⟩, encode ⟨⟨7⟩, ⟨⟨3⟩, 9⟩, [], []⟩, []⟩
    let second : UpdateRecord := ⟨⟨8⟩, ⟨⟨3⟩, 9⟩, [1, 2], [3]⟩
    let log := [first, second].flatMap encode
    log.length = 75 ∧ readAll log = .ok [first, second] ∧ readAll (log.take 48) = .ok [first] ∧
      readAll (log.take 71) = .error (.corruptedLog (.header 1)) ∧
      readAll (log.take 74) = .error (.corruptedLog (.images 1)) := by
  intro first second log
  have hs : ∀ r ∈ [first, second], r.Storable := by
    intro r hr
    obtain rfl | rfl : r = first ∨ r = second := by simpa using hr
    all_goals exact ⟨by decide, by decide, by decide, by decide, by decide⟩
  have hcut : ∀ n, n < second.encode.length →
      CutAfter [first, second] 1 (second.encode.take n) (log.take (48 + n)) := by
    intro n hn
    refine ⟨?_, by decide, .inr ⟨second, rfl, List.take_prefix .., fun he => ?_⟩⟩
    · have hlength : first.encode.length = 48 := by decide
      show (first.encode ++ (second.encode ++ [])).take (48 + n) = first.encode ++ [] ++ second.encode.take n
      rw [List.append_nil, List.append_nil, ← hlength, List.take_length_add_append]
    · rw [he.symm, List.length_take] at hn
      omega
  have hread : ∀ n, n < second.encode.length → readAll (log.take (48 + n)) = _ := fun n hn =>
    (log_reader_exact.2.1 _ hs _ (List.take_prefix ..)).2 1 _ (hcut n hn)
  exact ⟨by decide, (log_reader_exact.1 _ _).mpr ⟨hs, rfl⟩, hread 0 (by decide), hread 23 (by decide),
    hread 26 (by decide)⟩

end RowStore.UpdateRecord
