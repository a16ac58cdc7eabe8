import RowStore.Text.Utf8

/-!
# Reading back UTF-8 text

The byte-at-a-time reader gives back every character of a text that was written as UTF-8. The reader narrows the
second byte of a long character so that overlong forms and surrogates are left out; a character's own value is
never one of these, which is what its validity says. Text that is filled up with spaces reads back as the text
and the spaces, so cutting the spaces at the end forgets exactly the padding.
-/

namespace RowStore.Text

/-- What a byte inside a character adds, if it is in the range that the reader expects. -/
theorem readFrom_inside {missing high n : Nat} {low top : UInt8} (rest : Bytes)
    (hn : n < 256) (hl : low.toNat ≤ n) (ht : n ≤ top.toNat) :
    readFrom (.inside (missing + 1) high low top) (UInt8.ofNat n :: rest) =
      readFrom (.inside missing (high * 64 + n % 64) 0x80 0xBF) rest := by
  have hb : (UInt8.ofNat n).toNat = n := by simp only [UInt8.toNat_ofNat']; omega
  have hr : low ≤ UInt8.ofNat n ∧ UInt8.ofNat n ≤ top := by
    rw [UInt8.le_iff_toNat_le, UInt8.le_iff_toNat_le, hb]
    exact ⟨hl, ht⟩
  rw [readFrom, if_pos hr, hb]

/-- The last byte of a character gives the character. -/
theorem readFrom_last {high n : Nat} {low top : UInt8} (rest : Bytes)
    (hn : n < 256) (hl : low.toNat ≤ n) (ht : n ≤ top.toNat) :
    readFrom (.inside 0 high low top) (UInt8.ofNat n :: rest) =
      Char.ofNat (high * 64 + n % 64) :: readFrom .idle rest := by
  have hb : (UInt8.ofNat n).toNat = n := by simp only [UInt8.toNat_ofNat']; omega
  have hr : low ≤ UInt8.ofNat n ∧ UInt8.ofNat n ≤ top := by
    rw [UInt8.le_iff_toNat_le, UInt8.le_iff_toNat_le, hb]
    exact ⟨hl, ht⟩
  rw [readFrom, if_pos hr, hb]

theorem scalar_value (c : Char) :
    c.val.toNat < 0xD800 ∨ (0xDFFF < c.val.toNat ∧ c.val.toNat < 0x110000) := c.valid

theorem readFrom_one (c : Char) (rest : Bytes) (hc : c.val.toNat ≤ 0x7F) :
    readFrom .idle (UInt8.ofNat c.val.toNat :: rest) = c :: readFrom .idle rest := by
  have hb : (UInt8.ofNat c.val.toNat).toNat = c.val.toNat := by
    simp only [UInt8.toNat_ofNat']
    omega
  have hlead : lead (UInt8.ofNat c.val.toNat) = ([Char.ofNat c.val.toNat], .idle) := by
    unfold lead
    simp only [hb]
    rw [if_pos (by omega)]
  have hchar : Char.ofNat c.val.toNat = c := Char.ofNat_toNat c
  rw [readFrom, hlead, hchar]
  rfl

theorem readFrom_two (c : Char) (rest : Bytes) (hl : 0x7F < c.val.toNat) (ht : c.val.toNat ≤ 0x7FF) :
    readFrom .idle (UInt8.ofNat (c.val.toNat / 64 % 0x20 + 0xC0) ::
      UInt8.ofNat (c.val.toNat % 0x40 + 0x80) :: rest) = c :: readFrom .idle rest := by
  generalize hv : c.val.toNat = v at hl ht
  have hb : (UInt8.ofNat (v / 64 % 0x20 + 0xC0)).toNat = v / 64 + 0xC0 := by
    simp only [UInt8.toNat_ofNat']
    omega
  have hlead : lead (UInt8.ofNat (v / 64 % 0x20 + 0xC0)) = ([], .inside 0 (v / 64) 0x80 0xBF) := by
    unfold lead
    simp only [hb]
    rw [if_neg (by omega), if_neg (by omega), if_pos (by omega), Nat.add_sub_cancel]
  have hval : v / 64 * 64 + (v % 0x40 + 0x80) % 64 = v := by omega
  have hchar : Char.ofNat v = c := by rw [← hv]; exact Char.ofNat_toNat c
  rw [readFrom, hlead, readFrom_last rest (by omega) (by simp) (by simp; omega), hval, hchar]
  rfl

theorem readFrom_three (c : Char) (rest : Bytes) (hl : 0x7FF < c.val.toNat) (ht : c.val.toNat ≤ 0xFFFF) :
    readFrom .idle (UInt8.ofNat (c.val.toNat / 4096 % 0x10 + 0xE0) ::
      UInt8.ofNat (c.val.toNat / 64 % 0x40 + 0x80) ::
      UInt8.ofNat (c.val.toNat % 0x40 + 0x80) :: rest) = c :: readFrom .idle rest := by
  have hscalar := scalar_value c
  generalize hv : c.val.toNat = v at hl ht hscalar
  have hb : (UInt8.ofNat (v / 4096 % 0x10 + 0xE0)).toNat = v / 4096 + 0xE0 := by
    simp only [UInt8.toNat_ofNat']
    omega
  have hmid : v / 4096 * 64 + (v / 64 % 0x40 + 0x80) % 64 = v / 64 := by omega
  have hval : v / 64 * 64 + (v % 0x40 + 0x80) % 64 = v := by omega
  have hchar : Char.ofNat v = c := by rw [← hv]; exact Char.ofNat_toNat c
  -- the range of the second byte depends on the first
  by_cases h0 : v / 4096 = 0
  · have hlead : lead (UInt8.ofNat (v / 4096 % 0x10 + 0xE0)) = ([], .inside 1 (v / 4096) 0xA0 0xBF) := by
      unfold lead
      simp only [hb]
      rw [if_neg (by omega), if_neg (by omega), if_neg (by omega), if_pos (by omega), h0]
    rw [readFrom, hlead, readFrom_inside _ (by omega) (by simp; omega) (by simp; omega), hmid,
      readFrom_last rest (by omega) (by simp) (by simp; omega), hval, hchar]
    rfl
  by_cases hd : v / 4096 = 0xD
  · have hlead : lead (UInt8.ofNat (v / 4096 % 0x10 + 0xE0)) = ([], .inside 1 (v / 4096) 0x80 0x9F) := by
      unfold lead
      simp only [hb]
      rw [if_neg (by omega), if_neg (by omega), if_neg (by omega), if_neg (by omega), if_pos (by omega), hd]
    rw [readFrom, hlead, readFrom_inside _ (by omega) (by simp) (by simp; omega), hmid,
      readFrom_last rest (by omega) (by simp) (by simp; omega), hval, hchar]
    rfl
  · have hlead : lead (UInt8.ofNat (v / 4096 % 0x10 + 0xE0)) = ([], .inside 1 (v / 4096) 0x80 0xBF) := by
      unfold lead
      simp only [hb]
      rw [if_neg (by omega), if_neg (by omega), if_neg (by omega), if_neg (by omega), if_neg (by omega),
        if_pos (by omega), Nat.add_sub_cancel]
    rw [readFrom, hlead, readFrom_inside _ (by omega) (by simp) (by simp; omega), hmid,
      readFrom_last rest (by omega) (by simp) (by simp; omega), hval, hchar]
    rfl

theorem readFrom_four (c : Char) (rest : Bytes) (hl : 0xFFFF < c.val.toNat) :
    readFrom .idle (UInt8.ofNat (c.val.toNat / 262144 % 0x08 + 0xF0) ::
      UInt8.ofNat (c.val.toNat / 4096 % 0x40 + 0x80) ::
      UInt8.ofNat (c.val.toNat / 64 % 0x40 + 0x80) ::
      UInt8.ofNat (c.val.toNat % 0x40 + 0x80) :: rest) = c :: readFrom .idle rest := by
  have hscalar := scalar_value c
  generalize hv : c.val.toNat = v at hl hscalar
  have hb : (UInt8.ofNat (v / 262144 % 0x08 + 0xF0)).toNat = v / 262144 + 0xF0 := by
    simp only [UInt8.toNat_ofNat']
    omega
  have hfirst : v / 262144 * 64 + (v / 4096 % 0x40 + 0x80) % 64 = v / 4096 := by omega
  have hmid : v / 4096 * 64 + (v / 64 % 0x40 + 0x80) % 64 = v / 64 := by omega
  have hval : v / 64 * 64 + (v % 0x40 + 0x80) % 64 = v := by omega
  have hchar : Char.ofNat v = c := by rw [← hv]; exact Char.ofNat_toNat c
  by_cases h0 : v / 262144 = 0
  · have hlead : lead (UInt8.ofNat (v / 262144 % 0x08 + 0xF0)) = ([], .inside 2 (v / 262144) 0x90 0xBF) := by
      unfold lead
      simp only [hb]
      rw [if_neg (by omega), if_neg (by omega), if_neg (by omega), if_neg (by omega), if_neg (by omega),
        if_neg (by omega), if_pos (by omega), h0]
    rw [readFrom, hlead, readFrom_inside _ (by omega) (by simp; omega) (by simp; omega), hfirst,
      readFrom_inside _ (by omega) (by simp) (by simp; omega), hmid,
      readFrom_last rest (by omega) (by simp) (by simp; omega), hval, hchar]
    rfl
  by_cases h4 : v / 262144 = 4
  · have hlead : lead (UInt8.ofNat (v / 262144 % 0x08 + 0xF0)) = ([], .inside 2 (v / 262144) 0x80 0x8F) := by
      unfold lead
      simp only [hb]
      rw [if_neg (by omega), if_neg (by omega), if_neg (by omega), if_neg (by omega), if_neg (by omega),
        if_neg (by omega), if_neg (by omega), if_neg (by omega), if_pos (by omega), h4]
    rw [readFrom, hlead, readFrom_inside _ (by omega) (by simp) (by simp; omega), hfirst,
      readFrom_inside _ (by omega) (by simp) (by simp; omega), hmid,
      readFrom_last rest (by omega) (by simp) (by simp; omega), hval, hchar]
    rfl
  · have hlead : lead (UInt8.ofNat (v / 262144 % 0x08 + 0xF0)) = ([], .inside 2 (v / 262144) 0x80 0xBF) := by
      unfold lead
      simp only [hb]
      rw [if_neg (by omega), if_neg (by omega), if_neg (by omega), if_neg (by omega), if_neg (by omega),
        if_neg (by omega), if_neg (by omega), if_pos (by omega), Nat.add_sub_cancel]
    rw [readFrom, hlead, readFrom_inside _ (by omega) (by simp) (by simp; omega), hfirst,
      readFrom_inside _ (by omega) (by simp) (by simp; omega), hmid,
      readFrom_last rest (by omega) (by simp) (by simp; omega), hval, hchar]
    rfl

/-- The bytes of a character read as the character. -/
theorem readFrom_utf8EncodeChar (c : Char) (rest : Bytes) :
    readFrom .idle (String.utf8EncodeChar c ++ rest) = c :: readFrom .idle rest := by
  unfold String.utf8EncodeChar
  by_cases h1 : c.val.toNat ≤ 0x7F
  · simp only [if_pos h1]
    exact readFrom_one c rest h1
  by_cases h2 : c.val.toNat ≤ 0x7FF
  · simp only [if_neg h1, if_pos h2]
    exact readFrom_two c rest (by omega) h2
  by_cases h3 : c.val.toNat ≤ 0xFFFF
  · simp only [if_neg h1, if_neg h2, if_pos h3]
    exact readFrom_three c rest (by omega) h3
  · simp only [if_neg h1, if_neg h2, if_neg h3]
    exact readFrom_four c rest (by omega)

theorem readUtf8_flatMap (cs : List Char) : readUtf8 (cs.flatMap String.utf8EncodeChar) = cs := by
  unfold readUtf8
  induction cs with
  | nil => rfl
  | cons c rest ih => rw [List.flatMap_cons, readFrom_utf8EncodeChar, ih]

theorem utf8_space (n : Nat) :
    (List.replicate n ' ').flatMap String.utf8EncodeChar = List.replicate n 32 := by
  induction n with
  | zero => rfl
  | succ n ih =>
    rw [List.replicate_succ, List.flatMap_cons, ih]
    rfl

/-- A padded text reads as the text and as many spaces as there are padding bytes. -/
theorem readUtf8_padded (s : String) (n : Nat) :
    readUtf8 (utf8 s ++ List.replicate n 32) = s.toList ++ List.replicate n ' ' := by
  have h := readUtf8_flatMap (s.toList ++ List.replicate n ' ')
  rwa [List.flatMap_append, utf8_space] at h

theorem dropPadding_append_spaces (cs : List Char) (n : Nat) :
    dropPadding (cs ++ List.replicate n ' ') = dropPadding cs := by
  unfold dropPadding
  rw [List.reverse_append, List.reverse_replicate]
  congr 1
  induction n with
  | zero => rfl
  | succ n ih => simp [List.replicate_succ, ih]

/-- Cutting the padding takes off spaces only. -/
theorem exists_dropPadding (cs : List Char) : ∃ n, cs = dropPadding cs ++ List.replicate n ' ' := by
  have hsplit := List.takeWhile_append_dropWhile (p := fun c : Char => decide (c = ' ')) (l := cs.reverse)
  have hspaces : cs.reverse.takeWhile (fun c : Char => decide (c = ' ')) =
      List.replicate (cs.reverse.takeWhile (fun c : Char => decide (c = ' '))).length ' ' := by
    refine List.eq_replicate_iff.mpr ⟨rfl, ?_⟩
    intro c hc
    have h := List.all_eq_true.mp List.all_takeWhile c hc
    simpa using h
  refine ⟨(cs.reverse.takeWhile (fun c : Char => decide (c = ' '))).length, ?_⟩
  have h := congrArg List.reverse hsplit
  rw [List.reverse_append, List.reverse_reverse, hspaces, List.reverse_replicate] at h
  exact h.symm

@[simp] theorem dropPadding_dropPadding (cs : List Char) : dropPadding (dropPadding cs) = dropPadding cs := by
  obtain ⟨n, hn⟩ := exists_dropPadding cs
  have h := dropPadding_append_spaces (dropPadding cs) n
  rw [← hn] at h
  exact h.symm

@[simp] theorem utf8_ofList (cs : List Char) : utf8 (String.ofList cs) = cs.flatMap String.utf8EncodeChar := by
  rw [utf8, String.toList_ofList]

end RowStore.Text
