import RowStore.Proofs.RowCodec

/-!
# Cells that are read behind their places

A cell that is read from bytes beginning behind its own, with zeros after them, comes out as its value only if its own
bytes are zeros. For numbers the bytes would have to be the same, and bytes that are their own shift with zeros after
them are zeros. A text that is cut inside a character reads with U+FFFD for each byte left over, so that it has too many
characters unless nothing is cut but whole characters of one byte each.
-/

namespace RowStore

/-- A list that is itself again after some items are dropped and as many copies of one item added consists of these. -/
theorem eq_replicate_of_shifted {α : Type} {x : α} {l : List α} {m : Nat} (hm : 0 < m)
    (h : (l ++ List.replicate m x).drop m = l) : l = List.replicate l.length x := by
  -- By induction on the distance from the end: an item is the one `m` places behind it, or one of those added.
  have hitem : ∀ k i, i < l.length → l.length - i ≤ k → l[i]? = some x := by
    intro k
    induction k with
    | zero =>
      intro i hi hk
      omega
    | succ k ih =>
      intro i hi hk
      have hshift : l[i]? = (l ++ List.replicate m x)[m + i]? := by
        rw [← List.getElem?_drop, h]
      rw [hshift]
      by_cases hin : m + i < l.length
      · rw [List.getElem?_append_left hin]
        exact ih (m + i) hin (by omega)
      · rw [List.getElem?_append_right (by omega), List.getElem?_replicate, if_pos (by omega)]
  refine List.eq_replicate_iff.mpr ⟨rfl, fun b hb => ?_⟩
  obtain ⟨i, hi, rfl⟩ := List.mem_iff_getElem.mp hb
  have hx := hitem (l.length - i) i hi (Nat.le_refl _)
  rw [List.getElem?_eq_getElem hi] at hx
  exact Option.some.inj hx

namespace Bytes

theorem eq_of_toNat_mod {as bs : Bytes} {n : Nat} (ha : as.length = n) (hb : bs.length = n)
    (h : toNat as % Nat.pow 256 n = toNat bs % Nat.pow 256 n) : as = bs := by
  have hlt := toNat_lt as
  have hlt' := toNat_lt bs
  rw [ha] at hlt
  rw [hb] at hlt'
  rw [Nat.mod_eq_of_lt hlt, Nat.mod_eq_of_lt hlt'] at h
  rw [← ofNat_toNat as, ← ofNat_toNat bs, ha, hb, h]

end Bytes

namespace Text

/-- A byte that stands inside a character, behind its first. -/
def Inner (b : UInt8) : Prop := 0x80 ≤ b.toNat ∧ b.toNat < 0xC0

/-- Bytes from inside a character read as one U+FFFD each where a character may begin. -/
theorem readUtf8_inner {bs : Bytes} (h : ∀ b ∈ bs, Inner b) (rest : Bytes) :
    readUtf8 (bs ++ rest) = List.replicate bs.length replacement ++ readUtf8 rest := by
  induction bs with
  | nil => rfl
  | cons b bs ih =>
    obtain ⟨⟨hl, ht⟩, hbs⟩ := List.forall_mem_cons.mp h
    have hlead : lead b = ([replacement], .idle) := by
      unfold lead
      simp only
      rw [if_neg (by omega), if_pos (by omega)]
    have hrest := ih hbs
    unfold readUtf8 at hrest ⊢
    rw [List.cons_append, readFrom, hlead, hrest]
    rfl

/-- Every byte of a character but its first is one from inside it. -/
theorem inner_of_mem_drop {c : Char} {b : UInt8} (h : b ∈ (String.utf8EncodeChar c).drop 1) : Inner b := by
  have hlast : ∀ n, Inner (UInt8.ofNat (n % 0x40 + 0x80)) := fun n => by
    unfold Inner
    simp only [UInt8.toNat_ofNat']
    omega
  unfold String.utf8EncodeChar at h
  by_cases h1 : c.val.toNat ≤ 0x7F
  · simp only [if_pos h1, List.drop_succ_cons, List.drop_zero, List.not_mem_nil] at h
  by_cases h2 : c.val.toNat ≤ 0x7FF
  · simp only [if_neg h1, if_pos h2, List.drop_succ_cons, List.drop_zero, List.mem_singleton] at h
    exact h ▸ hlast _
  by_cases h3 : c.val.toNat ≤ 0xFFFF
  · simp only [if_neg h1, if_neg h2, if_pos h3, List.drop_succ_cons, List.drop_zero, List.mem_cons, List.not_mem_nil,
      or_false] at h
    rcases h with rfl | rfl <;> exact hlast _
  · simp only [if_neg h1, if_neg h2, if_neg h3, List.drop_succ_cons, List.drop_zero, List.mem_cons, List.not_mem_nil,
      or_false] at h
    rcases h with rfl | rfl | rfl <;> exact hlast _

theorem length_utf8EncodeChar_pos (c : Char) : 0 < (String.utf8EncodeChar c).length := by
  rw [String.length_utf8EncodeChar]
  exact c.utf8Size_pos

/-- What is left of a text's bytes when some are cut off the front: bytes from inside a character, and whole characters. A
character that is gone has taken a byte at least. -/
theorem drop_flatMap_utf8 (cs : List Char) {m : Nat} (hm : m ≤ (cs.flatMap String.utf8EncodeChar).length) :
    ∃ inner j, j ≤ m ∧ (∀ b ∈ inner, Inner b) ∧
      (cs.flatMap String.utf8EncodeChar).drop m = inner ++ (cs.drop j).flatMap String.utf8EncodeChar := by
  induction cs generalizing m with
  | nil => exact ⟨[], 0, Nat.zero_le m, List.forall_mem_nil _, by simp⟩
  | cons c cs ih =>
    have hpos := length_utf8EncodeChar_pos c
    rw [List.flatMap_cons, List.length_append] at hm
    rw [List.flatMap_cons]
    by_cases hwhole : (String.utf8EncodeChar c).length ≤ m
    · obtain ⟨inner, j, hj, hinner, hdrop⟩ := ih (m := m - (String.utf8EncodeChar c).length) (by omega)
      refine ⟨inner, j + 1, by omega, hinner, ?_⟩
      rw [List.drop_append, List.drop_eq_nil_of_le hwhole, List.nil_append, hdrop, List.drop_succ_cons]
    · rcases Nat.eq_zero_or_pos m with rfl | hcut
      · exact ⟨[], 0, Nat.le_refl 0, List.forall_mem_nil _, rfl⟩
      · refine ⟨(String.utf8EncodeChar c).drop m, 1, hcut, fun b hb => inner_of_mem_drop (c := c) ?_, ?_⟩
        · rw [show m = 1 + (m - 1) by omega, ← List.drop_drop] at hb
          exact List.mem_of_mem_drop hb
        · rw [List.drop_append_of_le_length (by omega)]
          rfl

theorem flatMap_utf8_nul (n : Nat) :
    (List.replicate n '\x00').flatMap String.utf8EncodeChar = Bytes.zeros n := by
  induction n with
  | zero => rfl
  | succ n ih =>
    rw [List.replicate_succ, List.flatMap_cons, ih]
    rfl

theorem dropPadding_of_getLast {cs : List Char} {c : Char} (h : cs.getLast? = some c) (hc : c ≠ ' ') :
    dropPadding cs = cs := by
  obtain ⟨front, rfl⟩ := List.getLast?_eq_some_iff.mp h
  unfold dropPadding
  rw [List.reverse_append, List.reverse_singleton, List.singleton_append, List.dropWhile_cons_of_neg (by simpa using hc),
    List.reverse_cons, List.reverse_reverse]

/-- If a padded text reads the same from behind its place, with zeros after it, then it is all zeros. -/
theorem zeros_of_shifted {cs : List Char} {m : Nat} (hm : 0 < m)
    (h : dropPadding (readUtf8 ((cs.flatMap String.utf8EncodeChar ++ Bytes.zeros m).drop m)) = dropPadding cs) :
    cs.flatMap String.utf8EncodeChar = Bytes.zeros (cs.flatMap String.utf8EncodeChar).length := by
  rcases List.eq_nil_or_concat cs with rfl | ⟨front, last, hcs⟩
  · rfl
  have hne : 0 < cs.length := by
    rw [hcs, List.length_concat]
    omega
  have hbytes : cs.flatMap String.utf8EncodeChar ++ Bytes.zeros m =
      (cs ++ List.replicate m '\x00').flatMap String.utf8EncodeChar := by
    rw [List.flatMap_append, flatMap_utf8_nul]
  obtain ⟨inner, j, hj, hinner, hdrop⟩ := drop_flatMap_utf8 (cs ++ List.replicate m '\x00') (m := m) (by
    rw [← hbytes, List.length_append, Bytes.length_zeros]
    omega)
  rw [hbytes, hdrop, readUtf8_inner hinner, readUtf8_flatMap] at h
  -- The text that is read ends in a zero, so that nothing is cut off it as padding.
  have hlast : (List.replicate inner.length replacement ++ (cs ++ List.replicate m '\x00').drop j).getLast? =
      some '\x00' := by
    rw [List.getLast?_append, List.getLast?_drop, if_neg (by rw [List.length_append, List.length_replicate]; omega),
      List.getLast?_append, List.getLast?_replicate, if_neg (by omega)]
    rfl
  rw [dropPadding_of_getLast hlast (by decide)] at h
  -- Counting characters, nothing was cut but `m` characters of one byte, and the text has no padding.
  obtain ⟨k, hk⟩ := exists_dropPadding cs
  have hcount := congrArg List.length h
  have hcount' := congrArg List.length hk
  simp only [List.length_append, List.length_replicate, List.length_drop] at hcount hcount'
  obtain rfl : j = m := by omega
  obtain rfl : inner = [] := List.eq_nil_of_length_eq_zero (by omega)
  obtain rfl : k = 0 := by omega
  rw [List.replicate_zero, List.append_nil] at hk
  rw [← hk] at h
  have hzeros := eq_replicate_of_shifted hm h
  rw [hzeros, flatMap_utf8_nul, Bytes.length_zeros]

theorem readUtf8_zeros (n : Nat) : dropPadding (readUtf8 (Bytes.zeros n)) = List.replicate n '\x00' := by
  rw [← flatMap_utf8_nul, readUtf8_flatMap]
  cases n with
  | zero => rfl
  | succ n =>
    refine dropPadding_of_getLast (c := '\x00') ?_ (by decide)
    rw [List.getLast?_replicate, if_neg n.succ_ne_zero]

end Text

namespace Value

theorem stored_ofCell (cell : Bytes) (type : ColumnType) : (ofCell cell type).stored type = ofCell cell type := by
  cases type with
  | char width => rw [ofCell, stored, String.toList_ofList, Text.dropPadding_dropPadding]
  | _ => rfl

/-- A cell of zeros reads as a value that fits. -/
theorem fits_ofCell_zeros (type : ColumnType) : (ofCell (Bytes.zeros type.width) type).fits type = true := by
  cases type with
  | char width =>
    rw [ofCell, fits, Text.utf8_ofList, show ColumnType.width (.char width) = width from rfl, Text.readUtf8_zeros,
      Text.flatMap_utf8_nul, Bytes.length_zeros]
    exact decide_eq_true (Nat.le_refl width)
  | _ => rfl

theorem exists_chars_of_encode {v : Value} {width : Nat} {bs : Bytes} (h : encode (.char width) v = some bs) :
    ∃ cs : List Char, bs = cs.flatMap String.utf8EncodeChar := by
  unfold encode at h
  split at h
  · cases v with
    | text s =>
      refine ⟨s.toList ++ List.replicate (width - (Text.utf8 s).length) ' ', ?_⟩
      rw [List.flatMap_append, Text.utf8_space]
      exact (Option.some.inj h).symm
    | _ => rename_i hf; cases hf
  · cases h

/-- If the bytes of a value read as it from behind their place, with zeros after them, then they are zeros. -/
theorem zeros_of_shifted {v : Value} {type : ColumnType} {bs : Bytes} (he : encode type v = some bs) {m : Nat}
    (hm : 0 < m) (h : ofCell ((bs ++ Bytes.zeros m).drop m) type = v.stored type) : bs = Bytes.zeros type.width := by
  obtain ⟨bs', he', hlength, hread, _⟩ := encode_of_fits (fits_of_encode he)
  obtain rfl : bs = bs' := Option.some.inj (he.symm.trans he')
  have hshifted : ((bs ++ Bytes.zeros m).drop m).length = bs.length := by
    rw [List.length_drop, List.length_append, Bytes.length_zeros]
    omega
  have hzeros : (bs ++ Bytes.zeros m).drop m = bs → bs = Bytes.zeros type.width := fun hsame => by
    rw [← hlength]
    exact eq_replicate_of_shifted hm hsame
  rw [← hread] at h
  cases type with
  | boolean =>
    obtain ⟨b, rfl⟩ := List.length_eq_one_iff.mp hlength
    obtain ⟨k, rfl⟩ : ∃ k, m = k + 1 := ⟨m - 1, by omega⟩
    have hdrop : ([b] ++ Bytes.zeros (k + 1)).drop (k + 1) = [0] := by
      rw [List.singleton_append, List.drop_succ_cons, Bytes.zeros, List.drop_replicate, Nat.add_sub_cancel_left]
      rfl
    rw [hdrop] at h
    have hb : b = 0 := by simpa [ofCell] using h
    rw [hb]
    rfl
  | integer =>
    refine hzeros (Bytes.eq_of_toNat_mod (hshifted.trans hlength) hlength ?_)
    injection h with h
    have h' := congrArg (·.toUInt32.toNat) h
    simp only [UInt32.toUInt32_toInt32, UInt32.toNat_ofNat'] at h'
    exact h'
  | bigint =>
    refine hzeros (Bytes.eq_of_toNat_mod (hshifted.trans hlength) hlength ?_)
    injection h with h
    have h' := congrArg (·.toUInt64.toNat) h
    simp only [UInt64.toUInt64_toInt64, UInt64.toNat_ofNat'] at h'
    exact h'
  | double =>
    refine hzeros (Bytes.eq_of_toNat_mod (hshifted.trans hlength) hlength ?_)
    injection h with h
    have h' := congrArg (·.bits.toNat) h
    simp only [UInt64.toNat_ofNat'] at h'
    exact h'
  | char width =>
    obtain ⟨cs, rfl⟩ := exists_chars_of_encode he
    rw [← hlength]
    refine Text.zeros_of_shifted hm ?_
    injection h with h
    have h' := congrArg String.toList h
    rwa [String.toList_ofList, String.toList_ofList, Text.readUtf8_flatMap] at h'

end Value

end RowStore
