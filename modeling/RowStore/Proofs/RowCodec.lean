import RowStore.Proofs.Utf8
import RowStore.Tuple

/-!
# Rows and their bytes

A row whose values fit its columns is written in exactly the width of its schema and is read back from any bytes that
begin with its own. What comes back is the row in its stored form: an integer in a wide column is a big
integer, a text has lost the spaces at its end, and every other value is the same bits. The stored form fits
the same columns and is written as the same bytes, so writing what was read changes nothing.
-/

namespace RowStore

namespace Value

/-- The value as it comes back from its bytes in a column of the type. -/
def stored : ColumnType → Value → Value
  | .bigint, .integer n => .bigint n.toInt64
  | .char _, .text s => .text (String.ofList (Text.dropPadding s.toList))
  | _, v => v

/-- A text is its own bytes without the spaces at its end, and the spaces. -/
theorem utf8_eq_dropPadding (s : String) :
    ∃ n, Text.utf8 s = Text.utf8 (String.ofList (Text.dropPadding s.toList)) ++ List.replicate n 32 := by
  obtain ⟨n, hn⟩ := Text.exists_dropPadding s.toList
  refine ⟨n, ?_⟩
  rw [Text.utf8_ofList, ← Text.utf8_space, ← List.flatMap_append, ← hn, Text.utf8]

theorem padded_dropPadding {bs cut : Bytes} {n width : Nat} (hb : bs = cut ++ List.replicate n 32)
    (h : bs.length ≤ width) :
    cut.length ≤ width ∧
      cut ++ List.replicate (width - cut.length) 32 = bs ++ List.replicate (width - bs.length) 32 := by
  have hl : bs.length = cut.length + n := by rw [hb, List.length_append, List.length_replicate]
  refine ⟨by omega, ?_⟩
  rw [hl, hb, List.append_assoc, List.replicate_append_replicate]
  congr 2
  omega

/-- A text's cell reads as the text without the spaces at its end. -/
theorem ofCell_text (s : String) (width : Nat) :
    ofCell (Text.utf8 s ++ List.replicate (width - (Text.utf8 s).length) 32) (.char width) =
      .text (String.ofList (Text.dropPadding s.toList)) := by
  rw [ofCell, Text.readUtf8_padded, Text.dropPadding_append_spaces]

theorem toNat_ofNat_64 (n : UInt64) : UInt64.ofNat (Bytes.toNat (Bytes.ofNat 8 n.toNat)) = n := by
  have hn : n.toNat % Nat.pow 256 8 = n.toNat := Nat.mod_eq_of_lt n.toNat_lt
  rw [Bytes.toNat_ofNat, hn, UInt64.ofNat_toNat]

theorem toNat_ofNat_32 (n : UInt32) : UInt32.ofNat (Bytes.toNat (Bytes.ofNat 4 n.toNat)) = n := by
  have hn : n.toNat % Nat.pow 256 4 = n.toNat := Nat.mod_eq_of_lt n.toNat_lt
  rw [Bytes.toNat_ofNat, hn, UInt32.ofNat_toNat]

/-- A value that fits has bytes of the column's width, they read as the stored value, and the stored value
has the same bytes. -/
theorem encode_of_fits {v : Value} {type : ColumnType} (h : v.fits type = true) :
    ∃ bs, encode type v = some bs ∧ bs.length = type.width ∧ ofCell bs type = v.stored type ∧
      encode type (v.stored type) = some bs := by
  cases v with
  | boolean b =>
    cases type with
    | boolean => cases b <;> exact ⟨_, rfl, rfl, rfl, rfl⟩
    | _ => cases h
  | integer n =>
    cases type with
    | integer => exact ⟨_, rfl, rfl, by rw [ofCell, toNat_ofNat_32, Int32.toInt32_toUInt32]; rfl, rfl⟩
    | bigint => exact ⟨_, rfl, rfl, by rw [ofCell, toNat_ofNat_64, Int64.toInt64_toUInt64]; rfl, rfl⟩
    | _ => cases h
  | bigint n =>
    cases type with
    | bigint => exact ⟨_, rfl, rfl, by rw [ofCell, toNat_ofNat_64, Int64.toInt64_toUInt64]; rfl, rfl⟩
    | _ => cases h
  | double x =>
    cases type with
    | double => exact ⟨_, rfl, rfl, by rw [ofCell, toNat_ofNat_64]; rfl, rfl⟩
    | _ => cases h
  | text s =>
    cases type with
    | char width =>
      have hw : (Text.utf8 s).length ≤ width := by simpa [fits] using h
      obtain ⟨n, hn⟩ := utf8_eq_dropPadding s
      obtain ⟨hcut, hsame⟩ := padded_dropPadding hn hw
      refine ⟨_, if_pos h, ?_, ofCell_text s width, ?_⟩
      · rw [List.length_append, List.length_replicate]
        show _ = width
        omega
      · have hf : (Value.text (String.ofList (Text.dropPadding s.toList))).fits (.char width) = true := by
          simpa [fits] using hcut
        simp only [stored, encode, if_pos hf, hsame]
    | _ => cases h

/-- Only a value that fits has bytes. -/
theorem fits_of_encode {v : Value} {type : ColumnType} {bs : Bytes} (h : encode type v = some bs) :
    v.fits type = true := by
  unfold encode at h
  split at h
  · assumption
  · cases h

theorem fits_stored {v : Value} {type : ColumnType} (h : v.fits type = true) : (v.stored type).fits type = true := by
  obtain ⟨bs, _, _, _, hs⟩ := encode_of_fits h
  exact fits_of_encode hs

end Value

namespace Tuple

def cells (values : List Value) (columns : List Column) : Bytes :=
  (values.zip columns).flatMap fun cell => (cell.1.encode cell.2.type).getD []

/-- Values that are as many as the columns and fit them. -/
inductive Fill : List Value → List Column → Prop
  | nil : Fill [] []
  | cons {v : Value} {c : Column} {vs : List Value} {cs : List Column} :
      v.fits c.type = true → Fill vs cs → Fill (v :: vs) (c :: cs)

def storedValues (values : List Value) (columns : List Column) : List Value :=
  (values.zip columns).map fun cell => cell.1.stored cell.2.type

theorem fill_of_firstUnfit? {values : List Value} {columns : List Column}
    (hl : values.length = columns.length) (hf : firstUnfit? columns values = none) : Fill values columns := by
  induction columns generalizing values with
  | nil =>
    rw [List.eq_nil_of_length_eq_zero hl]
    exact .nil
  | cons c cs ih =>
    cases values with
    | nil => cases hl
    | cons v vs =>
      unfold firstUnfit? at hf ih
      rw [List.zip_cons_cons, List.find?_cons] at hf
      cases hv : v.fits c.type with
      | false => simp [hv] at hf
      | true =>
        simp only [hv, Bool.not_true] at hf
        exact .cons hv (ih (Nat.succ.inj hl) hf)

theorem length_cells {values : List Value} {columns : List Column} (h : Fill values columns) :
    (cells values columns).length = Bytes.total (·.type.width) columns := by
  induction h with
  | nil => rfl
  | cons hv _ ih =>
    obtain ⟨bs, he, hl, _⟩ := Value.encode_of_fits hv
    unfold cells at ih ⊢
    simp only [List.zip_cons_cons, List.flatMap_cons, he, Option.getD_some, List.length_append, hl, ih,
      Bytes.total]

theorem decodeCells_cells {values : List Value} {columns : List Column} (h : Fill values columns)
    (rest : Bytes) : decodeCells columns (cells values columns ++ rest) = some (storedValues values columns) := by
  induction h with
  | nil => rfl
  | @cons v c vs cs hv _ ih =>
    obtain ⟨bs, he, hl, hc, _⟩ := Value.encode_of_fits hv
    have hcells : cells (v :: vs) (c :: cs) ++ rest = bs ++ (cells vs cs ++ rest) := by
      simp only [cells, List.zip_cons_cons, List.flatMap_cons, he, Option.getD_some, List.append_assoc]
    have hv' : Value.decode c.type (bs ++ (cells vs cs ++ rest)) = some (v.stored c.type) := by
      have hlen : ¬ (bs ++ (cells vs cs ++ rest)).length < c.type.width := by
        rw [List.length_append]
        omega
      rw [Value.decode, if_neg hlen, List.take_left' hl, hc]
    rw [hcells, decodeCells, hv', List.drop_left' hl, ih]
    rfl

theorem fill_storedValues {values : List Value} {columns : List Column} (h : Fill values columns) :
    Fill (storedValues values columns) columns := by
  induction h with
  | nil => exact .nil
  | cons hv _ ih => exact .cons (Value.fits_stored hv) ih

theorem cells_storedValues {values : List Value} {columns : List Column} (h : Fill values columns) :
    cells (storedValues values columns) columns = cells values columns := by
  induction h with
  | nil => rfl
  | cons hv _ ih =>
    obtain ⟨bs, he, _, _, hs⟩ := Value.encode_of_fits hv
    simp only [cells, storedValues, List.zip_cons_cons, List.map_cons, List.flatMap_cons, he, hs] at ih ⊢
    rw [ih]

/-- The row's values are as many as its columns and fit them. -/
def Fits (t : Tuple) : Prop := Fill t.values t.schema.columns

/-- The row as it comes back from its bytes, without a place. -/
def stored (t : Tuple) : Tuple := ⟨t.schema, storedValues t.values t.schema.columns, none⟩

theorem fits_of_ofValues {schema : Schema} {values : List Value} {t : Tuple}
    (h : ofValues schema values = .ok t) : t.Fits := by
  unfold ofValues at h
  split at h
  · cases h
  · rename_i hl
    split at h
    · cases h
    · rename_i hf
      cases h
      exact fill_of_firstUnfit? (Decidable.not_not.mp hl) hf

theorem length_encode {t : Tuple} (h : t.Fits) : t.encode.length = t.schema.width := length_cells h

/-- A row that fits is read back from the front of any bytes that begin with its own. -/
theorem decode_encode {t : Tuple} (h : t.Fits) (rest : Bytes) :
    decode t.schema (t.encode ++ rest) = some t.stored := by
  have hlen : ¬ (t.encode ++ rest).length < t.schema.width := by
    rw [List.length_append, length_encode h]
    omega
  have hcells := decodeCells_cells h rest
  unfold decode
  rw [if_neg hlen]
  exact congrArg (Option.map _) hcells

theorem fits_stored {t : Tuple} (h : t.Fits) : t.stored.Fits := fill_storedValues h

theorem encode_stored {t : Tuple} (h : t.Fits) : t.stored.encode = t.encode := cells_storedValues h

end Tuple

end RowStore
