import RowStore.Proofs.CheckedReads
import RowStore.Proofs.ShiftedCells

/-!
# What a row keeps in its bytes

The bytes of a row keep every value but for two things: an integer in a wide column comes back as a big integer of the
same number, and a text without the spaces at its end. What comes back is determined by that, whatever bytes follow
the row; it is written as the same bytes, and rows of a schema have the same bytes exactly if the same values come back.
-/

namespace RowStore

namespace Text

/-- Cutting the padding is taking off spaces until the last character is another one. -/
theorem eq_dropPadding_iff {cs kept : List Char} :
    kept = dropPadding cs ↔ (∃ n, cs = kept ++ List.replicate n ' ') ∧ kept.getLast? ≠ some ' ' := by
  constructor
  · rintro rfl
    refine ⟨exists_dropPadding cs, fun hlast => ?_⟩
    have hother := List.head?_dropWhile_not (fun c : Char => decide (c = ' ')) cs.reverse
    rw [dropPadding, List.getLast?_reverse] at hlast
    rw [hlast] at hother
    exact absurd hother (by decide)
  · rintro ⟨⟨n, rfl⟩, hlast⟩
    rw [dropPadding_append_spaces]
    cases hkept : kept.getLast? with
    | none =>
      rw [List.getLast?_eq_none_iff.mp hkept]
      rfl
    | some c => exact (dropPadding_of_getLast hkept fun hc => hlast (by rw [hkept, hc])).symm

end Text

namespace Value

/-- What a value in a column of the type comes back as: an integer in a wide column as the big integer of the same
number, a text as what is in front of the spaces at its end, and any other value as it is. -/
inductive ReadsAs : ColumnType → Value → Value → Prop
  | boolean (b : Bool) : ReadsAs .boolean (.boolean b) (.boolean b)
  | integer (n : Int32) : ReadsAs .integer (.integer n) (.integer n)
  | widened {n : Int32} {wide : Int64} (h : wide.toInt = n.toInt) : ReadsAs .bigint (.integer n) (.bigint wide)
  | bigint (n : Int64) : ReadsAs .bigint (.bigint n) (.bigint n)
  | double (x : Double) : ReadsAs .double (.double x) (.double x)
  | text {width : Nat} {s kept : String} (spaces : Nat) (h : s.toList = kept.toList ++ List.replicate spaces ' ')
      (hlast : kept.toList.getLast? ≠ some ' ') : ReadsAs (.char width) (.text s) (.text kept)

/-- A value that fits its column comes back as its stored form and as nothing else. -/
theorem readsAs_iff {type : ColumnType} {v w : Value} (h : v.fits type = true) :
    ReadsAs type v w ↔ w = v.stored type := by
  constructor
  · intro hw
    cases hw with
    | widened hnumber =>
      rw [stored, Int64.toInt_inj.mp (hnumber.trans (Int32.toInt_toInt64 _).symm)]
    | @text width s kept spaces htext hlast =>
      rw [stored, ← Text.eq_dropPadding_iff.mpr ⟨⟨spaces, htext⟩, hlast⟩, String.ofList_toList]
    | boolean | integer | bigint | double => rfl
  · rintro rfl
    cases v with
    | text s =>
      cases type with
      | char width =>
        obtain ⟨⟨n, hspaces⟩, hlast⟩ := Text.eq_dropPadding_iff.mp (rfl : Text.dropPadding s.toList = _)
        exact .text n (by rwa [String.toList_ofList]) (by rwa [String.toList_ofList])
      | _ => cases h
    | integer n =>
      cases type with
      | integer => exact .integer n
      | bigint => exact .widened (Int32.toInt_toInt64 n)
      | _ => cases h
    | boolean b =>
      cases type with
      | boolean => exact .boolean b
      | _ => cases h
    | bigint n =>
      cases type with
      | bigint => exact .bigint n
      | _ => cases h
    | double x =>
      cases type with
      | double => exact .double x
      | _ => cases h

end Value

namespace Tuple

inductive ReadsAs : List Column → List Value → List Value → Prop
  | nil : ReadsAs [] [] []
  | cons {c : Column} {v w : Value} {cs : List Column} {vs ws : List Value} :
      Value.ReadsAs c.type v w → ReadsAs cs vs ws → ReadsAs (c :: cs) (v :: vs) (w :: ws)

variable {schema : Schema} {values kept : List Value} {t : Tuple}

theorem readsAs_iff {columns : List Column} (h : Fill values columns) :
    ReadsAs columns values kept ↔ kept = storedValues values columns := by
  induction h generalizing kept with
  | nil =>
    constructor
    · rintro ⟨⟩
      rfl
    · rintro rfl
      exact .nil
  | @cons v c vs cs hv hvs ih =>
    constructor
    · rintro (_ | ⟨hw, hws⟩)
      rw [(Value.readsAs_iff hv).mp hw, ih.mp hws]
      rfl
    · rintro rfl
      exact .cons ((Value.readsAs_iff hv).mpr rfl) (ih.mpr rfl)

theorem eq_of_ofValues (h : ofValues schema values = .ok t) : t = ⟨schema, values, none⟩ := by
  unfold ofValues at h
  split at h
  · cases h
  · split at h
    · cases h
    · cases h
      rfl

/-- Rows of a schema have the same bytes if and only if they have the same stored form. -/
theorem encode_eq_iff {a b : Tuple} (ha : a.Fits) (hb : b.Fits) (hschema : a.schema = b.schema) :
    a.encode = b.encode ↔ a.stored = b.stored := by
  constructor
  · intro hbytes
    have hread := decode_encode ha []
    rw [hbytes, hschema, decode_encode hb []] at hread
    exact (Option.some.inj hread).symm
  · intro hstored
    rw [← encode_stored ha, hstored, encode_stored hb]

/-- A row of values that a schema accepts has as many bytes as the schema is wide. From any bytes that begin with these
its values are read back, the integers of wide columns widened, the texts without the spaces at their end, and nothing
else changed; every cell is read at the place of its column. What is read is written as the same bytes, and another
row of the schema has these bytes if and only if the same values come back from it. -/
theorem row_kept_by_bytes (h : ofValues schema values = .ok t) :
    t.encode.length = schema.width ∧
    ∃ kept, (∀ others, ReadsAs schema.columns values others ↔ others = kept) ∧
      (∀ suffix, decode schema (t.encode ++ suffix) = some ⟨schema, kept, none⟩ ∧
        decodeWithin schema (t.encode ++ suffix) = some (some ⟨schema, kept, none⟩)) ∧
      encode ⟨schema, kept, none⟩ = t.encode ∧
      ∀ values' t' kept', ofValues schema values' = .ok t' → ReadsAs schema.columns values' kept' →
        (t'.encode = t.encode ↔ kept' = kept) := by
  have hfits := fits_of_ofValues h
  obtain rfl := eq_of_ofValues h
  have hread : ∀ suffix, decode schema (encode ⟨schema, values, none⟩ ++ suffix) =
      some (stored ⟨schema, values, none⟩) := decode_encode hfits
  refine ⟨length_encode hfits, storedValues values schema.columns, fun others => readsAs_iff hfits,
    fun suffix => ⟨hread suffix, ?_⟩, encode_stored hfits, ?_⟩
  · rw [decodeWithin_eq, hread]
    rfl
  · intro values' t' kept' h' hkept'
    have hfits' := fits_of_ofValues h'
    obtain rfl := eq_of_ofValues h'
    rw [encode_eq_iff hfits' hfits rfl, (readsAs_iff hfits').mp hkept', stored, stored]
    simp only [mk.injEq, true_and, and_true]

/-- An integer in a wide column, a not-a-number with a payload, a text of two-byte characters that fills its column up
to one space, a text of spaces only and a column without any bytes; the bytes that follow could go on with the text. -/
theorem row_kept_by_bytes_of_padded_texts :
    let schema : Schema :=
      ⟨[⟨"wide", .bigint⟩, ⟨"x", .double⟩, ⟨"full", .char 5⟩, ⟨"blank", .char 3⟩, ⟨"none", .char 0⟩]⟩
    let values : List Value := [.integer (-2), .double ⟨0xFFF8000000000001⟩, .text "éß ", .text "  ", .text ""]
    let kept : List Value := [.bigint (-2), .double ⟨0xFFF8000000000001⟩, .text "éß", .text "", .text ""]
    ∃ t, ofValues schema values = .ok t ∧ t.encode.length = 24 ∧
      decode schema (t.encode ++ [0xA9, 32]) = some ⟨schema, kept, none⟩ ∧
      encode ⟨schema, kept, none⟩ = t.encode := by
  intro schema values kept
  have h : ofValues schema values = .ok ⟨schema, values, none⟩ := rfl
  obtain ⟨hlength, others, hkept, hread, hsame, _⟩ := row_kept_by_bytes h
  have hreads : ReadsAs schema.columns values kept :=
    .cons (.widened (by decide)) (.cons (.double _) (.cons (.text 1 (by decide) (by decide))
      (.cons (.text 2 (by decide) (by decide)) (.cons (.text 0 (by decide) (by decide)) .nil))))
  obtain rfl := (hkept kept).mp hreads
  exact ⟨_, h, hlength, (hread [0xA9, 32]).1, hsame⟩

end Tuple

end RowStore
