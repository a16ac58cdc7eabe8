import RowStore.Proofs.PageEntries
import RowStore.Proofs.ShiftedCells

/-!
# Pieces of an image

A row comes about by being built or by being read, so each of its values fits its column or was read from a cell of it. A
value that was read need not fit: a text grows past its column if its bytes are not UTF-8, and then it is written as no
bytes at all. An image is written as pieces, each of which fills its place or is missing in this way. If all pieces are
found in their places all the same, none of them is missing: from the zeros at the end of the image backwards, a piece
behind a missing one would be zeros, and so would the missing one.
-/

namespace RowStore

namespace Value

/-- A value as it comes into a row: it fits the column, or it was read from a cell of it. -/
def Obtained (v : Value) (type : ColumnType) : Prop :=
  v.fits type = true ∨ ∃ cell, cell.length = type.width ∧ v = ofCell cell type

/-- A value that came into a row without fitting is not what a cell of zeros reads as. -/
theorem Obtained.ne_zeros {v : Value} {type : ColumnType} (h : v.Obtained type) (hf : ¬ v.fits type = true) :
    ofCell (Bytes.zeros type.width) type ≠ v.stored type := by
  intro he
  obtain ⟨cell, _, rfl⟩ := h.resolve_left hf
  rw [stored_ofCell] at he
  exact hf (he ▸ fits_ofCell_zeros type)

theorem Obtained.width_pos {v : Value} {type : ColumnType} (h : v.Obtained type) (hf : ¬ v.fits type = true) :
    0 < type.width := by
  refine Nat.pos_of_ne_zero fun hw => hf ?_
  obtain ⟨cell, hcell, rfl⟩ := h.resolve_left hf
  have hzeros := fits_ofCell_zeros type
  rw [hw] at hcell hzeros
  rwa [List.eq_nil_of_length_eq_zero hcell]

end Value

namespace Tuple

/-- A row as it comes about: built from values, or read from bytes. -/
def Obtained (t : Tuple) : Prop :=
  (∃ values, ofValues t.schema values = .ok { t with record := none }) ∨
    ∃ bs, decode t.schema bs = some { t with record := none }

theorem fill_iff {values : List Value} {columns : List Column} :
    Fill values columns ↔
      values.length = columns.length ∧ ∀ cell ∈ values.zip columns, cell.1.fits cell.2.type = true := by
  constructor
  · intro h
    induction h with
    | nil => exact ⟨rfl, List.forall_mem_nil _⟩
    | cons hv _ ih => exact ⟨congrArg (· + 1) ih.1, List.forall_mem_cons.mpr ⟨hv, ih.2⟩⟩
  · rintro ⟨hl, hf⟩
    refine fill_of_firstUnfit? hl (List.find?_eq_none.mpr fun cell hc => ?_)
    rw [hf cell hc]
    exact Bool.false_ne_true

/-- Values that are read are as many as the columns, and each of them is what a cell of its column reads as. -/
theorem cells_of_decodeCells {columns : List Column} {bs : Bytes} {values : List Value}
    (h : decodeCells columns bs = some values) :
    values.length = columns.length ∧
      ∀ cell ∈ values.zip columns, ∃ bytes, bytes.length = cell.2.type.width ∧ cell.1 = Value.ofCell bytes cell.2.type := by
  induction columns generalizing bs values with
  | nil =>
    cases h
    exact ⟨rfl, List.forall_mem_nil _⟩
  | cons c rest ih =>
    unfold decodeCells at h
    cases hv : Value.decode c.type bs with
    | none =>
      rw [hv] at h
      cases h
    | some v =>
      rw [hv] at h
      obtain ⟨vs, hvs, rfl⟩ := Option.map_eq_some_iff.mp h
      obtain ⟨hl, hcells⟩ := ih hvs
      refine ⟨congrArg (· + 1) hl, List.forall_mem_cons.mpr ⟨?_, hcells⟩⟩
      unfold Value.decode at hv
      split at hv
      · cases hv
      · rename_i hlong
        exact ⟨bs.take c.type.width, List.length_take_of_le (Nat.le_of_not_lt hlong), (Option.some.inj hv).symm⟩

theorem values_of_decode {schema : Schema} {bs : Bytes} {t : Tuple} (h : decode schema bs = some t) :
    decodeCells schema.columns bs = some t.values := by
  unfold decode at h
  split at h
  · cases h
  · obtain ⟨values, hvalues, rfl⟩ := Option.map_eq_some_iff.mp h
    exact hvalues

theorem obtained_of_decode {schema : Schema} {bs : Bytes} {t : Tuple} (h : decode schema bs = some t) (r : RecordId) :
    (t.withRecord r).Obtained := by
  have hsame := h
  unfold decode at hsame
  split at hsame
  · cases hsame
  · obtain ⟨values, _, rfl⟩ := Option.map_eq_some_iff.mp hsame
    exact .inr ⟨bs, h⟩

theorem Obtained.cells {t : Tuple} (h : t.Obtained) :
    t.values.length = t.schema.columns.length ∧
      ∀ cell ∈ t.values.zip t.schema.columns, cell.1.Obtained cell.2.type := by
  rcases h with ⟨values, hbuilt⟩ | ⟨bs, hread⟩
  · obtain ⟨hl, hf⟩ := fill_iff.mp (fits_of_ofValues hbuilt)
    exact ⟨hl, fun cell hc => .inl (hf cell hc)⟩
  · obtain ⟨hl, hcells⟩ := cells_of_decodeCells (values_of_decode hread)
    exact ⟨hl, fun cell hc => .inr (hcells cell hc)⟩

theorem settled_of_decode {schema : Schema} {bs : Bytes} {t : Tuple} (h : decode schema bs = some t) (r : RecordId) :
    (t.withRecord r).settled = t.withRecord r := by
  obtain ⟨hl, hcells⟩ := cells_of_decodeCells (values_of_decode h)
  have hsame : storedValues t.values schema.columns = t.values := by
    calc storedValues t.values schema.columns = (t.values.zip schema.columns).map Prod.fst := by
          refine List.map_congr_left fun cell hc => ?_
          obtain ⟨bytes, _, he⟩ := hcells cell hc
          rw [he, Value.stored_ofCell]
      _ = t.values := List.map_fst_zip (Nat.le_of_eq hl)
  obtain rfl := schema_of_decode h
  unfold settled stored withRecord
  rw [hsame]

end Tuple

/-- A piece of an image: how wide its place is, the bytes that are written for it, and what must be found in its place. -/
structure Piece where
  width : Nat
  bytes : Bytes
  reads : Bytes → Prop

namespace Piece

/-- A piece fills its place or is missing. A missing piece is not what zeros read as, and a piece that is read from behind
its own bytes, with zeros after them, is zeros. -/
structure Lawful (p : Piece) : Prop where
  missing : p.bytes.length ≠ p.width → p.bytes = [] ∧ ¬ p.reads (Bytes.zeros p.width)
  shifted : p.bytes.length = p.width → ∀ m, 0 < m → p.reads ((p.bytes ++ Bytes.zeros m).drop m) →
    p.bytes = Bytes.zeros p.width

theorem Lawful.length_le {p : Piece} (h : p.Lawful) : p.bytes.length ≤ p.width := by
  by_cases hw : p.bytes.length = p.width
  · exact Nat.le_of_eq hw
  · rw [(h.missing hw).1]
    exact Nat.zero_le _

theorem total_length_le {ps : List Piece} (h : ∀ p ∈ ps, p.Lawful) :
    Bytes.total (·.bytes.length) ps ≤ Bytes.total width ps := by
  induction ps with
  | nil => exact Nat.le_refl 0
  | cons p ps ih =>
    obtain ⟨hp, hps⟩ := List.forall_mem_cons.mp h
    exact Nat.add_le_add hp.length_le (ih hps)

/-- Every piece is found in its place, the places being one behind the other from the front of the bytes. -/
def AllRead : List Piece → Bytes → Prop
  | [], _ => True
  | p :: ps, bs => p.reads (bs.take p.width) ∧ AllRead ps (bs.drop p.width)

theorem allRead_append {ps qs : List Piece} {bs : Bytes} (hp : AllRead ps bs)
    (hq : AllRead qs (bs.drop (Bytes.total width ps))) : AllRead (ps ++ qs) bs := by
  induction ps generalizing bs with
  | nil => exact hq
  | cons p ps ih =>
    refine ⟨hp.1, ih hp.2 ?_⟩
    rw [List.drop_drop]
    exact hq

/-- What is found in the front of some bytes is found in the bytes. -/
theorem allRead_of_take {ps : List Piece} {n : Nat} {bs : Bytes} (hn : Bytes.total width ps ≤ n)
    (h : AllRead ps (bs.take n)) : AllRead ps bs := by
  induction ps generalizing bs n with
  | nil => trivial
  | cons p ps ih =>
    rw [Bytes.total] at hn
    obtain ⟨hhead, htail⟩ := h
    rw [List.take_take, Nat.min_eq_left (by omega)] at hhead
    rw [List.drop_take] at htail
    exact ⟨hhead, ih (by omega) htail⟩

theorem flatMap_zeros {ps : List Piece} (h : ∀ p ∈ ps, p.bytes = Bytes.zeros p.width) (n : Nat) :
    ps.flatMap bytes ++ Bytes.zeros n = Bytes.zeros (Bytes.total (·.bytes.length) ps + n) := by
  refine List.eq_replicate_iff.mpr ⟨?_, fun b hb => ?_⟩
  · rw [List.length_append, Bytes.length_flatMap, Bytes.length_zeros]
  · rcases List.mem_append.mp hb with hb | hb
    · obtain ⟨p, hp, hb⟩ := List.mem_flatMap.mp hb
      rw [h p hp] at hb
      exact List.eq_of_mem_replicate hb
    · exact List.eq_of_mem_replicate hb

/-- If all pieces are found in their places, `d` bytes being missing before the first of them, then none of them is missing,
and they are all zeros unless `d` is zero. -/
theorem whole_of_allRead {ps : List Piece} (h : ∀ p ∈ ps, p.Lawful) {d n : Nat}
    (hn : Bytes.total width ps + d ≤ Bytes.total (·.bytes.length) ps + n)
    (hr : AllRead ps ((ps.flatMap bytes ++ Bytes.zeros n).drop d)) :
    (∀ p ∈ ps, p.bytes.length = p.width) ∧ (0 < d → ∀ p ∈ ps, p.bytes = Bytes.zeros p.width) := by
  induction ps generalizing d with
  | nil => exact ⟨List.forall_mem_nil _, fun _ => List.forall_mem_nil _⟩
  | cons p ps ih =>
    obtain ⟨hp, hps⟩ := List.forall_mem_cons.mp h
    rw [Bytes.total, Bytes.total] at hn
    rw [List.flatMap_cons, List.append_assoc] at hr
    obtain ⟨hhead, htail⟩ := hr
    have hle := hp.length_le
    -- Before the next piece as many bytes are missing as before this one and from it.
    rw [List.drop_drop, List.drop_append, List.drop_eq_nil_of_le (by omega), List.nil_append] at htail
    obtain ⟨hwhole, hzeros⟩ := ih hps (d := d + p.width - p.bytes.length) (by omega) htail
    by_cases hw : p.bytes.length = p.width
    · refine ⟨List.forall_mem_cons.mpr ⟨hw, hwhole⟩, fun hd => ?_⟩
      have hrest := hzeros (by omega)
      refine List.forall_mem_cons.mpr ⟨hp.shifted hw d hd ?_, hrest⟩
      have hsplit : Bytes.zeros (Bytes.total (·.bytes.length) ps + n) =
          Bytes.zeros d ++ Bytes.zeros (Bytes.total (·.bytes.length) ps + n - d) := by
        unfold Bytes.zeros
        rw [List.replicate_append_replicate]
        congr 1
        omega
      have hwidth : ((p.bytes ++ Bytes.zeros d).drop d).length = p.width := by
        rw [List.length_drop, List.length_append, Bytes.length_zeros]
        omega
      rw [flatMap_zeros hrest, hsplit, ← List.append_assoc, List.drop_append_of_le_length (by
        rw [List.length_append, Bytes.length_zeros]; omega), List.take_left' hwidth] at hhead
      exact hhead
    · -- A missing piece would be read from zeros.
      obtain ⟨hnil, hmissing⟩ := hp.missing hw
      rw [hnil, List.length_nil] at hw hn
      have hrest := hzeros (by rw [hnil, List.length_nil]; omega)
      rw [hnil, List.nil_append, flatMap_zeros hrest, Bytes.zeros, List.drop_replicate, List.take_replicate,
        Nat.min_eq_left (by omega)] at hhead
      exact absurd hhead hmissing

/-- The piece of a value in its column, which must be read as the value in stored form. -/
def ofCell (cell : Value × Column) : Piece :=
  ⟨cell.2.type.width, (cell.1.encode cell.2.type).getD [],
    fun bs => Value.ofCell bs cell.2.type = cell.1.stored cell.2.type⟩

/-- The piece of a free slot, in which anything may be found. -/
def free (width : Nat) : Piece := ⟨width, Bytes.zeros width, fun _ => True⟩

theorem lawful_free (width : Nat) : (free width).Lawful where
  missing := fun hw => absurd (Bytes.length_zeros width) hw
  shifted := fun _ _ _ _ => rfl

/-- A value that fits fills its place, and one that came into a row without fitting does not. -/
theorem length_ofCell {cell : Value × Column} (h : cell.1.Obtained cell.2.type) :
    (ofCell cell).bytes.length = (ofCell cell).width ↔ cell.1.fits cell.2.type = true := by
  by_cases hf : cell.1.fits cell.2.type = true
  · obtain ⟨bs, he, hl, _⟩ := Value.encode_of_fits hf
    rw [ofCell, he]
    exact iff_of_true hl hf
  · have hnone : cell.1.encode cell.2.type = none := if_neg hf
    have hpos := h.width_pos hf
    rw [ofCell, hnone]
    exact iff_of_false (Nat.ne_of_lt hpos) hf

theorem lawful_ofCell {cell : Value × Column} (h : cell.1.Obtained cell.2.type) : (ofCell cell).Lawful where
  missing := fun hw => by
    have hf := mt (length_ofCell h).mpr hw
    have hnone : cell.1.encode cell.2.type = none := if_neg hf
    exact ⟨by rw [ofCell, hnone]; rfl, h.ne_zeros hf⟩
  shifted := fun hw m hm hr => by
    obtain ⟨bs, he, _⟩ := Value.encode_of_fits ((length_ofCell h).mp hw)
    have hbytes : (ofCell cell).bytes = bs := by rw [ofCell, he]; rfl
    rw [hbytes] at hr ⊢
    exact Value.zeros_of_shifted he hm hr

theorem total_width_ofCell {values : List Value} {columns : List Column} (hl : values.length = columns.length) :
    Bytes.total width ((values.zip columns).map ofCell) = Bytes.total (·.type.width) columns := by
  induction columns generalizing values with
  | nil => rw [List.zip_nil_right]; rfl
  | cons c rest ih =>
    cases values with
    | nil => cases hl
    | cons v vs =>
      rw [List.zip_cons_cons, List.map_cons, Bytes.total, Bytes.total, ih (Nat.succ.inj hl)]
      rfl

/-- Values that are read in stored form are found in their places. -/
theorem allRead_of_decodeCells {values : List Value} {columns : List Column} {bs : Bytes}
    (hl : values.length = columns.length)
    (h : Tuple.decodeCells columns bs = some (Tuple.storedValues values columns)) :
    AllRead ((values.zip columns).map ofCell) bs := by
  induction columns generalizing values bs with
  | nil => rw [List.zip_nil_right]; trivial
  | cons c rest ih =>
    cases values with
    | nil => cases hl
    | cons v vs =>
      unfold Tuple.decodeCells Value.decode at h
      split at h
      · cases h
      · rename_i read hread
        split at hread
        · cases hread
        · obtain ⟨later, hlater, hsame⟩ := Option.map_eq_some_iff.mp h
          cases hread
          obtain ⟨hhead, rfl⟩ := List.cons.inj hsame
          exact ⟨hhead, ih (Nat.succ.inj hl) hlater⟩

end Piece

end RowStore
