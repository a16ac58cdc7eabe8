import RowStore.Proofs.ImagePieces
import RowStore.Proofs.PageEdits
import RowStore.Proofs.PagesOnFile

/-!
# Pages with rows that do not fit

A page is read from any image that is long enough, also when texts on it have grown past their columns. Where such a text
is missing from the image that is written, everything behind it on the page is written before its place. The rows in front
of it are read back as they are. The page as a whole is read back as it is if and only if all rows on it fit their columns.
-/

namespace RowStore

namespace Page

/-- A well-shaped page with rows that came about by building or reading. -/
structure Genuine (p : Page) : Prop extends Shaped p where
  obtained : ∀ t, some t ∈ p.slots → t.Obtained

def slotPieces (schema : Schema) : Option Tuple → List Piece
  | some t => (t.values.zip t.schema.columns).map Piece.ofCell
  | none => [Piece.free schema.width]

def pieces (p : Page) : List Piece := p.slots.flatMap (slotPieces p.schema)

theorem flatMap_bytes_slotPieces (schema : Schema) (slot : Option Tuple) :
    (slotPieces schema slot).flatMap Piece.bytes = slotImage schema slot := by
  cases slot with
  | none => exact List.append_nil _
  | some t => exact List.flatMap_map ..

theorem flatMap_bytes_pieces (p : Page) : p.pieces.flatMap Piece.bytes = p.slots.flatMap (slotImage p.schema) := by
  rw [pieces, List.flatMap_assoc]
  simp only [flatMap_bytes_slotPieces]

namespace Genuine

variable {p q : Page}

theorem row (h : p.Genuine) {t : Tuple} (ht : some t ∈ p.slots) : t.schema = p.schema ∧ t.Obtained := by
  obtain ⟨i, hi⟩ := List.mem_iff_getElem?.mp ht
  exact ⟨(h.placed i t hi).1, h.obtained t ht⟩

theorem total_slotPieces (h : p.Genuine) {slot : Option Tuple} (hs : slot ∈ p.slots) :
    Bytes.total Piece.width (slotPieces p.schema slot) = p.schema.width := by
  cases slot with
  | none => rfl
  | some t =>
    obtain ⟨hschema, hobtained⟩ := h.row hs
    rw [slotPieces, Piece.total_width_ofCell hobtained.cells.1, hschema]
    rfl

theorem lawful (h : p.Genuine) : ∀ piece ∈ p.pieces, piece.Lawful := by
  intro piece hp
  obtain ⟨slot, hs, hp⟩ := List.mem_flatMap.mp hp
  cases slot with
  | none =>
    obtain rfl := List.mem_singleton.mp hp
    exact Piece.lawful_free _
  | some t =>
    obtain ⟨cell, hc, rfl⟩ := List.mem_map.mp hp
    exact Piece.lawful_ofCell ((h.obtained t hs).cells.2 cell hc)

theorem total_pieces (h : p.Genuine) : Bytes.total Piece.width p.pieces = p.slots.length * p.schema.width := by
  have hall : ∀ slots : List (Option Tuple), (∀ slot ∈ slots, slot ∈ p.slots) →
      Bytes.total Piece.width (slots.flatMap (slotPieces p.schema)) = slots.length * p.schema.width := by
    intro slots
    induction slots with
    | nil => exact fun _ => (Nat.zero_mul _).symm
    | cons slot rest ih =>
      intro hs
      obtain ⟨hslot, hrest⟩ := List.forall_mem_cons.mp hs
      rw [List.flatMap_cons, Bytes.total_append, h.total_slotPieces hslot, ih hrest, List.length_cons, Nat.succ_mul,
        Nat.add_comm]
  exact hall p.slots fun _ hs => hs

/-- How many zeros are written behind the slots. -/
theorem encode_eq (h : p.Genuine) : ∃ n, Bytes.total Piece.width p.pieces ≤ Bytes.total (·.bytes.length) p.pieces + n ∧
    p.encode = Bits.toBytes (p.schema.headerSize p.size) p.header ++
      (p.slots.flatMap (slotImage p.schema) ++ Bytes.zeros n) := by
  have hfit := p.schema.slots_fit p.size
  have hwidth := h.total_pieces
  have hle := Piece.total_length_le h.lawful
  have hlength : (p.slots.flatMap (slotImage p.schema)).length = Bytes.total (·.bytes.length) p.pieces := by
    rw [← flatMap_bytes_pieces, Bytes.length_flatMap]
  rw [← h.slots_length, ← hwidth] at hfit
  refine ⟨p.size - (p.schema.headerSize p.size + Bytes.total (·.bytes.length) p.pieces), by omega, ?_⟩
  have hl : (Bits.toBytes (p.schema.headerSize p.size) p.header ++ p.slots.flatMap (slotImage p.schema)).length =
      p.schema.headerSize p.size + Bytes.total (·.bytes.length) p.pieces := by
    rw [List.length_append, Bits.length_toBytes, hlength]
  rw [encode, h.headerSize_eq, Bytes.fit, hl, List.take_of_length_le (by omega), List.append_assoc]

end Genuine

/-- Reading the first slots gives the first of what reading all slots gives. -/
theorem readSlots_take {id : PageId} {schema : Schema} {k : Nat} {bits : List Bool} {bs : Bytes}
    {slots : List (Option Tuple)} (h : readSlots id schema k bits bs = .ok slots) (n : Nat) :
    readSlots id schema k (bits.take n) bs = .ok (slots.take n) := by
  induction bits generalizing k bs slots n with
  | nil =>
    cases h
    rw [List.take_nil, List.take_nil]
    rfl
  | cons taken rest ih =>
    cases n with
    | zero => rfl
    | succ n =>
      obtain ⟨first, later, rfl, hrest, hfirst⟩ := readSlots_cons.mp h
      exact readSlots_cons.mpr ⟨first, later.take n, rfl, ih hrest n, hfirst⟩

/-- If the slots are read as they are, in stored form, then all their pieces are found in their places. -/
theorem allRead_of_readSlots {id : PageId} {schema : Schema} {slots : List (Option Tuple)} {k : Nat} {bs : Bytes}
    (hrows : ∀ t, some t ∈ slots → t.schema = schema ∧ t.Obtained)
    (h : readSlots id schema k (slots.map Option.isSome) bs = .ok (slots.map (Option.map Tuple.settled))) :
    Piece.AllRead (slots.flatMap (slotPieces schema)) bs := by
  induction slots generalizing k bs with
  | nil => trivial
  | cons slot rest ih =>
    obtain ⟨first, later, hsame, hrest, hfirst⟩ := readSlots_cons.mp h
    obtain ⟨rfl, rfl⟩ := List.cons.inj hsame
    have hlater := ih (fun t ht => hrows t (List.mem_cons_of_mem slot ht)) hrest
    rw [List.flatMap_cons]
    cases slot with
    | none => exact Piece.allRead_append ⟨trivial, trivial⟩ hlater
    | some t =>
      obtain ⟨⟨⟩, -⟩ | ⟨-, u, hu, hread⟩ := hfirst
      obtain ⟨rfl, hobtained⟩ := hrows t List.mem_cons_self
      have hwidth := Piece.total_width_ofCell hobtained.cells.1
      have hvalues : Tuple.storedValues t.values t.schema.columns = u.values :=
        congrArg Tuple.values (Option.some.inj hread)
      have hcells := Tuple.values_of_decode hu
      rw [← hvalues] at hcells
      refine Piece.allRead_append (Piece.allRead_of_take (Nat.le_of_eq hwidth)
        (Piece.allRead_of_decodeCells hobtained.cells.1 hcells)) ?_
      rw [slotPieces, hwidth]
      exact hlater

theorem rows_of_readSlots {id : PageId} {schema : Schema} {k : Nat} {bits : List Bool} {bs : Bytes}
    {slots : List (Option Tuple)} (h : readSlots id schema k bits bs = .ok slots) :
    ∀ t, some t ∈ slots → t.Obtained ∧ t.settled = t := by
  induction bits generalizing k bs slots with
  | nil =>
    cases h
    exact fun _ => nofun
  | cons taken rest ih =>
    obtain ⟨first, later, rfl, hrest, hfirst⟩ := readSlots_cons.mp h
    intro t ht
    rcases List.mem_cons.mp ht with rfl | ht
    · obtain ⟨-, ⟨⟩⟩ | ⟨-, u, hu, ⟨⟩⟩ := hfirst
      exact ⟨Tuple.obtained_of_decode hu _, Tuple.settled_of_decode hu _⟩
    · exact ih hrest t ht

/-- The image of a well-shaped page is read slot by slot from what follows the header. -/
theorem Shaped.readSlots_of_decode {p q : Page} {bs : Bytes} (h : p.Shaped)
    (hb : p.encode = Bits.toBytes (p.schema.headerSize p.size) p.header ++ bs)
    (hq : decode p.size p.id p.schema p.encode = .ok q) :
    readSlots p.id p.schema 0 (p.slots.map Option.isSome) bs = .ok q.slots := by
  have htake : p.encode.take p.size = p.encode := List.take_of_length_le (Nat.le_of_eq (length_encode p))
  have hheader : Bits.ofBytes (p.encode.take (p.schema.headerSize p.size)) = p.header := by
    rw [hb, List.take_left' (Bits.length_toBytes _ _), Bits.ofBytes_toBytes _ _ h.header_length]
  have hslots : p.encode.drop (p.schema.headerSize p.size) = bs := by
    rw [hb, List.drop_left' (Bits.length_toBytes _ _)]
  unfold decode at hq
  rw [if_neg (by rw [length_encode]; omega)] at hq
  simp only [htake, hheader, hslots, ← h.slots_length, h.bits] at hq
  split at hq
  · cases hq
  · rename_i slots hread
    cases hq
    exact hread

namespace Genuine

variable {p q : Page}

/-- If the rows up to a slot fit, then this slot is read as it is, in stored form. -/
theorem tuple?_reread_of_fits (h : p.Genuine) (hq : decode p.size p.id p.schema p.encode = .ok q) {slot : Nat}
    (hf : ∀ i ≤ slot, ∀ t, p.tuple? i = some t → t.Fits) :
    q.tuple? slot = (p.tuple? slot).map Tuple.settled := by
  obtain ⟨n, _, hencode⟩ := h.encode_eq
  have hread := readSlots_take (h.readSlots_of_decode hencode hq) (slot + 1)
  have hfront := readSlots_slotImages p.id p.schema (p.slots.take (slot + 1)) 0
    ((p.slots.drop (slot + 1)).flatMap (slotImage p.schema) ++ Bytes.zeros n) (fun i t hi => by
      rw [List.getElem?_take, Option.ite_none_right_eq_some] at hi
      obtain ⟨hlt, hi⟩ := hi
      rw [Nat.zero_add]
      exact ⟨hf i (Nat.le_of_lt_succ hlt) t (Option.join_eq_some_iff.mpr hi), h.placed i t hi⟩)
  rw [← List.append_assoc, ← List.flatMap_append, List.take_append_drop, List.map_take, hread] at hfront
  have hslot := congrArg (·[slot]?) (Except.ok.inj hfront)
  simp only [List.getElem?_map, List.getElem?_take_of_lt (Nat.lt_succ_self slot)] at hslot
  rw [tuple?, tuple?, hslot]
  cases p.slots[slot]? <;> rfl

/-- If every slot is read as it is, in stored form, then all rows fit. -/
theorem fits_of_reread (h : p.Genuine) (hq : decode p.size p.id p.schema p.encode = .ok q)
    (hsame : ∀ slot, q.tuple? slot = (p.tuple? slot).map Tuple.settled) : ∀ t, some t ∈ p.slots → t.Fits := by
  obtain ⟨n, hn, hencode⟩ := h.encode_eq
  have hread := h.readSlots_of_decode hencode hq
  have hslots : q.slots = p.slots.map (Option.map Tuple.settled) := by
    have hlength : q.slots.length = p.slots.length := by
      have hl := congrArg List.length (readSlots_shaped hread).1
      rwa [List.length_map, List.length_map] at hl
    refine List.ext_getElem (hlength.trans (List.length_map _).symm) fun i hi hi' => ?_
    have hs := hsame i
    rw [tuple?_of_lt hi, tuple?_of_lt (hlength ▸ hi)] at hs
    rw [hs, List.getElem_map]
  rw [hslots] at hread
  have hall := allRead_of_readSlots (fun t ht => h.row ht) hread
  rw [← flatMap_bytes_pieces] at hall
  have hwhole := (Piece.whole_of_allRead (d := 0) h.lawful hn hall).1
  intro t ht
  obtain ⟨hl, hcells⟩ := (h.obtained t ht).cells
  refine Tuple.fill_iff.mpr ⟨hl, fun cell hc => (Piece.length_ofCell (hcells cell hc)).mp (hwhole _ ?_)⟩
  exact List.mem_flatMap.mpr ⟨some t, ht, List.mem_map_of_mem hc⟩

/-- Storing rows that came about by building or reading, and removing rows, keeps a page genuine. -/
theorem edited {edits : List PageEdit} (h : p.Genuine) (ho : ∀ t, .insert t ∈ edits → t.Obtained) :
    (p.edited edits).Genuine where
  toShaped := (h.toShaped.edited edits).1
  obtained := by
    intro u hu
    obtain hold | ⟨t, r, ht, _, rfl⟩ := h.toShaped.mem_slots_edited hu
    · exact h.obtained u hold
    · exact ho t ht

end Genuine

/-- A page that is read is genuine, and its rows are in stored form. -/
theorem genuine_of_decode {size : Nat} {id : PageId} {schema : Schema} {data : Bytes} {p : Page}
    (h : decode size id schema data = .ok p) : p.Genuine ∧ ∀ t, some t ∈ p.slots → t.settled = t := by
  obtain ⟨hshaped, -⟩ := shaped_of_decode h
  have hrows : ∀ t, some t ∈ p.slots → t.Obtained ∧ t.settled = t := by
    unfold decode at h
    split at h
    · cases h
    · simp only at h
      split at h
      · cases h
      · rename_i slots hslots
        cases h
        exact rows_of_readSlots hslots
  exact ⟨⟨hshaped, fun t ht => (hrows t ht).1⟩, fun t ht => (hrows t ht).2⟩

/-- Any image that is long enough is read as a page. After any edits the page that is read back from what is written for it
is the page itself, with its rows in stored form, if and only if every row on it fits its columns. In any case a row of the
first image that was not removed is read back as it was if it and the rows in front of it fit. -/
theorem reread_edited_iff_fits (size : Nat) (id : PageId) (schema : Schema) {data : Bytes} (hsize : size ≤ data.length) :
    ∃ p, decode size id schema data = .ok p ∧
      ∀ edits : List PageEdit, (∀ t, .insert t ∈ edits → t.Obtained) →
        ∃ q, decode size id schema (p.edited edits).encode = .ok q ∧
          ((∀ slot, q.tuple? slot = ((p.edited edits).tuple? slot).map Tuple.settled) ↔
            ∀ slot t, (p.edited edits).tuple? slot = some t → t.Fits) ∧
          ∀ slot t, p.tuple? slot = some t → .delete (some ⟨id, slot⟩) ∉ edits →
            (∀ i ≤ slot, ∀ u, (p.edited edits).tuple? i = some u → u.Fits) → q.tuple? slot = some t := by
  obtain ⟨p, hp⟩ := exists_decode size id schema hsize
  obtain ⟨hgenuine, hsettled⟩ := genuine_of_decode hp
  have hid : p.id = id := id_of_decode hp
  have hschema : p.schema = schema := (shaped_of_decode hp).2
  have hpsize : p.size = size := size_of_decode hp
  refine ⟨p, hp, fun edits ho => ?_⟩
  obtain ⟨-, hid', hschema', hsize'⟩ := hgenuine.toShaped.edited edits
  have hedited := hgenuine.edited ho
  obtain ⟨q, hq⟩ := exists_decode size id schema (Nat.le_of_eq (by
    rw [length_encode (p.edited edits), hsize', hpsize]))
  have hread : decode (p.edited edits).size (p.edited edits).id (p.edited edits).schema (p.edited edits).encode = .ok q := by
    rwa [hid', hschema', hsize', hid, hschema, hpsize]
  refine ⟨q, hq, ⟨fun hsame slot t ht => ?_, fun hf slot => ?_⟩, fun slot t ht hkept hf => ?_⟩
  · exact hedited.fits_of_reread hread hsame t (List.mem_of_getElem? (Option.join_eq_some_iff.mp ht))
  · exact hedited.tuple?_reread_of_fits hread fun i _ => hf i
  · rw [hedited.tuple?_reread_of_fits hread hf, hgenuine.toShaped.tuple?_edited (hid ▸ hkept) ht, Option.map_some,
      hsettled t (List.mem_of_getElem? (Option.join_eq_some_iff.mp ht))]

/-- A byte that is not UTF-8 in the first of two texts: after a third row is stored, no row is read back from its place. -/
theorem reread_edited_stray_byte :
    let schema : Schema := ⟨[⟨"c", .char 1⟩]⟩
    let id : PageId := ⟨⟨0⟩, 0⟩
    let edits : List PageEdit := [.insert ⟨schema, [.text "B"], none⟩]
    let row : String → Nat → Option Tuple := fun s slot => some ⟨schema, [.text s], some ⟨id, slot⟩⟩
    ∃ p q, decode 4 id schema [3, 255, 65, 0] = .ok p ∧ p.slots = [row "\uFFFD" 0, row "A" 1, none] ∧
      decode 4 id schema (p.edited edits).encode = .ok q ∧ q.slots = [row "A" 0, row "B" 1, row "\x00" 2] ∧
      ¬ ∀ slot, q.tuple? slot = ((p.edited edits).tuple? slot).map Tuple.settled := by
  intro schema id edits row
  have himage : decode 4 id schema [3, 255, 65, 0] = .ok ⟨id, schema, 4,
      [true, true, false, false, false, false, false, false], [row "\uFFFD" 0, row "A" 1, none], none,
      [3, 255, 65, 0]⟩ := by decide
  have hwritten : decode 4 id schema [7, 65, 66, 0] = .ok ⟨id, schema, 4,
      [true, true, true, false, false, false, false, false], [row "A" 0, row "B" 1, row "\x00" 2], none,
      [7, 65, 66, 0]⟩ := by decide
  obtain ⟨p, hp, hreread⟩ := reread_edited_iff_fits 4 id schema
    (show 4 ≤ ([3, 255, 65, 0] : Bytes).length by decide)
  obtain ⟨q, hq, hiff, -⟩ := hreread edits (fun t ht => by
    obtain rfl := PageEdit.insert.inj (List.mem_singleton.mp ht)
    exact .inl ⟨[.text "B"], by decide⟩)
  obtain rfl := Except.ok.inj (himage.symm.trans hp)
  have hread := hq
  rw [show (Page.edited ⟨_, _, _, _, _, _, _⟩ edits).encode = [7, 65, 66, 0] by decide] at hread
  obtain rfl := Except.ok.inj (hwritten.symm.trans hread)
  refine ⟨_, _, himage, rfl, hq, rfl, fun hsame => ?_⟩
  have hfits := hiff.mp hsame 0 ⟨schema, [.text "\uFFFD"], some ⟨id, 0⟩⟩ (by decide)
  have hunfit := (Tuple.fill_iff.mp hfits).2 (.text "\uFFFD", ⟨"c", .char 1⟩) (by decide)
  revert hunfit
  decide

end Page

end RowStore
