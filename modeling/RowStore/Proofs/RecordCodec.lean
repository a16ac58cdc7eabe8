import Mathlib.Algebra.Group.Nat.Defs
import RowStore.Log.Record

/-!
# Update records and their bytes

A record whose numbers fit the fields of its header is read back from any bytes that begin with its own, and the reader
is left with exactly what follows them. Records that are written one behind the other are therefore read back one by
one, whatever the lengths of their images.
-/

namespace RowStore

namespace UpdateRecord

/-- The numbers of the record fit the fields of its header. -/
structure Storable (r : UpdateRecord) : Prop where
  txn : r.txn.number < 2 ^ 64
  table : r.page.table.number < 2 ^ 32
  number : r.page.number < 2 ^ 32
  before : r.before.length < 2 ^ 32
  after : r.after.length < 2 ^ 32

/-- A field reads as the number written there if the number fits its width. -/
theorem field_ofNat {n width : Nat} (rest : Bytes) (hn : n < Nat.pow 256 width) :
    field (Bytes.ofNat width n ++ rest) 0 width = n := by
  rw [field, List.drop_zero, List.take_left' (Bytes.length_ofNat width n), Bytes.toNat_ofNat, Nat.mod_eq_of_lt hn]

/-- A field behind a number is found by its offset from the end of that number. -/
theorem field_behind (skipped offset width n : Nat) (rest : Bytes) :
    field (Bytes.ofNat skipped n ++ rest) (skipped + offset) width = field rest offset width := by
  rw [field, ← List.drop_drop, List.drop_left' (Bytes.length_ofNat skipped n), field]

/-- The five fields before the images, as the writer puts them. -/
def header (r : UpdateRecord) : Bytes :=
  Bytes.ofNat 8 r.txn.number ++ Bytes.ofNat 4 r.page.table.number ++ Bytes.ofNat 4 r.page.number ++
    Bytes.ofNat 4 r.before.length ++ Bytes.ofNat 4 r.after.length

theorem encode_eq_header (r : UpdateRecord) : r.encode = r.header ++ r.before ++ r.after := rfl

@[simp] theorem length_header (r : UpdateRecord) : r.header.length = headerSize := by
  simp only [header, headerSize, List.length_append, Bytes.length_ofNat]

theorem field_header {r : UpdateRecord} (h : r.Storable) (rest : Bytes) :
    field (r.header ++ rest) 0 8 = r.txn.number ∧
      field (r.header ++ rest) 8 4 = r.page.table.number ∧
      field (r.header ++ rest) 12 4 = r.page.number ∧
      field (r.header ++ rest) 16 4 = r.before.length ∧
      field (r.header ++ rest) 20 4 = r.after.length := by
  simp only [header, List.append_assoc]
  refine ⟨field_ofNat _ h.txn, ?_, ?_, ?_, ?_⟩
  · exact (field_behind 8 0 4 _ _).trans (field_ofNat _ h.table)
  · exact (field_behind 8 4 4 _ _).trans ((field_behind 4 0 4 _ _).trans (field_ofNat _ h.number))
  · refine (field_behind 8 8 4 _ _).trans ((field_behind 4 4 4 _ _).trans ?_)
    exact (field_behind 4 0 4 _ _).trans (field_ofNat _ h.before)
  · refine (field_behind 8 12 4 _ _).trans ((field_behind 4 8 4 _ _).trans ?_)
    exact (field_behind 4 4 4 _ _).trans ((field_behind 4 0 4 _ _).trans (field_ofNat _ h.after))

/-- A record is read back from the front of any bytes that begin with its own, and exactly its own are taken. -/
theorem decode_encode {r : UpdateRecord} (h : r.Storable) (whole : Nat) (rest : Bytes) :
    decode whole (r.encode ++ rest) = .ok (r, rest) := by
  have hbytes : r.encode ++ rest = r.header ++ (r.before ++ (r.after ++ rest)) := by
    simp only [encode_eq_header, List.append_assoc]
  obtain ⟨htxn, htable, hnumber, hbefore, hafter⟩ := field_header h (r.before ++ (r.after ++ rest))
  have hheader : ¬ (r.header ++ (r.before ++ (r.after ++ rest))).length < headerSize := by
    rw [List.length_append, length_header]
    omega
  have himages : ¬ (r.before ++ (r.after ++ rest)).length < r.before.length + r.after.length := by
    simp only [List.length_append]
    omega
  rw [hbytes, decode, if_neg hheader]
  simp only [htxn, htable, hnumber, hbefore, hafter, List.drop_left' (length_header r), if_neg himages, List.take_left,
    List.drop_left, ← List.drop_drop]

theorem readFrom_of_ok {whole : Nat} {bs rest : Bytes} {r : UpdateRecord} (h : decode whole bs = .ok (r, rest)) :
    readFrom whole bs = (readFrom (whole + 1) rest).map (r :: ·) := by
  have hne : ¬ bs.isEmpty := by
    rintro hnil
    rw [List.isEmpty_iff.mp hnil] at h
    cases h
  rw [readFrom, if_neg hne]
  split
  · rename_i hd
    rw [h] at hd
    cases hd
  · rename_i hd
    rw [h] at hd
    cases hd
    rfl

theorem readFrom_of_error {whole : Nat} {bs : Bytes} {damage : LogDamage} (hne : bs ≠ [])
    (h : decode whole bs = .error damage) : readFrom whole bs = .error damage := by
  rw [readFrom, if_neg fun hnil => hne (List.isEmpty_iff.mp hnil)]
  split
  · rename_i hd
    rw [h] at hd
    cases hd
    rfl
  · rename_i hd
    rw [h] at hd
    cases hd

/-- Records written one behind the other are read back one by one, and then what follows them is read. -/
theorem readFrom_append {rs : List UpdateRecord} (h : ∀ r ∈ rs, r.Storable) (whole : Nat) (rest : Bytes) :
    readFrom whole (rs.flatMap encode ++ rest) = (readFrom (whole + rs.length) rest).map (rs ++ ·) := by
  induction rs generalizing whole with
  | nil =>
    rw [List.flatMap_nil, List.nil_append, List.length_nil, Nat.add_zero]
    cases readFrom whole rest <;> rfl
  | cons r rs ih =>
    have hr := decode_encode (h r List.mem_cons_self) whole (rs.flatMap encode ++ rest)
    have hrest := ih (fun r' hr' => h r' (List.mem_cons_of_mem r hr')) (whole + 1)
    rw [List.flatMap_cons, List.append_assoc, readFrom_of_ok hr, hrest, List.length_cons, Nat.add_right_comm,
      Nat.add_assoc]
    cases readFrom (whole + (rs.length + 1)) rest <;> rfl

theorem readFrom_flatMap {rs : List UpdateRecord} (h : ∀ r ∈ rs, r.Storable) (whole : Nat) :
    readFrom whole (rs.flatMap encode) = .ok rs := by
  have hread := readFrom_append h whole []
  have hnil : readFrom (whole + rs.length) [] = .ok [] := by
    rw [readFrom]
    rfl
  rw [List.append_nil, hnil] at hread
  exact hread.trans (congrArg Except.ok (List.append_nil rs))

/-- The contents of a file to which records were written are read as these records. -/
theorem readAll_flatMap {rs : List UpdateRecord} (h : ∀ r ∈ rs, r.Storable) :
    readAll (rs.flatMap encode) = .ok rs := by
  rw [readAll, readFrom_flatMap h]

end UpdateRecord

end RowStore
