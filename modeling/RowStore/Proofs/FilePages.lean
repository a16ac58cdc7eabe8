import RowStore.Disk.PageFile

/-!
# Files as arrays of pages

A file whose length is a whole number of pages is an array of pages. Writing a page replaces that page and no other,
and appending adds a zero page at the end as long as page numbers last. No operation makes a file shorter.
-/

namespace RowStore

namespace Bytes

theorem overwrite_inside {offset : Nat} {data bs : Bytes} (h : offset + data.length ≤ bs.length) :
    overwrite offset data bs = bs.take offset ++ (data ++ bs.drop (offset + data.length)) := by
  unfold overwrite
  split
  · rename_i he
    rw [List.isEmpty_iff.mp he, List.nil_append, List.length_nil, Nat.add_zero, List.take_append_drop]
  · have hz : offset - bs.length = 0 := by omega
    rw [fit, hz, zeros, List.replicate_zero, List.append_nil, List.append_assoc]

/-- What is written up to the end or beyond it replaces everything from its place on. -/
theorem overwrite_tail {offset : Nat} {data bs : Bytes} (h : offset ≤ bs.length)
    (hd : bs.length ≤ offset + data.length) : overwrite offset data bs = bs.take offset ++ data := by
  unfold overwrite
  split
  · rename_i he
    have hnil := List.isEmpty_iff.mp he
    rw [hnil, List.length_nil] at hd
    rw [hnil, List.append_nil, List.take_of_length_le (by omega)]
  · have hz : offset - bs.length = 0 := by omega
    rw [fit, hz, zeros, List.replicate_zero, List.append_nil, List.drop_eq_nil_of_le hd, List.append_nil]

theorem length_le_overwrite (offset : Nat) (data bs : Bytes) : bs.length ≤ (overwrite offset data bs).length := by
  unfold overwrite
  split
  · exact Nat.le_refl _
  · simp only [List.length_append, length_fit, List.length_drop]
    omega

end Bytes

namespace SparseBytes

theorem length_le_overwrite (offset : Nat) (data : Stretch) (s : SparseBytes) :
    s.length ≤ (s.overwrite offset data).length := by
  rw [← length_toBytes, ← length_toBytes, toBytes_overwrite]
  exact Bytes.length_le_overwrite ..

end SparseBytes

namespace PageFile

/-- The bytes of a page, cut out of a byte string. -/
def cut (size n : Nat) (bs : Bytes) : Bytes := (bs.drop (n * size)).take size

theorem page?_eq_cut (size n : Nat) (contents : SparseBytes) :
    page? size n contents = if n * size + size ≤ contents.length then some (cut size n contents.toBytes) else none := by
  unfold page? cut
  rw [SparseBytes.toBytes_take, SparseBytes.toBytes_drop]
  by_cases h : n * size + size ≤ contents.length
  · rw [if_pos h, if_neg (by omega)]
  · rw [if_neg h, if_pos (by omega)]

theorem length_of_page? {size n : Nat} {contents : SparseBytes} {image : Bytes}
    (h : page? size n contents = some image) : image.length = size := by
  rw [page?_eq_cut] at h
  split at h
  · rename_i hle
    cases h
    rw [cut, List.length_take, List.length_drop, SparseBytes.length_toBytes]
    omega
  · cases h

/-- A page below another one ends where the other begins, at the latest. -/
theorem end_le_offset (size : Nat) {m n : Nat} (h : m < n) : m * size + size ≤ n * size := by
  have h' := Nat.mul_le_mul_right size (Nat.succ_le_of_lt h)
  rwa [Nat.succ_mul] at h'

theorem isSome_page? {size n : Nat} {contents : SparseBytes} :
    (page? size n contents).isSome ↔ n * size + size ≤ contents.length := by
  rw [page?_eq_cut]
  split <;> simp_all

/-- In a file of `count` pages exactly the pages below `count` are there. -/
theorem isSome_page?_iff_lt {size n count : Nat} {contents : SparseBytes} (hs : 0 < size)
    (hl : contents.length = count * size) : (page? size n contents).isSome ↔ n < count := by
  rw [isSome_page?, hl]
  constructor
  · intro h
    refine Nat.lt_of_not_le fun hn => ?_
    have h' := Nat.mul_le_mul_right size hn
    omega
  · exact end_le_offset size

theorem pageCount_eq {size count : Nat} {contents : SparseBytes} (hs : 0 < size)
    (hl : contents.length = count * size) (hc : count < numbers) : pageCount size contents = count := by
  rw [pageCount, hl, Nat.mul_div_cancel _ hs, Nat.mod_eq_of_lt hc]

theorem cut_overwrite {size n m : Nat} {image bs : Bytes} (hi : image.length = size)
    (hn : n * size + size ≤ bs.length) (hm : m * size + size ≤ bs.length) :
    cut size m (Bytes.overwrite (n * size) image bs) = if m = n then image else cut size m bs := by
  rw [Bytes.overwrite_inside (by omega), hi, cut, cut]
  have ht : (bs.take (n * size)).length = n * size := by rw [List.length_take]; omega
  rcases Nat.lt_trichotomy m n with hlt | heq | hgt
  · have he := end_le_offset size hlt
    rw [if_neg (by omega), List.drop_append_of_le_length (by omega), List.drop_take, List.take_append_of_le_length
      (by rw [List.length_take, List.length_drop]; omega), List.take_take, Nat.min_eq_left (by omega)]
  · subst heq
    rw [if_pos rfl, List.drop_left' ht, List.take_left' hi]
  · have he := end_le_offset size hgt
    have hd : m * size = (bs.take (n * size) ++ image).length + (m * size - (n * size + size)) := by
      rw [List.length_append, ht, hi]
      omega
    have hr : n * size + size + (m * size - (n * size + size)) = m * size := by omega
    rw [if_neg (by omega), ← List.append_assoc, hd, List.drop_length_add_append, List.drop_drop, ← hd, hr]

theorem length_write {size n : Nat} {image : Bytes} {contents : SparseBytes} (hi : image.length = size)
    (hn : n * size + size ≤ contents.length) : (write n image contents).length = contents.length := by
  rw [← SparseBytes.length_toBytes, ← SparseBytes.length_toBytes, write, hi, SparseBytes.toBytes_overwrite]
  exact Bytes.length_overwrite _ _ _ (by rw [Stretch.toBytes, hi, SparseBytes.length_toBytes]; exact hn)

/-- Writing a page replaces that page and no other. -/
theorem page?_write {size n : Nat} {image : Bytes} {contents : SparseBytes} (hi : image.length = size)
    (hn : n * size + size ≤ contents.length) (m : Nat) :
    page? size m (write n image contents) = if m = n then some image else page? size m contents := by
  rw [page?_eq_cut, page?_eq_cut, length_write hi hn, write, hi, SparseBytes.toBytes_overwrite, Stretch.toBytes]
  by_cases hm : m * size + size ≤ contents.length
  · rw [if_pos hm, if_pos hm, cut_overwrite hi (by rwa [SparseBytes.length_toBytes])
      (by rwa [SparseBytes.length_toBytes])]
    split <;> rfl
  · have hne : m ≠ n := fun he => hm (he ▸ hn)
    rw [if_neg hm, if_neg hm, if_neg hne]

theorem cut_overwrite_of_end_le {size m offset : Nat} {data bs : Bytes} (ho : m * size + size ≤ offset)
    (hb : m * size + size ≤ bs.length) : cut size m (Bytes.overwrite offset data bs) = cut size m bs := by
  unfold Bytes.overwrite
  split
  · rfl
  · rw [cut, cut, Bytes.fit, List.append_assoc, List.append_assoc,
      List.drop_append_of_le_length (by rw [List.length_take]; omega),
      List.take_append_of_le_length (by rw [List.length_drop, List.length_take]; omega), List.drop_take,
      List.take_take, Nat.min_eq_left (by omega)]

/-- A page that is written is there, even if the file did not reach up to it. -/
theorem page?_write_self {size n : Nat} {image : Bytes} (hs : 0 < size) (hi : image.length = size)
    (contents : SparseBytes) : page? size n (write n image contents) = some image := by
  have hne : image.isEmpty = false := by
    rw [List.isEmpty_eq_false_iff_exists_mem]
    exact List.exists_mem_of_length_pos (by omega)
  have hfit := Bytes.length_fit (n * size) contents.toBytes
  have hbytes : (write n image contents).toBytes =
      Bytes.fit (n * size) contents.toBytes ++ (image ++ contents.toBytes.drop (n * size + size)) := by
    rw [write, SparseBytes.toBytes_overwrite, Stretch.toBytes, Bytes.overwrite, hne, hi, List.append_assoc]
    rfl
  rw [page?_eq_cut, ← SparseBytes.length_toBytes, hbytes, if_pos (by simp only [List.length_append]; omega), cut,
    List.drop_left' hfit, List.take_left' hi]

/-- Writing a page leaves every other page that is there. -/
theorem page?_write_of_ne {size n m : Nat} {image : Bytes} {contents : SparseBytes} (hi : image.length = size)
    (hne : m ≠ n) (hm : (page? size m contents).isSome) :
    page? size m (write n image contents) = page? size m contents := by
  rw [isSome_page?] at hm
  by_cases hn : n * size + size ≤ contents.length
  · rw [page?_write hi hn, if_neg hne]
  · -- The page that is written lies behind the end, so the other one lies before it.
    have hlt : m < n := Nat.lt_of_not_le fun hle => by
      have he := end_le_offset size (Nat.lt_of_le_of_ne hle hne.symm)
      omega
    have hlength : m * size + size ≤ (write n image contents).length :=
      Nat.le_trans hm (SparseBytes.length_le_overwrite ..)
    rw [page?_eq_cut, page?_eq_cut, if_pos hm, if_pos hlength, write, hi, SparseBytes.toBytes_overwrite,
      cut_overwrite_of_end_le (end_le_offset size hlt) (by rwa [SparseBytes.length_toBytes])]

theorem toBytes_append {size count : Nat} {contents : SparseBytes} (hs : 0 < size)
    (hl : contents.length = count * size) (hc : count < numbers) :
    (append size contents).toBytes = contents.toBytes ++ Bytes.zeros size := by
  rw [append, pageCount_eq hs hl hc, SparseBytes.toBytes_overwrite, ← hl, ← SparseBytes.length_toBytes,
    Bytes.overwrite_tail (Nat.le_refl _) (Nat.le_add_right ..), List.take_length]
  rfl

theorem length_append {size count : Nat} {contents : SparseBytes} (hs : 0 < size)
    (hl : contents.length = count * size) (hc : count < numbers) :
    (append size contents).length = (count + 1) * size := by
  rw [← SparseBytes.length_toBytes, toBytes_append hs hl hc, List.length_append, SparseBytes.length_toBytes, hl,
    Bytes.length_zeros, Nat.succ_mul]

theorem exists_length_append {size count : Nat} {contents : SparseBytes} (hs : 0 < size)
    (hl : contents.length = count * size) : ∃ count', (append size contents).length = count' * size := by
  by_cases hc : count < numbers
  · exact ⟨count + 1, length_append hs hl hc⟩
  · -- The place that the count of pages tells lies inside the file.
    have hplace : pageCount size contents * size + size ≤ contents.length := by
      rw [hl]
      exact end_le_offset size (Nat.lt_of_lt_of_le (Nat.mod_lt _ (by decide)) (Nat.le_of_not_lt hc))
    refine ⟨count, ?_⟩
    rw [← SparseBytes.length_toBytes, append, SparseBytes.toBytes_overwrite, ← hl, ← SparseBytes.length_toBytes]
    refine Bytes.length_overwrite _ _ _ ?_
    show pageCount size contents * size + (Bytes.zeros size).length ≤ contents.toBytes.length
    rw [Bytes.length_zeros, SparseBytes.length_toBytes]
    exact hplace

/-- Appending zeroes the page that the count of pages tells, be it behind the last one or, where the count has started
again, one that was there, and leaves every other page. -/
theorem page?_append {size : Nat} (hs : 0 < size) (contents : SparseBytes) (m : Nat) :
    page? size m (append size contents) =
      if m = pageCount size contents then some (Bytes.zeros size) else page? size m contents := by
  have hzeros : (Bytes.zeros size).length = size := Bytes.length_zeros size
  have hlength := SparseBytes.length_toBytes contents
  have hbytes : (append size contents).toBytes =
      Bytes.overwrite (pageCount size contents * size) (Bytes.zeros size) contents.toBytes :=
    SparseBytes.toBytes_overwrite ..
  have hcount : pageCount size contents ≤ contents.length / size := Nat.mod_le ..
  generalize pageCount size contents = n at hbytes hcount ⊢
  have hstart : n * size ≤ contents.length :=
    Nat.le_trans (Nat.mul_le_mul_right size hcount) (Nat.div_mul_le_self ..)
  rw [page?_eq_cut, page?_eq_cut, ← SparseBytes.length_toBytes (append size contents), hbytes]
  by_cases hover : n * size + size ≤ contents.length
  · -- The page is there already.
    rw [Bytes.length_overwrite _ _ _ (by omega), hlength]
    by_cases hm : m * size + size ≤ contents.length
    · rw [if_pos hm, if_pos hm, cut_overwrite hzeros (by omega) (by omega)]
      split <;> rfl
    · rw [if_neg hm, if_neg hm, if_neg fun he : m = n => hm (by rw [he]; exact hover)]
  · -- The page lies behind the last whole one, and nothing but a rest of a page is replaced.
    rw [Bytes.overwrite_tail (by omega) (by omega)]
    have htake : (contents.toBytes.take (n * size)).length = n * size := by
      rw [List.length_take]
      omega
    rw [List.length_append, htake, hzeros]
    rcases Nat.lt_trichotomy m n with hlt | rfl | hgt
    · have he := end_le_offset size hlt
      rw [if_pos (by omega), if_neg (by omega), if_pos (by omega), cut, cut,
        List.drop_append_of_le_length (by omega), List.take_append_of_le_length
        (by rw [List.length_drop]; omega), List.drop_take, List.take_take, Nat.min_eq_left (by omega)]
    · rw [if_pos (Nat.le_refl _), if_pos rfl, cut, List.drop_left' htake, List.take_of_length_le (by omega)]
    · have he := end_le_offset size hgt
      rw [if_neg (by omega), if_neg (by omega), if_neg (by omega)]

theorem length_le_write (n : Nat) (image : Bytes) (contents : SparseBytes) :
    contents.length ≤ (write n image contents).length := SparseBytes.length_le_overwrite ..

theorem length_le_append (size : Nat) (contents : SparseBytes) :
    contents.length ≤ (append size contents).length := SparseBytes.length_le_overwrite ..

end PageFile

end RowStore
