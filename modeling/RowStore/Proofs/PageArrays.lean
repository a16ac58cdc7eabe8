import Mathlib.Data.List.Induction
import RowStore.Config
import RowStore.Proofs.PagesOnFile

/-!
# Files as arrays, over runs of calls

A file that starts empty is, after any calls, an array of as many pages as were appended, and each page holds what was
last written to it, or zeros. Page numbers, places in the file and the count of pages are computed apart from each
other, from the length of the file or from a page number, but they agree, and no place that a call computes has
more than 64 bits.
-/

namespace RowStore

namespace PageFile

variable {size n : Nat} {image : Bytes} {contents : SparseBytes}

/-- A number, if it has 64 bits. -/
def word? (n : Nat) : Option Nat := if n < 1 <<< 64 then some n else none

/-- The bytes of page `n`, if the file holds all of them. The outer `none` is a place of more than 64 bits. -/
def pageWithin? (size n : Nat) (contents : SparseBytes) : Option (Option Bytes) := do
  let start ← word? (n * size)
  let stop ← word? (start + size)
  return if contents.length < stop then none else some ((contents.drop start).take size).toBytes

def writeWithin (n : Nat) (image : Bytes) (contents : SparseBytes) : Option SparseBytes := do
  let start ← word? (n * image.length)
  let _ ← word? (start + image.length)
  return contents.overwrite start (.bytes image)

/-- The contents with a zero page at the end, if its places have 64 bits. -/
def appendWithin (size : Nat) (contents : SparseBytes) : Option SparseBytes := do
  let start ← word? (pageCount size contents * size)
  let _ ← word? (start + size)
  return contents.overwrite start (.zeros size)

theorem word?_of_lt (h : n < 1 <<< 64) : word? n = some n := if_pos h

/-- A page of allowed size with a number of 32 bits ends where a number of 64 bits can tell. -/
theorem end_lt (hsize : size ≤ maxPageSize) (hn : n < numbers) : n * size + size < 1 <<< 64 := by
  have hle : (n + 1) * size ≤ numbers * maxPageSize := Nat.mul_le_mul (Nat.succ_le_of_lt hn) hsize
  have hmax : numbers * maxPageSize < 1 <<< 64 := by decide
  rw [Nat.succ_mul] at hle
  omega

theorem pageWithin?_eq (hsize : size ≤ maxPageSize) (hn : n < numbers) (contents : SparseBytes) :
    pageWithin? size n contents = some (page? size n contents) := by
  have hend := end_lt hsize hn
  rw [pageWithin?, word?_of_lt (by omega)]
  simp only [Option.bind_eq_bind, Option.bind_some, word?_of_lt hend]
  rfl

theorem writeWithin_eq (hsize : image.length ≤ maxPageSize) (hn : n < numbers) (contents : SparseBytes) :
    writeWithin n image contents = some (write n image contents) := by
  have hend := end_lt hsize hn
  rw [writeWithin, word?_of_lt (by omega)]
  simp only [Option.bind_eq_bind, Option.bind_some, word?_of_lt hend]
  rfl

theorem appendWithin_eq (hsize : size ≤ maxPageSize) (contents : SparseBytes) :
    appendWithin size contents = some (append size contents) := by
  have hend : pageCount size contents * size + size < 1 <<< 64 := end_lt hsize (Nat.mod_lt _ (by decide))
  rw [appendWithin, word?_of_lt (by omega)]
  simp only [Option.bind_eq_bind, Option.bind_some, word?_of_lt hend]
  rfl

/-- Writing a page that is there replaces its bytes and no others. -/
theorem toBytes_write (hi : image.length = size) (hn : n * size + size ≤ contents.length) :
    (write n image contents).toBytes =
      contents.toBytes.take (n * size) ++ (image ++ contents.toBytes.drop ((n + 1) * size)) := by
  rw [write, SparseBytes.toBytes_overwrite, Stretch.toBytes, hi, Bytes.overwrite_inside, hi, Nat.succ_mul]
  rw [hi, SparseBytes.length_toBytes]
  exact hn

end PageFile

/-! ## Calls -/

inductive FileCall where
  | append
  | write (page : Page)
  | read (id : PageId)
  | count

namespace FileCall

def appends (calls : List FileCall) : Nat := calls.countP fun
  | append => true
  | _ => false

def image? (id : PageId) : FileCall → Option Bytes
  | write page => if page.id = id then some page.encode else none
  | _ => none

/-- The image that was last written to a page, or zeros if none was. -/
def lastImage (size : Nat) (calls : List FileCall) (id : PageId) : Bytes :=
  ((calls.filterMap (image? id)).getLast?).getD (Bytes.zeros size)

/-- Pages of the table are written in the size of the table's pages, and only where a page was appended before. -/
def InPlace (size : Nat) (table : TableId) (calls : List FileCall) : Prop :=
  ∀ earlier page later, calls = earlier ++ write page :: later → page.id.table = table →
    page.size = size ∧ page.id.number < appends earlier

variable {size : Nat} {table : TableId} {calls : List FileCall} {c : FileCall} {id : PageId}

theorem appends_snoc (calls : List FileCall) (c : FileCall) :
    appends (calls ++ [c]) = appends calls + appends [c] := List.countP_append

theorem lastImage_snoc (size : Nat) (calls : List FileCall) (c : FileCall) (id : PageId) :
    lastImage size (calls ++ [c]) id = (c.image? id).getD (lastImage size calls id) := by
  rw [lastImage, lastImage, List.filterMap_append]
  cases hc : c.image? id with
  | none =>
    rw [List.filterMap_cons_none hc, List.filterMap_nil, List.append_nil]
    rfl
  | some image =>
    rw [List.filterMap_cons_some hc, List.filterMap_nil, List.getLast?_concat]
    rfl

theorem InPlace.init (h : InPlace size table (calls ++ [c])) : InPlace size table calls :=
  fun earlier page later heq => h earlier page (later ++ [c]) (by rw [heq, List.append_assoc]; rfl)

theorem InPlace.last {page : Page} (h : InPlace size table (calls ++ [write page])) (hid : page.id.table = table) :
    page.size = size ∧ page.id.number < appends calls := h calls page [] rfl hid

end FileCall

namespace Disk

open FileCall

def call (d : Disk) (size : Nat) (t : Table) : FileCall → Disk
  | .append => (d.appendPage size t).1
  | .write page => (d.writePage t page).1
  | .read id => (d.readPage size t id).1
  | .count => d

def afterCalls (d : Disk) (size : Nat) (t : Table) (calls : List FileCall) : Disk :=
  calls.foldl (fun d c => d.call size t c) d

/-- A table's file is an array of pages with the given images. Every call on it is answered accordingly, and changes
the bytes of no page but the one that it is about. -/
structure PageArray (d : Disk) (size : Nat) (t : Table) (count : Nat) (image : PageId → Bytes) : Prop where
  count_eq : d.pageCount size t = count
  length_eq : (d.contents t.file).length = size * count
  append : (d.appendPage size t).2 = ⟨t.id, count⟩ ∧
    ((d.appendPage size t).1.contents t.file).toBytes = (d.contents t.file).toBytes ++ Bytes.zeros size
  write : ∀ page, page.id.table = t.id → page.size = size → page.id.number < count →
    (d.writePage t page).2 = .ok () ∧
    ((d.writePage t page).1.contents t.file).toBytes =
      (d.contents t.file).toBytes.take (page.id.number * size) ++
        (page.encode ++ (d.contents t.file).toBytes.drop ((page.id.number + 1) * size))
  read_fails : ∀ id, (d.readPage size t id).2 = .error (.pageNotFound id) ↔ id.table ≠ t.id ∨ count ≤ id.number
  read : ∀ id, id.table = t.id → id.number < count → ∃ page, (d.readPage size t id).2 = .ok page ∧
    Page.decode size id t.schema (image id) = .ok page
  read_files : ∀ id, (d.readPage size t id).1.files = d.files
  pageWithin : ∀ n < PageFile.numbers,
    PageFile.pageWithin? size n (d.contents t.file) = some (PageFile.page? size n (d.contents t.file))
  writeWithin : ∀ n < PageFile.numbers, ∀ bytes, bytes.length = size →
    PageFile.writeWithin n bytes (d.contents t.file) = some (PageFile.write n bytes (d.contents t.file))
  appendWithin : PageFile.appendWithin size (d.contents t.file) = some (PageFile.append size (d.contents t.file))

/-- After calls that started on an empty file, the file has the pages that were appended, with the images that were
last written; no page was written before it was appended. -/
structure Holds (d : Disk) (size : Nat) (t : Table) (calls : List FileCall) : Prop where
  placed : t.file < d.files.length
  length_eq : (d.contents t.file).length = appends calls * size
  image : ∀ n < appends calls,
    PageFile.page? size n (d.contents t.file) = some (lastImage size calls ⟨t.id, n⟩)
  fresh : ∀ n, appends calls ≤ n → lastImage size calls ⟨t.id, n⟩ = Bytes.zeros size

variable {d : Disk} {size : Nat} {t : Table} {calls : List FileCall} {page : Page}

theorem contents_appendPage (h : t.file < d.files.length) (size : Nat) :
    (d.appendPage size t).1.contents t.file = PageFile.append size (d.contents t.file) :=
  (contents_setContents h _ _).trans (if_pos rfl)

theorem writePage_eq (h : page.id.table = t.id) :
    d.writePage t page =
      ((d.setContents t.file (PageFile.write page.id.number page.encode (d.contents t.file))).countWrite t.id,
        .ok ()) := by
  rw [writePage, if_neg (not_not_intro h)]

theorem contents_writePage (h : t.file < d.files.length) (hid : page.id.table = t.id) :
    (d.writePage t page).1.contents t.file = PageFile.write page.id.number page.encode (d.contents t.file) := by
  rw [writePage_eq hid]
  exact (contents_setContents h _ _).trans (if_pos rfl)

theorem files_readPage (d : Disk) (size : Nat) (t : Table) (id : PageId) :
    (d.readPage size t id).1.files = d.files := by
  unfold readPage
  split
  · rfl
  · split <;> rfl

namespace Holds

theorem start (h : t.file < d.files.length) (hempty : (d.contents t.file).length = 0) : d.Holds size t [] where
  placed := h
  length_eq := by rw [hempty, appends, List.countP_nil, Nat.zero_mul]
  image _ hn := absurd hn (Nat.not_lt_zero _)
  fresh _ _ := rfl

theorem same (h : d.Holds size t calls) {d' : Disk} {c : FileCall} (hfiles : d'.files = d.files)
    (hc : appends [c] = 0) (hi : ∀ n, c.image? ⟨t.id, n⟩ = none) : d'.Holds size t (calls ++ [c]) := by
  have hcontents : d'.contents t.file = d.contents t.file := by rw [contents, contents, hfiles]
  have hlast : ∀ n, lastImage size (calls ++ [c]) ⟨t.id, n⟩ = lastImage size calls ⟨t.id, n⟩ := fun n => by
    rw [lastImage_snoc, hi]
    rfl
  have hcount : appends (calls ++ [c]) = appends calls := by rw [appends_snoc, hc, Nat.add_zero]
  constructor
  · rw [hfiles]
    exact h.placed
  · rw [hcontents, hcount]
    exact h.length_eq
  · intro n hn
    rw [hcontents, hlast]
    exact h.image n (by rwa [hcount] at hn)
  · intro n hn
    rw [hlast]
    exact h.fresh n (by rwa [hcount] at hn)

/-- The page that is appended holds zeros, as no page behind the end was written before. -/
theorem append (h : d.Holds size t calls) (hs : 0 < size) (hfew : appends calls < PageFile.numbers) :
    (d.appendPage size t).1.Holds size t (calls ++ [.append]) := by
  have hcontents := contents_appendPage h.placed size
  have hcount : appends (calls ++ [.append]) = appends calls + 1 := appends_snoc ..
  have hlast : ∀ n, lastImage size (calls ++ [.append]) ⟨t.id, n⟩ = lastImage size calls ⟨t.id, n⟩ := fun n =>
    lastImage_snoc ..
  constructor
  · exact Nat.lt_of_lt_of_eq h.placed (List.length_set ..).symm
  · rw [hcontents, hcount, PageFile.length_append hs h.length_eq hfew]
  · intro n hn
    rw [hcontents, hlast, PageFile.page?_append hs, PageFile.pageCount_eq hs h.length_eq hfew]
    split
    · rename_i he
      rw [h.fresh n (Nat.le_of_eq he.symm)]
    · exact h.image n (by omega)
  · intro n hn
    rw [hlast]
    exact h.fresh n (by omega)

/-- The page that is written holds what is written, and every other page what it held. -/
theorem write (h : d.Holds size t calls) (hid : page.id.table = t.id) (hsize : page.size = size)
    (hn : page.id.number < appends calls) : (d.writePage t page).1.Holds size t (calls ++ [.write page]) := by
  have hcontents := contents_writePage h.placed hid
  have hlength : page.encode.length = size := by rw [Page.length_encode, hsize]
  have hinside : page.id.number * size + size ≤ (d.contents t.file).length := by
    rw [h.length_eq]
    exact PageFile.end_le_offset size hn
  have hcount : appends (calls ++ [.write page]) = appends calls := appends_snoc ..
  have hlast : ∀ n, lastImage size (calls ++ [.write page]) ⟨t.id, n⟩ =
      if n = page.id.number then page.encode else lastImage size calls ⟨t.id, n⟩ := fun n => by
    have hpage : page.id = ⟨t.id, n⟩ ↔ n = page.id.number := by
      rw [← hid]
      exact ⟨fun he => (congrArg PageId.number he).symm, fun he => by rw [he]⟩
    rw [lastImage_snoc, image?]
    simp only [hpage]
    split <;> rfl
  constructor
  · rw [writePage_eq hid]
    exact Nat.lt_of_lt_of_eq h.placed (List.length_set ..).symm
  · rw [hcontents, hcount, PageFile.length_write hlength hinside, h.length_eq]
  · intro m hm
    rw [hcontents, hlast, PageFile.page?_write hlength hinside]
    split
    · rfl
    · exact h.image m (by rwa [hcount] at hm)
  · intro m hm
    rw [hlast, if_neg (by omega)]
    exact h.fresh m (by rwa [hcount] at hm)

theorem call (h : d.Holds size t calls) (hs : 0 < size) {c : FileCall}
    (hfew : appends (calls ++ [c]) < PageFile.numbers) (hplace : InPlace size t.id (calls ++ [c])) :
    (d.call size t c).Holds size t (calls ++ [c]) := by
  have hbefore : appends calls < PageFile.numbers := by
    rw [appends_snoc] at hfew
    omega
  cases c with
  | append => exact h.append hs hbefore
  | write page =>
    by_cases hid : page.id.table = t.id
    · obtain ⟨hsize, hn⟩ := hplace.last hid
      exact h.write hid hsize hn
    · -- A page of another table is refused.
      have hrefused : (d.writePage t page).1 = d := by rw [writePage, if_pos hid]
      refine h.same (congrArg files hrefused) rfl fun n => if_neg fun he => hid (by rw [he])
  | read id => exact h.same (files_readPage d size t id) rfl fun _ => rfl
  | count => exact h.same rfl rfl fun _ => rfl

theorem afterCalls (h : t.file < d.files.length) (hempty : (d.contents t.file).length = 0) (hs : 0 < size)
    (hfew : appends calls < PageFile.numbers) (hplace : InPlace size t.id calls) :
    (d.afterCalls size t calls).Holds size t calls := by
  induction calls using List.reverseRecOn with
  | nil => exact start h hempty
  | append_singleton calls c ih =>
    have hbefore : appends calls < PageFile.numbers := by
      rw [appends_snoc] at hfew
      omega
    rw [Disk.afterCalls, List.foldl_append]
    exact (ih hbefore hplace.init).call hs hfew hplace

theorem readPage_eq (h : d.Holds size t calls) {id : PageId} (hid : id.table = t.id) (hn : id.number < appends calls) :
    d.readPage size t id = (d.countRead t.id, Page.decode size id t.schema (lastImage size calls id)) := by
  obtain ⟨table, n⟩ := id
  cases hid
  rw [readPage, if_neg (not_not_intro rfl)]
  simp only [h.image n hn]

theorem pageArray (h : d.Holds size t calls) (hs : 0 < size) (hsize : size ≤ maxPageSize)
    (hfew : appends calls < PageFile.numbers) :
    d.PageArray size t (appends calls) (lastImage size calls) := by
  have hcount : d.pageCount size t = appends calls := PageFile.pageCount_eq hs h.length_eq hfew
  have hread : ∀ id : PageId, id.table = t.id → id.number < appends calls →
      ∃ page, (d.readPage size t id).2 = .ok page ∧
        Page.decode size id t.schema (lastImage size calls id) = .ok page := by
    intro id hid hn
    have hlength : (lastImage size calls id).length = size := by
      have himage := h.image id.number hn
      rw [← hid] at himage
      exact PageFile.length_of_page? himage
    obtain ⟨page, hpage⟩ := Page.exists_decode size id t.schema (Nat.le_of_eq hlength.symm)
    exact ⟨page, by rw [h.readPage_eq hid hn, hpage], hpage⟩
  refine ⟨hcount, by rw [h.length_eq, Nat.mul_comm], ⟨?_, ?_⟩, ?_, fun id => ⟨fun hfail => ?_, ?_⟩, hread,
    files_readPage d size t, ?_, ?_, PageFile.appendWithin_eq hsize _⟩
  · exact congrArg (PageId.mk t.id) hcount
  · rw [contents_appendPage h.placed, PageFile.toBytes_append hs h.length_eq hfew]
  · intro page hid hp hn
    refine ⟨by rw [writePage_eq hid], ?_⟩
    rw [contents_writePage h.placed hid, PageFile.toBytes_write (by rw [Page.length_encode, hp])]
    rw [h.length_eq]
    exact PageFile.end_le_offset size hn
  · -- A page of the table below the count would have been read.
    by_cases hid : id.table = t.id
    · refine .inr (Nat.le_of_not_lt fun hn => ?_)
      obtain ⟨page, hpage, _⟩ := hread id hid hn
      rw [hfail] at hpage
      cases hpage
    · exact .inl hid
  · rintro (hid | hge)
    · rw [readPage, if_pos hid]
    · have hnone : PageFile.page? size id.number (d.contents t.file) = none := by
        rw [← Option.not_isSome_iff_eq_none, PageFile.isSome_page?_iff_lt hs h.length_eq]
        exact Nat.not_lt.mpr hge
      rw [readPage, hnone, ite_self]
  · exact fun n hn => PageFile.pageWithin?_eq hsize hn _
  · intro n hn bytes hbytes
    exact PageFile.writeWithin_eq (by rwa [hbytes]) hn _

end Holds

/-- Whatever pages are appended, written and read in a file that started empty, it is an array of the pages that were
appended, with the images that were last written: it is as long as so many pages, appending adds a zero page
behind them, writing replaces the bytes of one page, a page is found if and only if it is the table's and below the
count, and it is read from what was last written to it. Every place has 64 bits. -/
theorem file_is_page_array {d : Disk} {size : Nat} {t : Table} {calls : List FileCall} (hs : 0 < size)
    (hsize : size ≤ maxPageSize) (hfile : t.file < d.files.length) (hempty : (d.contents t.file).length = 0)
    (hfew : appends calls < PageFile.numbers) (hplace : InPlace size t.id calls) :
    (d.afterCalls size t calls).PageArray size t (appends calls) (lastImage size calls) :=
  (Holds.afterCalls hfile hempty hs hfew hplace).pageArray hs hsize hfew

/-- Three pages are appended in between writes of the first two, the second of which is written twice. -/
theorem file_is_page_array_after_rewrite :
    let schema : Schema := ⟨[⟨"flag", .boolean⟩]⟩
    let table : Table := ⟨⟨1⟩, schema, 0, []⟩
    let page (n : Nat) (flag : Bool) : Page := ⟨⟨⟨1⟩, n⟩, schema, 4, true :: List.replicate 7 false,
      [some ⟨schema, [.boolean flag], none⟩, none, none], none, []⟩
    let calls : List FileCall := [.append, .append, .write (page 1 true), .read ⟨⟨1⟩, 1⟩, .append,
      .write (page 0 true), .count, .write (page 1 false)]
    let d := empty.create.1.afterCalls 4 table calls
    InPlace 4 ⟨1⟩ calls ∧ d.pageCount 4 table = 3 ∧ (d.contents 0).length = 12 ∧
      (∃ p, (d.readPage 4 table ⟨⟨1⟩, 1⟩).2 = .ok p ∧ Page.decode 4 ⟨⟨1⟩, 1⟩ schema [1, 0, 0, 0] = .ok p) ∧
      (∃ p, (d.readPage 4 table ⟨⟨1⟩, 2⟩).2 = .ok p ∧ Page.decode 4 ⟨⟨1⟩, 2⟩ schema [0, 0, 0, 0] = .ok p) ∧
      (d.readPage 4 table ⟨⟨1⟩, 3⟩).2 = .error (.pageNotFound ⟨⟨1⟩, 3⟩) ∧
      (d.readPage 4 table ⟨⟨2⟩, 0⟩).2 = .error (.pageNotFound ⟨⟨2⟩, 0⟩) := by
  intro schema table page calls d
  have hplace : InPlace 4 ⟨1⟩ calls := by
    intro earlier written later heq _
    simp only [calls, List.cons_eq_append_iff, List.cons.injEq, reduceCtorEq, false_and, and_false, write.injEq,
      List.nil_eq, List.append_eq_nil_iff, exists_const, or_false, ↓existsAndEq, true_and, false_or] at heq
    -- One of the three writes.
    obtain ⟨_, rfl, ⟨rfl, rfl, _⟩ | ⟨_, rfl, ⟨rfl, rfl, _⟩ | ⟨rfl, rfl, _⟩⟩⟩ := heq
    all_goals decide
  have harray : d.PageArray 4 table 3 (lastImage 4 calls) :=
    file_is_page_array (by decide) (by decide) (by decide) rfl (by decide) hplace
  have hwritten : lastImage 4 calls ⟨⟨1⟩, 1⟩ = [1, 0, 0, 0] := by decide
  have hread := harray.read ⟨⟨1⟩, 1⟩ rfl (by decide)
  rw [hwritten] at hread
  exact ⟨hplace, harray.count_eq, harray.length_eq, hread, harray.read ⟨⟨1⟩, 2⟩ rfl (by decide),
    (harray.read_fails _).mpr (.inr (by decide)), (harray.read_fails _).mpr (.inl (by decide))⟩

end Disk

end RowStore
