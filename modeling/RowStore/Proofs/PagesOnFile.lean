import RowStore.Proofs.Rows

/-!
# Pages that have a place on file

A page image of the right length can always be read, whatever its bytes are. So it takes little for the pool and the
files to fit together: every resident page has the size of the store's pages and an image on file. Such a store stays so
through every step by which no table lets a changed page out of the pool, whether or not the rows that are stored fit
their columns and however long the files get. A step changes the image of a page only by writing its resident copy
there or by appending, and the resident copy of a marked page only by an event of that very page.
-/

namespace RowStore

theorem Tuple.exists_decodeCells (columns : List Column) (bs : Bytes)
    (h : Bytes.total (·.type.width) columns ≤ bs.length) : ∃ values, decodeCells columns bs = some values := by
  induction columns generalizing bs with
  | nil => exact ⟨[], rfl⟩
  | cons c rest ih =>
    rw [Bytes.total] at h
    obtain ⟨values, hrest⟩ := ih (bs.drop c.type.width) (by rw [List.length_drop]; omega)
    rw [decodeCells, Value.decode, if_neg (by omega)]
    simp only [hrest]
    exact ⟨_, rfl⟩

theorem Tuple.exists_decode {schema : Schema} {bs : Bytes} (h : schema.width ≤ bs.length) :
    ∃ t, decode schema bs = some t := by
  obtain ⟨values, hvalues⟩ := exists_decodeCells schema.columns bs h
  rw [decode, if_neg (by omega), hvalues]
  exact ⟨_, rfl⟩

namespace Page

theorem exists_readSlots (id : PageId) (schema : Schema) (k : Nat) (bits : List Bool) (bs : Bytes)
    (h : bits.length * schema.width ≤ bs.length) : ∃ slots, readSlots id schema k bits bs = .ok slots := by
  induction bits generalizing k bs with
  | nil => exact ⟨[], rfl⟩
  | cons taken rest ih =>
    rw [List.length_cons, Nat.succ_mul] at h
    obtain ⟨slots, hrest⟩ := ih (k + 1) (bs.drop schema.width) (by rw [List.length_drop]; omega)
    obtain ⟨t, ht⟩ : ∃ t, Tuple.decode schema (bs.take schema.width) = some t :=
      Tuple.exists_decode (by rw [List.length_take]; omega)
    cases taken with
    | true => exact ⟨_, readSlots_cons.mpr ⟨_, slots, rfl, hrest, .inr ⟨rfl, t, ht, rfl⟩⟩⟩
    | false => exact ⟨_, readSlots_cons.mpr ⟨none, slots, rfl, hrest, .inl ⟨rfl, rfl⟩⟩⟩

/-- Every image that is long enough is the image of a page. -/
theorem exists_decode (size : Nat) (id : PageId) (schema : Schema) {data : Bytes} (h : size ≤ data.length) :
    ∃ page, decode size id schema data = .ok page := by
  have hfit := schema.slots_fit size
  have hheader := schema.slotCount_le_header size
  obtain ⟨slots, hslots⟩ := exists_readSlots id schema 0
    ((Bits.ofBytes ((data.take size).take (schema.headerSize size))).take (schema.slotCount size))
    ((data.take size).drop (schema.headerSize size)) (by
      rw [List.length_take, Bits.length_ofBytes, List.length_take, List.length_drop, List.length_take,
        Nat.min_eq_left (by omega)]
      omega)
  unfold decode
  rw [if_neg (by omega)]
  simp only [hslots]
  exact ⟨_, rfl⟩

theorem size_of_decode {size : Nat} {id : PageId} {schema : Schema} {data : Bytes} {page : Page}
    (h : decode size id schema data = .ok page) : page.size = size := by
  unfold decode at h
  grind

theorem size_of_insert {p p' : Page} {t : Tuple} {r : RecordId} (h : p.insert t = .ok (p', r)) :
    p'.size = p.size := by
  unfold insert at h
  grind

theorem size_of_delete {p p' : Page} {r : RecordId} (h : p.delete (some r) = .ok p') : p'.size = p.size := by
  unfold delete at h
  grind

end Page

/-- Whether an event may change the resident copy of a page. -/
def Event.On (page : PageId) : Event → Prop
  | stored _ r _ => r.page = page
  | removed _ r => r.page = page
  | based q => q = page
  | written q => q = page
  | restored q => q = page
  | discarded q => q = page
  | _ => False

theorem Event.foldl_onMark_of_not_on {l : List Event} {page : PageId} (hl : ∀ event ∈ l, ¬ event.On page)
    (mark : Option TxnId) : l.foldl (onMark page) mark = mark := by
  refine List.foldlRecOn l (onMark page) (motive := (· = mark)) rfl fun mark' hmark event hm => ?_
  have hon := hl event hm
  cases event with
  | stored | removed | written | restored | discarded => exact (if_neg hon).trans hmark
  | granted | appended | based | handed | completed | released => exact hmark

namespace Engine

variable {e e' : Engine} {l : List Event}

/-- Over plain tables no changed page is let out of the pool. -/
theorem not_handed_of_mem_events (hp : e.Plain) (hs : e.pool.Sane) (a : Action) (txn : TxnId) (f : FrameId) :
    .handed txn f ∉ e.events a := by
  intro hm
  have hkind := mayLeave_of_mem_events _ hm
  cases a with
  | ask r =>
    cases r with
    | insert t id tuple =>
      exact forall_insertEvents (P := (· ≠ .handed txn f)) hp hs (fun _ _ => nofun) (fun _ => nofun) (fun _ => nofun)
        _ hm rfl
    | delete t record =>
      exact forall_deleteEvents (P := (· ≠ .handed txn f)) hp hs (fun _ _ => nofun) (fun _ _ => nofun) _ hm rfl
    | get | commit | abort | flush | flushTxn | flushAll | discard | release => exact hkind
  | next s => exact hkind
  | scan t table => exact hkind

theorem not_handed_of_mem_history (hl : e.Layout) (hs : e.pool.Sane) (as : List Action) (txn : TxnId) (f : FrameId) :
    .handed txn f ∉ e.history as := by
  induction as generalizing e with
  | nil => exact List.not_mem_nil
  | cons a rest ih =>
    have hpath := path_act e a
    intro hm
    rcases List.mem_append.mp hm with hm | hm
    · exact not_handed_of_mem_events hl.plain hs a txn f hm
    · exact ih (hpath.layout hl) (hpath.sane hs) hm

/-- Over plain tables a page is dropped only when that is asked for. -/
theorem discarded_of_mem_events (hp : e.Plain) (hs : e.pool.Sane) {a : Action} {page : PageId}
    (hm : .discarded page ∈ e.events a) : a = .ask (.discard page) := by
  have hkind := mayLeave_of_mem_events _ hm
  cases a with
  | ask r =>
    cases r with
    | discard p =>
      obtain rfl : page = p := hkind
      rfl
    | insert t id tuple =>
      exact absurd rfl (forall_insertEvents (P := (· ≠ .discarded page)) hp hs (fun _ _ => nofun) (fun _ => nofun)
        (fun _ => nofun) _ hm)
    | delete t record =>
      exact absurd rfl (forall_deleteEvents (P := (· ≠ .discarded page)) hp hs (fun _ _ => nofun) (fun _ _ => nofun)
        _ hm)
    | get | commit | abort | flush | flushTxn | flushAll | release => exact hkind.elim
  | next s => exact hkind.elim
  | scan t table => exact hkind.elim

/-- Every resident page has the size of the store's pages and an image on file. -/
structure Housed (e : Engine) : Prop extends Layout e where
  sane : e.pool.Sane
  sized : ∀ id page, e.copy? id = some page → page.size = e.pageSize
  on_file : ∀ id page, e.copy? id = some page → (e.image? id).isSome

namespace Housed

theorem of_images (hl : e'.Layout) (hs : e'.pool.Sane) (hsize : e'.pageSize = e.pageSize)
    (himage : ∀ q, (e.image? q).isSome → (e'.image? q).isSome)
    (hcopy : ∀ id page, e'.copy? id = some page → page.size = e.pageSize ∧ (e.image? id).isSome) : e'.Housed where
  toLayout := hl
  sane := hs
  sized := fun id page hc => by rw [hsize]; exact (hcopy id page hc).1
  on_file := fun id page hc => himage id (hcopy id page hc).2

theorem copied (h : e.Housed) {id : PageId} {page : Page} (hc : e.copy? id = some page) :
    page.size = e.pageSize ∧ (e.image? id).isSome := ⟨h.sized id page hc, h.on_file id page hc⟩

theorem of_onFile (h : e.Housed) {id : PageId} {page : Page} (hp : e.onFile id = .ok page) :
    page.size = e.pageSize ∧ (e.image? id).isSome := by
  obtain ⟨table, image, _, himage, hdecode⟩ := (onFile_eq h.toLayout id).mp hp
  rw [himage]
  exact ⟨Page.size_of_decode hdecode, rfl⟩

/-- Every page that has an image can be read. -/
theorem exists_onFile (h : e.Housed) {id : PageId} (hi : (e.image? id).isSome) : ∃ page, e.onFile id = .ok page := by
  obtain ⟨image, himage⟩ := Option.isSome_iff_exists.mp hi
  cases ht : e.catalog.table? id.table with
  | error err =>
    unfold Engine.image? at himage
    rw [ht] at himage
    cases himage
  | ok table =>
    have hlength := PageFile.length_of_page? ((image?_of_table ht).symm.trans himage)
    obtain ⟨page, hpage⟩ := Page.exists_decode e.pageSize id table.schema (Nat.le_of_eq hlength.symm)
    exact ⟨page, (onFile_eq h.toLayout id).mpr ⟨table, image, ht, himage, hpage⟩⟩

theorem setPage (h : e.Housed) {id : PageId} {f : FrameId} {old page : Page} (hr : e.pool.resident.find? id = some f)
    (hf : e.page? f = some old) (hid : page.id = old.id) (hsize : page.size = old.size) :
    (e.setPage f page).Housed := by
  refine of_images (e := e) (h.toLayout.congr rfl rfl rfl) (h.sane.setPage hf hid) rfl (fun _ hi => hi)
    fun q copy hc => ?_
  change (e.pool.setPage f page).copy? q = some copy at hc
  rw [h.sane.copy?_setPage hr hf] at hc
  split at hc
  · rename_i hq
    cases hc
    have hold := h.copied (Pool.copy?_of_resident hr hf)
    rw [hsize, hq]
    exact hold
  · exact h.copied hc

theorem image?_write (h : e.Housed) {id : PageId} {f : FrameId} {page : Page} {table : Table}
    (hr : e.pool.resident.find? id = some f) (hf : e.page? f = some page)
    (ht : e.catalog.table? page.id.table = .ok table) (q : PageId) :
    image? { e with disk := (e.disk.writePage table page).1 } q =
      if q = page.id then some page.encode else e.image? q := by
  have hcopy := Pool.copy?_of_resident hr hf
  have hid := h.sane.id_of_copy? hcopy
  have hkept := h.copied hcopy
  rw [← hid] at hkept
  exact h.toOwnFiles.image?_write ht hkept.1 hkept.2 q

end Housed

/-- A step by which no changed page is let out of the pool keeps the pages housed. -/
theorem Step.housed (hstep : Step e l e') (h : e.Housed) (hl : ∀ txn f, .handed txn f ∉ l) : e'.Housed := by
  have hlayout := hstep.layout h.toLayout
  have hsane := hstep.sane h.sane
  cases hstep with
  | call | countRead | log | force | touch | grant | complete | release =>
    exact Housed.of_images (e := e) hlayout hsane rfl (fun _ hi => hi) fun _ _ hc => h.copied hc
  | hand txn f => exact absurd List.mem_cons_self (hl txn f)
  | load hn hp hload =>
    refine Housed.of_images (e := e) hlayout hsane rfl (fun _ hi => hi) fun id copy hc => ?_
    rcases h.sane.copy?_load hload hc with ⟨rfl, rfl⟩ | ⟨_, hold⟩
    · exact h.of_onFile hp
    · exact h.copied hold
  | store hr hf hx hi =>
    have hsize := Page.size_of_insert hi
    exact h.setPage hr hf (Page.id_of_insert hi).1 hsize
  | remove hr hf hx hd =>
    have hsize := Page.size_of_delete hd
    exact h.setPage hr hf (Page.id_of_delete hd).1 hsize
  | base hr hf => exact h.setPage hr hf rfl rfl
  | restore hr hf hp =>
    have hcopy := Pool.copy?_of_resident hr hf
    exact h.setPage hr hf (id_of_onFile hp) ((h.of_onFile hp).1.trans (h.copied hcopy).1.symm)
  | discard id =>
    refine Housed.of_images (e := e) hlayout hsane rfl (fun _ hi => hi) fun q copy hc => ?_
    change (e.pool.discard id).copy? q = some copy at hc
    rw [Pool.copy?_discard] at hc
    split at hc
    · cases hc
    · exact h.copied hc
  | append ht =>
    refine Housed.of_images (e := e) hlayout hsane rfl (fun q hi => ?_) fun _ _ hc => h.copied hc
    rw [h.toOwnFiles.image?_append ht]
    split
    · rfl
    · exact hi
  | @write id f page txn table hr hf hd hlog ht hi =>
    have hcopy := Pool.copy?_of_resident hr hf
    refine Housed.of_images (e := e) hlayout hsane rfl (fun q hq => ?_) fun q copy hc => ?_
    · show (image? { e with disk := (e.disk.writePage table page).1 } q).isSome
      rw [h.image?_write hr hf ht]
      split
      · rfl
      · exact hq
    · change (e.pool.setPage f (page.markDirty none)).copy? q = some copy at hc
      rw [h.sane.copy?_setPage hr hf] at hc
      split at hc
      · rename_i hq
        cases hc
        have hold := h.copied hcopy
        rw [hq]
        exact hold
      · exact h.copied hc

theorem Path.housed (hpath : Path e l e') (h : e.Housed) (hl : ∀ txn f, .handed txn f ∉ l) : e'.Housed := by
  induction hpath with
  | refl => exact h
  | step hstep _ ih =>
    exact ih (hstep.housed h fun txn f hm => hl txn f (List.mem_append_left _ hm)) fun txn f hm =>
      hl txn f (List.mem_append_right _ hm)

theorem Sound.housed (h : e.Sound) : e.Housed where
  toLayout := h.toLayout
  sane := h.sane
  sized := fun id page hc => (h.backed id page hc).size
  on_file := fun id page hc => (h.backed id page hc).on_file

theorem Housed.act (h : e.Housed) (a : Action) : (e.act a).Housed :=
  (path_act e a).housed h (not_handed_of_mem_events h.plain h.sane a)

theorem Housed.acts (h : e.Housed) (as : List Action) : (e.acts as).Housed :=
  (path_acts e as).housed h (not_handed_of_mem_history h.toLayout h.sane as)

/-- Unless it is written a page keeps its image, or has become a zero page behind the last one. -/
theorem Step.image?_of_not_written (hstep : Step e l e') (h : e.Housed) {q : PageId} (hw : .written q ∉ l) :
    e'.image? q = e.image? q ∨ e'.image? q = some (Bytes.zeros e.pageSize) := by
  cases hstep with
  | append ht =>
    rw [h.toOwnFiles.image?_append ht]
    split
    · exact .inr rfl
    · exact .inl rfl
  | @write id f page txn table hr hf hd hlog ht hi =>
    refine .inl ((h.image?_write hr hf ht q).trans (if_neg ?_))
    rintro rfl
    exact hw List.mem_cons_self
  | call | countRead | log | force | touch | load | grant | store | remove | base | restore | discard | hand
  | complete | release => exact .inl rfl

theorem Path.image?_of_not_written (hpath : Path e l e') (h : e.Housed) (hl : ∀ txn f, .handed txn f ∉ l) {q : PageId}
    (hw : .written q ∉ l) : e'.image? q = e.image? q ∨ e'.image? q = some (Bytes.zeros e.pageSize) := by
  induction hpath with
  | refl => exact .inl rfl
  | step hstep _ ih =>
    have hfirst := hstep.image?_of_not_written h fun hm => hw (List.mem_append_left _ hm)
    have hrest := ih (hstep.housed h fun txn f hm => hl txn f (List.mem_append_left _ hm))
      (fun txn f hm => hl txn f (List.mem_append_right _ hm)) fun hm => hw (List.mem_append_right _ hm)
    rw [hstep.fixed.2.1] at hrest
    rcases hrest with hsame | hzero
    · rw [hsame]
      exact hfirst
    · exact .inr hzero

/-- Only an event of the page itself changes the resident copy of a marked page, and it is never given up. -/
theorem Step.copy?_of_marked (hstep : Step e l e') (hs : e.pool.Sane) (hl : ∀ txn f, .handed txn f ∉ l) {p : PageId}
    {page : Page} (hc : e.copy? p = some page) (hd : page.dirtier ≠ none) (hon : ∀ event ∈ l, ¬ event.On p) :
    e'.copy? p = some page := by
  have hset : ∀ {id : PageId} {f : FrameId} {old new : Page}, e.pool.resident.find? id = some f →
      e.page? f = some old → old.id ≠ p → (e.setPage f new).copy? p = some page := by
    intro id f old new hr hf hne
    have hcopy : (e.setPage f new).copy? p = if p = id then some new else e.copy? p := hs.copy?_setPage hr hf new p
    rw [hcopy, if_neg, hc]
    rintro rfl
    exact hne (hs.id_of_copy? (Pool.copy?_of_resident hr hf))
  cases hstep with
  | call | countRead | log | force | touch | grant | complete | release | append => exact hc
  | hand txn f => exact absurd List.mem_cons_self (hl txn f)
  | @load loaded pool f hn hp hload =>
    cases hnew : pool.copy? p with
    | none => exact absurd (clean_of_given_up hload hc hnew) hd
    | some copy =>
      rcases hs.copy?_load hload hnew with ⟨rfl, rfl⟩ | ⟨_, hold⟩
      · have habsent : e.pool.copy? copy.id = none := by
          unfold Pool.copy?
          rw [hn]
          rfl
        cases habsent.symm.trans hc
      · exact hnew.trans (hold.symm.trans hc)
  | store hr hf hx hi => exact hset hr hf fun he => hon _ List.mem_cons_self ((Page.id_of_insert hi).2.trans he)
  | remove hr hf hx hd => exact hset hr hf fun he => hon _ List.mem_cons_self ((Page.id_of_delete hd).2.trans he)
  | base hr hf => exact hset hr hf fun he => hon _ List.mem_cons_self he
  | write hr hf => exact hset hr hf fun he => hon _ List.mem_cons_self he
  | restore hr hf => exact hset hr hf fun he => hon _ List.mem_cons_self he
  | discard id =>
    have hcopy := Pool.copy?_discard e.pool id p
    rw [if_neg fun he => hon _ List.mem_cons_self he.symm] at hcopy
    exact hcopy.trans hc

end Engine

end RowStore
