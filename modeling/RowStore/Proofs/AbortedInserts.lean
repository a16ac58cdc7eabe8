import Mathlib.Data.List.Induction
import RowStore.Proofs.OpenChanges

/-!
# Aborted inserts

An abort that succeeds leaves each page that its transaction had marked as it is on file, in memory too. So unless the
page was written in the meantime, no trace of a row that the transaction has stored is left in either place: the page
is as its file had it before the insert, which is what a reader had seen at some time before, or it has no rows. A page
that a flush has written after the insert is not marked any more, and the row outlives the abort.
-/

namespace RowStore.Engine

variable {e e' : Engine} {l : List Event} {txn : TxnId} {p : PageId}

/-- In an abort a restored page that is resident is as it is on file. -/
theorem Step.onFile_of_restored (hstep : Step e l e') (hs : e.pool.Sane) (hl : ∀ event ∈ l, event.OfAbort)
    (h : .restored p ∈ l ∨ ∀ page, e.copy? p = some page → e.onFile p = .ok page) {page : Page}
    (hc : e'.copy? p = some page) : e'.onFile p = .ok page := by
  have hsame : e'.onFile p = e.onFile p := by
    obtain ⟨hcat, hsize, _⟩ := hstep.fixed
    refine onFile_congr hcat hsize ((Path.one hstep).files_eq (fun q hm => ?_) fun q hm => ?_) p
    · rcases hl _ hm with ⟨_, he⟩ | ⟨_, he⟩ <;> cases he
    · rcases hl _ hm with ⟨_, he⟩ | ⟨_, he⟩ <;> cases he
  rw [hsame]
  cases hstep with
  | call | countRead | log | force | touch => exact h.resolve_left List.not_mem_nil page hc
  | load hn hp hload =>
    rcases hs.copy?_load hload hc with ⟨rfl, rfl⟩ | ⟨_, hold⟩
    · exact hp
    · exact h.resolve_left List.not_mem_nil page hold
  | complete => exact h.resolve_left (fun hm => by cases List.mem_singleton.mp hm) page hc
  | @restore id f old fresh hr hf hp =>
    have hid := hs.id_of_copy? (Pool.copy?_of_resident hr hf)
    change (e.pool.setPage f fresh).copy? p = some page at hc
    rw [hs.copy?_setPage hr hf] at hc
    split at hc
    · rename_i hq
      cases hc
      rw [hq, ← hid]
      exact hp
    · rename_i hq
      refine h.resolve_left (fun hm => hq ?_) page hc
      cases List.mem_singleton.mp hm
      exact hid
  | grant | store | remove | append | base | write | discard | hand | release =>
    rcases hl _ List.mem_cons_self with ⟨_, he⟩ | ⟨_, he⟩ <;> cases he

theorem Path.onFile_of_restored (hpath : Path e l e') (hs : e.pool.Sane) (hl : ∀ event ∈ l, event.OfAbort)
    (h : .restored p ∈ l ∨ ∀ page, e.copy? p = some page → e.onFile p = .ok page) {page : Page}
    (hc : e'.copy? p = some page) : e'.onFile p = .ok page := by
  induction hpath with
  | refl => exact h.resolve_left List.not_mem_nil page hc
  | step hstep _ ih =>
    obtain ⟨hfirst, hlater⟩ := List.forall_mem_append.mp hl
    refine ih (hstep.sane hs) hlater ?_ hc
    rcases h with hm | hsame
    · rcases List.mem_append.mp hm with hm | hm
      · exact .inr fun copy hcopy => hstep.onFile_of_restored hs hfirst (.inl hm) hcopy
      · exact .inl hm
    · exact .inr fun copy hcopy => hstep.onFile_of_restored hs hfirst (.inr hsame) hcopy

/-- After an abort that succeeds a page that its transaction had marked is resident, and as it was on file before. -/
theorem Housed.onFile_of_aborted (h : e.Housed) {sweep : Sweep} (hok : (e.complete txn false sweep).2 = .ok ())
    (hm : e.mark? p = some txn) :
    ∃ page, (e.act (.ask (.abort txn sweep))).copy? p = some page ∧
      (e.act (.ask (.abort txn sweep))).onFile p = .ok page ∧ e.onFile p = .ok page := by
  obtain ⟨f, _, hres⟩ := (mem_dirtied_iff e txn sweep p).mpr hm
  have hresident : (e.act (.ask (.abort txn sweep))).pool.resident.find? p = some f := by
    rw [← hres]
    exact congrArg (Dict.find? · p) (resident_rollbackPages _ e fun _ => resident_of_mem_dirtiedBy)
  obtain ⟨page, hpage, _⟩ := (h.act (.ask (.abort txn sweep))).sane.keyed p f hresident
  have hcopy := Pool.copy?_of_resident hresident hpage
  have hpath := path_act e (.ask (.abort txn sweep))
  have hfile := hpath.onFile_of_restored h.sane ofAbort_of_mem_events (.inl (restored_of_marked h.sane hok hm)) hcopy
  have hfiles := hpath.files_eq
    (fun q hm => by rcases ofAbort_of_mem_events _ hm with ⟨_, he⟩ | ⟨_, he⟩ <;> cases he)
    (fun q hm => by rcases ofAbort_of_mem_events _ hm with ⟨_, he⟩ | ⟨_, he⟩ <;> cases he)
  exact ⟨page, hcopy, hfile, (onFile_congr hpath.fixed.1 hpath.fixed.2.1 hfiles p).symm.trans hfile⟩

/-- What a page has on file is zeros or what a reader has seen at some time. -/
theorem Opened.seen_of_image (h : e.Opened) {as : List Action} {image : Bytes}
    (hi : (e.acts as).image? p = some image) :
    image = Bytes.zeros e.pageSize ∨ ∃ seen rest, as = seen ++ rest ∧ (e.acts seen).view? p = some image := by
  induction as using List.reverseRecOn generalizing image with
  | nil => exact .inr ⟨[], [], rfl, (view?_of_absent (h.copy? p)).trans hi⟩
  | append_singleton as a ih =>
    have hhoused := h.firm.toHoused.acts as
    have hsize := (path_acts e as).fixed.2.1
    have hpath := path_act (e.acts as) a
    rw [acts_append] at hi
    have hold : (e.acts as).image? p = some image → image = Bytes.zeros e.pageSize ∨
        ∃ seen rest, as ++ [a] = seen ++ rest ∧ (e.acts seen).view? p = some image := by
      intro hsame
      refine (ih hsame).imp_right ?_
      rintro ⟨seen, rest, rfl, hview⟩
      exact ⟨seen, rest ++ [a], List.append_assoc .., hview⟩
    by_cases hw : .written p ∈ (e.acts as).events a
    · have hflush := (mayLeave_of_mem_events _ hw).flushes
      rcases hpath.flushed hhoused (fun event hm => hflush.written (mayLeave_of_mem_events event hm)) p with
        ⟨hnot, _⟩ | ⟨page, _, hcopy, _, _, himage, _⟩
      · exact absurd hw hnot
      · refine .inr ⟨as, [a], rfl, ?_⟩
        rw [view?_of_copy hcopy, ← himage]
        exact hi
    · rcases hpath.image?_of_not_written hhoused (not_handed_of_mem_events hhoused.plain hhoused.sane a) hw with
        hsame | hzero
      · exact hold (hsame.symm.trans hi)
      · rw [hsize] at hzero
        exact .inl (Option.some.inj (hi.symm.trans hzero))

/-- If a transaction stores a row and aborts successfully, and in between neither ends nor has the row's page written by
a flush, then the page is the same in memory and on file after the abort, and either the row's slot is free on it, or
the file had the page so before the insert, as a reader had seen it at some time before. -/
theorem aborted_insert_undone (e : Engine) (hopen : e.Opened) (before between : List Action) (txn : TxnId)
    (table : TableId) (tuple : Tuple) (sweep : Sweep) (r : RecordId)
    (hstored : .stored txn r tuple ∈ (e.acts before).events (.ask (.insert txn table tuple)))
    (hkeeps : ∀ a ∈ between, a.Keeps) (hends : ∀ a ∈ between, a.ends ≠ some txn)
    (hflush : .written r.page ∉ (e.acts before).history (.ask (.insert txn table tuple) :: between))
    (hok : ((e.acts (before ++ .ask (.insert txn table tuple) :: between)).complete txn false sweep).2 = .ok ()) :
    ∃ page,
      (e.acts (before ++ .ask (.insert txn table tuple) :: between ++ [.ask (.abort txn sweep)])).copy? r.page =
        some page ∧
      (e.acts (before ++ .ask (.insert txn table tuple) :: between ++ [.ask (.abort txn sweep)])).onFile r.page =
        .ok page ∧
      (page.tuple? r.slot = none ∨ (e.acts before).onFile r.page = .ok page ∧
        ∃ seen rest, before = seen ++ rest ∧ (e.acts seen).view? r.page = (e.acts before).image? r.page) := by
  have hfirm := hopen.firm.acts before
  have hlayout := hfirm.toLayout
  have hpending := (hfirm.pending_of_change hstored ⟨rfl, rfl⟩)
  have hmark := ((hfirm.act _).pending_acts hpending hends hkeeps fun hm => hflush (List.mem_append_right _ hm)).mark
  rw [acts_append, acts_cons] at hok
  rw [acts_append, acts_append, acts_cons]
  obtain ⟨page, hcopy, hfile, hlast⟩ := ((hfirm.act _).acts between).toHoused.onFile_of_aborted hok hmark
  refine ⟨page, hcopy, hfile, ?_⟩
  have hpath := path_acts (e.acts before) (.ask (.insert txn table tuple) :: between)
  obtain ⟨table', image, ht, himage, hdecode⟩ := (onFile_eq (hpath.layout hlayout) r.page).mp hlast
  rw [hpath.fixed.1] at ht
  rw [hpath.fixed.2.1] at hdecode
  have hzeros : image = Bytes.zeros (e.acts before).pageSize → page.tuple? r.slot = none := by
    rintro rfl
    exact Page.tuple?_of_decode_zeros hdecode r.slot
  rcases hpath.image?_of_not_written hfirm.toHoused (not_handed_of_mem_history hlayout hfirm.sane _) hflush with
    hsame | hzero
  · -- The file has the page as it had before the insert.
    have hbefore := hsame.symm.trans himage
    rcases hopen.seen_of_image hbefore with hz | ⟨seen, rest, hsplit, hview⟩
    · exact .inl (hzeros (hz.trans (congrArg Bytes.zeros (path_acts e before).fixed.2.1.symm)))
    · exact .inr ⟨(onFile_eq hlayout r.page).mpr ⟨table', image, ht, hbefore, hdecode⟩, seen, rest, hsplit,
        hview.trans hbefore.symm⟩
  · -- The file has got the page as a zero page since.
    exact .inl (hzeros (Option.some.inj (himage.symm.trans hzero)))

def rowFlushed : List Action := rowCommitted ++ [.ask (.flushAll .asListed)]

def undoneBeside : Engine :=
  flagStore.acts (rowFlushed ++ .ask (.insert ⟨2⟩ ⟨0⟩ (flagRow false)) :: [.ask (.flushTxn ⟨1⟩ .asListed)] ++
    [.ask (.abort ⟨2⟩ .asListed)])

/-- The insert of one row leaves no trace on a page that a row of another transaction was flushed to before. -/
theorem insert_undone_beside_flushed_row :
    ∃ page, undoneBeside.copy? ⟨⟨0⟩, 0⟩ = some page ∧ undoneBeside.onFile ⟨⟨0⟩, 0⟩ = .ok page ∧
      page.tuple? 1 = none := by
  obtain ⟨page, hcopy, hfile, _⟩ := aborted_insert_undone flagStore (fresh_single (by decide) _ _).opened rowFlushed
    [.ask (.flushTxn ⟨1⟩ .asListed)] ⟨2⟩ ⟨0⟩ (flagRow false) .asListed ⟨⟨⟨0⟩, 0⟩, 1⟩
    (List.mem_of_getElem? (i := 1) rfl) (List.forall_mem_singleton.mpr trivial) (by decide)
    (show Event.written _ ∉ [Event.granted ⟨2⟩ ⟨⟨0⟩, 0⟩ .exclusive,
      Event.stored ⟨2⟩ ⟨⟨⟨0⟩, 0⟩, 1⟩ (flagRow false)] by simp) rfl
  refine ⟨page, hcopy, hfile, ?_⟩
  exact (congrArg (Option.bind · (Page.tuple? · 1)) hcopy).symm.trans (by decide +kernel)

def insertFlushed : List Action := [.ask (.insert ⟨1⟩ ⟨0⟩ (flagRow true)), .ask (.flushAll .asListed)]

/-- A row is stored and committed, and somebody else changes its page. -/
def changedSince : List Action := rowCommitted ++ [.ask (.insert ⟨2⟩ ⟨0⟩ (flagRow false))]

/-- A row whose page was flushed outlives the abort, in memory and on file. So does, in memory, a committed row of a
page that somebody else has changed since, when its transaction aborts once more. -/
theorem flushed_insert_outlives_abort :
    (.stored ⟨1⟩ ⟨⟨⟨0⟩, 0⟩, 0⟩ (flagRow true) ∈ flagStore.events (.ask (.insert ⟨1⟩ ⟨0⟩ (flagRow true))) ∧
      flagStore.view? ⟨⟨0⟩, 0⟩ = none) ∧
    (((flagStore.acts insertFlushed).complete ⟨1⟩ false .asListed).2 = .ok () ∧
      (flagStore.acts (insertFlushed ++ [.ask (.abort ⟨1⟩ .asListed)])).row? ⟨⟨⟨0⟩, 0⟩, 0⟩ =
        some (flagRow true).encode ∧
      (flagStore.acts (insertFlushed ++ [.ask (.abort ⟨1⟩ .asListed)])).saved? ⟨⟨⟨0⟩, 0⟩, 0⟩ =
        some (flagRow true).encode) ∧
    (((flagStore.acts changedSince).complete ⟨1⟩ false .asListed).2 = .ok () ∧
      (flagStore.acts (changedSince ++ [.ask (.abort ⟨1⟩ .asListed)])).row? ⟨⟨⟨0⟩, 0⟩, 0⟩ =
        some (flagRow true).encode) := by
  refine ⟨⟨List.mem_of_getElem? (i := 2) rfl, ?_⟩, ⟨rfl, ?_, ?_⟩, rfl, ?_⟩
  all_goals decide +kernel

end RowStore.Engine
