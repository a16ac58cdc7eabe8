import Mathlib.Data.List.Induction
import RowStore.Proofs.Baselines

/-!
# Settled pages

A page is settled when every transaction that has changed it has ended. The first change of a settled page by a
transaction keeps everybody else away from it until the transaction ends, and the page is settled then. As long as no
flush writes a page that is not settled, the end of the transaction finds the page marked. So every page that is settled
is at its baseline, and the record that a commit makes of a page has as its baseline what the page held when it was last
settled. A flush in between takes the mark away, so that neither the commit nor the abort finds the page, and the
baseline is old or the flushed bytes.
-/

namespace RowStore

namespace Event

/-- The transactions that have changed a page and not ended since, after an event. -/
def onUnfinished (page : PageId) (running : List TxnId) : Event → List TxnId
  | stored txn r _ => if r.page = page then txn :: running else running
  | removed txn r => if r.page = page then txn :: running else running
  | completed txn => running.filter (· ≠ txn)
  | _ => running

def unfinished (page : PageId) (l : List Event) : List TxnId := l.foldl (onUnfinished page) []

theorem unfinished_append (page : PageId) (l l' : List Event) :
    unfinished page (l ++ l') = l'.foldl (onUnfinished page) (unfinished page l) := List.foldl_append ..

theorem mem_onUnfinished {page : PageId} {running : List TxnId} {event : Event} {txn : TxnId} :
    txn ∈ onUnfinished page running event ↔
      event.ChangedBy txn page ∨ txn ∈ running ∧ event ≠ .completed txn := by
  cases event with
  | stored t r | removed t r =>
    show txn ∈ (if r.page = page then t :: running else running) ↔ (t = txn ∧ r.page = page) ∨ _
    split <;> grind
  | completed t =>
    show txn ∈ running.filter (· ≠ t) ↔ False ∨ _
    grind
  | granted | appended | based | written | restored | discarded | handed | released =>
    show txn ∈ running ↔ False ∨ _
    grind

/-- Whoever is unfinished after more events was so before and has not ended in them, or has made a change in them. -/
theorem of_mem_unfinished_append {page : PageId} {l l' : List Event} {txn : TxnId}
    (h : txn ∈ unfinished page (l ++ l')) :
    (∃ event ∈ l', event.ChangedBy txn page) ∨ txn ∈ unfinished page l ∧ .completed txn ∉ l' := by
  rw [unfinished_append] at h
  generalize unfinished page l = running at h ⊢
  induction l' generalizing running with
  | nil => exact .inr ⟨h, List.not_mem_nil⟩
  | cons event rest ih =>
    rcases ih _ h with ⟨change, hm, hc⟩ | ⟨hm, hrest⟩
    · exact .inl ⟨change, List.mem_cons_of_mem event hm, hc⟩
    · rcases mem_onUnfinished.mp hm with hc | ⟨hm, hne⟩
      · exact .inl ⟨event, List.mem_cons_self, hc⟩
      · exact .inr ⟨hm, fun hcompleted => (List.mem_cons.mp hcompleted).elim (fun he => hne he.symm) hrest⟩

theorem mem_unfinished_append {page : PageId} {l l' : List Event} {txn : TxnId} (hopen : .completed txn ∉ l')
    (h : (∃ event ∈ l', event.ChangedBy txn page) ∨ txn ∈ unfinished page l) : txn ∈ unfinished page (l ++ l') := by
  rw [unfinished_append]
  generalize unfinished page l = running at h ⊢
  induction l' generalizing running with
  | nil => exact h.resolve_left fun ⟨_, hm, _⟩ => List.not_mem_nil hm
  | cons event rest ih =>
    refine ih (fun hm => hopen (List.mem_cons_of_mem event hm)) _ ?_
    rcases h with ⟨change, hm, hc⟩ | hm
    · rcases List.mem_cons.mp hm with rfl | hm
      · exact .inr (mem_onUnfinished.mpr (.inl hc))
      · exact .inl ⟨change, hm, hc⟩
    · exact .inr (mem_onUnfinished.mpr (.inr ⟨hm, fun he => hopen (he ▸ List.mem_cons_self)⟩))

/-- A flush writes the page only while it is settled. -/
def FlushedSettled (page : PageId) (l : List Event) : Prop :=
  ∀ l₁ l₂, l = l₁ ++ .written page :: l₂ → unfinished page l₁ = []

theorem FlushedSettled.of_append {page : PageId} {l l' : List Event} (h : FlushedSettled page (l ++ l')) :
    FlushedSettled page l := by
  rintro l₁ l₂ rfl
  exact h l₁ (l₂ ++ l') (List.append_assoc ..)

end Event

namespace Engine

variable {e : Engine} {l : List Event} {p : PageId} {txn : TxnId} {a : Action}

/-- A page that a transaction has changed and nobody else is changing. -/
structure Changing (e : Engine) (p : PageId) (l : List Event) (txn : TxnId) : Prop extends Pending e txn p where
  unfinished : txn ∈ Event.unfinished p l
  alone : ∀ other ∈ Event.unfinished p l, other = txn

theorem Changing.not_settled (h : e.Changing p l txn) : Event.unfinished p l ≠ [] := List.ne_nil_of_mem h.unfinished

theorem Changing.not_written (h : e.Changing p l txn) (hflush : Event.FlushedSettled p (l ++ e.events a)) :
    .written p ∉ e.events a := by
  intro hm
  obtain ⟨l₁, l₂, hsplit⟩ := List.append_of_mem hm
  have hsettled := hflush (l ++ l₁) l₂ (by rw [hsplit, List.append_assoc])
  have hopen : .completed txn ∉ l₁ := by
    intro hc
    obtain ⟨q, hq⟩ := (mayLeave_of_mem_events _ hm).flushes.written
      (mayLeave_of_mem_events _ (by rw [hsplit]; exact List.mem_append_left _ hc))
    cases hq
  have hstill := Event.mem_unfinished_append hopen (.inr h.unfinished)
  rw [hsettled] at hstill
  cases hstill

/-- A change of a page is all that its action does to the page. -/
theorem Firm.changes_of_change (h : e.Firm) {event : Event} (hm : event ∈ e.events a) (hc : event.ChangedBy txn p) :
    ∀ event ∈ e.events a, event.On p → event.ChangedBy txn p := by
  intro event hm' hon
  have hkind := h.ofChange hm hc event hm'
  cases event with
  | stored | removed => exact ⟨hkind, hon⟩
  | granted | appended => exact hon.elim
  | _ => exact hkind.elim

/-- A lawful store with proper locks, in which nothing fails. -/
structure Untroubled (e : Engine) : Prop extends Lawful e where
  faultless : e.Faultless
  proper : e.locks.Proper

theorem Steady.untroubled (h : e.Steady) : e.Untroubled where
  toLawful := h.toSound.lawful
  faultless := h.faultless
  proper := h.proper

namespace Untroubled

theorem firm (h : e.Untroubled) : e.Firm where
  toHoused := h.toHoused
  proper := h.proper

theorem fair (h : e.Untroubled) (ha : a.Built) : ∀ event ∈ e.events a, event.Fair :=
  fair_of_mem_events h.toLayout h.sane ha

theorem act (h : e.Untroubled) (ha : a.Built) : (e.act a).Untroubled where
  toLawful := (path_act e a).lawful h.toLawful (h.fair ha)
  faultless := (path_act e a).faultless h.faultless
  proper := (h.firm.act a).proper

theorem acts (h : e.Untroubled) {as : List Action} (ha : ∀ a ∈ as, a.Built) : (e.acts as).Untroubled := by
  induction as generalizing e with
  | nil => exact h
  | cons a rest ih =>
    obtain ⟨hfirst, hrest⟩ := List.forall_mem_cons.mp ha
    exact ih (h.act hfirst) hrest

/-- Without a change a settled page stays settled, at its baseline. -/
theorem settled_act (h : e.Untroubled) (ha : a.Orderly) (hs : Event.unfinished p l = []) (hb : e.Aligned p)
    (hno : ∀ event ∈ e.events a, ∀ t, ¬ event.ChangedBy t p) :
    Event.unfinished p (l ++ e.events a) = [] ∧ (e.act a).Aligned p := by
  refine ⟨List.eq_nil_iff_forall_not_mem.mpr fun t ht => ?_, ?_⟩
  · rcases Event.of_mem_unfinished_append ht with ⟨event, hm, hc⟩ | ⟨hm, _⟩
    · exact hno event hm t hc
    · rw [hs] at hm
      cases hm
  · exact (path_act e a).aligned h.toLawful (h.fair ha.built) hno (.inl hb)

/-- The transaction that changes a settled page is the only one that is changing it. -/
theorem changing_of_change (h : e.Untroubled) (hs : Event.unfinished p l = []) {event : Event}
    (hm : event ∈ e.events a) (hc : event.ChangedBy txn p) : (e.act a).Changing p (l ++ e.events a) txn := by
  have hkinds := h.firm.ofChange hm hc
  have hopen : .completed txn ∉ e.events a := fun hm => hkinds _ hm
  refine ⟨h.firm.pending_of_change hm hc, Event.mem_unfinished_append hopen (.inl ⟨event, hm, hc⟩),
    fun other hother => ?_⟩
  rcases Event.of_mem_unfinished_append hother with ⟨event, hm, hc⟩ | ⟨hm, _⟩
  · have hkind := hkinds event hm
    cases event with
    | stored | removed => exact hc.1.symm.trans hkind
    | _ => exact hc.elim
  · rw [hs] at hm
    cases hm

/-- The transaction goes on until it ends, unless a flush writes the page. -/
theorem changing_act (h : e.Untroubled) (ha : a.Orderly) (hp : e.Changing p l txn) (hends : a.ends ≠ some txn)
    (hw : .written p ∉ e.events a) : (e.act a).Changing p (l ++ e.events a) txn := by
  have hopen : .completed txn ∉ e.events a := fun hm => hends (mayLeave_of_mem_events _ hm).ends
  have hpending := h.firm.pending_act hp.toPending hends ha.keeps.not_release hw (h.not_discarded ha p)
  refine ⟨hpending, Event.mem_unfinished_append hopen (.inr hp.unfinished), fun other hother => ?_⟩
  rcases Event.of_mem_unfinished_append hother with ⟨event, hm, hc⟩ | ⟨hm, _⟩
  · exact Option.some.inj ((h.firm.pending_of_change hm hc).mark.symm.trans hpending.mark)
  · exact hp.alone other hm

/-- Until then nothing but changes happens to the page. -/
theorem changes_of_changing (h : e.Untroubled) (ha : a.Orderly) (hp : e.Changing p l txn) (hends : a.ends ≠ some txn)
    (hw : .written p ∉ e.events a) : ∀ event ∈ e.events a, event.On p → ∃ t, event.ChangedBy t p := by
  intro event hm hon
  have hkind := mayLeave_of_mem_events event hm
  cases event with
  | stored t r tuple => exact ⟨t, rfl, hon⟩
  | removed t r => exact ⟨t, rfl, hon⟩
  | based q =>
    cases hon
    obtain ⟨t, sweep, rfl⟩ := hkind.commit
    exact absurd ((logged_of_based h.sane hm).1.symm.trans hp.mark) hends
  | restored q =>
    cases hon
    obtain ⟨t, sweep, rfl⟩ := hkind.abort
    exact absurd ((marked_of_restored h.sane hm).symm.trans hp.mark) hends
  | written q =>
    cases hon
    exact absurd hm hw
  | discarded q => exact absurd hm (h.not_discarded ha q)
  | granted | appended | handed | completed | released => exact hon.elim

/-- At the end of the transaction the page is settled, at a new baseline. -/
theorem settled_of_ends (h : e.Untroubled) (ha : a.Orderly) (hp : e.Changing p l txn) (hends : a.ends = some txn) :
    Event.unfinished p (l ++ e.events a) = [] ∧ (e.act a).Aligned p := by
  have hno : ∀ event ∈ e.events a, ∀ t, ¬ event.ChangedBy t p := by
    intro event hm t hc
    have hkind := mayLeave_of_mem_events event hm
    rcases Action.ends_eq_some hends with ⟨sweep, rfl⟩ | ⟨sweep, rfl⟩ <;>
      cases event <;> first | exact hc.elim | exact hkind.elim
  have hcompleted : .completed txn ∈ e.events a := by
    rcases Action.ends_eq_some hends with ⟨sweep, rfl⟩ | ⟨sweep, rfl⟩ <;>
      exact List.mem_append_right _ List.mem_cons_self
  refine ⟨List.eq_nil_iff_forall_not_mem.mpr fun t ht => ?_, ?_⟩
  · rcases Event.of_mem_unfinished_append ht with ⟨event, hm, hc⟩ | ⟨hm, hopen⟩
    · exact hno event hm t hc
    · rw [hp.alone t hm] at hopen
      exact hopen hcompleted
  · refine (path_act e a).aligned h.toLawful (h.fair ha.built) hno (.inr ?_)
    rcases Action.ends_eq_some hends with ⟨sweep, rfl⟩ | ⟨sweep, rfl⟩
    · exact .inl (based_of_marked h.sane (h.faultless.commit_ok h.sane txn sweep) hp.mark)
    · exact .inr ((restored_mem_abort h.toHoused h.faultless txn sweep p).mpr hp.mark)

end Untroubled

namespace Steady

/-- A change of a settled page begins from the contents as the baseline. -/
theorem base?_of_change (h : e.Steady) (ha : a.Orderly) (hr : e.InRange) (hb : e.Aligned p) {event : Event}
    (hm : event ∈ e.events a) (hc : event.ChangedBy txn p) :
    ((e.act a).base? p).getD (Bytes.zeros e.pageSize) = (e.view? p).getD (Bytes.zeros e.pageSize) := by
  rw [← hb.base?_eq]
  exact (ranged_act hr a).base? h.toSound (h.fair ha.built)
    (fun event hm' hon => ⟨txn, h.firm.changes_of_change hm hc event hm' hon⟩) (.inr hb)

/-- While the transaction goes on the page keeps the baseline. -/
theorem base?_act (h : e.Steady) (ha : a.Orderly) (hr : e.InRange) (hp : e.Changing p l txn)
    (hends : a.ends ≠ some txn) (hw : .written p ∉ e.events a) :
    ((e.act a).base? p).getD (Bytes.zeros e.pageSize) = (e.base? p).getD (Bytes.zeros e.pageSize) :=
  (ranged_act hr a).base? h.toSound (h.fair ha.built) (h.untroubled.changes_of_changing ha hp hends hw)
    (.inl (by rw [hp.mark]; exact Option.some_ne_none txn))

end Steady

/-- The first part of a run ends where the page is settled for the last time. -/
structure LastSettled (e : Engine) (p : PageId) (seen rest : List Action) : Prop where
  settled : Event.unfinished p (e.history seen) = []
  last : ∀ mid more, rest = mid ++ more → Event.unfinished p (e.history (seen ++ mid)) = [] → mid = []

theorem lastSettled_of_settled {seen : List Action} (h : Event.unfinished p (e.history seen) = []) :
    e.LastSettled p seen [] :=
  ⟨h, fun _ _ hsplit _ => (List.append_eq_nil_iff.mp hsplit.symm).1⟩

theorem LastSettled.snoc {seen rest : List Action} (h : e.LastSettled p seen rest)
    (hnot : Event.unfinished p (e.history (seen ++ (rest ++ [a]))) ≠ []) : e.LastSettled p seen (rest ++ [a]) where
  settled := h.settled
  last := by
    intro mid more hsplit hs
    rcases List.eq_nil_or_concat more with rfl | ⟨more, b, rfl⟩
    · rw [List.append_nil] at hsplit
      rw [hsplit] at hnot
      exact absurd hs hnot
    · rw [List.concat_eq_append, ← List.append_assoc] at hsplit
      exact h.last mid more (List.append_inj_left' hsplit rfl) hs

/-- A page is settled, at its baseline, or changing. -/
theorem Fresh.settled_or_changing (hfresh : e.Fresh) (hfaults : e.Faultless) {as : List Action}
    (horderly : ∀ a ∈ as, a.Orderly) (hflush : Event.FlushedSettled p (e.history as)) :
    (Event.unfinished p (e.history as) = [] ∧ (e.acts as).Aligned p) ∨
      ∃ seen rest txn, as = seen ++ rest ∧ e.LastSettled p seen rest ∧
        (e.acts as).Changing p (e.history as) txn ∧
        ((e.acts as).InRange → ((e.acts as).base? p).getD (Bytes.zeros e.pageSize) =
          ((e.acts seen).view? p).getD (Bytes.zeros e.pageSize)) := by
  have hfixed : ∀ as, (e.acts as).pageSize = e.pageSize := fun as => (path_acts e as).fixed.2.1
  induction as using List.reverseRecOn with
  | nil => exact .inl ⟨rfl, fun page hc => by rw [acts_nil, hfresh.copy?] at hc; cases hc⟩
  | append_singleton as a ih =>
    have hhistory : e.history (as ++ [a]) = e.history as ++ (e.acts as).events a := by
      rw [history_append]
      exact congrArg _ (List.append_nil _)
    have hacts : e.acts (as ++ [a]) = (e.acts as).act a := acts_append ..
    obtain ⟨hbefore, ha⟩ := List.forall_mem_append.mp horderly
    have ha := ha a List.mem_cons_self
    rw [hhistory] at hflush
    have hbuilt : ∀ b ∈ as, b.Built := fun b hb => (hbefore b hb).built
    have hstate := (hfresh.steady hfaults).untroubled.acts hbuilt
    have hrange : (e.acts (as ++ [a])).InRange → (e.acts as).InRange ∧ (e.acts as).Steady := by
      intro hr
      rw [hacts] at hr
      have hr := (path_acts (e.acts as) [a]).inRange hr
      exact ⟨hr, (hfresh.steady hfaults).acts hbuilt hr⟩
    rcases ih hbefore hflush.of_append with ⟨hs, hb⟩ | ⟨seen, rest, txn, rfl, hlast, hch, hbase⟩
    · by_cases hchange : ∃ event ∈ (e.acts as).events a, ∃ t, event.ChangedBy t p
      · obtain ⟨event, hm, t, hc⟩ := hchange
        have hch := hstate.changing_of_change hs hm hc
        rw [← hhistory, ← hacts] at hch
        refine .inr ⟨as, [a], t, rfl, (lastSettled_of_settled hs).snoc hch.not_settled, hch, fun hr => ?_⟩
        obtain ⟨hr, hsteady⟩ := hrange hr
        have hbase := hsteady.base?_of_change ha hr hb hm hc
        rwa [hfixed, ← hacts] at hbase
      · rw [hhistory, hacts]
        exact .inl (hstate.settled_act ha hs hb fun event hm t hc => hchange ⟨event, hm, t, hc⟩)
    · by_cases hends : a.ends = some txn
      · rw [hhistory, hacts]
        exact .inl (hstate.settled_of_ends ha hch hends)
      · have hw := hch.not_written hflush
        have hnext := hstate.changing_act ha hch hends hw
        rw [← hhistory, ← hacts] at hnext
        have hnot := hnext.not_settled
        rw [List.append_assoc] at hnot
        refine .inr ⟨seen, rest ++ [a], txn, List.append_assoc .., hlast.snoc hnot, hnext, fun hr => ?_⟩
        obtain ⟨hr, hsteady⟩ := hrange hr
        have hkept := hsteady.base?_act ha hr hch hends hw
        rw [hfixed, ← hacts] at hkept
        exact hkept.trans (hbase hr)

/-- As long as flushes write a page only while it is settled, the page is at its baseline in memory whenever it is
settled, and the one record that a commit makes of it, if its transaction has it marked, goes to what it holds from
what it held when it was last settled, if all files are shorter than page numbers last. -/
theorem baseline_of_settled (e : Engine) (hfresh : e.Fresh) (hfaults : e.Faultless) (as : List Action) (p : PageId)
    (horderly : ∀ a ∈ as, a.Orderly) (hflush : Event.FlushedSettled p (e.history as)) :
    (Event.unfinished p (e.history as) = [] → ∀ page, (e.acts as).copy? p = some page →
      page.beforeImage = page.encode) ∧
    ∀ txn sweep, ∃ new,
      ((e.acts as).act (.ask (.commit txn sweep))).log.records = (e.acts as).log.records ++ new ∧
      ((e.acts as).mark? p = some txn → ∃ r ∈ new, r.page = p) ∧
      ∀ r ∈ new, r.page = p → r.txn = txn ∧ (e.acts as).view? p = some r.after ∧
        ∃ seen rest, as = seen ++ rest ∧ e.LastSettled p seen rest ∧
          ((e.acts as).InRange → r.before = ((e.acts seen).view? p).getD (Bytes.zeros e.pageSize)) := by
  have hphase := hfresh.settled_or_changing hfaults horderly hflush
  have hstate := (hfresh.steady hfaults).untroubled.acts fun a ha => (horderly a ha).built
  refine ⟨fun hs => ?_, fun txn sweep => ?_⟩
  · rcases hphase with ⟨_, hb⟩ | ⟨_, _, _, _, _, hch, _⟩
    · exact hb
    · exact absurd hs hch.not_settled
  · obtain ⟨new, hnew, hmem, hall⟩ := records_of_commit hstate.sane txn sweep
    have hok := hstate.faultless.commit_ok hstate.sane txn sweep
    refine ⟨new, hnew, fun hm => hall hok p hm, ?_⟩
    rintro r hm rfl
    obtain ⟨htxn, page, hcopy, _, hbefore, hafter⟩ := hmem r hm
    refine ⟨htxn, by rw [hafter]; exact view?_of_copy hcopy, ?_⟩
    rcases hphase with ⟨hs, hb⟩ | ⟨seen, rest, t, hsplit, hlast, _, hbase⟩
    · refine ⟨as, [], (List.append_nil as).symm, lastSettled_of_settled hs, fun _ => ?_⟩
      rw [view?_of_copy hcopy, hbefore, hb page hcopy]
      rfl
    · refine ⟨seen, rest, hsplit, hlast, fun hr => ?_⟩
      rw [← hbase hr, base?_of_copy hcopy, hbefore]
      rfl

def rowBesideFlushed : List Action :=
  rowCommitted ++ [.ask (.flushAll .asListed), .ask (.insert ⟨2⟩ ⟨0⟩ (flagRow false))]

/-- A commit on a page that was flushed while it was settled makes a record from the flushed row on. -/
theorem record_from_flushed_row :
    ∃ r ∈ (flagStore.acts (rowBesideFlushed ++ [.ask (.commit ⟨2⟩ .asListed)])).log.records,
      r.txn = ⟨2⟩ ∧ ∃ seen rest, rowBesideFlushed = seen ++ rest ∧
        flagStore.LastSettled ⟨⟨0⟩, 0⟩ seen rest ∧
        r.before = ((flagStore.acts seen).view? ⟨⟨0⟩, 0⟩).getD (Bytes.zeros 4) := by
  have hbuilt : ∀ b, ∃ schema values, Tuple.ofValues schema values = .ok (flagRow b) := fun b =>
    ⟨flagSchema, [.boolean b], by cases b <;> rfl⟩
  have hflush : Event.FlushedSettled ⟨⟨0⟩, 0⟩ [.appended ⟨⟨0⟩, 0⟩, .granted ⟨1⟩ ⟨⟨0⟩, 0⟩ .exclusive,
      .stored ⟨1⟩ ⟨⟨⟨0⟩, 0⟩, 0⟩ (flagRow true), .based ⟨⟨0⟩, 0⟩, .completed ⟨1⟩, .written ⟨⟨0⟩, 0⟩,
      .granted ⟨2⟩ ⟨⟨0⟩, 0⟩ .exclusive, .stored ⟨2⟩ ⟨⟨⟨0⟩, 0⟩, 1⟩ (flagRow false)] := by
    intro l₁ l₂ h
    simp only [List.cons_eq_append_iff, List.nil_eq_append_iff, reduceCtorEq, List.cons.injEq, false_and, and_false,
      or_false, false_or, exists_false] at h
    obtain ⟨_, rfl, _, rfl, _, rfl, _, rfl, _, rfl, rfl, _⟩ := h
    rfl
  obtain ⟨new, hnew, hsome, hall⟩ := (baseline_of_settled flagStore
    (fresh_single (by decide) _ _) (fun _ _ => rfl) rowBesideFlushed ⟨⟨0⟩, 0⟩
    (by
      simp only [rowBesideFlushed, rowCommitted, List.cons_append, List.nil_append, List.forall_mem_cons]
      exact ⟨hbuilt true, trivial, trivial, hbuilt false, List.forall_mem_nil _⟩) hflush).2 ⟨2⟩ .asListed
  obtain ⟨r, hm, hp⟩ := hsome (by decide +kernel)
  obtain ⟨htxn, _, seen, rest, hsplit, hlast, hbefore⟩ := hall r hm hp
  exact ⟨r, hnew ▸ List.mem_append_right _ hm, htxn, seen, rest, hsplit, hlast,
    hbefore (inRange_single (by decide +kernel))⟩

-- A flush of the uncommitted row: the commit does not find the page, which stays behind its contents.
example : ((flagStore.acts [.ask (.insert ⟨1⟩ ⟨0⟩ (flagRow true)),
    .ask (.flushAll .asListed), .ask (.commit ⟨1⟩ .asListed)]).copy? ⟨⟨0⟩, 0⟩).map
      (fun page => (page.beforeImage, page.encode)) = some ([0, 0, 0, 0], [1, 1, 0, 0]) := by decide +kernel

end Engine

end RowStore
