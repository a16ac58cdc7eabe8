import RowStore.Proofs.CommitRecords

/-!
# Baselines

The before-image of a page is its baseline: what a commit and a flush log beside the present contents. A page that is
read from its file is at its baseline, and so is a page that a commit or an abort finds marked, afterwards. A page that
is at its baseline or marked keeps the baseline while transactions change it. A page that is neither, because a flush
has written it after a change, may be given up and read again with another baseline.
-/

namespace RowStore

namespace Page

theorem beforeImage_of_decode {size : Nat} {id : PageId} {schema : Schema} {data : Bytes} {page : Page}
    (h : decode size id schema data = .ok page) : page.beforeImage = data.take size := by
  unfold decode at h
  grind

theorem beforeImage_of_insert {p p' : Page} {t : Tuple} {r : RecordId} (h : p.insert t = .ok (p', r)) :
    p'.beforeImage = p.beforeImage := by
  unfold insert at h
  grind

theorem beforeImage_of_delete {p p' : Page} {r : RecordId} (h : p.delete (some r) = .ok p') :
    p'.beforeImage = p.beforeImage := by
  unfold delete at h
  grind

end Page

namespace Engine

variable {e e' : Engine} {l : List Event} {p : PageId}

/-- The baseline of a page: its before-image in memory, its image on file otherwise. -/
def base? (e : Engine) (id : PageId) : Option Bytes :=
  match e.copy? id with
  | some page => some page.beforeImage
  | none => e.image? id

/-- A page that is at its baseline if it is resident. -/
def Aligned (e : Engine) (id : PageId) : Prop := ∀ page, e.copy? id = some page → page.beforeImage = page.encode

theorem base?_of_copy {page : Page} (h : e.copy? p = some page) : e.base? p = some page.beforeImage := by
  unfold base?
  rw [h]

theorem Aligned.base?_eq (h : e.Aligned p) : e.base? p = e.view? p := by
  unfold base? view?
  cases hcopy : e.copy? p with
  | none => rfl
  | some page => exact congrArg some (h page hcopy)

/-- A housed store whose pages are exact pages of their tables, in memory and on file. Where files grow longer than page
numbers last, an append may put the zero page in the place of one that is there, and a page in memory may differ from its
image without a mark. All pages are exact pages of their tables all the same. -/
structure Lawful (e : Engine) : Prop extends Housed e where
  legible : ∀ id image, e.image? id = some image → ∃ page, e.Legal page ∧ page.id = id ∧ page.encode = image
  legal : ∀ id page, e.copy? id = some page → e.Legal page

theorem Sound.lawful (h : e.Sound) : e.Lawful where
  toHoused := h.housed
  legible := h.legible
  legal := fun id page hc => (h.backed id page hc).toLegal

/-- A step that stores rows that fit and lets no changed page out of the pool keeps the pages exact. -/
theorem Step.lawful (hstep : Step e l e') (h : e.Lawful) (hfair : ∀ event ∈ l, event.Fair) : e'.Lawful := by
  obtain ⟨hcatalog, hsize, _⟩ := hstep.fixed
  have hlegal : ∀ {id : PageId} {page : Page}, e.copy? id = some page → e'.Legal page :=
    fun hc => (h.legal _ _ hc).congr hcatalog hsize
  refine ⟨hstep.housed h.toHoused fun _ _ hm => hfair _ hm, fun q image hi => ?_, fun q copy hc => ?_⟩
  · by_cases hw : .written q ∈ l
    · obtain ⟨_, page, _, hcopy, _, himage, _⟩ := hstep.image?_of_written h.toHoused hw
      exact ⟨page, hlegal hcopy, h.sane.id_of_copy? hcopy, Option.some.inj (himage.symm.trans hi)⟩
    · rcases hstep.image?_of_not_written h.toHoused hw with hsame | hzero
      · obtain ⟨page, hp, hid, henc⟩ := h.legible q image (hsame.symm.trans hi)
        exact ⟨page, hp.congr hcatalog hsize, hid, henc⟩
      · cases ht : e'.catalog.table? q.table with
        | error err =>
          unfold image? at hi
          rw [ht] at hi
          cases hi
        | ok table =>
          refine ⟨Page.blank e.pageSize q table.schema, ⟨Page.exact_blank .., hsize.symm, table, ht, rfl⟩, rfl, ?_⟩
          exact (Page.encode_blank ..).trans (Option.some.inj (hzero.symm.trans hi))
  · have hset : ∀ {id : PageId} {f : FrameId} {old new : Page}, e.pool.resident.find? id = some f →
        e.page? f = some old → e.Legal new → (e.pool.setPage f new).copy? q = some copy → e.Legal copy := by
      intro id f old new hr hf hnew hcopy
      rw [h.sane.copy?_setPage hr hf] at hcopy
      split at hcopy
      · cases hcopy
        exact hnew
      · exact h.legal _ _ hcopy
    have hcur : ∀ {id : PageId} {f : FrameId} {old : Page}, e.pool.resident.find? id = some f →
        e.page? f = some old → e.Legal old := fun hr hf => h.legal _ _ (Pool.copy?_of_resident hr hf)
    suffices hold : e.Legal copy from hold.congr hcatalog hsize
    cases hstep with
    | call | countRead | log | force | touch | grant | complete | release | append => exact h.legal _ _ hc
    | hand => exact (hfair _ List.mem_cons_self).elim
    | load hn hp hload =>
      rcases h.sane.copy?_load hload hc with ⟨_, rfl⟩ | ⟨_, hcopy⟩
      · exact (legal_of_onFile h.toLayout hp (h.legible _)).1
      · exact h.legal _ _ hcopy
    | store hr hf hx hi =>
      exact hset hr hf (((hcur hr hf).put (hfair _ List.mem_cons_self) hi).markDirty _) hc
    | remove hr hf hx hd => exact hset hr hf (((hcur hr hf).clear hd).markDirty _) hc
    | base hr hf =>
      obtain ⟨hexact, hsized, hschema⟩ := hcur hr hf
      exact hset hr hf ⟨hexact.setBeforeImage, hsized, hschema⟩ hc
    | write hr hf => exact hset hr hf ((hcur hr hf).markDirty none) hc
    | restore hr hf hp => exact hset hr hf (legal_of_onFile h.toLayout hp (h.legible _)).1 hc
    | discard id =>
      change (e.pool.discard id).copy? q = some copy at hc
      rw [Pool.copy?_discard] at hc
      split at hc
      · cases hc
      · exact h.legal _ _ hc

theorem Path.lawful (hpath : Path e l e') (h : e.Lawful) (hfair : ∀ event ∈ l, event.Fair) : e'.Lawful := by
  induction hpath with
  | refl => exact h
  | step hstep _ ih =>
    obtain ⟨hfirst, hlater⟩ := List.forall_mem_append.mp hfair
    exact ih (hstep.lawful h hfirst) hlater

theorem Lawful.aligned_of_onFile (h : e.Lawful) {page : Page} (hp : e.onFile p = .ok page) :
    page.beforeImage = page.encode := by
  obtain ⟨hlegal, _, hview⟩ := legal_of_onFile h.toLayout hp (h.legible p)
  obtain ⟨table, image, _, himage, hdecode⟩ := (onFile_eq h.toLayout p).mp hp
  cases himage.symm.trans hview
  rw [Page.beforeImage_of_decode hdecode]
  exact List.take_of_length_le (Nat.le_of_eq ((Page.length_encode page).trans hlegal.size))

/-- Without a change a page stays at its baseline, and a new baseline or a reload brings it there. -/
theorem Step.aligned (hstep : Step e l e') (h : e.Lawful) (hfair : ∀ event ∈ l, event.Fair)
    (hl : ∀ event ∈ l, ∀ txn, ¬ event.ChangedBy txn p)
    (ha : e.Aligned p ∨ .based p ∈ l ∨ .restored p ∈ l) : e'.Aligned p := by
  intro page hc
  have hset : ∀ {id : PageId} {f : FrameId} {old new : Page}, e.pool.resident.find? id = some f →
      e.page? f = some old → (e.pool.setPage f new).copy? p = some page →
      (old.id = p ∧ new = page) ∨ old.id ≠ p ∧ e.copy? p = some page := by
    intro id f old new hr hf hcopy
    have hid := h.sane.id_of_copy? (Pool.copy?_of_resident hr hf)
    rw [h.sane.copy?_setPage hr hf] at hcopy
    split at hcopy
    · rename_i hp
      exact .inl ⟨hid.trans hp.symm, Option.some.inj hcopy⟩
    · rename_i hp
      exact .inr ⟨fun he => hp (he.symm.trans hid), hcopy⟩
  have hold : .based p ∉ l → .restored p ∉ l → e.copy? p = some page → page.beforeImage = page.encode :=
    fun hb hr => ha.resolve_right (fun hm => hm.elim hb hr) page
  cases hstep with
  | call | countRead | log | force | touch => exact hold List.not_mem_nil List.not_mem_nil hc
  | grant | complete | release | append => exact hold (by simp) (by simp) hc
  | hand => exact (hfair _ List.mem_cons_self).elim
  | load hn hp hload =>
    rcases h.sane.copy?_load hload hc with ⟨rfl, rfl⟩ | ⟨_, hcopy⟩
    · exact h.aligned_of_onFile hp
    · exact hold List.not_mem_nil List.not_mem_nil hcopy
  | store hr hf hx hi =>
    rcases hset hr hf hc with ⟨hid, _⟩ | ⟨_, hcopy⟩
    · exact absurd ⟨rfl, (Page.id_of_insert hi).2.trans hid⟩ (hl _ List.mem_cons_self _)
    · exact hold (by simp) (by simp) hcopy
  | remove hr hf hx hd =>
    rcases hset hr hf hc with ⟨hid, _⟩ | ⟨_, hcopy⟩
    · exact absurd ⟨rfl, (Page.id_of_delete hd).2.trans hid⟩ (hl _ List.mem_cons_self _)
    · exact hold (by simp) (by simp) hcopy
  | base hr hf =>
    rcases hset hr hf hc with ⟨_, rfl⟩ | ⟨hne, hcopy⟩
    · rfl
    · exact hold (fun hm => hne (by cases List.mem_singleton.mp hm; rfl)) (by simp) hcopy
  | @write id f old txn table hr hf =>
    rcases hset hr hf hc with ⟨hid, rfl⟩ | ⟨_, hcopy⟩
    · have hcopy := Pool.copy?_of_resident hr hf
      rw [← h.sane.id_of_copy? hcopy, hid] at hcopy
      exact ha.resolve_right (by simp) old hcopy
    · exact hold (by simp) (by simp) hcopy
  | restore hr hf hp =>
    rcases hset hr hf hc with ⟨_, rfl⟩ | ⟨hne, hcopy⟩
    · exact h.aligned_of_onFile hp
    · exact hold (by simp) (fun hm => hne (by cases List.mem_singleton.mp hm; rfl)) hcopy
  | discard id =>
    change (e.pool.discard id).copy? p = some page at hc
    rw [Pool.copy?_discard] at hc
    split at hc
    · cases hc
    · exact hold (by simp) (by simp) hc

theorem Path.aligned (hpath : Path e l e') (h : e.Lawful) (hfair : ∀ event ∈ l, event.Fair)
    (hl : ∀ event ∈ l, ∀ txn, ¬ event.ChangedBy txn p)
    (ha : e.Aligned p ∨ .based p ∈ l ∨ .restored p ∈ l) : e'.Aligned p := by
  induction hpath with
  | refl => exact ha.resolve_right fun hm => hm.elim List.not_mem_nil List.not_mem_nil
  | @step e m e' l l' hstep _ ih =>
    obtain ⟨hfirst, hlater⟩ := List.forall_mem_append.mp hfair
    obtain ⟨hl₁, hl₂⟩ := List.forall_mem_append.mp hl
    have hnext := hstep.aligned (p := p) h hfirst hl₁
    refine ih (hstep.lawful h hfirst) hlater hl₂ ?_
    rcases ha with ha | hm | hm
    · exact .inl (hnext (.inl ha))
    · exact (List.mem_append.mp hm).elim (fun hm => .inl (hnext (.inr (.inl hm)))) fun hm => .inr (.inl hm)
    · exact (List.mem_append.mp hm).elim (fun hm => .inl (hnext (.inr (.inr hm)))) fun hm => .inr (.inr hm)

/-- A page that is at its baseline or marked keeps the baseline while it is only changed. A page that is appended gets
the zero page as its baseline. -/
theorem Step.base? (hstep : Step e l e') (h : e.Sound) (hfair : ∀ event ∈ l, event.Fair)
    (hrange : ∀ page, .appended page ∈ l → e.InRange) (hon : ∀ event ∈ l, event.On p → ∃ txn, event.ChangedBy txn p)
    (hb : e.mark? p ≠ none ∨ e.Aligned p) :
    (e'.mark? p ≠ none ∨ e'.Aligned p) ∧
      (e'.base? p).getD (Bytes.zeros e.pageSize) = (e.base? p).getD (Bytes.zeros e.pageSize) := by
  have hhand : ∀ txn f, .handed txn f ∉ l := fun _ _ hm => hfair _ hm
  by_cases hchange : ∃ event ∈ l, ∃ txn, event.ChangedBy txn p
  · -- A change sets the mark and leaves the before-image.
    have hset : ∀ {id : PageId} {f : FrameId} {old new : Page} {txn : TxnId}, e.pool.resident.find? id = some f →
        e.page? f = some old → old.id = p → new.beforeImage = old.beforeImage →
        ((e.setPage f (new.markDirty (some txn))).mark? p ≠ none ∨ (e.setPage f (new.markDirty (some txn))).Aligned p) ∧
        ((e.setPage f (new.markDirty (some txn))).base? p).getD (Bytes.zeros e.pageSize) =
          (e.base? p).getD (Bytes.zeros e.pageSize) := by
      intro id f old new txn hr hf hid hsame
      have hcopy := Pool.copy?_of_resident hr hf
      have hnew : (e.setPage f (new.markDirty (some txn))).copy? p =
          if p = id then some (new.markDirty (some txn)) else e.copy? p := h.sane.copy?_setPage hr hf _ p
      rw [← hid, ← h.sane.id_of_copy? hcopy, if_pos rfl] at hnew
      rw [← h.sane.id_of_copy? hcopy, hid] at hcopy
      rw [hid] at hnew
      refine ⟨.inl ?_, ?_⟩
      · unfold mark?
        rw [hnew]
        exact Option.some_ne_none txn
      · rw [base?_of_copy hnew, base?_of_copy (e := e) hcopy]
        exact hsame
    obtain ⟨event, hm, txn, hc⟩ := hchange
    cases hstep with
    | store hr hf hx hi =>
      cases List.mem_singleton.mp hm
      exact hset hr hf ((Page.id_of_insert hi).2.symm.trans hc.2) (Page.beforeImage_of_insert hi)
    | remove hr hf hx hd =>
      cases List.mem_singleton.mp hm
      exact hset hr hf ((Page.id_of_delete hd).2.symm.trans hc.2) (Page.beforeImage_of_delete hd)
    | grant | append | base | write | restore | discard | hand | complete | release =>
      cases List.mem_singleton.mp hm
      exact hc.elim
    | call | countRead | log | force | touch | load => cases hm
  · have hnot : ∀ event ∈ l, ∀ txn, ¬ event.ChangedBy txn p := fun event hm txn hc => hchange ⟨event, hm, txn, hc⟩
    have hoff : ∀ event ∈ l, ¬ event.On p := fun event hm ho => (hon event hm ho).elim (hnot event hm)
    rcases hb with hm | ha
    · -- A marked page is not given up, and nothing else touches its copy.
      obtain ⟨txn, ht⟩ := Option.ne_none_iff_exists'.mp hm
      obtain ⟨page, hcopy, hd⟩ := Option.bind_eq_some_iff.mp ht
      have hkept := hstep.copy?_of_marked h.sane hhand hcopy (by rw [hd]; exact Option.some_ne_none txn) hoff
      refine ⟨.inl ?_, ?_⟩
      · unfold mark?
        rw [hkept, Option.bind_some, hd]
        exact Option.some_ne_none txn
      · rw [base?_of_copy hkept, base?_of_copy hcopy]
    · have haligned := hstep.aligned h.lawful hfair hnot (.inl ha)
      refine ⟨.inr haligned, ?_⟩
      rw [haligned.base?_eq, ha.base?_eq]
      by_cases happ : .appended p ∈ l
      · cases hstep with
        | @append id table ht =>
          obtain ⟨count, hcount, hnone, himage, _⟩ := h.append ht (hrange _ List.mem_cons_self _ _ ht)
          have hp : p = ⟨id, count⟩ := by
            cases List.mem_singleton.mp happ
            rw [hcount, h.keyed _ _ ht]
          have habsent : e.copy? p = none := h.absent (hp ▸ hnone)
          have hzero := (himage p).trans (if_pos hp)
          rw [view?_of_absent habsent, hp, hnone, ← hp]
          rw [view?_of_absent (e := { e with disk := (e.disk.appendPage e.pageSize table).1 }) habsent, hzero]
          rfl
        | grant | store | remove | base | write | restore | discard | hand | complete | release =>
          cases List.mem_singleton.mp happ
        | call | countRead | log | force | touch | load => cases happ
      · rw [hstep.view? h hfair hrange fun event hm ht => ?_]
        cases event with
        | stored | removed | restored | discarded => exact hoff _ hm (Option.some.inj ht)
        | appended =>
          cases ht
          exact happ hm
        | granted | based | written | handed | completed | released => cases ht

theorem Ranged.base? (hpath : Ranged e l e') (h : e.Sound) (hfair : ∀ event ∈ l, event.Fair)
    (hon : ∀ event ∈ l, event.On p → ∃ txn, event.ChangedBy txn p) (hb : e.mark? p ≠ none ∨ e.Aligned p) :
    (e'.base? p).getD (Bytes.zeros e.pageSize) = (e.base? p).getD (Bytes.zeros e.pageSize) := by
  induction hpath with
  | refl => rfl
  | @step e m e' l l' hstep hrange _ ih =>
    obtain ⟨hfirst, hlater⟩ := List.forall_mem_append.mp hfair
    obtain ⟨hon₁, hon₂⟩ := List.forall_mem_append.mp hon
    obtain ⟨hnext, hsame⟩ := hstep.base? h hfirst hrange hon₁ hb
    have hrest := ih (hstep.sound h hfirst hrange) hlater hon₂ hnext
    rw [hstep.fixed.2.1] at hrest
    exact hrest.trans hsame

end Engine

end RowStore
