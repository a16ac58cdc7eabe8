import RowStore.Proofs.TableScans

/-!
# How transactions end

Without faults every page that is marked can be logged, forced and written, so a flush of everything writes them all
and leaves none marked. An abort unmarks the pages of its transaction by reading them again. A commit leaves the
marks, and both let go of all locks of the transaction. So after an abort, and after a commit and a flush, a
transaction that ran alone leaves no lock and no mark behind.
-/

namespace RowStore.Engine

variable {e : Engine} {txn : TxnId}

theorem Sound.writeBack (h : e.Sound) (hf : e.Faultless) {id : PageId} {f : FrameId} {page : Page}
    (hr : e.pool.resident.find? id = some f) (hp : e.page? f = some page) (hd : page.dirtier = some txn) :
    (e.writeBack f).2 = .ok true := by
  have hcopy := Pool.copy?_of_resident hr hp
  obtain ⟨table, ht, _⟩ := (h.backed _ _ hcopy).schema
  have hid := h.keyed _ _ ht
  have hlog := hf.logAndForce txn page
  obtain ⟨hpath, ⟨log, faults, hstate⟩, _⟩ := logAndForce_cases e txn page
  have hf₁ := hpath.faultless hf
  unfold Engine.writeBack
  rw [hp]
  simp only [hd]
  generalize e.logAndForce txn page = outcome at hlog hstate hf₁ ⊢
  obtain ⟨e₁, result⟩ := outcome
  change result = _ at hlog
  change e₁ = _ at hstate
  change e₁.Faultless at hf₁
  subst hlog
  have ht₁ : e₁.catalog.table? page.id.table = .ok table := by
    rw [hstate]
    exact ht
  unfold writePage Disk.writePage
  simp only [ht₁, hf₁.call, hid, ne_eq, not_true_eq_false, if_false]

/-- Without faults a pass of writes gets to its end. -/
theorem Steady.writeBack (h : e.Steady) {id : PageId} {f : FrameId} (hr : e.pool.resident.find? id = some f) :
    (∃ written, (e.writeBack f).2 = .ok written) ∧ (e.mark? id ≠ none → e.writeEvents f = [.written id]) ∧
      ∀ event ∈ e.writeEvents f, event = .written id := by
  obtain ⟨page, hp, hid⟩ : ∃ page, e.page? f = some page ∧ page.id = id := h.sane.keyed id f hr
  have hmark : e.mark? id = page.dirtier := by
    unfold mark?
    rw [show e.copy? id = some page from Pool.copy?_of_resident hr hp]
    rfl
  cases hd : page.dirtier with
  | none =>
    have hsame : e.writeBack f = (e, .ok false) := by
      unfold Engine.writeBack
      rw [hp]
      simp only [hd]
    unfold writeEvents
    rw [hsame, hp]
    exact ⟨⟨_, rfl⟩, fun hne => absurd (hmark.trans hd) hne, List.forall_mem_nil _⟩
  | some txn =>
    have hok := h.toSound.writeBack h.faultless hr hp hd
    unfold writeEvents
    rw [hok, hp]
    simp only [hid]
    exact ⟨⟨_, rfl⟩, fun _ => trivial, List.forall_mem_singleton.mpr rfl⟩

/-- A pass of writes over resident frames writes each of their pages that is marked. -/
theorem Steady.written_of_marked (h : e.Steady) {frames : List FrameId}
    (hr : ∀ f ∈ frames, ∃ id, e.pool.resident.find? id = some f) {f : FrameId} (hf : f ∈ frames) {p : PageId}
    (hp : e.pool.resident.find? p = some f) (hm : e.mark? p ≠ none) : .written p ∈ writeAllEvents frames e := by
  induction frames generalizing e with
  | nil => cases hf
  | cons g rest ih =>
    obtain ⟨id, hid⟩ := hr g List.mem_cons_self
    obtain ⟨⟨written, hok⟩, hevents, honly⟩ := h.writeBack hid
    obtain ⟨hres, hpath⟩ := path_writeBack hid
    refine List.mem_append.mpr ?_
    by_cases hsame : id = p
    · subst hsame
      rw [hevents hm]
      exact .inl List.mem_cons_self
    · right
      have hfair : ∀ event ∈ e.writeEvents g, event.Fair := fun event he => by
        rw [honly event he]
        trivial
      have hranged := hpath.ranged_of_not_appended fun page he => by cases honly _ he
      have hmark := hranged.marks h.toSound hfair p
      rw [Event.foldl_onMark_of_not_on fun event he hon => by rw [honly event he] at hon; exact hsame hon] at hmark
      have hsteady := h.along hranged hfair
      have hmem : f ∈ rest := by
        refine (List.mem_cons.mp hf).resolve_left fun he => hsame ?_
        obtain ⟨page, hpage, hpid⟩ := h.sane.keyed id g hid
        rw [he] at hp
        obtain ⟨page', hpage', hpid'⟩ := h.sane.keyed p g hp
        cases hpage.symm.trans hpage'
        exact hpid.symm.trans hpid'
      generalize e.writeBack g = outcome at hok hres hmark hsteady ⊢
      obtain ⟨e₁, result⟩ := outcome
      change result = _ at hok
      subst hok
      change e₁.pool.resident = _ at hres
      exact ih hsteady (resident_rest hr hres) hmem
        (by rw [hres]; exact hp) (by rw [hmark]; exact hm)

namespace Steady

theorem unmarked_flushAll (h : e.Steady) (sweep : Sweep) (p : PageId) :
    (e.act (.ask (.flushAll sweep))).mark? p = none := by
  have hkinds : ∀ event ∈ e.events (.ask (.flushAll sweep)), ∃ page, event = .written page :=
    forall_writeAllEvents (fun page => ⟨page, rfl⟩) _ e
  have hpath := (path_act e (.ask (.flushAll sweep))).ranged_of_not_appended fun page hm => by
    obtain ⟨_, he⟩ := hkinds _ hm
    cases he
  rw [hpath.marks h.toSound (h.fair trivial)]
  refine Event.foldl_onMark_unmarked (fun event hm => ?_) ?_
  · obtain ⟨_, rfl⟩ := hkinds event hm
    exact id
  · by_cases hmark : e.mark? p = none
    · exact .inl hmark
    · obtain ⟨t, ht⟩ := Option.ne_none_iff_exists'.mp hmark
      obtain ⟨page, hcopy, _⟩ := Option.bind_eq_some_iff.mp ht
      obtain ⟨f, hres, _⟩ := Pool.copy?_eq_some.mp hcopy
      refine .inr (.inl (h.written_of_marked (fun _ => resident_of_mem_residentFrames) ?_ hres hmark))
      exact (sweep.perm _).mem_iff.mpr (Dict.mem_values_of_find? hres)

/-- After an abort no page is marked if only its transaction had marked any. -/
theorem unmarked_abort (h : e.Steady) (sweep : Sweep) (hm : ∀ p other, e.mark? p = some other → other = txn)
    (p : PageId) : (e.act (.ask (.abort txn sweep))).mark? p = none := by
  have hpath := (path_act e (.ask (.abort txn sweep))).ranged_of_not_appended fun _ hm => mayLeave_of_mem_events _ hm
  rw [hpath.marks h.toSound (h.fair trivial)]
  refine Event.foldl_onMark_unmarked (fun event he hc => ?_) ?_
  · have hk := mayLeave_of_mem_events event he
    cases event <;> first | exact hk | exact hc
  · by_cases hmark : e.mark? p = none
    · exact .inl hmark
    · obtain ⟨other, hother⟩ := Option.ne_none_iff_exists'.mp hmark
      refine .inr (.inr ((restored_mem_abort h.toSound.housed h.faultless txn sweep p).mpr ?_))
      rw [hother, hm p other hother]

/-- After its end a transaction that nobody else held locks beside leaves none. -/
theorem unlocked_of_ends (h : e.Steady) {a : Action} (ha : a.ends = some txn)
    (halone : ∀ other page, other ≠ txn → e.locks.modeOf? other page = none) (other : TxnId) (page : PageId) :
    (e.act a).locks.modeOf? other page = none := by
  rw [h.locks_of_ends ha, h.proper.modeOf?_releaseAll]
  split
  · rfl
  · rename_i hne
    exact halone other page fun he => hne he.symm

theorem row?_of_unmarked (h : e.Steady) {r : RecordId} (hm : e.mark? r.page = none) : e.row? r = e.saved? r := by
  unfold row? saved?
  cases hcopy : e.copy? r.page with
  | none => rw [view?_of_absent hcopy]
  | some page =>
    unfold mark? at hm
    rw [hcopy] at hm
    rw [view?_of_copy hcopy, (h.backed _ _ hcopy).clean hm]

end Steady

end RowStore.Engine
