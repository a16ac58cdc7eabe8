import RowStore.Proofs.ActionPaths

/-!
# The shape of the pool

Every resident page is filed under its own id, there are never more of them than the pool has room for, and the replacer
tracks exactly these. An empty pool has this shape and every step of the engine keeps it, whatever the tables, the
faults and the follow-ups are.
-/

namespace RowStore

namespace Dict

variable {κ υ : Type} [DecidableEq κ]

theorem mem_keys_insert (d : Dict κ υ) (k : κ) (v : υ) (j : κ) : j ∈ (d.insert k v).keys ↔ j = k ∨ j ∈ d.keys := by
  rw [mem_keys_iff, mem_keys_iff, find?_insert]
  by_cases h : k = j
  · simp [h]
  · have h' : ¬ j = k := fun he => h he.symm
    simp [h, h']

theorem mem_keys_erase (d : Dict κ υ) (k j : κ) : j ∈ (d.erase k).keys ↔ j ≠ k ∧ j ∈ d.keys := by
  rw [mem_keys_iff, mem_keys_iff, find?_erase]
  by_cases h : k = j
  · simp [h]
  · have h' : ¬ j = k := fun he => h he.symm
    simp [h, h']

theorem size_insert (d : Dict κ υ) (k : κ) (v : υ) :
    (d.insert k v).size = if k ∈ d.keys then d.size else d.size + 1 := by
  have h := congrArg List.length (keys_upsert k v d.entries)
  rw [List.length_map] at h
  change (upsert k v d.entries).length = if k ∈ d.entries.map Prod.fst then d.entries.length else _
  rw [h]
  split
  · exact List.length_map _
  · rw [List.length_append, List.length_map]
    rfl

theorem size_erase_le (d : Dict κ υ) (k : κ) : (d.erase k).size ≤ d.size := List.length_filter_le ..

theorem size_erase_lt {d : Dict κ υ} {k : κ} (h : k ∈ d.keys) : (d.erase k).size < d.size := by
  obtain ⟨entry, hm, rfl⟩ := List.mem_map.mp h
  refine Nat.lt_of_le_of_ne (size_erase_le d _) fun he => ?_
  have hall := List.length_filter_eq_length_iff.mp he entry hm
  simp at hall

end Dict

namespace Replacer

theorem mem_keys_recordAccess (r : Replacer) (page id : PageId) :
    id ∈ (r.recordAccess page).history.keys ↔ id = page ∨ id ∈ r.history.keys := Dict.mem_keys_insert ..

theorem mem_keys_remove (r : Replacer) (page id : PageId) :
    id ∈ (r.remove page).history.keys ↔ id ≠ page ∧ id ∈ r.history.keys := Dict.mem_keys_erase ..

end Replacer

namespace Pool

structure Sane (p : Pool) : Prop where
  keyed : ∀ id f, p.resident.find? id = some f → ∃ page, p.page? f = some page ∧ page.id = id
  bounded : p.resident.size ≤ p.capacity
  tracked : ∀ id, id ∈ p.replacer.history.keys ↔ id ∈ p.resident.keys

theorem sane_new (capacity k : Nat) : (new capacity k).Sane where
  keyed := by rintro id f ⟨⟩
  bounded := Nat.zero_le _
  tracked := by
    intro id
    constructor <;> (intro h; cases h)

theorem mem_keys_of_find? {p : Pool} {id : PageId} {f : FrameId} (h : p.resident.find? id = some f) :
    id ∈ p.resident.keys := by
  rw [Dict.mem_keys_iff, h]
  rfl

theorem Sane.touch {p : Pool} (h : p.Sane) {id : PageId} (hm : id ∈ p.resident.keys) : (p.touch id).Sane where
  keyed := h.keyed
  bounded := h.bounded
  tracked := by
    intro q
    show q ∈ (p.replacer.recordAccess id).history.keys ↔ q ∈ p.resident.keys
    rw [Replacer.mem_keys_recordAccess, h.tracked]
    constructor
    · rintro (rfl | hq)
      · exact hm
      · exact hq
    · exact .inr

theorem Sane.discard {p : Pool} (h : p.Sane) (id : PageId) : (p.discard id).Sane where
  keyed := by
    intro q f hq
    change (p.resident.erase id).find? q = some f at hq
    rw [Dict.find?_erase] at hq
    split at hq
    · cases hq
    · exact h.keyed q f hq
  bounded := Nat.le_trans (Dict.size_erase_le ..) h.bounded
  tracked := by
    intro q
    show q ∈ (p.replacer.remove id).history.keys ↔ q ∈ (p.resident.erase id).keys
    rw [Replacer.mem_keys_remove, Dict.mem_keys_erase, h.tracked]

theorem Sane.makeRoom {p q : Pool} (h : p.Sane) (hq : p.makeRoom = .ok q) :
    q.Sane ∧ q.resident.size < q.capacity ∧ q.frames = p.frames ∧ q.capacity = p.capacity := by
  rcases makeRoom_eq_ok hq with ⟨hlt, rfl⟩ | ⟨_, victim, _, hm, rfl⟩
  · exact ⟨h, hlt, rfl, rfl⟩
  · exact ⟨h.discard victim, Nat.lt_of_lt_of_le (Dict.size_erase_lt ((h.tracked victim).mp hm)) h.bounded, rfl, rfl⟩

theorem makeRoom_fixed {p q : Pool} (hq : p.makeRoom = .ok q) : q.capacity = p.capacity ∧ q.writing = p.writing := by
  rcases makeRoom_eq_ok hq with ⟨_, rfl⟩ | ⟨_, _, _, _, rfl⟩ <;> exact ⟨rfl, rfl⟩

theorem handBack_fixed (p : Pool) (txn : TxnId) (f : FrameId) :
    (Pool.handBack txn [f] p).1.capacity = p.capacity ∧ (Pool.handBack txn [f] p).1.writing = p.writing := by
  unfold Pool.handBack
  cases p.page? f with
  | none => exact ⟨rfl, rfl⟩
  | some page =>
    simp only
    unfold Pool.install
    cases (p.setPage f (page.markDirty (some txn))).resident.find? page.id with
    | some g =>
      simp only
      split <;> exact ⟨rfl, rfl⟩
    | none =>
      simp only
      cases hroom : (p.setPage f (page.markDirty (some txn))).makeRoom with
      | error err => exact ⟨rfl, rfl⟩
      | ok q =>
        obtain ⟨hc, hw⟩ := makeRoom_fixed hroom
        exact ⟨hc, hw⟩

theorem frames_install {p p' : Pool} {f : FrameId} {id : PageId} (h : p.install f id = .ok p') :
    p'.frames = p.frames := by
  unfold install at h
  split at h
  · cases h
    split <;> rfl
  · cases hroom : p.makeRoom with
    | error err =>
      rw [hroom] at h
      cases h
    | ok q =>
      rw [hroom] at h
      cases h
      rcases makeRoom_eq_ok hroom with ⟨_, rfl⟩ | ⟨_, _, _, _, rfl⟩ <;> rfl

/-- A frame that is handed back is marked, whether there is room for it or not. -/
theorem frames_handBack {p : Pool} {f : FrameId} {page : Page} (hf : p.page? f = some page) (txn : TxnId) :
    (handBack txn [f] p).1.frames = (p.setPage f (page.markDirty (some txn))).frames := by
  unfold handBack
  rw [hf]
  simp only
  cases hi : (p.setPage f (page.markDirty (some txn))).install f page.id with
  | error err => rfl
  | ok p' =>
    show p'.frames = _
    exact frames_install hi

/-- A page is made resident in a frame that holds it, where there is room for it. -/
theorem Sane.install {p : Pool} (h : p.Sane) {id : PageId} {f : FrameId} {page : Page} (hf : p.page? f = some page)
    (hid : page.id = id) (hroom : id ∈ p.resident.keys ∨ p.resident.size < p.capacity) :
    ({ p with resident := p.resident.insert id f }.touch id).Sane where
  keyed := by
    intro q g hq
    change (p.resident.insert id f).find? q = some g at hq
    rw [Dict.find?_insert] at hq
    split at hq
    · rename_i he
      cases hq
      exact ⟨page, hf, hid.trans he⟩
    · exact h.keyed q g hq
  bounded := by
    show (p.resident.insert id f).size ≤ p.capacity
    rw [Dict.size_insert]
    have hb := h.bounded
    split
    · exact hb
    · rename_i hn
      exact hroom.resolve_left hn
  tracked := by
    intro q
    show q ∈ (p.replacer.recordAccess id).history.keys ↔ q ∈ (p.resident.insert id f).keys
    rw [Replacer.mem_keys_recordAccess, Dict.mem_keys_insert, h.tracked]

theorem Sane.load {p p' : Pool} {page : Page} {f : FrameId} (h : p.Sane) (hl : p.load page = .ok (p', f)) :
    p'.Sane := by
  obtain ⟨q, hq, rfl, rfl⟩ := load_eq_ok hl
  obtain ⟨hs, hlt, hframes, _⟩ := h.makeRoom hq
  have hpush : Sane { q with frames := p.frames.push page } := by
    refine ⟨fun id g hg => ?_, hs.bounded, hs.tracked⟩
    obtain ⟨old, hold, hid⟩ := hs.keyed id g hg
    refine ⟨old, ?_, hid⟩
    change q.frames[g]? = some old at hold
    show (p.frames.push page)[g]? = some old
    obtain ⟨hlt, hget⟩ := Array.getElem?_eq_some_iff.mp hold
    rw [hframes] at hlt
    rw [Array.getElem?_push_lt hlt, ← hget]
    simp only [hframes]
  have hnew : (p.frames.push page)[p.frames.size]? = some page := Array.getElem?_push_size
  exact hpush.install hnew rfl (.inr hlt)

theorem Sane.setPage {p : Pool} (h : p.Sane) {f : FrameId} {old page : Page} (hf : p.page? f = some old)
    (hid : page.id = old.id) : (p.setPage f page).Sane where
  keyed := by
    intro q g hg
    obtain ⟨cur, hcur, hq⟩ := h.keyed q g hg
    rw [page?_setPage hf]
    split
    · rename_i hfg
      subst hfg
      rw [hf] at hcur
      cases hcur
      exact ⟨page, rfl, hid.trans hq⟩
    · exact ⟨cur, hcur, hq⟩
  bounded := h.bounded
  tracked := h.tracked

theorem Sane.handBack {p : Pool} (h : p.Sane) (txn : TxnId) (f : FrameId) : (Pool.handBack txn [f] p).1.Sane := by
  unfold Pool.handBack
  cases hf : p.page? f with
  | none => exact h
  | some page =>
    have hmark : (p.setPage f (page.markDirty (some txn))).Sane := h.setPage hf rfl
    have hnew : (p.setPage f (page.markDirty (some txn))).page? f = some (page.markDirty (some txn)) := by
      rw [page?_setPage hf, if_pos rfl]
    simp only
    generalize p.setPage f (page.markDirty (some txn)) = q at hmark hnew
    unfold Pool.install
    cases hr : q.resident.find? page.id with
    | some g =>
      simp only
      split
      · exact hmark.touch (mem_keys_of_find? hr)
      · exact hmark.install hnew rfl (.inl (mem_keys_of_find? hr))
    | none =>
      simp only
      cases hroom : q.makeRoom with
      | error err => exact hmark
      | ok q' =>
        obtain ⟨hs, hlt, hframes, _⟩ := hmark.makeRoom hroom
        have hkept : q'.page? f = some (page.markDirty (some txn)) := by
          rw [page?, hframes]
          exact hnew
        exact hs.install hkept rfl (.inr hlt)

end Pool

theorem Page.id_of_insert {p p' : Page} {t : Tuple} {r : RecordId} (h : p.insert t = .ok (p', r)) :
    p'.id = p.id ∧ r.page = p.id := by
  unfold Page.insert at h
  split at h
  · cases h
  · split at h
    · cases h
    · cases h
      exact ⟨rfl, rfl⟩

theorem Page.id_of_delete {p p' : Page} {r : RecordId} (h : p.delete (some r) = .ok p') :
    p'.id = p.id ∧ r.page = p.id := by
  unfold Page.delete at h
  simp only at h
  split at h
  · cases h
  · rename_i hp
    split at h
    · cases h
    · split at h
      · cases h
      · cases h
        exact ⟨rfl, Decidable.not_not.mp hp⟩

namespace Engine

theorem Step.sane {e e' : Engine} {l : List Event} (h : Step e l e') (hs : e.pool.Sane) : e'.pool.Sane := by
  cases h with
  | call | countRead | log | force | grant | append | complete | release => exact hs
  | touch hr => exact hs.touch (Pool.mem_keys_of_find? hr)
  | load _ _ hl => exact hs.load hl
  | store _ hf _ hi => exact hs.setPage hf (Page.id_of_insert hi).1
  | remove _ hf _ hd => exact hs.setPage hf (Page.id_of_delete hd).1
  | base _ hf => exact hs.setPage hf rfl
  | write _ hf => exact hs.setPage hf rfl
  | restore _ hf hp => exact hs.setPage hf (id_of_onFile hp)
  | discard id => exact hs.discard id
  | hand txn f => exact hs.handBack txn f

/-- No step changes how many pages there is room for, or which frames are being written. -/
theorem Step.pool_fixed {e e' : Engine} {l : List Event} (h : Step e l e') :
    e'.pool.capacity = e.pool.capacity ∧ e'.pool.writing = e.pool.writing := by
  cases h with
  | @load page pool f _ _ hl =>
    obtain ⟨q, hq, _, rfl⟩ := Pool.load_eq_ok hl
    obtain ⟨hc, hw⟩ := Pool.makeRoom_fixed hq
    exact ⟨hc, hw⟩
  | hand txn f => exact Pool.handBack_fixed e.pool txn f
  | call | countRead | log | force | touch | grant | store | remove | append | base | write | restore | discard
  | complete | release => exact ⟨rfl, rfl⟩

theorem Path.pool_fixed {e e' : Engine} {l : List Event} (h : Path e l e') :
    e'.pool.capacity = e.pool.capacity ∧ e'.pool.writing = e.pool.writing := by
  induction h with
  | refl => exact ⟨rfl, rfl⟩
  | step hs _ ih => exact ⟨ih.1.trans hs.pool_fixed.1, ih.2.trans hs.pool_fixed.2⟩

theorem Path.sane {e e' : Engine} {l : List Event} (h : Path e l e') (hs : e.pool.Sane) : e'.pool.Sane :=
  h.preserves (fun _ _ _ => Step.sane) hs

end Engine

end RowStore
