import RowStore.Pool

/-!
# Making room in the pool

A page that is given up is tracked by the replacer, clean, resident and not being written, and if there is such a page
one is found. Loading a page adds a frame behind the others and a resident page, after at most one other page
was given up.
-/

namespace RowStore

theorem Dict.find?_of_mem_entries {κ υ : Type} [DecidableEq κ] {d : Dict κ υ} {k : κ} {v : υ}
    (hm : (k, v) ∈ d.entries) : d.find? k = some v := by
  obtain ⟨entries, hd⟩ := d
  change (entries.find? fun entry => entry.1 = k).map Prod.snd = some v
  change (k, v) ∈ entries at hm
  induction entries with
  | nil => cases hm
  | cons entry rest ih =>
    rw [List.map_cons, List.nodup_cons] at hd
    rcases List.mem_cons.mp hm with heq | hrest
    · rw [← heq, List.find?_cons_of_pos (by simp)]
      rfl
    · have hne : entry.1 ≠ k := by
        rintro rfl
        exact hd.1 (List.mem_map.mpr ⟨_, hrest, rfl⟩)
      rw [List.find?_cons_of_neg (by simpa using hne)]
      exact ih hd.2 hrest

theorem Dict.exists_find?_of_mem_values {κ υ : Type} [DecidableEq κ] {d : Dict κ υ} {v : υ} (h : v ∈ d.values) :
    ∃ k, d.find? k = some v := by
  obtain ⟨⟨k, v'⟩, hm, rfl⟩ := List.mem_map.mp h
  exact ⟨k, find?_of_mem_entries hm⟩

theorem Dict.mem_values_of_find? {κ υ : Type} [DecidableEq κ] {d : Dict κ υ} {k : κ} {v : υ}
    (h : d.find? k = some v) : v ∈ d.values := by
  obtain ⟨entry, hf, rfl⟩ := Option.map_eq_some_iff.mp h
  exact List.mem_map_of_mem (List.mem_of_find?_eq_some hf)

namespace Replacer

theorem firstToGo_mem {k : Nat} {entries : List (PageId × List Nat)} {entry : PageId × List Nat}
    (h : firstToGo k entries = some entry) : entry ∈ entries := by
  have hfold : ∀ (rest : List (PageId × List Nat)) (best : PageId × List Nat),
      rest.foldl (fun best entry => if goesBefore k entry.2 best.2 then entry else best) best ∈ best :: rest := by
    intro rest
    induction rest with
    | nil => exact fun best => List.mem_cons_self
    | cons next rest ih =>
      intro best
      rw [List.foldl_cons]
      rcases List.mem_cons.mp (ih (if goesBefore k next.2 best.2 then next else best)) with hb | hr
      · rw [hb]
        split
        · exact List.mem_cons_of_mem _ List.mem_cons_self
        · exact List.mem_cons_self
      · exact List.mem_cons_of_mem _ (List.mem_cons_of_mem _ hr)
  cases entries with
  | nil => cases h
  | cons first rest =>
    cases h
    exact hfold rest first

theorem victim?_eq_some {r : Replacer} {evictable : PageId → Bool} {page : PageId}
    (h : r.victim? evictable = some page) : evictable page = true ∧ page ∈ r.history.keys := by
  obtain ⟨entry, hf, rfl⟩ := Option.map_eq_some_iff.mp h
  obtain ⟨hm, he⟩ := List.mem_filter.mp (firstToGo_mem hf)
  exact ⟨he, List.mem_map_of_mem hm⟩

theorem isSome_victim? {r : Replacer} {evictable : PageId → Bool} {page : PageId} (hm : page ∈ r.history.keys)
    (he : evictable page = true) : (r.victim? evictable).isSome = true := by
  obtain ⟨entry, hentry, rfl⟩ := List.mem_map.mp hm
  have hf : entry ∈ r.history.entries.filter fun entry => evictable entry.1 := List.mem_filter.mpr ⟨hentry, he⟩
  unfold victim?
  cases hl : r.history.entries.filter fun entry => evictable entry.1 with
  | nil =>
    rw [hl] at hf
    cases hf
  | cons first rest => rfl

end Replacer

namespace Pool

theorem evictable_eq_true {p : Pool} {id : PageId} (h : p.evictable id = true) :
    ∃ f page, p.resident.find? id = some f ∧ p.page? f = some page ∧ page.dirtier = none ∧ f ∉ p.writing := by
  unfold evictable at h
  split at h
  · rename_i f hf
    rw [Bool.and_eq_true, Option.any_eq_true] at h
    obtain ⟨hw, page, hp, hd⟩ := h
    refine ⟨f, page, hf, hp, ?_, ?_⟩
    · simpa [Page.isDirty] using hd
    · simpa using hw
  · cases h

theorem evictable_of_clean {p : Pool} {id : PageId} {f : FrameId} {page : Page}
    (hr : p.resident.find? id = some f) (hp : p.page? f = some page) (hd : page.dirtier = none)
    (hw : f ∉ p.writing) : p.evictable id = true := by
  simp [evictable, hr, hp, Page.isDirty, hd, hw]

/-- Room is there already, or made by giving up one page that may be given up. -/
theorem makeRoom_eq_ok {p q : Pool} (h : p.makeRoom = .ok q) :
    (p.resident.size < p.capacity ∧ q = p) ∨
      (p.capacity ≤ p.resident.size ∧ ∃ victim, p.evictable victim = true ∧ victim ∈ p.replacer.history.keys ∧
        q = { p with resident := p.resident.erase victim, replacer := p.replacer.remove victim }) := by
  unfold makeRoom at h
  split at h
  · rename_i hlt
    cases h
    exact .inl ⟨hlt, rfl⟩
  · rename_i hlt
    refine .inr ⟨Nat.le_of_not_lt hlt, ?_⟩
    unfold evict Replacer.evict at h
    cases hv : p.replacer.victim? p.evictable with
    | none =>
      rw [hv] at h
      cases h
    | some victim =>
      rw [hv] at h
      cases h
      obtain ⟨he, hm⟩ := Replacer.victim?_eq_some hv
      exact ⟨victim, he, hm, rfl⟩

/-- Room can be made when there is some or when a tracked page may be given up. -/
theorem makeRoom_of {p : Pool}
    (h : p.resident.size < p.capacity ∨ ∃ id ∈ p.replacer.history.keys, p.evictable id = true) :
    ∃ q, p.makeRoom = .ok q := by
  unfold makeRoom
  split
  · exact ⟨p, rfl⟩
  · rename_i hlt
    obtain ⟨id, hm, he⟩ := h.resolve_left hlt
    obtain ⟨victim, hv⟩ := Option.isSome_iff_exists.mp (Replacer.isSome_victim? hm he)
    unfold evict Replacer.evict
    rw [hv]
    exact ⟨_, rfl⟩

/-- Loading a page fills a new frame and makes it resident once there is room. -/
theorem load_eq_ok {p p' : Pool} {page : Page} {f : FrameId} (h : p.load page = .ok (p', f)) :
    ∃ q, p.makeRoom = .ok q ∧ f = p.frames.size ∧
      p' = ({ q with frames := p.frames.push page, resident := q.resident.insert page.id f }).touch page.id := by
  unfold load at h
  split at h
  · cases h
  · rename_i q hq
    cases h
    have hframes : q.frames = p.frames := by
      rcases makeRoom_eq_ok hq with ⟨_, rfl⟩ | ⟨_, _, _, _, rfl⟩ <;> rfl
    exact ⟨q, hq, by rw [hframes], by rw [hframes]⟩

theorem load_of_makeRoom {p q : Pool} (h : p.makeRoom = .ok q) (page : Page) :
    ∃ p' f, p.load page = .ok (p', f) := by
  unfold load
  rw [h]
  exact ⟨_, _, rfl⟩

theorem find?_load {p p' : Pool} {page : Page} {f : FrameId} (h : p.load page = .ok (p', f)) :
    p'.resident.find? page.id = some f := by
  obtain ⟨q, _, _, rfl⟩ := load_eq_ok h
  show (q.resident.insert page.id f).find? page.id = some f
  rw [Dict.find?_insert, if_pos rfl]

/-- After a load the resident pages are the loaded one and those that were there before, less at most one that was
clean. -/
theorem find?_load_of_ne {p p' : Pool} {page : Page} {f g : FrameId} {id : PageId} (h : p.load page = .ok (p', f))
    (hne : page.id ≠ id) (hg : p'.resident.find? id = some g) : p.resident.find? id = some g := by
  obtain ⟨q, hq, _, rfl⟩ := load_eq_ok h
  change (q.resident.insert page.id f).find? id = some g at hg
  rw [Dict.find?_insert, if_neg hne] at hg
  rcases makeRoom_eq_ok hq with ⟨_, rfl⟩ | ⟨_, victim, _, _, rfl⟩
  · exact hg
  · change (p.resident.erase victim).find? id = some g at hg
    rw [Dict.find?_erase] at hg
    split at hg
    · cases hg
    · exact hg

theorem page?_load {p p' : Pool} {page : Page} {f : FrameId} (h : p.load page = .ok (p', f)) (g : FrameId) :
    p'.page? g = if g = f then some page else p.page? g := by
  obtain ⟨q, hq, rfl, rfl⟩ := load_eq_ok h
  show (p.frames.push page)[g]? = if g = p.frames.size then some page else p.frames[g]?
  exact Array.getElem?_push

/-- A resident page that is dirty, or being written, stays when another page is loaded. -/
theorem find?_load_of_kept {p p' : Pool} {page : Page} {f g : FrameId} {id : PageId} (h : p.load page = .ok (p', f))
    (hne : page.id ≠ id) (hg : p.resident.find? id = some g) (hk : p.evictable id = false) :
    p'.resident.find? id = some g := by
  obtain ⟨q, hq, _, rfl⟩ := load_eq_ok h
  show (q.resident.insert page.id f).find? id = some g
  rw [Dict.find?_insert, if_neg hne]
  rcases makeRoom_eq_ok hq with ⟨_, rfl⟩ | ⟨_, victim, hv, _, rfl⟩
  · exact hg
  · show (p.resident.erase victim).find? id = some g
    have hvid : victim ≠ id := by
      rintro rfl
      rw [hk] at hv
      cases hv
    rw [Dict.find?_erase, if_neg hvid]
    exact hg

theorem page?_setPage {p : Pool} {f : FrameId} {old : Page} (h : p.page? f = some old) (page : Page) (g : FrameId) :
    (p.setPage f page).page? g = if f = g then some page else p.page? g := by
  have hlt : f < p.frames.size := (Array.getElem?_eq_some_iff.mp h).1
  show (p.frames.setIfInBounds f page)[g]? = if f = g then some page else p.frames[g]?
  rw [Array.getElem?_setIfInBounds]
  by_cases hfg : f = g
  · rw [if_pos hfg, if_pos hfg, if_pos (hfg ▸ hlt)]
  · rw [if_neg hfg, if_neg hfg]

end Pool

end RowStore
