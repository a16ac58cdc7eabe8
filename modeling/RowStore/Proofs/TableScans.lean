import RowStore.Proofs.FirstFit

/-!
# Scans of a quiet table

When nobody but the reader holds a lock and no page in memory is marked, every page on file can be fetched, however
small the pool is, because a page can be given up for the next one. So a scan gets through, and it lists the rows of
the table in the order of their record ids, each once. A scan that is pulled at row by row gives out the same rows as
one that reads the whole table at once.
-/

namespace RowStore

/-- One row comes before another by the places that they lie in. -/
def Tuple.Before (a b : Tuple) : Prop :=
  ∃ r s, a.record = some r ∧ b.record = some s ∧ r.Before s

namespace Page

theorem Shaped.record_of_tuple? {p : Page} (h : p.Shaped) {slot : Nat} {t : Tuple} (ht : p.tuple? slot = some t) :
    t.record = some ⟨p.id, slot⟩ := by
  refine (h.placed slot t ?_).2
  obtain ⟨cell, hcell, hjoin⟩ := Option.bind_eq_some_iff.mp ht
  rw [hcell, show cell = some t from hjoin]

theorem mem_tuples {p : Page} {t : Tuple} : t ∈ p.tuples ↔ ∃ slot, p.tuple? slot = some t := by
  unfold tuples tuple?
  rw [List.mem_filterMap]
  constructor
  · rintro ⟨cell, hcell, rfl⟩
    obtain ⟨slot, hslot⟩ := List.getElem?_of_mem hcell
    exact ⟨slot, by rw [hslot]; rfl⟩
  · rintro ⟨slot, hslot⟩
    obtain ⟨cell, hcell, hjoin⟩ := Option.bind_eq_some_iff.mp hslot
    exact ⟨cell, List.mem_of_getElem? hcell, hjoin⟩

/-- The rows of a page come in the order of their slots. -/
theorem Shaped.pairwise_tuples {p : Page} (h : p.Shaped) : p.tuples.Pairwise Tuple.Before := by
  unfold tuples
  rw [List.pairwise_filterMap, List.pairwise_iff_getElem]
  intro i j hi hj hij a ha b hb
  refine ⟨⟨p.id, i⟩, ⟨p.id, j⟩, (h.placed i a ?_).2, (h.placed j b ?_).2, .inr ⟨rfl, hij⟩⟩
  · rw [List.getElem?_eq_getElem hi, ha]
  · rw [List.getElem?_eq_getElem hj, hb]

end Page

namespace Engine

variable {e e' : Engine} {id : TableId} {table : Table} {txn : TxnId}

/-- Nobody but a transaction holds a lock, and every page in memory may be given up. -/
structure Quiet (e : Engine) (txn : TxnId) : Prop where
  alone : ∀ other page, other ≠ txn → e.locks.modeOf? other page = none
  unmarked : ∀ page, e.mark? page = none
  unwritten : e.pool.writing = []
  capacity_pos : 0 < e.pool.capacity

/-- What a scan of the pages of a table from `start` up to `stop` lists. -/
structure Lists (e : Engine) (id : TableId) (start stop : Nat) (rows : List Tuple) : Prop where
  ordered : rows.Pairwise Tuple.Before
  sound : ∀ t ∈ rows, ∃ r, t.record = some r ∧ r.page.table = id ∧ start ≤ r.page.number ∧ r.page.number < stop ∧
    e.row? r = some t.encode
  complete : ∀ r bytes, r.page.table = id → start ≤ r.page.number → r.page.number < stop →
    e.row? r = some bytes → ∃ t ∈ rows, t.record = some r ∧ t.encode = bytes

theorem Lists.congr {start stop : Nat} {rows : List Tuple} (h : e'.Lists id start stop rows)
    (hrow : ∀ r, e'.row? r = e.row? r) : e.Lists id start stop rows where
  ordered := h.ordered
  sound := fun t ht => by
    obtain ⟨r, hr, hid, hle, hlt, hb⟩ := h.sound t ht
    exact ⟨r, hr, hid, hle, hlt, by rw [← hrow]; exact hb⟩
  complete := fun r bytes hid hle hlt hb => h.complete r bytes hid hle hlt (by rw [hrow]; exact hb)

theorem Lists.append {start middle stop : Nat} {rows rows' : List Tuple} (h : e.Lists id start middle rows)
    (h' : e.Lists id middle stop rows') (hle : start ≤ middle) (hle' : middle ≤ stop) :
    e.Lists id start stop (rows ++ rows') where
  ordered := by
    refine List.pairwise_append.mpr ⟨h.ordered, h'.ordered, fun a ha b hb => ?_⟩
    obtain ⟨r, hr, _, _, hlt, _⟩ := h.sound a ha
    obtain ⟨s, hs, _, hge, _⟩ := h'.sound b hb
    exact ⟨r, s, hr, hs, .inl (Nat.lt_of_lt_of_le hlt hge)⟩
  sound := fun t ht => by
    rcases List.mem_append.mp ht with ht | ht
    · obtain ⟨r, hr, hid, hge, hlt, hb⟩ := h.sound t ht
      exact ⟨r, hr, hid, hge, Nat.lt_of_lt_of_le hlt hle', hb⟩
    · obtain ⟨r, hr, hid, hge, hlt, hb⟩ := h'.sound t ht
      exact ⟨r, hr, hid, Nat.le_trans hle hge, hlt, hb⟩
  complete := fun r bytes hid hge hlt hb => by
    by_cases hm : r.page.number < middle
    · obtain ⟨t, ht, hrec⟩ := h.complete r bytes hid hge hm hb
      exact ⟨t, List.mem_append_left _ ht, hrec⟩
    · obtain ⟨t, ht, hrec⟩ := h'.complete r bytes hid (Nat.le_of_not_lt hm) hlt hb
      exact ⟨t, List.mem_append_right _ ht, hrec⟩

/-- The rows of a page that holds the rows of the store. -/
theorem lists_of_page {page : Page} (h : page.Exact) {n : Nat} (hid : page.id = ⟨id, n⟩)
    (hrow : ∀ slot, (page.tuple? slot).map Tuple.encode = e.row? ⟨⟨id, n⟩, slot⟩) :
    e.Lists id n (n + 1) page.tuples where
  ordered := h.pairwise_tuples
  sound := fun t ht => by
    obtain ⟨slot, hslot⟩ := Page.mem_tuples.mp ht
    refine ⟨⟨page.id, slot⟩, h.record_of_tuple? hslot, by rw [hid], Nat.le_of_eq (by rw [hid]),
      by rw [hid]; exact Nat.lt_succ_self n, ?_⟩
    rw [hid, ← hrow, hslot]
    rfl
  complete := fun r bytes hr hge hlt hb => by
    obtain ⟨⟨rt, rn⟩, slot⟩ := r
    have hn : rn = n := Nat.le_antisymm (Nat.le_of_lt_succ hlt) hge
    have ht : rt = id := hr
    subst hn ht
    rw [← hrow, Option.map_eq_some_iff] at hb
    obtain ⟨t, ht, hbytes⟩ := hb
    refine ⟨t, Page.mem_tuples.mpr ⟨slot, ht⟩, ?_, hbytes⟩
    rw [h.record_of_tuple? ht, hid]

theorem fetch_of_room (hf : e.Faultless) {page : PageId} {fresh : Page} {pool : Pool}
    (hon : e.onFile page = .ok fresh) (hroom : e.pool.makeRoom = .ok pool) : ∃ e' f, e.fetch page = (e', .ok f) := by
  unfold fetch
  cases e.pool.resident.find? page with
  | some f => exact ⟨_, f, rfl⟩
  | none =>
    have hread := (hf.readable.readPage page).trans hon
    obtain ⟨_, ⟨faults, traffic, hstate⟩, _⟩ := readPage_cases e page
    generalize e.readPage page = outcome at hread hstate ⊢
    obtain ⟨e₁, result⟩ := outcome
    change result = _ at hread
    change e₁ = _ at hstate
    subst hread hstate
    obtain ⟨pool', f, hload⟩ := Pool.load_of_makeRoom hroom fresh
    simp only [hload]
    exact ⟨_, f, rfl⟩

namespace Quiet

theorem getPage (hq : e.Quiet txn) (h : e.Steady) (page : PageId) (access : Access) :
    (e.getPage txn page access).1.Quiet txn := by
  have hpath := path_getPage e txn page access
  obtain ⟨hadmits, hlocks⟩ := hpath.locks h.sane
  obtain ⟨hcapacity, hwriting⟩ := hpath.pool_fixed
  have hgranted : ∀ event ∈ e.getEvents txn page access, ∃ p m, event = .granted txn p m :=
    forall_getEvents ⟨_, _, rfl⟩
  refine ⟨?_, ?_, hwriting.trans hq.unwritten, by rw [hcapacity]; exact hq.capacity_pos⟩
  · rw [hlocks]
    refine h.proper.alone_foldl_after hadmits (fun other p m hm => ?_) hq.alone
    obtain ⟨_, _, he⟩ := hgranted _ hm
    cases he
    rfl
  · intro p
    rw [(hpath.ranged_of_not_appended appended_not_mem_getEvents).marks h.toSound
      (h.fair (a := .ask (.get txn page access)) trivial)]
    refine Event.foldl_onMark_unmarked (fun event hm => ?_) (.inl (hq.unmarked p))
    obtain ⟨_, _, rfl⟩ := hgranted _ hm
    exact id

/-- While the store is quiet there is room for any page. -/
theorem makeRoom (hq : e.Quiet txn) (h : e.Steady) : ∃ pool, e.pool.makeRoom = .ok pool := by
  refine Pool.makeRoom_of ?_
  by_cases hroom : e.pool.resident.size < e.pool.capacity
  · exact .inl hroom
  · have hsize : 0 < e.pool.resident.keys.length := by
      have hpos := hq.capacity_pos
      show 0 < (e.pool.resident.entries.map Prod.fst).length
      rw [List.length_map]
      show 0 < e.pool.resident.size
      omega
    obtain ⟨id, hid⟩ := List.exists_mem_of_length_pos hsize
    obtain ⟨f, hf⟩ := Option.isSome_iff_exists.mp ((e.pool.resident.mem_keys_iff id).mp hid)
    obtain ⟨page, hpage, _⟩ := h.sane.keyed id f hf
    have hclean : page.dirtier = none := by
      have hmark := hq.unmarked id
      unfold mark? at hmark
      rwa [show e.copy? id = some page from Pool.copy?_of_resident hf hpage] at hmark
    refine .inr ⟨id, (h.sane.tracked id).mpr hid, Pool.evictable_of_clean hf hpage hclean ?_⟩
    rw [hq.unwritten]
    exact List.not_mem_nil

theorem getPage_ok (hq : e.Quiet txn) (h : e.Steady) {page : PageId} (hi : (e.image? page).isSome) (access : Access) :
    ∃ e' f, e.getPage txn page access = (e', .ok f) := by
  obtain ⟨fresh, hfresh⟩ := h.toSound.housed.exists_onFile hi
  obtain ⟨pool, hpool⟩ := hq.makeRoom h
  rw [getPage_eq, if_pos (h.proper.request_of_alone (fun other => hq.alone other page) access.lockMode)]
  exact fetch_of_room (e := { e with locks := (e.locks.request txn page access.lockMode).1 }) h.faultless
    ((onFile_congr rfl rfl rfl page).trans hfresh) hpool

end Quiet

theorem rowsOf_state (e : Engine) (txn : TxnId) (page : PageId) :
    (e.rowsOf txn page).1 = (e.getPage txn page .readOnly).1 := by
  unfold rowsOf
  cases e.getPage txn page .readOnly with
  | mk e₁ result => cases result <;> rfl

namespace Steady

/-- While the store is quiet a page can be read, and its rows are those of the store. -/
theorem rowsOf_lists (h : e.Steady) (hq : e.Quiet txn) {n : Nat} (hi : (e.image? ⟨id, n⟩).isSome) :
    ∃ rows, (e.rowsOf txn ⟨id, n⟩).2 = .ok rows ∧ e.Lists id n (n + 1) rows := by
  obtain ⟨e₁, f, hget⟩ := hq.getPage_ok h hi .readOnly
  obtain ⟨page, hpage, hid, hlegal, hrow⟩ := h.page_of_getPage hget
  refine ⟨page.tuples, ?_, lists_of_page hlegal.exact hid hrow⟩
  unfold Engine.rowsOf
  rw [hget]
  simp only [hpage, Option.elim_some]

theorem rowsAmong_lists (h : e.Steady) (hq : e.Quiet txn) (left n : Nat)
    (hi : ∀ k, n ≤ k → k < n + left → (e.image? ⟨id, k⟩).isSome) :
    ∃ rows, (rowsAmong txn id left n e).2 = .ok rows ∧ e.Lists id n (n + left) rows := by
  induction left generalizing n e with
  | zero =>
    refine ⟨[], rfl, .nil, nofun, fun r bytes _ hge hlt => ?_⟩
    omega
  | succ left ih =>
    obtain ⟨rows, hrows, hlists⟩ := h.rowsOf_lists hq (hi n (Nat.le_refl n) (by omega))
    have hsteady := h.getPage txn ⟨id, n⟩ .readOnly
    have hquiet := hq.getPage h ⟨id, n⟩ .readOnly
    have hsame := h.row?_getPage txn ⟨id, n⟩ .readOnly
    have hpages := h.isSome_image?_getPage txn ⟨id, n⟩ .readOnly
    rw [← rowsOf_state] at hsteady hquiet hsame hpages
    unfold rowsAmong
    generalize e.rowsOf txn ⟨id, n⟩ = outcome at hrows hsteady hquiet hsame hpages ⊢
    obtain ⟨e₁, result⟩ := outcome
    change result = _ at hrows
    subst hrows
    obtain ⟨rest, hrest, hlater⟩ := ih hsteady hquiet (n := n + 1) fun k hge hlt =>
      (hpages _).mpr (hi k (by omega) (by omega))
    simp only
    refine ⟨rows ++ rest, by rw [hrest]; rfl, ?_⟩
    have hwhole := hlists.append (hlater.congr hsame) (Nat.le_succ n) (Nat.le_add_right _ _)
    rwa [Nat.add_right_comm n 1 left, Nat.add_assoc] at hwhole

end Steady

/-- The rows that a scan gives out until it is exhausted or fails, pulled at so many times at most. -/
def drain : (pulls : Nat) → Engine → Scan → Except StorageError (List Tuple)
  | 0, _, _ => .ok []
  | pulls + 1, e, s =>
    match e.nextTuple s with
    | (_, _, .error err) => .error err
    | (_, _, .ok none) => .ok []
    | (e, s, .ok (some t)) => (drain pulls e s).map (t :: ·)

/-- Filling the buffer of a scan reads the pages that a scan of the whole table would read, up to the first with rows.
-/
theorem fill_of_rowsAmong {left n : Nat} (stop : Nat) {rows : List Tuple}
    (h : (rowsAmong txn id left n e).2 = .ok rows) :
    ∃ read buffered rest, read ≤ left ∧
      (fill txn id left e ⟨n, stop, []⟩).2 = (⟨n + read, stop, buffered⟩, .ok ()) ∧
      (rowsAmong txn id (left - read) (n + read) (fill txn id left e ⟨n, stop, []⟩).1).2 = .ok rest ∧
      rows = buffered ++ rest ∧ (buffered = [] → rest = []) := by
  induction left generalizing n e rows with
  | zero =>
    cases h
    exact ⟨0, [], [], Nat.le_refl 0, rfl, rfl, rfl, fun _ => rfl⟩
  | succ left ih =>
    unfold rowsAmong at h
    unfold fill
    simp only [List.isEmpty_nil, if_true]
    generalize e.rowsOf txn ⟨id, n⟩ = outcome at h ⊢
    obtain ⟨e₁, result⟩ := outcome
    cases result with
    | error err => cases h
    | ok first =>
      simp only at h ⊢
      cases hrest : (rowsAmong txn id left (n + 1) e₁).2 with
      | error err =>
        rw [hrest] at h
        cases h
      | ok rest =>
        rw [hrest] at h
        cases h
        cases first with
        | nil =>
          obtain ⟨read, buffered, later, hle, hfill, hlater, hsplit, hnil⟩ := ih hrest
          refine ⟨read + 1, buffered, later, Nat.succ_le_succ hle, ?_, ?_, hsplit, hnil⟩
          · rw [hfill, Nat.add_assoc, Nat.add_comm 1 read]
          · rw [Nat.add_sub_add_right, Nat.add_comm read 1, ← Nat.add_assoc]
            exact hlater
        | cons t first =>
          have hfull : fill txn id left e₁ ⟨n + 1, stop, t :: first⟩ = (e₁, ⟨n + 1, stop, t :: first⟩, .ok ()) := by
            cases left <;> rfl
          exact ⟨1, t :: first, rest, Nat.le_add_left 1 left, by rw [hfull], by rw [hfull]; exact hrest, rfl,
            fun hnil => absurd hnil (List.cons_ne_nil _ _)⟩

/-- A scan gives out its buffered rows and then the rows of the pages that are left. -/
theorem drain_of_rowsAmong {left n : Nat} (buffered : List Tuple) {rows : List Tuple}
    (h : (rowsAmong txn table.id left n e).2 = .ok rows) {pulls : Nat} (hp : (buffered ++ rows).length < pulls) :
    drain pulls e ⟨table, txn, some ⟨n, n + left, buffered⟩⟩ = .ok (buffered ++ rows) := by
  induction pulls generalizing e left n buffered rows with
  | zero => exact absurd hp (Nat.not_lt_zero _)
  | succ pulls ih =>
    cases buffered with
    | cons t buffered =>
      have hfull : fill txn table.id (n + left - n) e ⟨n, n + left, t :: buffered⟩ =
          (e, ⟨n, n + left, t :: buffered⟩, .ok ()) := by
        cases n + left - n <;> rfl
      have hnext : e.nextTuple ⟨table, txn, some ⟨n, n + left, t :: buffered⟩⟩ =
          (e, ⟨table, txn, some ⟨n, n + left, buffered⟩⟩, .ok (some t)) := by
        unfold nextTuple
        simp only [hfull]
      unfold drain
      rw [hnext]
      simp only
      rw [ih buffered h (Nat.lt_of_succ_lt_succ hp)]
      rfl
    | nil =>
      obtain ⟨read, buffered, rest, hle, hfill, hlater, rfl, hnil⟩ := fill_of_rowsAmong (n + left) h
      generalize hout : fill txn table.id left e ⟨n, n + left, []⟩ = outcome at hfill hlater
      obtain ⟨e₁, c, result⟩ := outcome
      cases hfill
      unfold drain nextTuple
      simp only [Nat.add_sub_cancel_left, hout]
      cases buffered with
      | nil =>
        rw [hnil rfl]
        rfl
      | cons t buffered =>
        have hstop : n + left = n + read + (left - read) := by omega
        have hrest := ih buffered hlater (Nat.lt_of_succ_lt_succ hp)
        rw [← hstop] at hrest
        simp only
        rw [hrest]
        rfl

/-- While the store is quiet a scan of a table, pulled at row by row, gives out all its rows in order. -/
theorem Steady.scan_lists (h : e.Steady) (hr : e.InRange) (hq : e.Quiet txn) (ht : e.catalog.table? id = .ok table) :
    ∃ rows, (∀ pulls, rows.length < pulls → drain pulls e ((Scan.new table txn).openAt e) = .ok rows) ∧
      rows.Pairwise Tuple.Before ∧ ∀ r bytes,
        (∃ t ∈ rows, t.record = some r ∧ t.encode = bytes) ↔ r.page.table = id ∧ e.row? r = some bytes := by
  obtain ⟨count, _, hcount, hpages⟩ := h.pages hr ht
  have hid := h.keyed _ _ ht
  obtain ⟨rows, hrows, hlists⟩ := h.rowsAmong_lists hq count 0 fun k _ hlt =>
    (hpages k).mpr (by omega)
  rw [Nat.zero_add] at hlists
  refine ⟨rows, fun pulls hp => ?_, hlists.ordered, fun r bytes => ⟨?_, ?_⟩⟩
  · rw [← hid] at hrows
    have hdrain := drain_of_rowsAmong [] hrows hp
    rw [Nat.zero_add] at hdrain
    unfold Scan.openAt Scan.new
    rw [hcount]
    exact hdrain
  · rintro ⟨t, hm, hrecord, rfl⟩
    obtain ⟨r', hr', hon, _, _, hrow⟩ := hlists.sound t hm
    cases hrecord.symm.trans hr'
    exact ⟨hon, hrow⟩
  · rintro ⟨hon, hrow⟩
    refine hlists.complete r bytes hon (Nat.zero_le _) ((hpages _).mp ?_) hrow
    refine Option.isSome_iff_ne_none.mpr fun hnone => ?_
    rw [← hon] at hnone
    rw [h.row?_of_no_image hnone] at hrow
    cases hrow

end Engine

end RowStore
