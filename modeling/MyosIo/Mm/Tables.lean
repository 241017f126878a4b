import MyosIo.Mm.Arith
import MyosIo.Lib.Lists

/-! `pool` lists the `PT_Page`s. `TableInv` says how the two directories, the tables and the id
stacks fit together, `Counts` what the entry counters hold and `ListInv` what is on the list
`free_pt_pages`. Every operation on the page tables is made of five steps: a new table is taken,
an entry is stored, a counter moves, an empty table is given back, a page joins the pool. -/
namespace MyosIo.Mm

open Function

structure IsTable (pool : List ℕ) (t : ℕ) : Prop where
  page : align2m t ∈ pool
  id : tableId t < 510
  mod : t % 0x1000 = 0

def IsFree (s : State) (t : ℕ) : Prop := tableId t ∈ s.freeIds (align2m t)

/-- The entry at three indices, as the software finds it. -/
def entry (s : State) (a b c : ℕ) : ℕ :=
  if s.kernelVpt2s a b = 0 then 0 else s.pageTables (s.kernelVpt2s a b) c

def lookup (s : State) (v : ℕ) : ℕ := entry s (i1 v) (i2 v) (i3 v)

/-- The physical address of a table in the pool. -/
def phys (s : State) (t : ℕ) : ℕ := t % 0x200000 + s.phAddr (align2m t)

/-- The two states differ in one entry. -/
def Sets (s s' : State) (a b c x : ℕ) : Prop :=
  ∀ a' b' c', c' < 512 →
    entry s' a' b' c' = if a' = a ∧ b' = b ∧ c' = c then x else entry s a' b' c'

structure TableInv (L : Layout) (pool : List ℕ) (s : State) : Prop where
  poolMod : ∀ p ∈ pool, p % 0x200000 = 0
  phMod : ∀ p ∈ pool, s.phAddr p % 0x200000 = 0
  nullPos : L.nullPt3 ≠ 0
  nullOut : align2m L.nullPt3 ∉ pool
  poolPos : 0 ∉ pool
  null : s.kernelVpt2s 0 0 = L.nullPt3 ∧ s.kernelPt2s 0 0 = L.nullPt3 + 3
  idsNodup : ∀ p ∈ pool, (s.freeIds p).Nodup
  idsLt : ∀ p ∈ pool, ∀ id ∈ s.freeIds p, id < 510
  used : ∀ a b, s.kernelVpt2s a b ≠ 0 → ¬ (a = 0 ∧ b = 0) →
    IsTable pool (s.kernelVpt2s a b) ∧ ¬ IsFree s (s.kernelVpt2s a b) ∧
      s.kernelPt2s a b = phys s (s.kernelVpt2s a b) + 3
  unused : ∀ a b, s.kernelVpt2s a b = 0 → s.kernelPt2s a b = 0
  inj : ∀ a b a' b', s.kernelVpt2s a b ≠ 0 → s.kernelVpt2s a' b' = s.kernelVpt2s a b →
    a' = a ∧ b' = b
  owner : ∀ t, IsTable pool t → ¬ IsFree s t → ∃ a b, a < 64 ∧ b < 512 ∧ s.kernelVpt2s a b = t
  zero : ∀ t, IsTable pool t → IsFree s t → ∀ c < 512, s.pageTables t c = 0
  entries : ∀ a b c, c < 512 → ¬ (a = 0 ∧ b = 0 ∧ c = 0) → entry s a b c ≠ 0 →
    ∃ ph, ph % 0x200000 = 0 ∧ entry s a b c = pageEntry ph

/-- `free_entrys_num` of a table is the number of its zero entries. -/
def Counted (s : State) (t : ℕ) : Prop :=
  s.freeEntrysNum (align2m t) (tableId t) = zeros 512 (s.pageTables t) ∧
    zeros 512 (s.pageTables t) ≤ 511

def Counts (pool : List ℕ) (s : State) : Prop :=
  ∀ t, IsTable pool t → ¬ IsFree s t → Counted s t

structure ListInv (pool : List ℕ) (s : State) : Prop where
  poolNodup : pool.Nodup
  nodup : s.freePtPages.Nodup
  mem : ∀ p, p ∈ s.freePtPages ↔ p ∈ pool ∧ s.freeIds p ≠ []

/-- `free_pts_num` is the number of free tables. -/
def NumOk (pool : List ℕ) (s : State) : Prop :=
  s.freePtsNum = (pool.map fun p => (s.freeIds p).length).sum

variable {L : Layout} {pool : List ℕ} {s s' : State} {a b c t p ph x w : ℕ}

theorem IsTable.eq (h : IsTable pool t) : t = align2m t + tableId t * 0x1000 := table_eq h.mod

theorem TableInv.ne_zero (hI : TableInv L pool s) (h : IsTable pool t) : t ≠ 0 := by
  rintro rfl
  exact hI.poolPos h.page

theorem isTable_add (hp : p ∈ pool) (hm : p % 0x200000 = 0) (hid : x < 510) :
    IsTable pool (p + x * 0x1000) where
  page := by rwa [align2m_add hm (by omega)]
  id := by rwa [tableId_add hm (by omega)]
  mod := by omega

/-- The table in a slot is `null_pt3` or a table of the pool. -/
theorem TableInv.slot_mod (hI : TableInv L pool s) (a b : ℕ) : s.kernelVpt2s a b % 0x1000 = 0 := by
  by_cases h0 : s.kernelVpt2s a b = 0
  · rw [h0]
  · by_cases hab : a = 0 ∧ b = 0
    · rw [hab.1, hab.2, hI.null.1]
      exact L.nullPt3_mod
    · exact (hI.used a b h0 hab).1.mod

/-- The two directories are empty together. -/
theorem TableInv.slot_iff (hI : TableInv L pool s) (a b : ℕ) :
    s.kernelPt2s a b = 0 ↔ s.kernelVpt2s a b = 0 := by
  refine ⟨fun hk => ?_, hI.unused a b⟩
  by_contra h0
  by_cases hab : a = 0 ∧ b = 0
  · rw [hab.1, hab.2, hI.null.2] at hk
    omega
  · have := (hI.used a b h0 hab).2.2
    omega

theorem TableInv.not_free (hI : TableInv L pool s) (h0 : s.kernelVpt2s a b ≠ 0)
    (ht : IsTable pool (s.kernelVpt2s a b)) : ¬ IsFree s (s.kernelVpt2s a b) := by
  by_cases hab : a = 0 ∧ b = 0
  · rw [hab.1, hab.2, hI.null.1] at ht
    exact absurd ht.page hI.nullOut
  · exact (hI.used a b h0 hab).2.1

theorem entry_of_zero (h : s.kernelVpt2s a b = 0) : entry s a b c = 0 := if_pos h

theorem entry_of_ne (h : s.kernelVpt2s a b ≠ 0) :
    entry s a b c = s.pageTables (s.kernelVpt2s a b) c := if_neg h

@[simp] theorem setEntry_kernelVpt2s : (setEntry s t c x).kernelVpt2s = s.kernelVpt2s := rfl

@[simp] theorem setEntry_pageTables :
    (setEntry s t c x).pageTables = set2 s.pageTables t c x := rfl

theorem sets_setEntry (hI : TableInv L pool s) (h0 : s.kernelVpt2s a b ≠ 0) :
    Sets s (setEntry s (s.kernelVpt2s a b) c x) a b c x := by
  intro a' b' c' _
  by_cases h1 : s.kernelVpt2s a' b' = 0
  · have hne : ¬ (a' = a ∧ b' = b ∧ c' = c) := by
      rintro ⟨rfl, rfl, -⟩
      exact h0 h1
    rw [if_neg hne, entry_of_zero h1, entry_of_zero (by simpa using h1)]
  · rw [entry_of_ne (by simpa using h1), entry_of_ne h1]
    by_cases hab : a' = a ∧ b' = b
    · obtain ⟨rfl, rfl⟩ := hab
      by_cases hc : c' = c
      · simp [hc]
      · simp [set2, hc]
    · have hne : s.kernelVpt2s a' b' ≠ s.kernelVpt2s a b := fun he => hab (hI.inj a b a' b' h0 he)
      have hne' : ¬ (a' = a ∧ b' = b ∧ c' = c) := fun h => hab ⟨h.1, h.2.1⟩
      rw [if_neg hne', setEntry_pageTables, setEntry_kernelVpt2s, set2_of_ne _ fun h => hne h.1]

theorem TableInv.setEntry (hI : TableInv L pool s) (h0 : s.kernelVpt2s a b ≠ 0)
    (hx : x = 0 ∨ ∃ ph, ph % 0x200000 = 0 ∧ x = pageEntry ph) :
    TableInv L pool (setEntry s (s.kernelVpt2s a b) c x) where
  poolMod := hI.poolMod
  phMod := hI.phMod
  nullPos := hI.nullPos
  nullOut := hI.nullOut
  poolPos := hI.poolPos
  null := hI.null
  idsNodup := hI.idsNodup
  idsLt := hI.idsLt
  used := hI.used
  unused := hI.unused
  inj := hI.inj
  owner := hI.owner
  zero t ht hf c' hc' := by
    have hne : t ≠ s.kernelVpt2s a b := by
      rintro rfl
      exact hI.not_free h0 ht hf
    have hz := hI.zero t ht hf c' hc'
    simpa [Mm.setEntry, set2_of_ne _ (fun h => hne h.1)] using hz
  entries a' b' c' hc' hn he := by
    have hs := sets_setEntry (c := c) (x := x) hI h0 a' b' c' hc'
    rw [hs] at he ⊢
    by_cases h : a' = a ∧ b' = b ∧ c' = c
    · rw [if_pos h] at he ⊢
      exact hx.resolve_left he
    · rw [if_neg h] at he ⊢
      exact hI.entries a' b' c' hc' hn he

theorem TableInv.congr (hI : TableInv L pool s) (ht : s'.pageTables = s.pageTables)
    (hp : s'.phAddr = s.phAddr) (hf : s'.freeIds = s.freeIds)
    (hv : s'.kernelVpt2s = s.kernelVpt2s) (hk : s'.kernelPt2s = s.kernelPt2s) :
    TableInv L pool s' := by
  obtain ⟨pt, pa, fi, fe, v2, p2, fl, fn, sp, spm, fp⟩ := s
  obtain ⟨pt', pa', fi', fe', v2', p2', fl', fn', sp', spm', fp'⟩ := s'
  simp only at ht hp hf hv hk
  subst ht hp hf hv hk
  exact ⟨hI.poolMod, hI.phMod, hI.nullPos, hI.nullOut, hI.poolPos, hI.null, hI.idsNodup, hI.idsLt,
    hI.used, hI.unused, hI.inj, hI.owner, hI.zero, hI.entries⟩

theorem newPt3_ok (h : newPt3 s a b = .ok (t, s')) : ∃ page rest id ids,
    s.freePtPages = page :: rest ∧ s.freeIds page = id :: ids ∧ t = page + id * 0x1000 ∧
      s' = { s with
        freeIds := update s.freeIds page ids
        freeEntrysNum := set2 s.freeEntrysNum page id 511
        kernelVpt2s := set2 s.kernelVpt2s a b t
        kernelPt2s := set2 s.kernelPt2s a b (t % 0x200000 + s.phAddr page + 3)
        freePtPages := if ids = [] then rest else s.freePtPages
        freePtsNum := s.freePtsNum - 1 } := by
  unfold newPt3 at h
  split at h
  · cases h
  · split at h
    · cases h
    · cases h
      exact ⟨_, _, _, _, by assumption, by assumption, rfl, rfl⟩

/-- What taking a table leaves: the table is in its slot, and no entry has changed. -/
structure Taken (L : Layout) (pool : List ℕ) (s s' : State) (a b t : ℕ) : Prop where
  inv : TableInv L pool s'
  table : IsTable pool t
  free : IsFree s t
  slot : s'.kernelVpt2s a b = t
  free_iff : ∀ t', IsTable pool t' → (IsFree s' t' ↔ IsFree s t' ∧ t' ≠ t)
  tables : s'.pageTables = s.pageTables
  same : ∀ a' b' c', c' < 512 → entry s' a' b' c' = entry s a' b' c'
  counter : s'.freeEntrysNum = set2 s.freeEntrysNum (align2m t) (tableId t) 511
  phAddr : s'.phAddr = s.phAddr
  sp : s'.ptPagesSp = s.ptPagesSp ∧ s'.ptPagesSpMin = s.ptPagesSpMin
  freePages : s'.freePages = s.freePages
  list : ListInv pool s'
  num : s'.freePtsNum = s.freePtsNum - 1
  sum : (pool.map fun p => (s'.freeIds p).length).sum + 1 =
    (pool.map fun p => (s.freeIds p).length).sum

theorem ListInv.pop {page id : ℕ} {rest ids : List ℕ} (hL : ListInv pool s)
    (hp : s.freePtPages = page :: rest) (hids : s.freeIds page = id :: ids) :
    ListInv pool { s with
      freeIds := update s.freeIds page ids
      freePtPages := if ids = [] then rest else s.freePtPages } where
  poolNodup := hL.poolNodup
  nodup := by
    have hn := hL.nodup
    rw [hp] at hn ⊢
    split
    · exact (List.nodup_cons.mp hn).2
    · exact hn
  mem p := by
    have hn := hL.nodup
    have hm := hL.mem p
    rw [hp] at hn hm
    have hnot := (List.nodup_cons.mp hn).1
    by_cases hpp : p = page
    · subst hpp
      by_cases h : ids = []
      · simpa [h] using hnot
      · have hin := hm.mp (by simp)
        simp [h, hp, hin.1]
    · by_cases h : ids = []
      · simpa [h, hpp] using hm
      · simpa [h, hp, hpp] using hm

theorem freeIds_pop {page id : ℕ} {ids : List ℕ} (hids : s.freeIds page = id :: ids) (p : ℕ) :
    (update s.freeIds page ids p).Sublist (s.freeIds p) := by
  by_cases hp : p = page
  · subst hp
    rw [update_self, hids]
    exact List.sublist_cons_self id ids
  · rw [update_of_ne hp]

theorem sum_freeIds {page : ℕ} (s : State) (ids : List ℕ) (hn : pool.Nodup) (hp : page ∈ pool) :
    (pool.map fun p => (update s.freeIds page ids p).length).sum + (s.freeIds page).length =
      (pool.map fun p => (s.freeIds p).length).sum + ids.length := by
  have hmap : (fun p => (update s.freeIds page ids p).length) =
      update (fun p => (s.freeIds p).length) page ids.length := by
    funext p
    by_cases hpp : p = page
    · subst hpp
      simp
    · simp [update_of_ne hpp]
  rw [hmap]
  exact sum_map_update (fun p => (s.freeIds p).length) ids.length hn hp

/-- The table whose id is taken off the list is the one that is free no more. -/
theorem isFree_pop {t' : ℕ} {ids : List ℕ} (ht : IsTable pool t) (ht' : IsTable pool t')
    (hids : s.freeIds (align2m t) = tableId t :: ids) (hnot : tableId t ∉ ids) :
    tableId t' ∈ update s.freeIds (align2m t) ids (align2m t') ↔ IsFree s t' ∧ t' ≠ t := by
  unfold IsFree
  by_cases hp : align2m t' = align2m t
  · have hiff : t' ≠ t ↔ tableId t' ≠ tableId t :=
      not_congr ⟨fun he => he ▸ rfl, fun he => table_ext ht'.mod ht.mod hp he⟩
    rw [hiff, hp]
    simp only [update_self, hids, List.mem_cons]
    constructor
    · intro hm
      exact ⟨Or.inr hm, fun he => hnot (he ▸ hm)⟩
    · rintro ⟨hm | hm, he⟩
      · exact absurd hm he
      · exact hm
  · have hne : t' ≠ t := fun he => hp (he ▸ rfl)
    simp [update_of_ne hp, hne]

theorem TableInv.newPt3 (hI : TableInv L pool s) (hL : ListInv pool s)
    (h : newPt3 s a b = .ok (t, s')) (h0 : s.kernelVpt2s a b = 0) (ha : a < 64) (hb : b < 512) :
    Taken L pool s s' a b t := by
  obtain ⟨page, rest, id, ids, hlist, hids, htt, hs'⟩ := newPt3_ok h
  have hpage : page ∈ pool := ((hL.mem page).mp (by rw [hlist]; simp)).1
  have hmod := hI.poolMod page hpage
  have hid : id < 510 := hI.idsLt page hpage id (by simp [hids])
  have hnd := hI.idsNodup page hpage
  rw [hids] at hnd
  have hnot : id ∉ ids := (List.nodup_cons.mp hnd).1
  have htab : IsTable pool t := htt ▸ isTable_add hpage hmod hid
  have hal : align2m t = page := htt ▸ align2m_add hmod (by omega)
  have htid : tableId t = id := htt ▸ tableId_add hmod (by omega)
  have hfree : IsFree s t := by
    unfold IsFree
    simp [hal, htid, hids]
  have ht0 : t ≠ 0 := hI.ne_zero htab
  have hvpt : ∀ a' b', ¬ (a' = a ∧ b' = b) → s'.kernelVpt2s a' b' = s.kernelVpt2s a' b' := by
    intro a' b' hne
    rw [hs']
    exact set2_of_ne _ hne
  have hslot : s'.kernelVpt2s a b = t := by
    rw [hs']
    exact set2_self _ _ _ _
  have hne : ∀ a' b', s.kernelVpt2s a' b' ≠ t := fun a' b' he =>
    hI.not_free (he ▸ ht0) (he ▸ htab) (he ▸ hfree)
  have hfi : ∀ t', IsTable pool t' → (IsFree s' t' ↔ IsFree s t' ∧ t' ≠ t) := by
    intro t' ht'
    rw [IsFree, hs', ← hal]
    exact isFree_pop htab ht' (by rw [hal, htid, hids]) (by rwa [htid])
  have hent : ∀ a' b' c', c' < 512 → entry s' a' b' c' = entry s a' b' c' := by
    intro a' b' c' hc'
    by_cases hab : a' = a ∧ b' = b
    · obtain ⟨rfl, rfl⟩ := hab
      rw [entry_of_zero h0, entry_of_ne (by rwa [hslot]), hslot, hs']
      exact hI.zero t htab hfree c' hc'
    · unfold entry
      rw [hvpt a' b' hab, hs']
  refine
    { table := htab, free := hfree, slot := hslot, free_iff := hfi, same := hent
      inv := ?_, tables := by rw [hs'], counter := by rw [hs', hal, htid]
      phAddr := by rw [hs'], sp := by rw [hs']; exact ⟨rfl, rfl⟩, freePages := by rw [hs']
      list := ?_, num := by rw [hs'], sum := ?_ }
  · refine
      { poolMod := hI.poolMod, phMod := by rw [hs']; exact hI.phMod, nullPos := hI.nullPos
        nullOut := hI.nullOut, poolPos := hI.poolPos, null := ?_, idsNodup := ?_, idsLt := ?_
        used := ?_, unused := ?_, inj := ?_, owner := ?_, zero := ?_, entries := ?_ }
    · have hab : ¬ (0 = a ∧ 0 = b) := by
        rintro ⟨rfl, rfl⟩
        exact hI.nullPos (hI.null.1.symm.trans h0)
      rw [hs']
      simpa [set2, hab] using hI.null
    · intro p hp
      rw [hs']
      exact (hI.idsNodup p hp).sublist (freeIds_pop hids p)
    · intro p hp i hi
      rw [hs'] at hi
      exact hI.idsLt p hp i ((freeIds_pop hids p).subset hi)
    · intro a' b' hn hab'
      by_cases hab : a' = a ∧ b' = b
      · obtain ⟨rfl, rfl⟩ := hab
        rw [hslot]
        refine ⟨htab, fun hf => ((hfi t htab).mp hf).2 rfl, ?_⟩
        rw [hs']
        simp [phys, hal]
      · rw [hvpt a' b' hab] at hn ⊢
        obtain ⟨h1, h2, h3⟩ := hI.used a' b' hn hab'
        refine ⟨h1, fun hf => h2 ((hfi _ h1).mp hf).1, ?_⟩
        rw [hs']
        simpa [set2_of_ne _ hab, phys] using h3
    · intro a' b' hz
      by_cases hab : a' = a ∧ b' = b
      · obtain ⟨rfl, rfl⟩ := hab
        exact absurd (hslot.symm.trans hz) ht0
      · rw [hvpt a' b' hab] at hz
        rw [hs']
        simpa [set2_of_ne _ hab] using hI.unused a' b' hz
    · intro a₁ b₁ a₂ b₂ hn he
      by_cases h1 : a₁ = a ∧ b₁ = b
      · by_cases h2 : a₂ = a ∧ b₂ = b
        · exact ⟨h2.1.trans h1.1.symm, h2.2.trans h1.2.symm⟩
        · rw [h1.1, h1.2, hslot, hvpt _ _ h2] at he
          exact absurd he (hne a₂ b₂)
      · by_cases h2 : a₂ = a ∧ b₂ = b
        · rw [h2.1, h2.2, hslot, hvpt _ _ h1] at he
          exact absurd he.symm (hne a₁ b₁)
        · rw [hvpt _ _ h1] at hn he
          rw [hvpt _ _ h2] at he
          exact hI.inj a₁ b₁ a₂ b₂ hn he
    · intro t' ht' hf
      by_cases he : t' = t
      · exact ⟨a, b, ha, hb, he ▸ hslot⟩
      · obtain ⟨a', b', ha', hb', hv⟩ :=
          hI.owner t' ht' fun hf' => hf ((hfi t' ht').mpr ⟨hf', he⟩)
        have hab : ¬ (a' = a ∧ b' = b) := by
          rintro ⟨rfl, rfl⟩
          exact hI.ne_zero ht' (hv.symm.trans h0)
        exact ⟨a', b', ha', hb', (hvpt a' b' hab).trans hv⟩
    · intro t' ht' hf c' hc'
      rw [hs']
      exact hI.zero t' ht' ((hfi t' ht').mp hf).1 c' hc'
    · intro a' b' c' hc' hn he
      rw [hent a' b' c' hc'] at he ⊢
      exact hI.entries a' b' c' hc' hn he
  · rw [hs']
    exact ⟨(hL.pop hlist hids).poolNodup, (hL.pop hlist hids).nodup, (hL.pop hlist hids).mem⟩
  · have hsum := sum_freeIds s ids hL.poolNodup hpage
    rw [hids, List.length_cons] at hsum
    rw [hs']
    dsimp only
    omega

/-- What `pt_inc_free_entrys_num_and_free_pt` and its caller do with an empty table. -/
def freePt (s : State) (a b t : ℕ) : State :=
  { s with
    freeIds := update s.freeIds (align2m t) (tableId t :: s.freeIds (align2m t))
    freePtPages :=
      if s.freeIds (align2m t) = [] then align2m t :: s.freePtPages else s.freePtPages
    freePtsNum := s.freePtsNum + 1
    kernelVpt2s := set2 s.kernelVpt2s a b 0
    kernelPt2s := set2 s.kernelPt2s a b 0 }

theorem ListInv.push (hL : ListInv pool s) (hp : align2m t ∈ pool) (a b : ℕ) :
    ListInv pool (freePt s a b t) where
  poolNodup := hL.poolNodup
  nodup := by
    unfold freePt
    by_cases h : s.freeIds (align2m t) = []
    · have hnot : align2m t ∉ s.freePtPages := fun hm => ((hL.mem _).mp hm).2 h
      simpa [h] using ⟨hnot, hL.nodup⟩
    · simpa [h] using hL.nodup
  mem p := by
    have hm := hL.mem p
    unfold freePt
    by_cases hpp : p = align2m t
    · subst hpp
      by_cases h : s.freeIds (align2m t) = []
      · simp [h, hp]
      · simp [h, hp, hm]
    · by_cases h : s.freeIds (align2m t) = []
      · simp [h, hpp, hm]
      · simp [h, hpp, hm]

structure Released (L : Layout) (pool : List ℕ) (s s' : State) (t : ℕ) : Prop where
  inv : TableInv L pool s'
  free_iff : ∀ t', IsTable pool t' → (IsFree s' t' ↔ IsFree s t' ∨ t' = t)
  same : ∀ a' b' c', c' < 512 → entry s' a' b' c' = entry s a' b' c'
  list : ListInv pool s'
  sum : (pool.map fun p => (s'.freeIds p).length).sum =
    (pool.map fun p => (s.freeIds p).length).sum + 1

theorem TableInv.freePt (hI : TableInv L pool s) (hL : ListInv pool s)
    (ht : s.kernelVpt2s a b = t) (h0 : t ≠ 0) (hab : ¬ (a = 0 ∧ b = 0))
    (hz : ∀ c < 512, s.pageTables t c = 0) : Released L pool s (freePt s a b t) t := by
  obtain ⟨htab, hnf, -⟩ := hI.used a b (ht ▸ h0) hab
  rw [ht] at htab hnf
  have hpage := htab.page
  have hvpt : ∀ a' b', ¬ (a' = a ∧ b' = b) →
      (Mm.freePt s a b t).kernelVpt2s a' b' = s.kernelVpt2s a' b' := fun a' b' hne =>
    set2_of_ne _ hne
  have hslot : (Mm.freePt s a b t).kernelVpt2s a b = 0 := set2_self _ _ _ _
  have hfi : ∀ t', IsTable pool t' → (IsFree (Mm.freePt s a b t) t' ↔ IsFree s t' ∨ t' = t) := by
    intro t' ht'
    unfold IsFree Mm.freePt
    by_cases hp : align2m t' = align2m t
    · have hiff : t' = t ↔ tableId t' = tableId t :=
        ⟨fun he => he ▸ rfl, fun he => table_ext ht'.mod htab.mod hp he⟩
      simp [hp, hiff, or_comm]
    · have hne : t' ≠ t := fun he => hp (he ▸ rfl)
      simp [update_of_ne hp, hne]
  have hent : ∀ a' b' c', c' < 512 → entry (Mm.freePt s a b t) a' b' c' = entry s a' b' c' := by
    intro a' b' c' hc'
    by_cases h : a' = a ∧ b' = b
    · obtain ⟨rfl, rfl⟩ := h
      rw [entry_of_zero hslot, entry_of_ne (ht ▸ h0), ht, hz c' hc']
    · unfold entry
      rw [hvpt a' b' h]
      rfl
  refine ⟨?_, hfi, hent, hL.push hpage a b, ?_⟩
  · refine
      { poolMod := hI.poolMod, phMod := hI.phMod, nullPos := hI.nullPos
        nullOut := hI.nullOut, poolPos := hI.poolPos, null := ?_, idsNodup := ?_, idsLt := ?_
        used := ?_, unused := ?_, inj := ?_, owner := ?_, zero := ?_, entries := ?_ }
    · have hne : ¬ (0 = a ∧ 0 = b) := fun h => hab ⟨h.1.symm, h.2.symm⟩
      exact ⟨(hvpt 0 0 hne).trans hI.null.1, (set2_of_ne _ hne).trans hI.null.2⟩
    · intro p hp
      unfold Mm.freePt
      by_cases hpp : p = align2m t
      · subst hpp
        simpa [IsFree] using ⟨hnf, hI.idsNodup _ hp⟩
      · simpa [update_of_ne hpp] using hI.idsNodup p hp
    · intro p hp i hi
      unfold Mm.freePt at hi
      by_cases hpp : p = align2m t
      · subst hpp
        rcases List.mem_cons.mp (by simpa using hi) with rfl | hi
        · exact htab.id
        · exact hI.idsLt _ hp i hi
      · exact hI.idsLt p hp i (by simpa [update_of_ne hpp] using hi)
    · intro a' b' hn hab'
      by_cases h : a' = a ∧ b' = b
      · obtain ⟨rfl, rfl⟩ := h
        exact absurd hslot hn
      · rw [hvpt a' b' h] at hn ⊢
        obtain ⟨h1, h2, h3⟩ := hI.used a' b' hn hab'
        have hne : s.kernelVpt2s a' b' ≠ t := fun he =>
          h (hI.inj a b a' b' (ht ▸ h0) (he.trans ht.symm))
        exact ⟨h1, fun hf => ((hfi _ h1).mp hf).elim h2 hne, (set2_of_ne _ h).trans h3⟩
    · intro a' b' hz'
      by_cases h : a' = a ∧ b' = b
      · rw [h.1, h.2]
        exact set2_self _ _ _ _
      · rw [hvpt a' b' h] at hz'
        exact (set2_of_ne _ h).trans (hI.unused a' b' hz')
    · intro a₁ b₁ a₂ b₂ hn he
      have h1 : ¬ (a₁ = a ∧ b₁ = b) := by
        rintro ⟨rfl, rfl⟩
        exact hn hslot
      have h2 : ¬ (a₂ = a ∧ b₂ = b) := by
        rintro ⟨rfl, rfl⟩
        exact hn (he.symm.trans hslot)
      rw [hvpt _ _ h1] at hn he
      rw [hvpt _ _ h2] at he
      exact hI.inj a₁ b₁ a₂ b₂ hn he
    · intro t' ht' hf
      have hf' : ¬ (IsFree s t' ∨ t' = t) := fun h => hf ((hfi t' ht').mpr h)
      obtain ⟨a', b', ha', hb', hv⟩ := hI.owner t' ht' fun h => hf' (Or.inl h)
      have h : ¬ (a' = a ∧ b' = b) := by
        rintro ⟨rfl, rfl⟩
        exact hf' (Or.inr (hv.symm.trans ht))
      exact ⟨a', b', ha', hb', (hvpt a' b' h).trans hv⟩
    · intro t' ht' hf c' hc'
      rcases (hfi t' ht').mp hf with hf | rfl
      · exact hI.zero t' ht' hf c' hc'
      · exact hz c' hc'
    · intro a' b' c' hc' hn he
      rw [hent a' b' c' hc'] at he ⊢
      exact hI.entries a' b' c' hc' hn he
  · have hsum := sum_freeIds s (tableId t :: s.freeIds (align2m t)) hL.poolNodup hpage
    rw [List.length_cons] at hsum
    unfold Mm.freePt
    dsimp only
    omega

/-- The state after `init_pt_page` and `DL_APPEND`. -/
def joinPool (s : State) (w ph : ℕ) : State :=
  { initPtPage s w ph with
    freePtPages := s.freePtPages ++ [w]
    freePtsNum := s.freePtsNum + 510 }

theorem ListInv.append (hL : ListInv pool s) (hw : w ∉ pool) (ph : ℕ) :
    ListInv (w :: pool) (joinPool s w ph) where
  poolNodup := List.nodup_cons.mpr ⟨hw, hL.poolNodup⟩
  nodup := by
    have hnot : w ∉ s.freePtPages := fun hm => hw ((hL.mem w).mp hm).1
    exact hL.nodup.append (List.nodup_singleton w) (List.disjoint_singleton.mpr hnot)
  mem p := by
    have hm := hL.mem p
    have hne : List.range 510 ≠ [] := by simp
    by_cases hpw : p = w
    · subst hpw
      simp [joinPool, initPtPage]
    · simp [joinPool, initPtPage, hpw, hm]

structure Joined (L : Layout) (pool : List ℕ) (s s' : State) (w : ℕ) : Prop where
  inv : TableInv L (w :: pool) s'
  same : ∀ a' b' c', entry s' a' b' c' = entry s a' b' c'
  table_old : ∀ t, IsTable (w :: pool) t → ¬ IsFree s' t → IsTable pool t ∧ ¬ IsFree s t
  tables_old : ∀ t, IsTable pool t → s'.pageTables t = s.pageTables t
  list : ListInv (w :: pool) s'
  sum : ((w :: pool).map fun p => (s'.freeIds p).length).sum =
    (pool.map fun p => (s.freeIds p).length).sum + 510

theorem TableInv.joinPool (hI : TableInv L pool s) (hL : ListInv pool s) (hw : w ∉ pool)
    (hwm : w % 0x200000 = 0) (hw0 : w ≠ 0) (hph : ph % 0x200000 = 0)
    (hnull : w ≠ align2m L.nullPt3) :
    Joined L pool s (joinPool s w ph) w := by
  have hne : ∀ p ∈ pool, p ≠ w := fun p hp he => hw (he ▸ hp)
  have hids : ∀ p, p ≠ w → (Mm.joinPool s w ph).freeIds p = s.freeIds p := fun p hp =>
    update_of_ne hp _ _
  have hpa : ∀ p, p ≠ w → (Mm.joinPool s w ph).phAddr p = s.phAddr p := fun p hp =>
    update_of_ne hp _ _
  have hpt : ∀ t, align2m t ≠ w → (Mm.joinPool s w ph).pageTables t = s.pageTables t := by
    intro t ht
    funext c
    simp [Mm.joinPool, initPtPage, ht]
  have htab : ∀ t, IsTable pool t → IsTable (w :: pool) t := fun t ht =>
    ⟨List.mem_cons_of_mem w ht.page, ht.id, ht.mod⟩
  have hfree : ∀ t, align2m t ≠ w → (IsFree (Mm.joinPool s w ph) t ↔ IsFree s t) := by
    intro t ht
    unfold IsFree
    rw [hids _ ht]
  have hnew : ∀ t, IsTable (w :: pool) t → align2m t = w → IsFree (Mm.joinPool s w ph) t := by
    intro t ht he
    unfold IsFree
    rw [he]
    simpa [Mm.joinPool, initPtPage] using ht.id
  have hold : ∀ t, IsTable (w :: pool) t → align2m t ≠ w → IsTable pool t := fun t ht he =>
    ⟨(List.mem_cons.mp ht.page).resolve_left he, ht.id, ht.mod⟩
  have hslot : ∀ a b, s.kernelVpt2s a b ≠ 0 → align2m (s.kernelVpt2s a b) ≠ w := by
    intro a b h0
    by_cases hab : a = 0 ∧ b = 0
    · rw [hab.1, hab.2, hI.null.1]
      exact Ne.symm hnull
    · exact hne _ (hI.used a b h0 hab).1.page
  have hent : ∀ a' b' c', entry (Mm.joinPool s w ph) a' b' c' = entry s a' b' c' := by
    intro a' b' c'
    by_cases h0 : s.kernelVpt2s a' b' = 0
    · exact (entry_of_zero (s := Mm.joinPool s w ph) h0).trans (entry_of_zero h0).symm
    · exact (entry_of_ne (s := Mm.joinPool s w ph) h0).trans
        ((congrFun (hpt _ (hslot a' b' h0)) c').trans (entry_of_ne h0).symm)
  refine ⟨?_, hent, ?_, fun t ht => hpt t (hne _ ht.page), hL.append hw ph, ?_⟩
  · refine
      { poolMod := ?_, phMod := ?_, nullPos := hI.nullPos
        nullOut := ?_, poolPos := ?_, null := hI.null, idsNodup := ?_, idsLt := ?_
        used := ?_, unused := hI.unused, inj := hI.inj, owner := ?_, zero := ?_
        entries := ?_ }
    · rintro p hp
      rcases List.mem_cons.mp hp with rfl | hp
      · exact hwm
      · exact hI.poolMod p hp
    · rintro p hp
      rcases List.mem_cons.mp hp with rfl | hp
      · simpa [Mm.joinPool, initPtPage] using hph
      · rw [hpa p (hne p hp)]
        exact hI.phMod p hp
    · simpa using ⟨Ne.symm hnull, hI.nullOut⟩
    · simpa using ⟨Ne.symm hw0, hI.poolPos⟩
    · rintro p hp
      rcases List.mem_cons.mp hp with rfl | hp
      · simpa [Mm.joinPool, initPtPage] using List.nodup_range
      · rw [hids p (hne p hp)]
        exact hI.idsNodup p hp
    · rintro p hp i hi
      rcases List.mem_cons.mp hp with rfl | hp
      · simpa [Mm.joinPool, initPtPage] using hi
      · rw [hids p (hne p hp)] at hi
        exact hI.idsLt p hp i hi
    · intro a b h0 hab
      obtain ⟨h1, h2, h3⟩ := hI.used a b h0 hab
      have hp := hne _ h1.page
      refine ⟨htab _ h1, fun hf => h2 ((hfree _ hp).mp hf), ?_⟩
      have hphys : phys (Mm.joinPool s w ph) (s.kernelVpt2s a b) = phys s (s.kernelVpt2s a b) := by
        rw [phys, phys, hpa _ hp]
      exact h3.trans (congrArg (· + 3) hphys.symm)
    · intro t ht hf
      have he : align2m t ≠ w := fun he => hf (hnew t ht he)
      exact hI.owner t (hold t ht he) fun h => hf ((hfree t he).mpr h)
    · intro t ht hf c hc
      by_cases he : align2m t = w
      · simp [Mm.joinPool, initPtPage, he, ht.id]
      · rw [hpt t he]
        exact hI.zero t (hold t ht he) ((hfree t he).mp hf) c hc
    · intro a b c hc hn he
      rw [hent] at he ⊢
      exact hI.entries a b c hc hn he
  · intro t ht hf
    have he : align2m t ≠ w := fun he => hf (hnew t ht he)
    exact ⟨hold t ht he, fun h => hf ((hfree t he).mpr h)⟩
  · have hmap : pool.map (fun p => ((Mm.joinPool s w ph).freeIds p).length)
        = pool.map fun p => (s.freeIds p).length :=
      List.map_congr_left fun p hp => by rw [hids p (hne p hp)]
    rw [List.map_cons, List.sum_cons, hmap]
    simp [Mm.joinPool, initPtPage, Nat.add_comm]

end MyosIo.Mm
