import MyosIo.Mm.Mapping
import Mathlib.Data.Nat.ModEq

/-! Every operation on the page tables stays inside the pool, but for a page of the first
gibibyte: that goes through `null_pt3`, which is no table of the pool, and the counter that the
masked address of `null_pt3` names lies in the kernel image. An operation comes back when a table
is left and the page it maps is empty. -/
namespace MyosIo.Mm

open Function

variable {L : Layout} {pool pool' : List ℕ} {ram s s' s₁ : State} {a b c n t v w p ph q x : ℕ}

/-- The two states agree outside the pages of `pool`. -/
structure Local (pool : List ℕ) (s s' : State) : Prop where
  freeEntrysNum : ∀ p, p ∉ pool → s'.freeEntrysNum p = s.freeEntrysNum p
  freeIds : ∀ p, p ∉ pool → s'.freeIds p = s.freeIds p
  phAddr : ∀ p, p ∉ pool → s'.phAddr p = s.phAddr p
  pageTables : ∀ t, align2m t ∉ pool → s'.pageTables t = s.pageTables t

theorem Local.refl (pool : List ℕ) (s : State) : Local pool s s :=
  ⟨fun _ _ => rfl, fun _ _ => rfl, fun _ _ => rfl, fun _ _ => rfl⟩

theorem Local.trans (h : Local pool s s₁) (h' : Local pool s₁ s') : Local pool s s' where
  freeEntrysNum p hp := (h'.freeEntrysNum p hp).trans (h.freeEntrysNum p hp)
  freeIds p hp := (h'.freeIds p hp).trans (h.freeIds p hp)
  phAddr p hp := (h'.phAddr p hp).trans (h.phAddr p hp)
  pageTables t ht := (h'.pageTables t ht).trans (h.pageTables t ht)

theorem Local.mono (h : Local pool s s') (hsub : ∀ p ∈ pool, p ∈ pool') : Local pool' s s' where
  freeEntrysNum p hp := h.freeEntrysNum p fun hm => hp (hsub p hm)
  freeIds p hp := h.freeIds p fun hm => hp (hsub p hm)
  phAddr p hp := h.phAddr p fun hm => hp (hsub p hm)
  pageTables t ht := h.pageTables t fun hm => ht (hsub _ hm)

/-- A store to another row. -/
theorem set2_row {α : Type*} (f : ℕ → ℕ → α) (x : α) (h : p ≠ a) : set2 f a b x p = f p := by
  funext i
  exact set2_of_ne x fun he => h he.1

theorem local_setEntry (ht : align2m t ∈ pool) : Local pool s (setEntry s t c x) where
  freeEntrysNum _ _ := rfl
  freeIds _ _ := rfl
  phAddr _ _ := rfl
  pageTables _ ht' := set2_row _ _ fun he => ht' (he ▸ ht)

theorem local_dec (ht : align2m t ∈ pool) : Local pool s (ptDecFreeEntrysNum s t) where
  freeEntrysNum _ hp := set2_row _ _ fun he => hp (he ▸ ht)
  freeIds _ _ := rfl
  phAddr _ _ := rfl
  pageTables _ _ := rfl

theorem local_initPtPage (hw : w ∈ pool) : Local pool s (initPtPage s w ph) where
  freeEntrysNum _ _ := rfl
  freeIds p hp := update_of_ne (ne_of_mem_of_not_mem hw hp).symm _ _
  phAddr p hp := update_of_ne (ne_of_mem_of_not_mem hw hp).symm _ _
  pageTables t ht := by
    have hne : align2m t ≠ w := fun he => ht (he ▸ hw)
    funext i
    simp [initPtPage, hne]

theorem PtInv.local_newPt3 (hI : PtInv L pool s) (h : newPt3 s a b = .ok (t, s')) :
    Local pool s s' ∧ align2m t ∈ pool := by
  obtain ⟨page, rest, id, ids, hlist, hids, rfl, rfl⟩ := newPt3_ok h
  have hpage : page ∈ pool := ((hI.list.mem page).mp (by simp [hlist])).1
  have hid := hI.tables.idsLt page hpage id (by simp [hids])
  refine ⟨⟨fun p hp => set2_row _ _ fun he => hp (he ▸ hpage),
    fun p hp => update_of_ne (ne_of_mem_of_not_mem hpage hp).symm _ _, fun _ _ => rfl,
    fun _ _ => rfl⟩, ?_⟩
  rwa [align2m_add (hI.tables.poolMod page hpage) (by omega)]

/-- Above the first gibibyte the directory leads into the pool. -/
theorem TableInv.slot_in (hI : TableInv L pool s) (h0 : s.kernelVpt2s a b ≠ 0)
    (hab : ¬ (a = 0 ∧ b = 0)) : align2m (s.kernelVpt2s a b) ∈ pool := (hI.used a b h0 hab).1.page

theorem PtInv.local_mapOld (hI : PtInv L pool s) (h0 : s.kernelVpt2s a b ≠ 0)
    (hab : ¬ (a = 0 ∧ b = 0)) : Local pool s (setEntry
      (ptDecFreeEntrysNum s (s.kernelVpt2s a b)) (s.kernelVpt2s a b) c x) := by
  have hin := hI.tables.slot_in h0 hab
  exact (local_dec hin).trans (local_setEntry hin)

theorem PtInv.local_mapNew (hI : PtInv L pool s) (h : newPt3 s a b = .ok (t, s')) :
    Local pool s (setEntry s' t c x) := by
  obtain ⟨hl, ht⟩ := hI.local_newPt3 h
  exact hl.trans (local_setEntry ht)

theorem PtInv.local_unmap (hI : PtInv L pool s) (h : ptUnmap s v = .ok (ph, s'))
    (hv : ¬ (i1 v = 0 ∧ i2 v = 0)) : Local pool s s' := by
  obtain ⟨-, -, h0, n, s₁, -, hs₁, hcase⟩ := ptUnmap_ok h
  have hin := hI.tables.slot_in h0 hv
  generalize s.kernelVpt2s (i1 v) (i2 v) = t at hin hs₁ hcase
  have hl : Local pool s s₁ := by
    rw [hs₁]
    exact ⟨fun p hp => set2_row _ _ fun he => hp (he ▸ hin), fun _ _ => rfl, fun _ _ => rfl,
      (local_setEntry hin).pageTables⟩
  rcases hcase with ⟨-, rfl⟩ | ⟨-, rfl⟩
  · exact hl
  · exact ⟨hl.freeEntrysNum, fun p hp => (update_of_ne (ne_of_mem_of_not_mem hin hp).symm _ _).trans
      (hl.freeIds p hp), hl.phAddr, hl.pageTables⟩

/-- The counter that the masked address of `null_pt3` names. -/
def nullCounter (L : Layout) (s : State) : ℕ :=
  s.freeEntrysNum (align2m L.nullPt3) (tableId L.nullPt3)

def nullZeros (L : Layout) (s : State) : ℕ := zeros 512 (s.pageTables L.nullPt3)

/-- Outside the pool memory is as `ram` has it, but for `null_pt3`, of which at most `n` entries
are empty, and for one counter, which lost one for each entry of `null_pt3` that was filled. -/
structure Image (L : Layout) (pool : List ℕ) (ram : State) (n : ℕ) (s : State) : Prop where
  freeEntrysNum : ∀ p, p ∉ pool → ∀ id, ¬ (p = align2m L.nullPt3 ∧ id = tableId L.nullPt3) →
    s.freeEntrysNum p id = ram.freeEntrysNum p id
  freeIds : ∀ p, p ∉ pool → s.freeIds p = ram.freeIds p
  phAddr : ∀ p, p ∉ pool → s.phAddr p = ram.phAddr p
  pageTables : ∀ t, align2m t ∉ pool → t ≠ L.nullPt3 → s.pageTables t = ram.pageTables t
  spent : nullCounter L s + 504 ≡ nullCounter L ram + nullZeros L s [MOD 0x10000]
  bound : nullZeros L s ≤ n
  still : 0x40000000 ≤ L.kernelAlign2m → nullCounter L s = nullCounter L ram

theorem Image.of_local (hm : Image L pool ram n s) (hl : Local pool' s s')
    (hsub : ∀ p ∈ pool, p ∈ pool') (hn : align2m L.nullPt3 ∉ pool') : Image L pool' ram n s' := by
  have hout : ∀ p, p ∉ pool' → p ∉ pool := fun p hp h => hp (hsub p h)
  have hc : nullCounter L s' = nullCounter L s := congrFun (hl.freeEntrysNum _ hn) _
  have hz : nullZeros L s' = nullZeros L s := by rw [nullZeros, hl.pageTables _ hn, nullZeros]
  refine
    { freeEntrysNum := fun p hp id hid => ?_
      freeIds := fun p hp => (hl.freeIds p hp).trans (hm.freeIds p (hout p hp))
      phAddr := fun p hp => (hl.phAddr p hp).trans (hm.phAddr p (hout p hp))
      pageTables := fun t ht ht' => (hl.pageTables t ht).trans (hm.pageTables t (hout _ ht) ht')
      spent := by rw [hc, hz]; exact hm.spent
      bound := by rw [hz]; exact hm.bound
      still := fun hh => hc.trans (hm.still hh) }
  rw [hl.freeEntrysNum p hp]
  exact hm.freeEntrysNum p (hout p hp) id hid

/-- An entry of `null_pt3` is filled, and the counter in the kernel image pays for it. -/
theorem Image.mapNull (hm : Image L pool ram n s) (hc : c < 512) (hx : x ≠ 0)
    (he : s.pageTables L.nullPt3 c = 0) (hlow : L.kernelAlign2m < 0x40000000) :
    Image L pool ram (n - 1)
      (setEntry (ptDecFreeEntrysNum s L.nullPt3) L.nullPt3 c x) := by
  have hz : zeros 512 (set2 s.pageTables L.nullPt3 c x L.nullPt3) + 1 =
      zeros 512 (s.pageTables L.nullPt3) := by
    refine zeros_set hc he ?_ fun i hi => set2_of_ne _ fun h => hi h.2
    rwa [set2_self]
  have hb := hm.bound
  have hs := hm.spent
  refine
    { freeEntrysNum := fun p hp id hid => (set2_of_ne _ hid).trans (hm.freeEntrysNum p hp id hid)
      freeIds := hm.freeIds, phAddr := hm.phAddr
      pageTables := fun t ht ht' => (set2_row _ _ ht').trans (hm.pageTables t ht ht')
      spent := ?_, bound := ?_, still := fun hh => by omega }
  · unfold nullCounter nullZeros at hs ⊢
    simp only [setEntry, ptDecFreeEntrysNum, set2_self]
    unfold Nat.ModEq at hs ⊢
    omega
  · unfold nullZeros at hb ⊢
    simp only [setEntry, ptDecFreeEntrysNum]
    omega

theorem Image.weaken (hm : Image L pool ram n s) (h : n ≤ q) : Image L pool ram q s :=
  { hm with bound := hm.bound.trans h }

/-- A page is mapped through a table that is there. -/
theorem Image.mapOld (hm : Image L pool ram n s) (hI : PtInv L pool s)
    (h0 : s.kernelVpt2s (i1 v) (i2 v) ≠ 0)
    (he : s.pageTables (s.kernelVpt2s (i1 v) (i2 v)) (i3 v) = 0) (hph : ph % 0x200000 = 0)
    (hhigh : 0x40000000 ≤ L.kernelAlign2m → 0x40000000 ≤ v) (hv : v < 2 ^ 45) :
    Image L pool ram n (setEntry (ptDecFreeEntrysNum s (s.kernelVpt2s (i1 v) (i2 v)))
      (s.kernelVpt2s (i1 v) (i2 v)) (i3 v) (pageEntry ph)) := by
  by_cases hab : i1 v = 0 ∧ i2 v = 0
  · rw [hab.1, hab.2, hI.tables.null.1] at he ⊢
    have hlow : L.kernelAlign2m < 0x40000000 := by
      unfold i1 i2 at hab
      omega
    exact (hm.mapNull (i3_lt v) (pageEntry_ne_zero hph) he hlow).weaken (Nat.sub_le n 1)
  · exact hm.of_local (hI.local_mapOld h0 hab) (fun _ => id) hI.tables.nullOut

theorem Image.congr (hm : Image L pool ram n s) (ht : s'.pageTables = s.pageTables)
    (hp : s'.phAddr = s.phAddr) (hf : s'.freeIds = s.freeIds)
    (hc : s'.freeEntrysNum = s.freeEntrysNum) : Image L pool ram n s' :=
  ⟨hc ▸ hm.freeEntrysNum, hf ▸ hm.freeIds, hp ▸ hm.phAddr, ht ▸ hm.pageTables,
    by rw [nullCounter, nullZeros, hc, ht]; exact hm.spent, by rw [nullZeros, ht]; exact hm.bound,
    by rw [nullCounter, hc]; exact hm.still⟩

theorem Image.written (hm : Image L pool ram n s) (hI : PtInv L pool s) (h : Written s ph v s')
    (hph : ph % 0x200000 = 0) (hhigh : 0x40000000 ≤ L.kernelAlign2m → 0x40000000 ≤ v)
    (hv : v < 2 ^ 45) : Image L pool ram n s' := by
  cases h with
  | old h0 he => exact hm.mapOld hI h0 he hph hhigh hv
  | new h0 h => exact hm.of_local (hI.local_mapNew h) (fun _ => id) hI.tables.nullOut

theorem Image.addPtPage (hm : Image L pool ram n s) (hI : PtInv L pool s)
    (hw : Fresh L pool s w) (hph : ph % 0x200000 = 0) (h : Mm.addPtPage s ph w = .ok s')
    (hhigh : 0x40000000 ≤ L.kernelAlign2m → 0x40000000 ≤ w) : Image L (w :: pool) ram n s' := by
  have hout := (hI.addPtPage hw hph h).inv.tables.nullOut
  obtain ⟨s₁, h₁, h⟩ := bind_ok.mp h
  cases h
  have hi := hm.written hI (ptMapAlwaysSuccess_ok h₁) hph hhigh hw.lt
  have hl : Local (w :: pool) s₁ (initPtPage s₁ w ph) := local_initPtPage (by simp)
  exact (hi.of_local hl (fun _ => List.mem_cons_of_mem w) hout).congr rfl rfl rfl rfl

/-- `pt_try_map`, which may take a page for the pool. -/
theorem Image.tryMap {σ : Type} {hook : σ → Option ℕ × σ} {parm parm' : σ} {isSoft : Bool}
    {ret : ℤ} (hm : Image L pool ram n s) (hI : PtInv L pool s)
    (h : ptTryMap hook parm s ph v isSoft = .ok (ret, parm', s')) (hph : ph % 0x200000 = 0)
    (hhigh : 0x40000000 ≤ L.kernelAlign2m → 0x40000000 ≤ v) (hv : v < 2 ^ 45)
    (hq : ∀ q parm', hook parm = (some q, parm') → q % 0x200000 = 0)
    (hw : ∀ w, s.ptPagesSpMin + 0x200000 ≤ s.ptPagesSp → s.ptPagesSp - 0x200000 = w →
      Fresh L pool s w ∧ (0x40000000 ≤ L.kernelAlign2m → 0x40000000 ≤ w)) :
    (s'.ptPagesSp = s.ptPagesSp ∧ Image L pool ram n s') ∨
    (s.ptPagesSpMin + 0x200000 ≤ s.ptPagesSp ∧ s'.ptPagesSp = s.ptPagesSp - 0x200000 ∧
      Image L (s'.ptPagesSp :: pool) ram n s') := by
  cases ptTryMap_ok h with
  | already | noRoom | noPage => exact Or.inl ⟨rfl, hm⟩
  | written hs =>
    exact Or.inl ⟨(hI.written hs hv hph).sp.1, hm.written hI hs hph hhigh hv⟩
  | @grown _ q w t s₁ s₂ hh h0 h1 hr hsp ha ht =>
    obtain ⟨hf, hwh⟩ := hw w hr hsp
    have hG := (hI.setSp w).addPtPage (hf.setSp w) (hq q _ hh) ha
    have hm' : Image L pool ram n { s with ptPagesSp := w } := hm.congr rfl rfl rfl rfl
    have hi := hm'.addPtPage (hI.setSp w) (hf.setSp w) (hq q _ hh) ha hwh
    have hs₂ : s₂.ptPagesSp = w := by
      obtain ⟨page, rest, id, ids, -, -, -, rfl⟩ := newPt3_ok ht
      exact hG.sp.1
    refine Or.inr ⟨hr, hs₂.trans hsp.symm, ?_⟩
    change Image L (s₂.ptPagesSp :: pool) ram n _
    rw [hs₂]
    exact hi.of_local (hG.inv.local_mapNew ht) (fun _ => id) hG.inv.tables.nullOut

theorem PtInv.newPt3_comes (hI : PtInv L pool s) (hn : 1 ≤ s.freePtsNum) (a b : ℕ) :
    ∃ t s', newPt3 s a b = .ok (t, s') := by
  have hnum := hI.num
  unfold NumOk at hnum
  obtain ⟨p, hp, hids⟩ : ∃ p ∈ pool, s.freeIds p ≠ [] := by
    by_contra hno
    push Not at hno
    have hz : (pool.map fun p => (s.freeIds p).length).sum = 0 := by
      refine List.sum_eq_zero fun x hx => ?_
      obtain ⟨p, hp, rfl⟩ := List.mem_map.mp hx
      simp [hno p hp]
    omega
  have hmem := (hI.list.mem p).mpr ⟨hp, hids⟩
  cases hl : s.freePtPages with
  | nil => simp [hl] at hmem
  | cons page rest =>
    have hpage := ((hI.list.mem page).mp (by simp [hl])).2
    cases hi : s.freeIds page with
    | nil => exact absurd hi hpage
    | cons id ids => simp [newPt3, hl, hi]

theorem PtInv.mapAlwaysSuccess_comes (hI : PtInv L pool s) (hn : 1 ≤ s.freePtsNum)
    (hl : lookup s v = 0) (ph : ℕ) : ∃ s', ptMapAlwaysSuccess s ph v = .ok s' := by
  unfold ptMapAlwaysSuccess
  simp only
  by_cases h0 : s.kernelVpt2s (i1 v) (i2 v) ≠ 0
  · rw [lookup_eq h0] at hl
    rw [if_pos h0, if_neg (not_not.mpr hl)]
    exact ⟨_, rfl⟩
  · obtain ⟨t, s', h⟩ := hI.newPt3_comes hn (i1 v) (i2 v)
    rw [if_neg h0, h]
    exact ⟨_, rfl⟩

theorem PtInv.addPtPage_comes (hI : PtInv L pool s) (hn : 1 ≤ s.freePtsNum)
    (hl : lookup s w = 0) (ph : ℕ) : ∃ s', Mm.addPtPage s ph w = .ok s' := by
  obtain ⟨s', h⟩ := hI.mapAlwaysSuccess_comes hn hl ph
  unfold Mm.addPtPage
  rw [h]
  exact ⟨_, rfl⟩

/-- `pt_try_map` fails only where it is to map a page that is mapped. -/
theorem PtInv.tryMap_comes {σ : Type} {hook : σ → Option ℕ × σ} (parm : σ) (ph v : ℕ)
    (isSoft : Bool) (hI : PtInv L pool s) (hn : 1 ≤ s.freePtsNum)
    (hq : ∀ q parm', hook parm = (some q, parm') → q % 0x200000 = 0)
    (hw : ∀ w, s.ptPagesSpMin + 0x200000 ≤ s.ptPagesSp → s.ptPagesSp - 0x200000 = w →
      Fresh L pool s w ∧ lookup s w = 0) :
    (∃ r, ptTryMap hook parm s ph v isSoft = .ok r) ∨
    (isSoft = false ∧ lookup s v ≠ 0 ∧
      ptTryMap hook parm s ph v isSoft = .error (.abort "remap a page!\n")) := by
  unfold ptTryMap
  simp only
  by_cases h0 : s.kernelVpt2s (i1 v) (i2 v) ≠ 0
  · rw [if_pos h0, lookup_eq h0]
    by_cases he : s.pageTables (s.kernelVpt2s (i1 v) (i2 v)) (i3 v) ≠ 0
    · rw [if_pos he]
      cases isSoft with
      | true => exact Or.inl ⟨_, rfl⟩
      | false => exact Or.inr ⟨rfl, he, rfl⟩
    · rw [if_neg he]
      exact Or.inl ⟨_, rfl⟩
  · rw [if_neg h0]
    refine Or.inl ?_
    by_cases h1 : s.freePtsNum = 1
    · rw [if_pos h1]
      by_cases hr : s.ptPagesSp ≤ s.ptPagesSpMin ∨ s.ptPagesSp - s.ptPagesSpMin < 0x200000
      · rw [if_pos hr]
        exact ⟨_, rfl⟩
      · rw [if_neg hr]
        obtain ⟨w, hsp⟩ : ∃ w, s.ptPagesSp - 0x200000 = w := ⟨_, rfl⟩
        obtain ⟨hf, hl⟩ := hw w (by omega) hsp
        rw [hsp]
        cases hh : hook parm with
        | mk r parm' =>
          cases r with
          | none => exact ⟨_, rfl⟩
          | some q =>
            obtain ⟨s₁, ha⟩ := (hI.setSp w).addPtPage_comes hn hl q
            have hG := (hI.setSp w).addPtPage (hf.setSp w) (hq q _ hh) ha
            have hn₁ : 1 ≤ s₁.freePtsNum := Nat.le_trans (by omega) (hG.num_ge hn)
            obtain ⟨t, s₂, ht⟩ := hG.inv.newPt3_comes hn₁ (i1 v) (i2 v)
            exact ⟨_, bind_ok.mpr ⟨s₁, ha, bind_ok.mpr ⟨(t, s₂), ht, rfl⟩⟩⟩
    · rw [if_neg h1]
      obtain ⟨t, s₁, ht⟩ := hI.newPt3_comes hn (i1 v) (i2 v)
      exact ⟨_, bind_ok.mpr ⟨_, ht, rfl⟩⟩

theorem ptUnmap_comes (hl : lookup s v ≠ 0) : ∃ ph s', ptUnmap s v = .ok (ph, s') := by
  have h0 : s.kernelVpt2s (i1 v) (i2 v) ≠ 0 := fun h0 => hl (entry_of_zero h0)
  rw [lookup_eq h0] at hl
  unfold ptUnmap
  simp only
  rw [if_neg h0, if_neg hl]
  exact ⟨_, _, rfl⟩

end MyosIo.Mm
