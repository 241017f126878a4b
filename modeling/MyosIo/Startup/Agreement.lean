import MyosIo.Startup.Features

/-! Behind the barrier nobody is counted any more, so what is loaded there stays right; and a
processor that takes a bit away without being one of those that agree can always come first. -/
namespace MyosIo.Startup

open Function

variable {C : Type*} [DecidableEq C] {m : Machine C} {s t : State C} {e : Option C}
  {xs : List (Option C)} {v w : BitVec 32}

omit [DecidableEq C] in
theorem Common.unique (hv : Common m s v) (hw : Common m s w) : v = w := by
  refine BitVec.eq_of_getLsbD_eq fun i _ => ?_
  rw [Bool.eq_iff_iff, hv i, hw i]

/-- The common bits stay what they are once the barrier is open. -/
theorem common_step (h : Standing m s) (hs : Step m s e t)
    (hfull : s.writtenNum = m.expectCoresNum) (hv : Common m s v) : Common m t v := by
  have hjoined (c : C) : Joined m t c ↔ Joined m s c := by
    unfold Joined
    rw [counted_step h hs hfull c]
  intro i
  simp only [hv i, hjoined]

/-- Whoever has been set has the common bits. -/
structure Loaded [Fintype C] (m : Machine C) (s : State C) : Prop where
  inv : Inv m s
  xcr0 : ∀ c v, s.xcr0 c = some v → Common m s v
  bspXcr0 : ∀ v, s.bspXcr0 = some v → Common m s v

omit [DecidableEq C] in
theorem loaded_boot [Fintype C] : Loaded m boot where
  inv := inv_boot
  xcr0 c v h := by cases h
  bspXcr0 v h := by cases h

omit [DecidableEq C] in
theorem Inv.awake [Fintype C] (h : Inv m s) (c : C) (hc : s.ap c ≠ .off) : s.sipi = true := by
  by_contra hs
  exact hc (h.counts.standing.woken.off (by simpa using hs) c)

/-- A processor's `XCR0` changes only when it loads the bits. -/
theorem xcr0_step (hs : Step m s e t) (c : C) (v : BitVec 32) (hv : t.xcr0 c = some v) :
    s.xcr0 c = some v ∨ s.ap c = .load ∧ v = s.usableBits := by
  cases hs
  all_goals
    simp only [State.setAp] at hv
    grind -linarith

theorem bspXcr0_step (hs : Step m s e t) (v : BitVec 32) (hv : t.bspXcr0 = some v) :
    s.bspXcr0 = some v ∨ s.bsp = .load ∧ v = s.usableBits ∨
      s.bsp = .start ∧ t.sipi = s.sipi ∧ t.ap = s.ap ∧ v = m.bspUsable &&& initBits := by
  cases hs
  all_goals
    simp only [State.setAp] at hv ⊢
    grind -linarith

/-- Nothing happens after the boot processor has returned without waking anybody. -/
theorem quiet [Fintype C] (h : Inv m s) (hp : s.bsp.past = true) (hsipi : s.sipi = false) :
    ¬Step m s e t := by
  have hoff := h.counts.standing.woken.off hsipi
  have hafter := h.counts.standing.woken.after
  intro hs
  cases hs
  all_goals grind -linarith [Bsp.past, Bsp.after]

theorem loaded_step [Fintype C] (hh : Harmless m) (h : Loaded m s) (hs : Step m s e t) :
    Loaded m t := by
  have hstanding := h.inv.counts.standing
  refine ⟨inv_step h.inv hs, fun c v hv => ?_, fun v hv => ?_⟩
  · rcases xcr0_step hs c v hv with hold | ⟨hload, rfl⟩
    · exact common_step hstanding hs (hstanding.apPast c (h.inv.bits.xcr0 c v hold))
        (h.xcr0 c v hold)
    · have hfull := hstanding.apPast c (by rw [hload]; rfl)
      have hsipi := h.inv.awake c (by rw [hload]; nofun)
      exact common_step hstanding hs hfull (common_load hh h.inv hsipi hfull)
  · rcases bspXcr0_step hs v hv with hold | ⟨hload, rfl⟩ | ⟨hstart, hsipi, hap, rfl⟩
    · have hpast := h.inv.bits.bspXcr0 v hold
      by_cases hsipi : s.sipi = true
      · exact common_step hstanding hs (hstanding.bspPast hsipi hpast) (h.bspXcr0 v hold)
      · exact absurd hs (quiet h.inv hpast (by simpa using hsipi))
    · have hsipi := hstanding.woken.after (by rw [hload]; rfl)
      have hfull := hstanding.bspPast hsipi (by rw [hload]; rfl)
      exact common_step hstanding hs hfull (common_load hh h.inv hsipi hfull)
    · have hnone (c : C) : ¬Joined m t c := by
        rintro ⟨hc, -⟩
        rw [hap, hstanding.woken.off (hstanding.woken.before (.inl hstart)) c] at hc
        cases hc
      intro i
      rw [BitVec.getLsbD_and, Bool.and_eq_true, and_comm]
      exact and_congr_right fun _ => (and_iff_left fun c hc => absurd hc (hnone c)).symm

omit [DecidableEq C] in
theorem Loaded.agreed [Fintype C] (h : Loaded m s) : Agreed m s where
  xcr0 := h.xcr0
  bspXcr0 := h.bspXcr0
  area hb c hc := h.inv.sized.area (.inr hb) c hc.1
  bspArea hb := h.inv.sized.bspArea (.inr hb)

/-- Everything up to the wake-up. -/
theorem wake_run (hn : 1 < m.expectCoresNum) :
    ∃ xs s, Run (Step m) boot xs s ∧ s.bsp = .barrier ∧ s.sipi = true ∧ (∀ c, s.ap c = .off) ∧
      s.writtenNum = 1 ∧ s.allCoresNum = m.expectCoresNum := by
  have h₀ : Run (Step m) boot [] _ := .refl
  have h₁ := h₀.step (.storeAll rfl (Nat.not_le.mpr hn))
  have h₂ := h₁.step (.fetchAnd rfl)
  exact ⟨_, _, h₂.step (.sipi rfl), rfl, rfl, fun _ => rfl, rfl, rfl⟩

/-- A processor comes and is counted. -/
theorem count_run (h : Run (Step m) boot xs s) (c : C) (hc : s.ap c = .off) (hsipi : s.sipi = true)
    (hsys : m.syscall c = true) (hroom : s.writtenNum < s.allCoresNum) :
    ∃ ys t, Run (Step m) boot ys t ∧ t.bsp = s.bsp ∧ t.sipi = s.sipi ∧
      t.allCoresNum = s.allCoresNum ∧ t.writtenNum = s.writtenNum + 1 ∧
      t.ap = update s.ap c (.apicBase s.allCoresNum) := by
  have h₁ := h.step (.start c hc hsipi hsys)
  have h₂ := h₁.step (.andl c (by simp [State.setAp]))
  have h₃ := h₂.step (.loadAll c (by simp [State.setAp]))
  have h₄ := h₃.step (.loadWritten c s.allCoresNum (by simp [State.setAp]))
  have h₅ := h₄.step (.cas c s.allCoresNum s.writtenNum (by simp [State.setAp])
    (Nat.not_le.mpr hroom) rfl)
  exact ⟨_, _, h₅, rfl, rfl, rfl, rfl, by simp [State.setAp]⟩

/-- Any number of processors come one after another and are counted. -/
theorem count_all_run (l : List C) (hl : l.Nodup) (hsys : ∀ c ∈ l, m.syscall c = true)
    (h : Run (Step m) boot xs s) (hoff : ∀ c ∈ l, s.ap c = .off) (hsipi : s.sipi = true)
    (hroom : s.writtenNum + l.length ≤ s.allCoresNum) :
    ∃ ys t, Run (Step m) boot ys t ∧ t.bsp = s.bsp ∧ t.writtenNum = s.writtenNum + l.length ∧
      ∀ c, t.ap c = if c ∈ l then .apicBase s.allCoresNum else s.ap c := by
  induction l generalizing xs s with
  | nil => exact ⟨xs, s, h, rfl, rfl, fun c => by simp⟩
  | cons a l ih =>
    obtain ⟨ha, hl⟩ := List.nodup_cons.mp hl
    rw [List.length_cons] at hroom
    obtain ⟨ys, t, hrun, hbsp, hsipi', hall, hwritten, hap⟩ :=
      count_run h a (hoff a List.mem_cons_self) hsipi (hsys a List.mem_cons_self) (by omega)
    have hoff' : ∀ c ∈ l, t.ap c = .off := by
      intro c hc
      have hne : c ≠ a := fun he => ha (he ▸ hc)
      rw [hap, update_of_ne hne]
      exact hoff c (List.mem_cons_of_mem _ hc)
    obtain ⟨zs, u, hrun', hbsp', hwritten', hap'⟩ :=
      ih hl (fun c hc => hsys c (List.mem_cons_of_mem _ hc)) hrun hoff' (hsipi'.trans hsipi)
        (by omega)
    refine ⟨zs, u, hrun', hbsp'.trans hbsp, ?_, fun c => ?_⟩
    · rw [hwritten', hwritten, List.length_cons]
      omega
    · rw [hap' c, hap, hall]
      by_cases hca : c = a
      · simp [hca, ha]
      · simp [hca]

/-- The boot processor passes the barrier and loads the bits. -/
theorem bsp_run (h : Run (Step m) boot xs s) (hb : s.bsp = .barrier)
    (hw : s.writtenNum = m.expectCoresNum) :
    ∃ ys t, Run (Step m) boot ys t ∧ t.bspXcr0 = some t.usableBits ∧ t.ap = s.ap :=
  ⟨_, _, (h.step (.bspBarrier hb hw)).step (.bspLoad rfl), rfl, rfl⟩

/-- The boot processor loads the bits when the processors of `S` are the ones counted and `u` has
written its bits. -/
theorem load_run {S : Finset C} (hn : 1 < m.expectCoresNum) (hS : S.card + 1 = m.expectCoresNum)
    (hsys : ∀ c ∈ S, m.syscall c = true) (u : C) (hu : m.syscall u = true) :
    ∃ xs s, Run (Step m) boot xs s ∧ s.bspXcr0 = some s.usableBits ∧ (s.ap u).anded = true ∧
      ∀ c, (s.ap c).counted = 1 → c ∈ S := by
  obtain ⟨xs, s, hrun, hbsp, hsipi, hoff, hwritten, hall⟩ := wake_run hn
  have hlen : s.writtenNum + S.toList.length = m.expectCoresNum := by
    rw [hwritten, Finset.length_toList, Nat.add_comm, hS]
  have hsys' : ∀ c ∈ S.toList, m.syscall c = true := fun c hc => hsys c (Finset.mem_toList.mp hc)
  by_cases hmem : u ∈ S
  · obtain ⟨ys, t, hrun', hbsp', hwritten', hap⟩ :=
      count_all_run S.toList S.nodup_toList hsys' hrun (fun c _ => hoff c) hsipi
        (hall ▸ hlen.le)
    obtain ⟨zs, r, hrun'', hxcr0, hr⟩ :=
      bsp_run hrun' (hbsp'.trans hbsp) (hwritten'.trans hlen)
    refine ⟨zs, r, hrun'', hxcr0, ?_, fun c hc => ?_⟩
    · rw [hr, hap u, if_pos (Finset.mem_toList.mpr hmem)]
      rfl
    · by_contra hnot
      rw [hr, hap c, if_neg (mt Finset.mem_toList.mp hnot), hoff c] at hc
      cases hc
  · -- the surplus processor comes first and gets as far as the `andl`
    have h₁ := hrun.step (.start u (hoff u) hsipi hu)
    have h₂ := h₁.step (.andl u (by simp [State.setAp]))
    have hne {c : C} (hc : c ∈ S) : c ≠ u := fun he => hmem (he ▸ hc)
    obtain ⟨ys, t, hrun', hbsp', hwritten', hap⟩ :=
      count_all_run S.toList S.nodup_toList hsys' h₂
        (fun c hc => by simp [State.setAp, hne (Finset.mem_toList.mp hc), hoff c]) hsipi
        (hall ▸ hlen.le)
    obtain ⟨zs, r, hrun'', hxcr0, hr⟩ :=
      bsp_run hrun' (hbsp'.trans hbsp) (hwritten'.trans hlen)
    refine ⟨zs, r, hrun'', hxcr0, ?_, fun c hc => ?_⟩
    · rw [hr, hap u, if_neg (mt Finset.mem_toList.mp hmem)]
      simp [State.setAp, Ap.anded]
    · by_contra hnot
      rw [hr, hap c, if_neg (mt Finset.mem_toList.mp hnot)] at hc
      by_cases hcu : c = u
      · simp [hcu, State.setAp, Ap.counted] at hc
      · simp [hcu, State.setAp, hoff c, Ap.counted] at hc

/-- The processors agree on every start-up if and only if none of those that come to the `andl`
can clear a bit that all the processors in `ap_init0` and the boot processor have. -/
theorem features_agree_iff [Fintype C] (m : Machine C) :
    (∀ xs s, Run (Step m) boot xs s → Agreed m s) ↔ Harmless m := by
  constructor
  · intro hall hn S hS hsys u hu hapic i hinit hbsp hS'
    obtain ⟨xs, s, hrun, hv, hand, hcounted⟩ := load_run hn hS hsys u hu
    have hbit := ((hall xs s hrun).bspXcr0 _ hv i).mpr
      ⟨hinit, hbsp, fun c hc => hS' c (hcounted c hc.1) hc.2⟩
    exact (((run_inv hrun).bits.bits i).mp hbit).2.2 u hand
  · intro hh xs s hrun
    exact (hrun.invariant loaded_boot fun _ _ _ hi hs => loaded_step hh hi hs).agreed

/-- Two processors expected and a third one, `true`, without AVX-512. -/
def surplus : Machine Bool where
  expectCoresNum := 2
  usable c := if c then 0b111#32 else 0b11100111#32
  syscall _ := true
  apic _ := true
  xsaveSize _ _ := 576
  bspUsable := 0b11100111#32
  bspXsaveSize _ := 576

/-- `false` has loaded its bits when the third processor clears some of them, and the boot
processor loads what is left. -/
theorem surplus_disagree : ∃ xs s, Run (Step surplus) boot xs s ∧ ¬Agreed surplus s := by
  have h₀ : Run (Step surplus) boot [] _ := .refl
  have h₁ := h₀.step (.storeAll rfl (by decide))
  have h₂ := h₁.step (.fetchAnd rfl)
  have h₃ := h₂.step (.sipi rfl)
  have h₄ := h₃.step (.start false rfl rfl rfl)
  have h₅ := h₄.step (.andl false rfl)
  have h₆ := h₅.step (.loadAll false rfl)
  have h₇ := h₆.step (.loadWritten false 2 rfl)
  have h₈ := h₇.step (.cas false 2 1 rfl (by decide) rfl)
  have h₉ := h₈.step (.apicOn false 2 rfl rfl)
  have h₁₀ := h₉.step (.xadd false 2 rfl)
  have h₁₁ := h₁₀.step (.barrier false 2 rfl rfl)
  have h₁₂ := h₁₁.step (.load false rfl)
  have h₁₃ := h₁₂.step (.start true rfl rfl rfl)
  have h₁₄ := h₁₃.step (.andl true rfl)
  have h₁₅ := h₁₄.step (.bspBarrier rfl rfl)
  have h₁₆ := h₁₅.step (.bspLoad rfl)
  refine ⟨_, _, h₁₆, fun h => ?_⟩
  have heq : 0b11100111#32 = 0b111#32 := (h.xcr0 false _ rfl).unique (h.bspXcr0 _ rfl)
  revert heq
  decide

end MyosIo.Startup
