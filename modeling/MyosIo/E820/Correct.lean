import Mathlib.Data.List.Sort
import MyosIo.E820.Sweep

namespace MyosIo.E820

open Mm (E820Entry)

variable {entrys : List E820Entry} {a : ℕ}

theorem attrAt_eq_none {x : ℕ} : attrAt entrys x = none ↔ ∀ e ∈ entrys, covers x e = false := by
  unfold attrAt
  cases hf : entrys.filter (covers x) with
  | nil => simpa using List.filter_eq_nil_iff.mp hf
  | cons e rest =>
    have he : e ∈ entrys.filter (covers x) := hf ▸ List.mem_cons_self
    obtain ⟨hmem, hcov⟩ := List.mem_filter.mp he
    simp only [reduceCtorEq, false_iff]
    intro hall
    rw [hall e hmem] at hcov
    cases hcov

/-- Two boundaries in a row are never both the start of a hole. -/
theorem attrAt_fill (h : Reported entrys) {b : ℕ} (hb : b ∈ boundaries entrys) (hab : a < b)
    (hnext : ∀ y ∈ boundaries entrys, a < y → b ≤ y) (hn : attrAt entrys a = none) :
    attrAt entrys b ≠ none := by
  intro hn'
  rw [attrAt_eq_none] at hn hn'
  obtain ⟨e, he, hle, hstart | ⟨hend, -⟩⟩ := mem_boundaries.mp hb
  · have hsize := h e he
    have : covers b e = true := covers_iff.mpr (by omega)
    rw [hn' e he] at this
    cases this
  · have hsize := h e he
    have hstart := hnext e.addr (mem_boundaries.mpr ⟨e, he, hle, .inl rfl⟩)
    have : covers a e = true := covers_iff.mpr (by omega)
    rw [hn e he] at this
    cases this

theorem boundaries_lt (h : Reported entrys) {b : ℕ} (hb : b ∈ boundaries entrys) :
    b < 2 ^ 64 := by
  obtain ⟨e, he, hle, hstart | ⟨hend, hle'⟩⟩ := mem_boundaries.mp hb
  · have := h e he
    omega
  · unfold phyAddrMax at hle'
    omega

/-- The boundaries that are left in the array carry the attributes of the map. -/
theorem marked_setAttributesFrom (h : Reported entrys) {bs : List Block}
    (hsorted : bs.Pairwise fun b b' => b.addr ≤ b'.addr)
    (hbs : ∀ b ∈ bs, a ≤ b.addr ∧ b.addr ∈ boundaries entrys)
    (hall : ∀ y ∈ boundaries entrys, a < y → ∃ b ∈ bs, b.addr = y) :
    Marked (attrAt entrys) a (setAttributesFrom entrys a bs) := by
  induction bs generalizing a with
  | nil =>
    refine .nil fun x hax hx => attrAt_const h hax hx fun y hy hay => ?_
    obtain ⟨b, hb, -⟩ := hall y hy hay
    cases hb
  | cons b bs ih =>
    obtain ⟨hab, hb⟩ := hbs b List.mem_cons_self
    obtain ⟨hfirst, hsorted⟩ := List.pairwise_cons.mp hsorted
    have hrest := ih (a := b.addr) hsorted
      (fun b' hb' => ⟨hfirst b' hb', (hbs b' (List.mem_cons_of_mem _ hb')).2⟩) ?_
    · rw [setAttributesFrom]
      split
      next heq => exact .again heq (heq ▸ hrest)
      next hne =>
        have hlt : a < b.addr := by omega
        have hnext : ∀ y ∈ boundaries entrys, a < y → b.addr ≤ y := by
          intro y hy hay
          obtain ⟨b', hb', rfl⟩ := hall y hy hay
          obtain rfl | hb' := List.mem_cons.mp hb'
          · exact Nat.le_refl _
          · exact hfirst b' hb'
        rw [← setAttribute_addr entrys b] at hlt hb hnext hrest
        refine .next hlt (boundaries_lt h hb) (fun x hax hx => ?_)
          (carries_setAttribute entrys b) (attrAt_fill h hb hlt hnext) ?_
        · have := boundaries_lt h hb
          exact attrAt_const h hax (by omega) fun y hy hay => Nat.lt_of_lt_of_le hx (hnext y hy hay)
        · rwa [setAttribute_addr] at hrest ⊢
    · intro y hy hby
      obtain ⟨b', hb', rfl⟩ := hall y hy (by omega)
      obtain rfl | hb' := List.mem_cons.mp hb'
      · omega
      · exact ⟨b', hb', rfl⟩

theorem span_of_pos {e : E820Entry} (h : 0 < e.size) : span e = e.size := if_neg (by omega)

theorem has_iff_covers (h : Reported entrys) {e : E820Entry} (he : e ∈ entrys) {x : ℕ} :
    Has e x ↔ covers x e = true := by
  rw [covers_iff, Has, span_of_pos (h e he).2.1]

theorem attrAt_isSome (h : Reported entrys) {x : ℕ} :
    (∃ p, attrAt entrys x = some p) ↔ ∃ e ∈ entrys, Has e x := by
  rw [← Option.isSome_iff_exists, ← Option.ne_none_iff_isSome, ne_eq, attrAt_eq_none]
  push Not
  refine exists_congr fun e => and_congr_right fun he => ?_
  rw [has_iff_covers h he, ne_eq, Bool.not_eq_false]

/-- The attributes given to an address are those the entries agree on, or `(2, 1)`. -/
theorem attrAt_common (h : Reported entrys) {x : ℕ} {p : ℕ × ℕ} (hp : attrAt entrys x = some p) :
    Common entrys x p.1 p.2 := by
  have hmem : ∀ e ∈ entrys.filter (covers x), e ∈ entrys ∧ Has e x := by
    intro e he
    obtain ⟨he, hc⟩ := List.mem_filter.mp he
    exact ⟨he, (has_iff_covers h he).mpr hc⟩
  have hmem' : ∀ e ∈ entrys, Has e x → e ∈ entrys.filter (covers x) := by
    intro e he hx
    exact List.mem_filter.mpr ⟨he, (has_iff_covers h he).mp hx⟩
  unfold attrAt at hp
  cases hf : entrys.filter (covers x) with
  | nil => simp [hf] at hp
  | cons e rest =>
    rw [hf] at hp hmem hmem'
    simp only [Option.some.injEq] at hp
    obtain ⟨he, hx⟩ := hmem e List.mem_cons_self
    split at hp
    next hany =>
      obtain ⟨e', he', hne⟩ := List.any_eq_true.mp hany
      obtain ⟨he', hx'⟩ := hmem e' (List.mem_cons_of_mem _ he')
      rw [← hp]
      exact .inr ⟨rfl, rfl, e, he, e', he', hx, hx', by simpa using hne⟩
    next hany =>
      rw [← hp]
      refine .inl fun e' he' hx' => ?_
      obtain rfl | hr := List.mem_cons.mp (hmem' e' he' hx')
      · exact ⟨rfl, rfl⟩
      · have hne : ¬ (decide (e.type ≠ e'.type ∨ e.extend ≠ e'.extend)) = true := fun hd =>
          hany (List.any_eq_true.mpr ⟨e', hr, hd⟩)
        simp only [decide_eq_true_eq, not_or, not_not] at hne
        exact ⟨hne.1.symm, hne.2.symm⟩

theorem trimmed_of_represents (h : Reported entrys) {outs : List E820Entry}
    (hr : Represents (attrAt entrys) 0 outs) : Trimmed entrys outs := by
  have hspan : ∀ o ∈ outs, span o = o.size := fun o ho => span_of_pos (hr.bounds o ho).2.1
  have hhas : ∀ o ∈ outs, ∀ x, Has o x ↔ o.addr ≤ x ∧ x < o.addr + o.size := by
    intro o ho x
    rw [Has, hspan o ho]
  constructor
  · exact .inr fun o ho => (hr.bounds o ho).2
  · exact hr.sorted.imp_of_mem fun ho _ hle => by rwa [hspan _ ho]
  · refine List.IsChain.imp_of_mem_imp (fun o o' ho _ hne htouch => ?_) hr.maximal
    rw [hspan o ho] at htouch
    by_contra hsame
    simp only [not_or, not_not] at hsame
    exact hne htouch (Prod.ext hsame.1 hsame.2)
  · intro x hx
    rw [← attrAt_isSome h]
    constructor
    · rintro ⟨o, ho, hox⟩
      have := (hhas o ho x).mp hox
      exact ⟨_, (hr.values x (Nat.zero_le _) hx _).mpr ⟨o, ho, this.1, this.2, rfl⟩⟩
    · rintro ⟨p, hp⟩
      obtain ⟨o, ho, hle, hlt, -⟩ := (hr.values x (Nat.zero_le _) hx p).mp hp
      exact ⟨o, ho, (hhas o ho x).mpr ⟨hle, hlt⟩⟩
  · intro x hx o ho hox
    have := (hhas o ho x).mp hox
    have hv := (hr.values x (Nat.zero_le _) hx _).mpr ⟨o, ho, this.1, this.2, rfl⟩
    exact attrAt_common h hv

theorem trimmed_superblock (h : Reported entrys) {p : ℕ × ℕ}
    (hf : ∀ x < 2 ^ 64, attrAt entrys x = some p) : Trimmed entrys [⟨0, 0, p.1, p.2⟩] where
  form := .inl ⟨_, _, rfl⟩
  sorted := List.pairwise_singleton _ _
  maximal := List.isChain_singleton _
  covered x hx := by
    rw [← attrAt_isSome h]
    refine ⟨fun _ => ⟨p, hf x hx⟩, fun _ => ⟨_, List.mem_cons_self, Nat.zero_le _, ?_⟩⟩
    simpa [span] using hx
  attributes x hx o ho _ := by
    obtain rfl := List.mem_singleton.mp ho
    exact attrAt_common h (hf x hx)

theorem fillBlocks_addr (stack : ℕ → Block) (addrs : List ℕ) :
    (fillBlocks stack addrs).map Block.addr = addrs := by
  unfold fillBlocks
  rw [List.map_map]
  exact List.zipIdx_map_fst 0 addrs

variable {qsort : List Block → List Block}

theorem mem_qsort (hq : Sorts qsort) (stack : ℕ → Block) {y : ℕ} :
    (∃ b ∈ qsort (fillBlocks stack (boundaries entrys)), b.addr = y) ↔ y ∈ boundaries entrys := by
  have hmem (b : Block) := (hq (fillBlocks stack (boundaries entrys))).1.mem_iff (a := b)
  simp only [hmem]
  rw [← List.mem_map, fillBlocks_addr]

/-- The result lists the maximal ranges, but for a single one that is all of the address space. -/
theorem trim_represents (hq : Sorts qsort) (stack : ℕ → Block) (h : Reported entrys) :
    (∃ p, trimE820Entrys qsort stack entrys = [⟨0, 0, p.1, p.2⟩] ∧
      ∀ x < 2 ^ 64, attrAt entrys x = some p) ∨
    Represents (attrAt entrys) 0 (trimE820Entrys qsort stack entrys) := by
  have hmem (y : ℕ) : (∃ b ∈ qsort (fillBlocks stack (boundaries entrys)), b.addr = y) ↔
      y ∈ boundaries entrys := mem_qsort hq stack
  have hsorted := (hq (fillBlocks stack (boundaries entrys))).2
  have hstart : ∀ e ∈ entrys, e.addr ∈ boundaries entrys := fun e he =>
    mem_boundaries.mpr ⟨e, he, by have := h e he; unfold phyAddrMax; omega, .inl rfl⟩
  unfold trimE820Entrys
  generalize qsort (fillBlocks stack (boundaries entrys)) = bs at hmem hsorted
  cases bs with
  | nil =>
    refine .inr (Represents.nil fun x _ _ => attrAt_eq_none.mpr ?_)
    intro e he
    obtain ⟨b, hb, -⟩ := (hmem e.addr).mpr (hstart e he)
    cases hb
  | cons b bs =>
    obtain ⟨hfirst, hsorted⟩ := List.pairwise_cons.mp hsorted
    have hb : b.addr ∈ boundaries entrys := (hmem b.addr).mp ⟨b, List.mem_cons_self, rfl⟩
    have hmin : ∀ y ∈ boundaries entrys, b.addr ≤ y := by
      intro y hy
      obtain ⟨b', hb', rfl⟩ := (hmem y).mpr hy
      obtain rfl | hb' := List.mem_cons.mp hb'
      · exact Nat.le_refl _
      · exact hfirst b' hb'
    have hbelow : ∀ x < b.addr, attrAt entrys x = none := by
      intro x hx
      refine attrAt_eq_none.mpr fun e he => ?_
      have := hmin _ (hstart e he)
      rw [← Bool.not_eq_true, covers_iff]
      omega
    have hmarked : Marked (attrAt entrys) b.addr (setAttributesFrom entrys b.addr bs) := by
      refine marked_setAttributesFrom h hsorted (fun b' hb' => ⟨hfirst b' hb', ?_⟩) ?_
      · exact (hmem _).mp ⟨b', List.mem_cons_of_mem _ hb', rfl⟩
      · intro y hy hlt
        obtain ⟨b', hb', rfl⟩ := (hmem y).mpr hy
        obtain rfl | hb' := List.mem_cons.mp hb'
        · omega
        · exact ⟨b', hb', rfl⟩
    -- the least boundary is the start of an entry
    obtain ⟨p, hp⟩ : ∃ p, attrAt entrys b.addr = some p := by
      rw [attrAt_isSome h]
      obtain ⟨e, he, -, hs⟩ := mem_boundaries.mp hb
      have := hmin _ (hstart e he)
      have hsize := h e he
      exact ⟨e, he, (has_iff_covers h he).mpr (covers_iff.mpr (by omega))⟩
    have haddr := setAttribute_addr entrys b
    have hcarries := carries_setAttribute entrys b
    obtain ⟨-, ht, hx⟩ := carries_some hcarries (haddr.symm ▸ hp)
    dsimp only [setAttributes]
    rw [ht, hx]
    split
    next hpos =>
      rw [haddr] at hpos ⊢
      have hr := (output_spec hmarked _ haddr (boundaries_lt h hb) hcarries).1 b.addr p (by omega)
        (Nat.le_refl _) fun x hx hx' => by rw [Nat.le_antisymm hx' hx, hp]
      exact .inr (hr.hole (Nat.zero_le _) fun x _ hx => hbelow x hx)
    next hzero =>
      rw [haddr, ne_eq, not_not] at hzero
      have hspec := superblock_spec (p := p) hmarked _ haddr (boundaries_lt h hb) hcarries
        fun x hx => by rw [show x = b.addr by omega, hp]
      obtain ⟨hone, hf⟩ | hr := hspec
      · exact .inl ⟨p, hone, hf⟩
      · exact .inr hr

theorem trimmed_trim (hq : Sorts qsort) (stack : ℕ → Block) (h : Reported entrys) :
    Trimmed entrys (trimE820Entrys qsort stack entrys) := by
  obtain ⟨p, hone, hf⟩ | hr := trim_represents hq stack h
  · rw [hone]
    exact trimmed_superblock h hf
  · exact trimmed_of_represents h hr

theorem trim_preserves_map (hq : Sorts qsort) (stack : ℕ → Block) (h : Reported entrys) :
    Trimmed entrys (trimE820Entrys qsort stack entrys) := trimmed_trim hq stack h

theorem sorts_mergeSort : Sorts fun bs => bs.mergeSort fun a b => a.addr ≤ b.addr := by
  intro bs
  refine ⟨List.mergeSort_perm _ _, ?_⟩
  have := @List.pairwise_mergeSort _ (fun a b : Block => decide (a.addr ≤ b.addr))
    (by simpa using fun _ _ _ => Nat.le_trans) (by simpa using fun _ _ => Nat.le_total _ _) bs
  simpa using this

theorem sorts_insertionSort : Sorts (List.insertionSort fun a b => a.addr ≤ b.addr) := by
  let r : Block → Block → Prop := fun a b => a.addr ≤ b.addr
  have : Std.Total r := ⟨fun a b => Nat.le_total a.addr b.addr⟩
  have : IsTrans Block r := ⟨fun _ _ _ => Nat.le_trans⟩
  exact fun bs => ⟨List.perm_insertionSort r bs, List.pairwise_insertionSort r bs⟩

/-- Two overlapping entries, reported in the wrong order, with different types. -/
theorem trim_preserves_map_sample :
    Trimmed [⟨0x1000, 0x1000, 3, 1⟩, ⟨0, 0x1800, 1, 1⟩]
      (trimE820Entrys (·.mergeSort fun a b => a.addr ≤ b.addr) (fun _ => ⟨0, 0, 0, true⟩)
        [⟨0x1000, 0x1000, 3, 1⟩, ⟨0, 0x1800, 1, 1⟩]) :=
  trim_preserves_map sorts_mergeSort _ (by simp [Reported])

end MyosIo.E820
