import Mathlib.Tactic.Linarith
import MyosIo.E820.Trim

/-! The attributes of an address are a function that is constant between two boundaries; the
output loops write down its maximal constant ranges. -/
namespace MyosIo.E820

open Mm (E820Entry)

variable {f : ℕ → Option (ℕ × ℕ)} {a m : ℕ} {p : ℕ × ℕ} {outs : List E820Entry}

/-- `outs` lists the maximal ranges of `f` from `a` on. -/
structure Represents (f : ℕ → Option (ℕ × ℕ)) (a : ℕ) (outs : List E820Entry) : Prop where
  bounds : ∀ o ∈ outs, a ≤ o.addr ∧ 0 < o.size ∧ o.addr + o.size ≤ 2 ^ 64
  sorted : outs.Pairwise fun o o' => o.addr + o.size ≤ o'.addr
  maximal : outs.IsChain fun o o' =>
    o.addr + o.size = o'.addr → (o.type, o.extend) ≠ (o'.type, o'.extend)
  values : ∀ x, a ≤ x → x < 2 ^ 64 → ∀ p, f x = some p ↔
    ∃ o ∈ outs, o.addr ≤ x ∧ x < o.addr + o.size ∧ (o.type, o.extend) = p

namespace Represents

theorem nil (h : ∀ x, a ≤ x → x < 2 ^ 64 → f x = none) : Represents f a [] where
  bounds _ ho := by simp at ho
  sorted := List.Pairwise.nil
  maximal := List.IsChain.nil
  values x ha hx p := by simp [h x ha hx]

/-- A hole before the first range. -/
theorem hole (h : Represents f m outs) (ham : a ≤ m)
    (hf : ∀ x, a ≤ x → x < m → f x = none) : Represents f a outs where
  bounds o ho := by
    have := h.bounds o ho
    exact ⟨by omega, this.2⟩
  sorted := h.sorted
  maximal := h.maximal
  values x ha hx q := by
    by_cases hm : m ≤ x
    · exact h.values x hm hx q
    · rw [hf x ha (by omega)]
      constructor
      · intro hn
        cases hn
      · rintro ⟨o, ho, hox, -⟩
        have := h.bounds o ho
        omega

/-- A range in front of the others, from whose first one it differs if they touch. -/
theorem cons (h : Represents f m outs) (ham : a < m) (hm : m ≤ 2 ^ 64)
    (hf : ∀ x, a ≤ x → x < m → f x = some p) (hne : m < 2 ^ 64 → f m ≠ some p) :
    Represents f a (⟨a, m - a, p.1, p.2⟩ :: outs) where
  bounds o ho := by
    obtain rfl | ho := List.mem_cons.mp ho
    · exact ⟨Nat.le_refl _, Nat.sub_pos_of_lt ham, by dsimp only; omega⟩
    · have := h.bounds o ho
      exact ⟨by omega, this.2⟩
  sorted := by
    refine List.pairwise_cons.mpr ⟨fun o ho => ?_, h.sorted⟩
    have := h.bounds o ho
    dsimp only
    omega
  maximal := by
    refine List.isChain_cons.mpr ⟨fun o ho htouch heq => ?_, h.maximal⟩
    have hmem := List.mem_of_mem_head? ho
    have hb := h.bounds o hmem
    dsimp only at htouch heq
    have hmo : m = o.addr := by omega
    apply hne (by omega)
    rw [h.values m (Nat.le_refl _) (by omega)]
    exact ⟨o, hmem, by omega, by omega, heq.symm⟩
  values x ha hx q := by
    by_cases hmx : m ≤ x
    · rw [h.values x hmx hx]
      constructor
      · rintro ⟨o, ho, hox⟩
        exact ⟨o, List.mem_cons_of_mem _ ho, hox⟩
      · rintro ⟨o, ho, hox, hox', heq⟩
        obtain rfl | ho := List.mem_cons.mp ho
        · dsimp only at hox'
          omega
        · exact ⟨o, ho, hox, hox', heq⟩
    · rw [hf x ha (by omega)]
      constructor
      · rintro ⟨rfl⟩
        exact ⟨_, List.mem_cons_self, ha, by dsimp only; omega, rfl⟩
      · rintro ⟨o, ho, hox, -, heq⟩
        obtain rfl | ho := List.mem_cons.mp ho
        · exact congrArg some heq
        · have := h.bounds o ho
          omega

/-- The last range, up to the end of the address space. -/
theorem last (ha : 0 < a) (hlt : a < 2 ^ 64) (hf : ∀ x, a ≤ x → x < 2 ^ 64 → f x = some p) :
    Represents f a [⟨a, (phyAddrMax - a + 1) % 2 ^ 64, p.1, p.2⟩] := by
  have hsize : (phyAddrMax - a + 1) % 2 ^ 64 = 2 ^ 64 - a := by
    unfold phyAddrMax
    omega
  rw [hsize]
  have hnil : Represents f (2 ^ 64) [] := nil fun x hx hx' => absurd hx (by omega)
  exact hnil.cons hlt (Nat.le_refl _) hf fun h => absurd h (by omega)

end Represents

/-- A boundary carries the attributes of its address. -/
def Carries (f : ℕ → Option (ℕ × ℕ)) (b : Block) : Prop :=
  match f b.addr with
  | none => b.exist = false
  | some p => b.exist = true ∧ b.type = p.1 ∧ b.extend = p.2

/-- The boundaries after `a`: `f` is constant between them, those that do not repeat the one
before carry their attributes, and two holes never touch. -/
inductive Marked (f : ℕ → Option (ℕ × ℕ)) : ℕ → List Block → Prop
  | nil {a : ℕ} (hconst : ∀ x, a ≤ x → x < 2 ^ 64 → f x = f a) : Marked f a []
  | again {a : ℕ} {b : Block} {bs : List Block} (hb : b.addr = a) (h : Marked f a bs) :
      Marked f a (b :: bs)
  | next {a : ℕ} {b : Block} {bs : List Block} (hlt : a < b.addr) (hb : b.addr < 2 ^ 64)
      (hconst : ∀ x, a ≤ x → x < b.addr → f x = f a) (hc : Carries f b)
      (hfill : f a = none → f b.addr ≠ none) (h : Marked f b.addr bs) : Marked f a (b :: bs)

theorem carries_some {b : Block} (hc : Carries f b) (hf : f b.addr = some p) :
    b.exist = true ∧ b.type = p.1 ∧ b.extend = p.2 := by
  unfold Carries at hc
  rwa [hf] at hc

theorem carries_none {b : Block} (hc : Carries f b) (hf : f b.addr = none) : b.exist = false := by
  unfold Carries at hc
  rwa [hf] at hc

/-- Comparing two boundaries is comparing the attributes they carry. -/
theorem sameAttribute_iff {b next : Block} (hc : Carries f b) (hn : Carries f next)
    (hf : f b.addr = some p) : sameAttribute next b = true ↔ f next.addr = some p := by
  obtain ⟨he, ht, hx⟩ := carries_some hc hf
  unfold sameAttribute
  rw [he, ht, hx]
  cases hnext : f next.addr with
  | none => simp [carries_none hn hnext]
  | some q =>
    obtain ⟨he', ht', hx'⟩ := carries_some hn hnext
    simp [he', ht', hx', Prod.ext_iff]

/-- What the output loop does at a boundary, from the two places it can be in. -/
theorem represents_top {b : Block} {bs : List Block} (hc : Carries f b)
    (hentry : ∀ q, f b.addr = some q → Represents f b.addr (output (.entry b.addr q.1 q.2) b bs))
    (hhole : f b.addr = none → Represents f b.addr (output .hole b bs)) :
    Represents f b.addr (output (.top b) b bs) := by
  unfold Place.top
  cases hf : f b.addr with
  | none =>
    rw [if_pos (carries_none hc hf)]
    exact hhole hf
  | some q =>
    obtain ⟨he, ht, hx⟩ := carries_some hc hf
    rw [he, ht, hx]
    exact hentry q hf

theorem output_spec {bs : List Block} (h : Marked f a bs) : ∀ cur : Block, cur.addr = a →
    a < 2 ^ 64 → Carries f cur →
    (∀ addr p, 0 < addr → addr ≤ a → (∀ x, addr ≤ x → x ≤ a → f x = some p) →
      Represents f addr (output (.entry addr p.1 p.2) cur bs)) ∧
    (f a = none → Represents f a (output .hole cur bs)) := by
  induction h with
  | @nil a hconst =>
    rintro cur rfl hlt hc
    constructor
    · intro addr p hpos hle hf
      apply Represents.last hpos (by omega)
      intro x hx hx'
      by_cases hxa : x ≤ cur.addr
      · exact hf x hx hxa
      · rw [hconst x (by omega) hx']
        exact hf _ hle (Nat.le_refl _)
    · intro hnone
      exact Represents.nil fun x hx hx' => (hconst x hx hx').trans hnone
  | @again a b bs hb h ih =>
    rintro cur rfl hlt hc
    obtain ⟨hentry, hhole⟩ := ih cur rfl hlt hc
    constructor
    · intro addr p hpos hle hf
      rw [output, if_pos hb]
      exact hentry addr p hpos hle hf
    · intro hnone
      rw [output, if_pos hb]
      exact hhole hnone
  | @next a b bs hab hb hconst hcb hfill h ih =>
    rintro cur rfl hlt hc
    obtain ⟨hentry, hhole⟩ := ih b rfl hb hcb
    have hne : b.addr ≠ cur.addr := by omega
    constructor
    · intro addr p hpos hle hf
      have hcur := hf _ hle (Nat.le_refl _)
      have hupto : ∀ x, addr ≤ x → x < b.addr → f x = some p := by
        intro x hx hxb
        by_cases hxa : x ≤ cur.addr
        · exact hf x hx hxa
        · rw [hconst x (by omega) hxb, hcur]
      rw [output, if_neg hne]
      split
      next hsame =>
        have hfb := (sameAttribute_iff hc hcb hcur).mp hsame
        apply hentry addr p hpos (by omega)
        intro x hx hxb
        by_cases hxe : x = b.addr
        · rw [hxe, hfb]
        · exact hupto x hx (by omega)
      next hdiff =>
        have hfb : f b.addr ≠ some p := fun he => hdiff ((sameAttribute_iff hc hcb hcur).mpr he)
        refine Represents.cons ?_ (by omega) hb.le hupto fun _ => hfb
        refine represents_top hcb (fun q hq => ?_) hhole
        refine hentry _ q (by omega) (Nat.le_refl _) fun x hx hx' => ?_
        rw [Nat.le_antisymm hx' hx, hq]
    · intro hnone
      rw [output, if_neg hne]
      cases hfb : f b.addr with
      | none => exact absurd hfb (hfill hnone)
      | some q =>
        obtain ⟨-, ht, hx⟩ := carries_some hcb hfb
        rw [ht, hx]
        have := hentry _ q (by omega) (Nat.le_refl _) fun x hx hx' => by
          rw [Nat.le_antisymm hx' hx, hfb]
        exact this.hole hab.le fun x hx hxb => (hconst x hx hxb).trans hnone

theorem superblock_spec {bs : List Block} (h : Marked f a bs) : ∀ cur : Block, cur.addr = a →
    a < 2 ^ 64 → Carries f cur → (∀ x, x ≤ a → f x = some p) →
    superblock p.1 p.2 cur bs = [⟨0, 0, p.1, p.2⟩] ∧ (∀ x < 2 ^ 64, f x = some p) ∨
      Represents f 0 (superblock p.1 p.2 cur bs) := by
  induction h with
  | @nil a hconst =>
    rintro cur rfl hlt hc hf
    refine .inl ⟨rfl, fun x hx => ?_⟩
    by_cases hxa : x ≤ cur.addr
    · exact hf x hxa
    · rw [hconst x (by omega) hx]
      exact hf _ (Nat.le_refl _)
  | @again a b bs hb h ih =>
    rintro cur rfl hlt hc hf
    rw [superblock, if_pos hb]
    exact ih cur rfl hlt hc hf
  | @next a b bs hab hb hconst hcb hfill h ih =>
    rintro cur rfl hlt hc hf
    have hcur := hf _ (Nat.le_refl _)
    have hupto : ∀ x, x < b.addr → f x = some p := by
      intro x hxb
      by_cases hxa : x ≤ cur.addr
      · exact hf x hxa
      · rw [hconst x (by omega) hxb, hcur]
    rw [superblock, if_neg (by omega)]
    split
    next hsame =>
      have hfb := (sameAttribute_iff hc hcb hcur).mp hsame
      apply ih b rfl hb hcb
      intro x hxb
      by_cases hxe : x = b.addr
      · rw [hxe, hfb]
      · exact hupto x (by omega)
    next hdiff =>
      obtain ⟨hentry, hhole⟩ := output_spec h b rfl hb hcb
      have hfb : f b.addr ≠ some p := fun he => hdiff ((sameAttribute_iff hc hcb hcur).mpr he)
      refine .inr (Represents.cons ?_ (by omega) hb.le (fun x _ => hupto x) fun _ => hfb)
      refine represents_top hcb (fun q hq => ?_) hhole
      refine hentry _ q (by omega) (Nat.le_refl _) fun x hx hx' => ?_
      rw [Nat.le_antisymm hx' hx, hq]

variable {entrys : List E820Entry}

/-- The attributes `trim_e820_entrys` gives an address. -/
def attrAt (entrys : List E820Entry) (x : ℕ) : Option (ℕ × ℕ) :=
  match entrys.filter (covers x) with
  | [] => none
  | e :: rest =>
    some (if rest.any fun e' => e.type ≠ e'.type ∨ e.extend ≠ e'.extend then (2, 1)
      else (e.type, e.extend))

theorem covers_iff {x : ℕ} {e : E820Entry} :
    covers x e = true ↔ e.addr ≤ x ∧ x < e.addr + e.size := by
  simp only [covers, decide_eq_true_eq]
  omega

theorem setAttribute_addr (entrys : List E820Entry) (b : Block) :
    (setAttribute entrys b).addr = b.addr := by
  unfold setAttribute
  split
  · rfl
  · split <;> rfl

theorem carries_setAttribute (entrys : List E820Entry) (b : Block) :
    Carries (attrAt entrys) (setAttribute entrys b) := by
  unfold Carries
  rw [setAttribute_addr]
  induction entrys with
  | nil => rfl
  | cons e es ih =>
    by_cases hc : covers b.addr e
    · have hany : (es.filter (covers b.addr)).any
            (fun e' => e.type ≠ e'.type ∨ e.extend ≠ e'.extend) =
          es.any (fun e' => covers b.addr e' ∧ (e.type ≠ e'.type ∨ e.extend ≠ e'.extend)) := by
        rw [List.any_filter]
        congr 1
        funext e'
        simp
      simp only [attrAt, setAttribute, List.filter_cons, List.dropWhile_cons, hc, if_true,
        Bool.not_true, Bool.false_eq_true, if_false, hany]
      split <;> simp
    · have hskip : attrAt (e :: es) b.addr = attrAt es b.addr := by
        simp [attrAt, hc]
      have hskip' : setAttribute (e :: es) b = setAttribute es b := by
        simp [setAttribute, hc]
      rw [hskip, hskip']
      exact ih

theorem mem_boundaries {x : ℕ} : x ∈ boundaries entrys ↔ ∃ e ∈ entrys, e.addr ≤ phyAddrMax ∧
    (x = e.addr ∨ x = e.addr + e.size ∧ e.addr + e.size ≤ phyAddrMax) := by
  induction entrys with
  | nil => simp [boundaries]
  | cons e es ih =>
    rw [boundaries, List.exists_mem_cons_iff]
    split
    · rw [ih]
      constructor
      · exact .inr
      · rintro (h | h)
        · omega
        · exact h
    · split
      · rw [List.mem_cons, ih]
        refine or_congr_left ⟨fun h => ⟨by omega, .inl h⟩, ?_⟩
        rintro ⟨-, h | ⟨-, h⟩⟩
        · exact h
        · omega
      · rw [List.mem_cons, List.mem_cons, ih, ← or_assoc]
        refine or_congr_left ⟨fun h => ⟨by omega, h.imp_right fun h => ⟨h, by omega⟩⟩, ?_⟩
        rintro ⟨-, h | ⟨h, -⟩⟩
        · exact .inl h
        · exact .inr h

/-- Between two boundaries the attributes do not change. -/
theorem attrAt_const (h : Reported entrys) {x : ℕ} (hax : a ≤ x) (hx : x < 2 ^ 64)
    (hb : ∀ y ∈ boundaries entrys, a < y → x < y) : attrAt entrys x = attrAt entrys a := by
  have hsame : ∀ e ∈ entrys, covers x e = covers a e := by
    intro e he
    have hlow : e.addr ≤ phyAddrMax := by
      unfold phyAddrMax
      have := h e he
      omega
    have hstart := hb e.addr (mem_boundaries.mpr ⟨e, he, hlow, .inl rfl⟩)
    have hend (hle : e.addr + e.size ≤ phyAddrMax) :=
      hb (e.addr + e.size) (mem_boundaries.mpr ⟨e, he, by omega, .inr ⟨rfl, hle⟩⟩)
    rw [Bool.eq_iff_iff, covers_iff, covers_iff]
    unfold phyAddrMax at hend
    omega
  unfold attrAt
  rw [List.filter_congr hsame]

end MyosIo.E820
