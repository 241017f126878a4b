import Mathlib.Data.List.Nodup
import MyosIo.Spinlock.Model

/-! Behind the core at the front every core has either linked itself to the one before it, and
spins, or it still owes that link. -/
namespace MyosIo.Spinlock

open Function

variable {C N : Type*} {s t : State C N} {l : FifoLock C N} {c : C} {m n : N}
  {w : List (C × N)} {xs : List (LockEvent C N)} {e : LockEvent C N}

/-- The cores behind the one with member `m`, in order. -/
def Waiting (s : State C N) : N → List (C × N) → Prop
  | m, [] => s.next m = none
  | m, (c, n) :: w => s.isLocked n = false ∧
      ((s.pc c = .exchanged n (some m) ∧ s.next m = none) ∨
        (s.pc c = .spin n ∧ s.next m = some n)) ∧ Waiting s n w

/-- What a holder's program counter says about the queue behind it. -/
def Holding (s : State C N) (m : N) (w : List (C × N)) : Pc N → Prop
  | .held m' | .cas m' => m' = m
  | .waitNext m' => m' = m ∧ w ≠ []
  | .grant m' n => m' = m ∧ s.next m = some n
  | _ => False

theorem Holding.mono {p : Pc N} {w' : List (C × N)} (h : Holding s m w p)
    (hn : ∀ k, s.next m = some k → t.next m = some k) (hw : w ≠ [] → w' ≠ []) :
    Holding t m w' p := by
  cases p with
  | waitNext m' => exact ⟨h.1, hw h.2⟩
  | grant m' k => exact ⟨h.1, hn k h.2⟩
  | _ => exact h

/-- The core that may take the lock without anybody's help. -/
def Granted (s : State C N) (m : N) (p : Pc N) : Prop :=
  p = .exchanged m none ∨ p = .spin m ∧ s.isLocked m = true

/-- The member a core has in the queue. -/
def Pc.queued : Pc N → Option N
  | .exchanged m _ | .spin m | .held m | .cas m | .waitNext m | .grant m _ => some m
  | _ => none

/-- The core at the front has the lock or may take it. -/
def Front (s : State C N) (l : FifoLock C N) : Prop :=
  ∀ x w, l.queue = x :: w → Waiting s x.2 w ∧
    if l.holder = none then Granted s x.2 (s.pc x.1) else Holding s x.2 w (s.pc x.1)

/-- What a program counter outside the queue says about the core's member. -/
def Local (s : State C N) : Pc N → Prop
  | .initNext m => s.isLocked m = false
  | .ready m => s.isLocked m = false ∧ s.next m = none
  | .check m => s.next m = none
  | .unreachable => False
  | _ => True

structure Inv (l : FifoLock C N) (s : State C N) : Prop where
  lock : s.lock = l.queue.getLast?.map Prod.snd
  nodup : (l.queue.map Prod.fst).Nodup
  queued : ∀ c m, (s.pc c).queued = some m ↔ (c, m) ∈ l.queue
  own : ∀ c c' m, (s.pc c).member = some m → (s.pc c').member = some m → c = c'
  front : Front s l
  here : ∀ c, Local s (s.pc c)

theorem inv_initial (isLocked : N → Bool) (next : N → Option N) :
    Inv (C := C) FifoLock.empty (initial isLocked next) where
  lock := rfl
  nodup := List.nodup_nil
  queued c m := by simp [initial, Pc.queued, FifoLock.queue, FifoLock.empty]
  own := by simp [initial, Pc.member]
  front x w hq := by cases hq
  here _ := trivial

theorem member_of_queued {p : Pc N} (h : p.queued = some m) : p.member = some m := by
  cases p <;> first | exact h | cases h

/-- Only the cores in the queue and their members matter. -/
theorem Waiting.congr (h : Waiting s m w) (hpc : ∀ x ∈ w, t.pc x.1 = s.pc x.1)
    (hl : ∀ x ∈ w, t.isLocked x.2 = s.isLocked x.2)
    (hn : ∀ n ∈ m :: w.map Prod.snd, t.next n = s.next n) : Waiting t m w := by
  induction w generalizing m with
  | nil => exact (hn m List.mem_cons_self).trans h
  | cons x w ih =>
    obtain ⟨hlock, hlink, hrest⟩ := h
    refine ⟨(hl x List.mem_cons_self).trans hlock, ?_, ih hrest ?_ ?_ ?_⟩
    · rw [hpc x List.mem_cons_self, hn m List.mem_cons_self]
      exact hlink
    · exact fun y hy => hpc y (List.mem_cons_of_mem _ hy)
    · exact fun y hy => hl y (List.mem_cons_of_mem _ hy)
    · exact fun n hn' => hn n (List.mem_cons_of_mem _ hn')

/-- A core behind the front has not been handed the lock. -/
theorem Waiting.pc (h : Waiting s m w) (hc : (c, n) ∈ w) : s.isLocked n = false ∧
    ((∃ last, s.pc c = .exchanged n (some last)) ∨ s.pc c = .spin n) := by
  induction w generalizing m with
  | nil => cases hc
  | cons x w ih =>
    obtain ⟨hlock, hlink, hrest⟩ := h
    obtain rfl | hc := List.mem_cons.mp hc
    · exact ⟨hlock, hlink.imp (fun hx => ⟨m, hx.1⟩) And.left⟩
    · exact ih hrest hc

/-- Behind a holder whose link is still missing stands a core that owes it. -/
theorem Waiting.owed (h : Waiting s m w) (hw : w ≠ []) (hn : s.next m = none) :
    ∃ c n, s.pc c = .exchanged n (some m) := by
  cases w with
  | nil => exact absurd rfl hw
  | cons x w =>
    obtain ⟨-, ⟨hx, -⟩ | ⟨-, hx⟩, -⟩ := h
    · exact ⟨x.1, x.2, hx⟩
    · rw [hn] at hx
      cases hx

theorem Waiting.linked (h : Waiting s m w) (hn : s.next m = some n) :
    ∃ c w', w = (c, n) :: w' ∧ s.pc c = .spin n ∧ Waiting s n w' := by
  cases w with
  | nil => exact absurd (hn.symm.trans h) (Option.some_ne_none n)
  | cons x w =>
    obtain ⟨-, ⟨-, hx⟩ | ⟨hp, hx⟩, hrest⟩ := h
    · rw [hn] at hx
      cases hx
    · obtain rfl : n = x.2 := Option.some.inj (hn.symm.trans hx)
      exact ⟨x.1, w, rfl, hp, hrest⟩

/-- What a core in the queue owes its link to is the member of a core before it. -/
theorem Waiting.last_mem {last : N} (h : Waiting s m w) (hc : (c, n) ∈ w)
    (hp : s.pc c = .exchanged n (some last)) : last ∈ m :: w.map Prod.snd ∧ s.next last = none := by
  induction w generalizing m with
  | nil => cases hc
  | cons x w ih =>
    obtain ⟨-, hlink, hrest⟩ := h
    obtain rfl | hc := List.mem_cons.mp hc
    · rw [hp] at hlink
      obtain ⟨hx, hn⟩ | ⟨hx, -⟩ := hlink <;> cases hx
      exact ⟨List.mem_cons_self, hn⟩
    · obtain ⟨hmem, hn⟩ := ih hrest hc
      exact ⟨List.mem_cons_of_mem _ hmem, hn⟩

/-- The exchange puts a core at the end, owing the link to the member it got. -/
theorem Waiting.snoc (h : Waiting s m w) (hc : s.pc c = .exchanged n
      (some ((m :: w.map Prod.snd).getLast (List.cons_ne_nil _ _))))
    (hl : s.isLocked n = false) (hn : s.next n = none) : Waiting s m (w ++ [(c, n)]) := by
  induction w generalizing m with
  | nil => exact ⟨hl, .inl ⟨hc, h⟩, hn⟩
  | cons x w ih =>
    obtain ⟨hlock, hlink, hrest⟩ := h
    exact ⟨hlock, hlink, ih hrest hc⟩

/-- A core pays the link it owes. -/
theorem Waiting.link [DecidableEq C] [DecidableEq N] {last : N} (h : Waiting s m w)
    (hp : s.pc c = .exchanged n (some last))
    (hc : (c, n) ∈ w) (hnd : (w.map Prod.fst).Nodup) (hnd' : (m :: w.map Prod.snd).Nodup) :
    Waiting { s.setPc c (.spin n) with next := update s.next last (some n) } m w := by
  induction w generalizing m with
  | nil => cases hc
  | cons x w ih =>
    obtain ⟨hlock, hlink, hrest⟩ := h
    obtain ⟨hx, hnd⟩ := List.nodup_cons.mp hnd
    obtain ⟨hm, hnd'⟩ := List.nodup_cons.mp hnd'
    obtain rfl | hc := List.mem_cons.mp hc
    · obtain ⟨hpc, hnext⟩ | ⟨hpc, -⟩ := hlink
      · rw [hp] at hpc
        cases hpc
        refine ⟨hlock, .inr ⟨update_self .., update_self ..⟩, hrest.congr ?_ (fun _ _ => rfl) ?_⟩
        · intro y hy
          have hne : y.1 ≠ c := fun he => hx (List.mem_map.mpr ⟨y, hy, he⟩)
          exact update_of_ne hne _ _
        · intro k hk
          have hne : k ≠ last := fun he => hm (he ▸ hk)
          exact update_of_ne hne _ _
      · rw [hp] at hpc
        cases hpc
    · have hxc : x.1 ≠ c := fun he => hx (List.mem_map.mpr ⟨_, hc, he.symm⟩)
      have hlast : m ≠ last := by
        rintro rfl
        exact hm (hrest.last_mem hc hp).1
      refine ⟨hlock, ?_, ih hrest hc hnd hnd'⟩
      change _ ∧ update s.next last _ m = none ∨ _ ∧ update s.next last _ m = _
      rw [update_of_ne hlast]
      change update s.pc c _ x.1 = _ ∧ _ ∨ update s.pc c _ x.1 = _ ∧ _
      rw [update_of_ne hxc]
      exact hlink

theorem Front.frame (h : Front s l) (hpc : ∀ x ∈ l.queue, t.pc x.1 = s.pc x.1)
    (hl : ∀ x ∈ l.queue, t.isLocked x.2 = s.isLocked x.2)
    (hn : ∀ x ∈ l.queue, t.next x.2 = s.next x.2) : Front t l := by
  intro x w hq
  have hx : x ∈ l.queue := hq ▸ List.mem_cons_self
  have hw : ∀ y ∈ w, y ∈ l.queue := fun y hy => hq ▸ List.mem_cons_of_mem _ hy
  obtain ⟨hwait, hfront⟩ := h x w hq
  refine ⟨hwait.congr (fun y hy => hpc y (hw y hy)) (fun y hy => hl y (hw y hy)) ?_, ?_⟩
  · intro n hn'
    obtain rfl | hn' := List.mem_cons.mp hn'
    · exact hn x hx
    · obtain ⟨y, hy, rfl⟩ := List.mem_map.mp hn'
      exact hn y (hw y hy)
  · rw [hpc x hx]
    unfold Granted Holding at hfront ⊢
    rw [hl x hx, hn x hx]
    exact hfront

theorem getLast_queue {x : C × N} (hq : l.queue = x :: w) : l.queue.getLast?.map Prod.snd =
    some ((x.2 :: w.map Prod.snd).getLast (List.cons_ne_nil _ _)) := by
  rw [hq, ← List.getLast?_map, List.map_cons, List.getLast?_eq_getLast_of_ne_nil]

namespace Inv

theorem mem_own (h : Inv l s) {c' : C} (hc : (c, m) ∈ l.queue) (hc' : (s.pc c').member = some m) :
    c' = c :=
  h.own c' c m hc' (member_of_queued ((h.queued c m).mpr hc))

theorem members_nodup (h : Inv l s) : (l.queue.map Prod.snd).Nodup := by
  refine List.Nodup.map_on ?_ h.nodup.of_map
  rintro ⟨c, m⟩ hc ⟨c', m'⟩ hc' (rfl : m = m')
  rw [h.mem_own hc' (member_of_queued ((h.queued c m).mpr hc))]

theorem not_mem_queue (h : Inv l s) (hq : (s.pc c).queued = none) {x : C × N}
    (hx : x ∈ l.queue) : x.1 ≠ c := by
  rintro rfl
  rw [(h.queued x.1 x.2).mpr hx] at hq
  cases hq

/-- A core past the lock's wait is the holder. -/
theorem holding (h : Inv l s) (hq : (s.pc c).queued = some m)
    (hne : ∀ o, s.pc c ≠ .exchanged m o) (hns : s.pc c ≠ .spin m) :
    ∃ w, l = ⟨some (c, m), w⟩ ∧ Holding s m w (s.pc c) ∧ Waiting s m w := by
  have hmem := (h.queued c m).mp hq
  obtain ⟨holder, w⟩ := l
  cases holder with
  | none =>
    cases w with
    | nil => cases hmem
    | cons x w =>
      obtain ⟨hwait, hg⟩ := h.front x w rfl
      obtain rfl | hw := List.mem_cons.mp hmem
      · obtain hg | ⟨hg, -⟩ := hg
        · exact absurd hg (hne _)
        · exact absurd hg hns
      · obtain ⟨-, ⟨last, hp⟩ | hp⟩ := hwait.pc hw
        · exact absurd hp (hne _)
        · exact absurd hp hns
  | some x =>
    obtain ⟨hwait, hh⟩ := h.front x w rfl
    obtain rfl | hw := List.mem_cons.mp hmem
    · exact ⟨w, rfl, hh, hwait⟩
    · obtain ⟨-, ⟨last, hp⟩ | hp⟩ := hwait.pc hw
      · exact absurd hp (hne _)
      · exact absurd hp hns

/-- A core that may take the lock is the first one waiting, and nobody has it. -/
theorem granted (h : Inv l s) (hg : Granted s m (s.pc c)) :
    ∃ w, l = ⟨none, (c, m) :: w⟩ ∧ Waiting s m w := by
  have hmem : (c, m) ∈ l.queue := by
    rw [← h.queued]
    obtain hg | ⟨hg, -⟩ := hg <;> rw [hg] <;> rfl
  have hnot : ∀ k w, Waiting s k w → (c, m) ∉ w := by
    intro k w hwait hw
    obtain ⟨hl, hp⟩ := hwait.pc hw
    obtain hg | ⟨-, hl'⟩ := hg
    · rw [hg] at hp
      obtain ⟨last, hp⟩ | hp := hp <;> cases hp
    · rw [hl] at hl'
      cases hl'
  obtain ⟨holder, w⟩ := l
  cases holder with
  | none =>
    cases w with
    | nil => cases hmem
    | cons x w =>
      obtain ⟨hwait, -⟩ := h.front x w rfl
      obtain rfl | hw := List.mem_cons.mp hmem
      · exact ⟨w, rfl, hwait⟩
      · exact absurd hw (hnot _ _ hwait)
  | some x =>
    obtain ⟨hwait, hh⟩ := h.front x w rfl
    obtain rfl | hw := List.mem_cons.mp hmem
    · obtain hg | ⟨hg, -⟩ := hg <;> simp [hg, Holding] at hh
    · exact absurd hw (hnot _ _ hwait)

/-- A core that owes its link stands behind another one. -/
theorem behind {last : N} (h : Inv l s) (hp : s.pc c = .exchanged n (some last)) :
    ∃ x w, l.queue = x :: w ∧ (c, n) ∈ w := by
  have hmem : (c, n) ∈ l.queue := (h.queued c n).mp (by rw [hp]; rfl)
  cases hq : l.queue with
  | nil => simp [hq] at hmem
  | cons x w =>
    obtain ⟨-, hx⟩ := h.front x w hq
    rw [hq] at hmem
    obtain rfl | hw := List.mem_cons.mp hmem
    · simp [hp, Holding, Granted] at hx
    · exact ⟨x, w, rfl, hw⟩

variable [DecidableEq C]

/-- A step of core `c`: what has to be shown of the core, of its effect on the members of the
others, and of the queue. -/
theorem step {l' : FifoLock C N} (h : Inv l s) (p : Pc N) (hpc : t.pc = update s.pc c p)
    (hown : ∀ m, p.member = some m →
      (s.pc c).member = some m ∨ ∀ c', (s.pc c').member ≠ some m)
    (hp : Local t p)
    (hothers : ∀ c' m, c' ≠ c → (s.pc c').queued = none → (s.pc c').member = some m →
      t.isLocked m = s.isLocked m ∧ t.next m = s.next m)
    (hlock : t.lock = l'.queue.getLast?.map Prod.snd) (hnodup : (l'.queue.map Prod.fst).Nodup)
    (hqueued : ∀ m, p.queued = some m ↔ (c, m) ∈ l'.queue)
    (hqueue : ∀ x : C × N, x.1 ≠ c → (x ∈ l'.queue ↔ x ∈ l.queue))
    (hfront : Front t l') : Inv l' t where
  lock := hlock
  nodup := hnodup
  queued c' m := by
    rw [hpc]
    by_cases hc : c' = c
    · subst hc
      rw [update_self]
      exact hqueued m
    · rw [update_of_ne hc, hqueue (c', m) hc]
      exact h.queued c' m
  own c₁ c₂ m := by
    have hnew : ∀ c', c' ≠ c → (s.pc c').member = some m → p.member ≠ some m := by
      intro c' hc hm hpm
      obtain hm' | hm' := hown m hpm
      · exact hc (h.own c' c m hm hm')
      · exact hm' c' hm
    rw [hpc]
    by_cases h₁ : c₁ = c <;> by_cases h₂ : c₂ = c
    · exact fun _ _ => h₁.trans h₂.symm
    · rw [h₁, update_self, update_of_ne h₂]
      exact fun hm hm' => absurd hm (hnew c₂ h₂ hm')
    · rw [h₂, update_self, update_of_ne h₁]
      exact fun hm hm' => absurd hm' (hnew c₁ h₁ hm)
    · rw [update_of_ne h₁, update_of_ne h₂]
      exact h.own c₁ c₂ m
  front := hfront
  here c' := by
    rw [hpc]
    by_cases hc : c' = c
    · rw [hc, update_self]
      exact hp
    · rw [update_of_ne hc]
      have hhere := h.here c'
      have ho := fun m => hothers c' m hc
      cases hpc' : s.pc c' with
      | initNext m =>
        rw [hpc'] at hhere ho
        exact (ho m rfl rfl).1.trans hhere
      | ready m =>
        rw [hpc'] at hhere ho
        exact ⟨(ho m rfl rfl).1.trans hhere.1, (ho m rfl rfl).2.trans hhere.2⟩
      | check m =>
        rw [hpc'] at hhere ho
        exact (ho m rfl rfl).2.trans hhere
      | unreachable =>
        rw [hpc'] at hhere
        exact hhere
      | _ => trivial

/-- A step that leaves the queue as it is. -/
theorem keep (h : Inv l s) (p : Pc N) (hpc : t.pc = update s.pc c p) (hlock : t.lock = s.lock)
    (hq : p.queued = (s.pc c).queued)
    (hown : ∀ m, p.member = some m →
      (s.pc c).member = some m ∨ ∀ c', (s.pc c').member ≠ some m)
    (hp : Local t p)
    (hothers : ∀ c' m, c' ≠ c → (s.pc c').queued = none → (s.pc c').member = some m →
      t.isLocked m = s.isLocked m ∧ t.next m = s.next m)
    (hfront : Front t l) : Inv l t :=
  h.step p hpc hown hp hothers (hlock.trans h.lock) h.nodup (fun m => by rw [hq, h.queued])
    (fun _ _ => Iff.rfl) hfront

end Inv

variable [DecidableEq C]

theorem inv_initLocked [DecidableEq N] (h : Inv l s) (hp : s.pc c = .idle)
    (hm : ∀ c', (s.pc c').member ≠ some m) :
    Inv l { s.setPc c (.initNext m) with isLocked := update s.isLocked m false } := by
  refine h.keep (.initNext m) rfl rfl (by rw [hp]; rfl) ?_ (update_self ..) ?_ ?_
  · rintro k ⟨rfl⟩
    exact .inr hm
  · intro c' k _ _ hk
    have hne : k ≠ m := by
      rintro rfl
      exact hm c' hk
    exact ⟨update_of_ne hne _ _, rfl⟩
  · refine h.front.frame (fun x hx => ?_) (fun x hx => ?_) (fun _ _ => rfl)
    · exact update_of_ne (h.not_mem_queue (by rw [hp]; rfl) hx) _ _
    · have hne : x.2 ≠ m := by
        rintro rfl
        exact hm x.1 (member_of_queued ((h.queued x.1 x.2).mpr hx))
      exact update_of_ne hne _ _

theorem inv_initNext [DecidableEq N] (h : Inv l s) (hp : s.pc c = .initNext m) :
    Inv l { s.setPc c (.ready m) with next := update s.next m none } := by
  have hhere := h.here c
  rw [hp] at hhere
  have hother : ∀ c' k, c' ≠ c → (s.pc c').member = some k → k ≠ m := by
    rintro c' k hc hk rfl
    exact hc (h.own c' c k hk (by rw [hp]; rfl))
  refine h.keep (.ready m) rfl rfl (by rw [hp]; rfl) ?_ ⟨hhere, update_self ..⟩ ?_ ?_
  · rintro k ⟨rfl⟩
    exact .inl (by rw [hp]; rfl)
  · exact fun c' k hc _ hk => ⟨rfl, update_of_ne (hother c' k hc hk) _ _⟩
  · have hne : ∀ x ∈ l.queue, x.1 ≠ c := fun x hx => h.not_mem_queue (by rw [hp]; rfl) hx
    refine h.front.frame (fun x hx => ?_) (fun _ _ => rfl) (fun x hx => ?_)
    · exact update_of_ne (hne x hx) _ _
    · exact update_of_ne
        (hother x.1 x.2 (hne x hx) (member_of_queued ((h.queued x.1 x.2).mpr hx))) _ _

theorem inv_exchange (h : Inv l s) (hp : s.pc c = .ready m) :
    Inv { l with waiting := l.waiting ++ [(c, m)] }
      { s.setPc c (.exchanged m s.lock) with lock := some m } := by
  obtain ⟨hl, hn⟩ : s.isLocked m = false ∧ s.next m = none := by
    have := h.here c
    rwa [hp] at this
  have hqueue : FifoLock.queue { l with waiting := l.waiting ++ [(c, m)] } =
      l.queue ++ [(c, m)] := (List.append_assoc ..).symm
  have hne : ∀ x ∈ l.queue, x.1 ≠ c := fun x hx => h.not_mem_queue (by rw [hp]; rfl) hx
  refine h.step (.exchanged m s.lock) rfl ?_ trivial (fun _ _ _ _ _ => ⟨rfl, rfl⟩) ?_ ?_ ?_ ?_ ?_
  · rintro k ⟨rfl⟩
    exact .inl (by rw [hp]; rfl)
  · simp [hqueue]
  · rw [hqueue, List.map_append]
    refine h.nodup.append (List.nodup_singleton _) (List.disjoint_singleton.mpr fun hc => ?_)
    obtain ⟨x, hx, hxc⟩ := List.mem_map.mp hc
    exact hne x hx hxc
  · intro k
    rw [hqueue, List.mem_append, List.mem_singleton, Prod.mk.injEq]
    constructor
    · rintro ⟨rfl⟩
      exact .inr ⟨rfl, rfl⟩
    · rintro (hx | ⟨-, rfl⟩)
      · exact absurd rfl (hne _ hx)
      · rfl
  · intro x hx
    rw [hqueue, List.mem_append, List.mem_singleton]
    exact or_iff_left fun he => hx (he ▸ rfl)
  · intro x w hq
    rw [hqueue] at hq
    cases hq' : l.queue with
    | nil =>
      rw [hq'] at hq
      cases hq
      have hlock : s.lock = none := by rw [h.lock, hq']; rfl
      have hholder : l.holder = none := by
        simp only [FifoLock.queue, List.append_eq_nil_iff] at hq'
        simpa using hq'.1
      refine ⟨hn, ?_⟩
      dsimp only
      rw [if_pos hholder, hlock]
      exact .inl (update_self ..)
    | cons y w' =>
      rw [hq', List.cons_append] at hq
      obtain ⟨rfl, rfl⟩ := List.cons.inj hq
      obtain ⟨hwait, hfront⟩ := h.front y w' hq'
      have hpc : ∀ z ∈ y :: w', update s.pc c (.exchanged m s.lock) z.1 = s.pc z.1 :=
        fun z hz => update_of_ne (hne z (hq' ▸ hz)) _ _
      constructor
      · refine Waiting.snoc ?_ ?_ hl hn
        · exact hwait.congr (fun z hz => hpc z (List.mem_cons_of_mem _ hz)) (fun _ _ => rfl)
            fun _ _ => rfl
        · have : s.lock = _ := h.lock.trans (getLast_queue hq')
          rw [← this]
          exact update_self ..
      · have hfront' : if l.holder = none then Granted s y.2 (s.pc y.1)
            else Holding s y.2 (w' ++ [(c, m)]) (s.pc y.1) := by
          split at hfront
          next hnone => rwa [if_pos hnone]
          next hsome =>
            rw [if_neg hsome]
            exact hfront.mono (fun _ hk => hk) fun _ => List.append_ne_nil_of_right_ne_nil _
              (List.cons_ne_nil _ _)
        dsimp only [State.setPc]
        rw [hpc y List.mem_cons_self]
        exact hfront'

omit [DecidableEq C] in
theorem fst_ne_of_nodup {x y : C × N} (hnd : ((x :: w).map Prod.fst).Nodup) (hy : y ∈ w) :
    y.1 ≠ x.1 := by
  intro he
  exact (List.nodup_cons.mp hnd).1 (List.mem_map.mpr ⟨y, hy, he⟩)

/-- A core takes the lock it may take. -/
theorem inv_acquire (h : Inv l s) (hg : Granted s m (s.pc c)) :
    ∃ l', FifoLock.Step l (.acquire c) l' ∧ Inv l' (s.setPc c (.held m)) := by
  obtain ⟨w, rfl, hwait⟩ := h.granted hg
  have hq : (s.pc c).queued = some m := by obtain hg | ⟨hg, -⟩ := hg <;> rw [hg] <;> rfl
  have hnd := h.nodup
  refine ⟨⟨some (c, m), w⟩, .acquire, ?_⟩
  refine h.step (.held m) rfl ?_ trivial (fun _ _ _ _ _ => ⟨rfl, rfl⟩) h.lock hnd ?_
    (fun _ _ => Iff.rfl) ?_
  · rintro k ⟨rfl⟩
    exact .inl (member_of_queued hq)
  · intro k
    have := h.queued c k
    rw [hq] at this
    exact this
  · rintro x w' ⟨⟩
    refine ⟨hwait.congr (fun y hy => ?_) (fun _ _ => rfl) fun _ _ => rfl, ?_⟩
    · exact update_of_ne (fst_ne_of_nodup hnd hy) _ _
    · change Holding _ m w (update s.pc c (.held m) c)
      rw [update_self]
      rfl

theorem inv_link [DecidableEq N] {last : N} (h : Inv l s) (hp : s.pc c = .exchanged m (some last)) :
    Inv l { s.setPc c (.spin m) with next := update s.next last (some m) } := by
  obtain ⟨x, w, hq, hw⟩ := h.behind hp
  obtain ⟨hwait, hfront⟩ := h.front x w hq
  have hnd := h.nodup
  have hnd' := h.members_nodup
  obtain ⟨hlast, hnull⟩ := hwait.last_mem hw hp
  rw [hq] at hnd hnd'
  refine h.keep (.spin m) rfl rfl (by rw [hp]; rfl) ?_ trivial ?_ ?_
  · rintro k ⟨rfl⟩
    exact .inl (by rw [hp]; rfl)
  · intro c' k _ hc' hk
    refine ⟨rfl, update_of_ne ?_ _ _⟩
    rintro rfl
    -- the owner of `last` is in the queue, and `c'` is not
    obtain ⟨y, hy, rfl⟩ : ∃ y ∈ l.queue, y.2 = k := by
      rw [hq]
      exact List.mem_map.mp hlast
    obtain rfl := h.mem_own hy hk
    exact h.not_mem_queue hc' hy rfl
  · intro x' w' hq'
    obtain ⟨rfl, rfl⟩ : x = x' ∧ w = w' := by
      rw [hq] at hq'
      exact List.cons.inj hq'
    have hne : x.1 ≠ c := (fst_ne_of_nodup hnd hw).symm
    refine ⟨hwait.link hp hw (List.nodup_cons.mp hnd).2 hnd', ?_⟩
    have hfront' : if l.holder = none then Granted s x.2 (s.pc x.1)
        else Holding { s.setPc c (.spin m) with next := update s.next last (some m) } x.2 w
          (s.pc x.1) := by
      split at hfront
      next hnone => rwa [if_pos hnone]
      next hsome =>
        rw [if_neg hsome]
        refine hfront.mono (fun k hk => ?_) fun h => h
        have hne : x.2 ≠ last := by
          rintro rfl
          rw [hnull] at hk
          cases hk
        exact (update_of_ne hne _ _).trans hk
    dsimp only [State.setPc]
    rw [update_of_ne hne]
    exact hfront'

/-- The holder moves on without touching memory. -/
theorem inv_holder {p : Pc N} (h : Inv ⟨some (c, m), w⟩ s) (hh : Holding s m w p) :
    Inv ⟨some (c, m), w⟩ (s.setPc c p) := by
  have hc : (s.pc c).queued = some m := (h.queued c m).mpr List.mem_cons_self
  have hp : p.queued = some m ∧ p.member = some m := by
    cases p with
    | held m' | cas m' => exact ⟨congrArg some hh, congrArg some hh⟩
    | waitNext m' | grant m' k => exact ⟨congrArg some hh.1, congrArg some hh.1⟩
    | _ => cases hh
  have hlocal : Local (s.setPc c p) p := by
    cases p with
    | initNext m' | ready m' | check m' | unreachable => cases hh
    | _ => trivial
  obtain ⟨hwait, -⟩ := h.front _ _ rfl
  refine h.keep p rfl rfl (hp.1.trans hc.symm) (fun k hk => .inl ?_) hlocal
    (fun _ _ _ _ _ => ⟨rfl, rfl⟩) ?_
  · rw [← hk, hp.2]
    exact member_of_queued hc
  · rintro x w' ⟨⟩
    refine ⟨hwait.congr (fun y hy => ?_) (fun _ _ => rfl) fun _ _ => rfl, ?_⟩
    · exact update_of_ne (fst_ne_of_nodup h.nodup hy) _ _
    · change Holding s m w (update s.pc c p c)
      rwa [update_self]

omit [DecidableEq C] in
/-- Only the last member can be in the lock word. -/
theorem lock_eq_iff (h : Inv ⟨some (c, m), w⟩ s) : s.lock = some m ↔ w = [] := by
  have hlock : s.lock = some ((m :: w.map Prod.snd).getLast (List.cons_ne_nil _ _)) :=
    h.lock.trans (getLast_queue (x := (c, m)) (w := w) rfl)
  have hnd : (m :: w.map Prod.snd).Nodup := h.members_nodup
  rw [hlock, Option.some.injEq]
  cases w with
  | nil => simp
  | cons x w =>
    simp only [reduceCtorEq, iff_false]
    intro he
    refine (List.nodup_cons.mp hnd).1 ?_
    rw [List.map_cons, List.getLast_cons (List.cons_ne_nil _ _)] at he
    exact he ▸ List.getLast_mem _

theorem inv_load [DecidableEq N] (h : Inv l s) (hp : s.pc c = .held m) :
    Inv l (s.setPc c (if s.lock = some m then .cas m else .waitNext m)) := by
  obtain ⟨w, rfl, -, -⟩ := h.holding (by rw [hp]; rfl) (by simp [hp]) (by simp [hp])
  apply inv_holder h
  split
  · rfl
  next hne => exact ⟨rfl, fun hw => hne ((lock_eq_iff h).mpr hw)⟩

theorem inv_casFail (h : Inv l s) (hp : s.pc c = .cas m) (hl : s.lock ≠ some m) :
    Inv l (s.setPc c (.waitNext m)) := by
  obtain ⟨w, rfl, -, -⟩ := h.holding (by rw [hp]; rfl) (by simp [hp]) (by simp [hp])
  exact inv_holder h ⟨rfl, fun hw => hl ((lock_eq_iff h).mpr hw)⟩

theorem inv_waitNext (h : Inv l s) (hp : s.pc c = .waitNext m) (hn : s.next m = some n) :
    Inv l (s.setPc c (.grant m n)) := by
  obtain ⟨w, rfl, -, -⟩ := h.holding (by rw [hp]; rfl) (by simp [hp]) (by simp [hp])
  exact inv_holder h ⟨rfl, hn⟩

theorem inv_casOk (h : Inv l s) (hp : s.pc c = .cas m) (hl : s.lock = some m) :
    ∃ l', FifoLock.Step l (.free c) l' ∧ Inv l' { s.setPc c (.check m) with lock := none } := by
  obtain ⟨w, rfl, -, hwait⟩ := h.holding (by rw [hp]; rfl) (by simp [hp]) (by simp [hp])
  obtain rfl := (lock_eq_iff h).mp hl
  refine ⟨⟨none, []⟩, .free, ?_⟩
  refine h.step (.check m) rfl (fun k hk => .inl ?_) hwait (fun _ _ _ _ _ => ⟨rfl, rfl⟩) rfl
    List.nodup_nil (fun k => ?_) (fun x hx => ?_) ?_
  · rw [hp]
    exact hk
  · simp [Pc.queued, FifoLock.queue]
  · have hne : x ≠ (c, m) := fun he => hx (by rw [he])
    simp [FifoLock.queue, hne]
  · rintro x w' ⟨⟩

theorem inv_grant [DecidableEq N] (h : Inv l s) (hp : s.pc c = .grant m n) :
    ∃ l', FifoLock.Step l (.hand c n) l' ∧
      Inv l' { s.setPc c .idle with isLocked := update s.isLocked n true } := by
  obtain ⟨w, rfl, hh, hwait⟩ := h.holding (by rw [hp]; rfl) (by simp [hp]) (by simp [hp])
  rw [hp] at hh
  obtain ⟨b, w, rfl, hb, hwait'⟩ := hwait.linked hh.2
  have hnd := h.nodup
  have hnd' := h.members_nodup
  refine ⟨⟨none, (b, n) :: w⟩, .hand, ?_⟩
  refine h.step .idle rfl (fun k hk => by cases hk) trivial (fun c' k hc hq hk => ?_) ?_ ?_
    (fun k => ?_) (fun x hx => ?_) ?_
  · refine ⟨update_of_ne ?_ _ _, rfl⟩
    rintro rfl
    have hmem : (b, k) ∈ FifoLock.queue ⟨some (c, m), (b, k) :: w⟩ := by simp [FifoLock.queue]
    obtain rfl := h.mem_own hmem hk
    exact h.not_mem_queue hq hmem rfl
  · exact h.lock
  · exact (List.nodup_cons.mp hnd).2
  · constructor
    · intro hk
      cases hk
    · intro hk
      exact absurd (List.mem_map_of_mem hk) (List.nodup_cons.mp hnd).1
  · have hne : x ≠ (c, m) := fun he => hx (by rw [he])
    simp [FifoLock.queue, hne]
  · rintro x w' ⟨⟩
    have hbc : b ≠ c := fst_ne_of_nodup hnd List.mem_cons_self
    refine ⟨hwait'.congr (fun y hy => ?_) (fun y hy => ?_) fun _ _ => rfl, .inr ⟨?_, ?_⟩⟩
    · exact update_of_ne (fst_ne_of_nodup hnd (List.mem_cons_of_mem _ hy)) _ _
    · have hne : y.2 ≠ n := by
        intro he
        exact (List.nodup_cons.mp (List.nodup_cons.mp hnd').2).1 (List.mem_map.mpr ⟨y, hy, he⟩)
      exact update_of_ne hne _ _
    · exact (update_of_ne hbc _ _).trans hb
    · exact update_self ..

/-- A core outside of the queue gives its member up. -/
theorem inv_forget (h : Inv l s) (hp : (s.pc c).queued = none) : Inv l (s.setPc c .idle) := by
  refine h.keep .idle rfl rfl hp.symm (fun k hk => by cases hk) trivial
    (fun _ _ _ _ _ => ⟨rfl, rfl⟩) ?_
  exact h.front.frame (fun x hx => update_of_ne (h.not_mem_queue hp hx) _ _) (fun _ _ => rfl)
    fun _ _ => rfl

omit [DecidableEq C] in
/-- Whatever is written where a member is that nobody uses. -/
theorem inv_unused [DecidableEq N] (h : Inv l s) (hm : ∀ c, (s.pc c).member ≠ some m) (b : Bool)
    (v : Option N) :
    Inv l { s with isLocked := update s.isLocked m b, next := update s.next m v } := by
  have hne : ∀ c k, (s.pc c).member = some k → k ≠ m := by
    rintro c k hk rfl
    exact hm c hk
  refine ⟨h.lock, h.nodup, h.queued, h.own, ?_, fun c => ?_⟩
  · have hqueue : ∀ x ∈ l.queue, x.2 ≠ m := fun x hx =>
      hne x.1 x.2 (member_of_queued ((h.queued x.1 x.2).mpr hx))
    exact h.front.frame (fun _ _ => rfl) (fun x hx => update_of_ne (hqueue x hx) _ _)
      fun x hx => update_of_ne (hqueue x hx) _ _
  · have hhere := h.here c
    have hown := hne c
    change Local _ (s.pc c)
    cases hp : s.pc c with
    | initNext k =>
      rw [hp] at hhere hown
      exact (update_of_ne (hown k rfl) _ _).trans hhere
    | ready k =>
      rw [hp] at hhere hown
      exact ⟨(update_of_ne (hown k rfl) _ _).trans hhere.1,
        (update_of_ne (hown k rfl) _ _).trans hhere.2⟩
    | check k =>
      rw [hp] at hhere hown
      exact (update_of_ne (hown k rfl) _ _).trans hhere
    | unreachable =>
      rw [hp] at hhere
      exact hhere
    | _ => trivial

theorem inv_check (h : Inv l s) (hp : s.pc c = .check m) :
    Inv l (s.setPc c (if s.next m = none then .idle else .unreachable)) := by
  have hn : s.next m = none := by
    have := h.here c
    rwa [hp] at this
  rw [if_pos hn]
  exact inv_forget h (by rw [hp]; rfl)

theorem inv_step [DecidableEq N] (h : Inv l s) (hs : Step s e t) :
    ∃ l', FifoLock.Step l e l' ∧ Inv l' t := by
  cases hs with
  | initLocked hp hm => exact ⟨l, .silent, inv_initLocked h hp hm⟩
  | initNext hp => exact ⟨l, .silent, inv_initNext h hp⟩
  | exchange hp => exact ⟨_, .enter _ _, inv_exchange h hp⟩
  | fast hp => exact inv_acquire h (.inl hp)
  | link hp => exact ⟨l, .silent, inv_link h hp⟩
  | spin hp hl => exact inv_acquire h (.inr ⟨hp, hl⟩)
  | load hp => exact ⟨l, .silent, inv_load h hp⟩
  | casOk hp hl => exact inv_casOk h hp hl
  | casFail hp hl => exact ⟨l, .silent, inv_casFail h hp hl⟩
  | check hp => exact ⟨l, .silent, inv_check h hp⟩
  | waitNext hp hn => exact ⟨l, .silent, inv_waitNext h hp hn⟩
  | grant hp => exact inv_grant h hp

/-- Every run grants the lock first come, first served: nobody else is between lock and
unlock, an unlock empties the lock word or hands over to the next member, and it only spins for
a link that a core behind it still owes. -/
theorem spinlock_correct [DecidableEq N] {isLocked : N → Bool} {next : N → Option N}
    (h : Run Step (initial (C := C) isLocked next) xs s) :
    (∃ l, Run FifoLock.Step FifoLock.empty xs l ∧ (s.lock = none ↔ l.queue = []) ∧
      ∀ c m, s.pc c = .held m → l.holder = some (c, m)) ∧
    (∀ c c' m m', s.pc c = .held m → s.pc c' = .held m' → c = c') ∧
    FifoLock.acquired xs <+: FifoLock.entered xs ∧
    (∀ c, s.pc c ≠ .unreachable) ∧
    ∀ c m, s.pc c = .waitNext m → s.next m = none → ∃ c' n, s.pc c' = .exchanged n (some m) := by
  obtain ⟨l, hl, hinv⟩ : ∃ l, Run FifoLock.Step FifoLock.empty xs l ∧ Inv l s := by
    induction h with
    | refl => exact ⟨_, .refl, inv_initial isLocked next⟩
    | step _ hs ih =>
      obtain ⟨l, hl, hinv⟩ := ih
      obtain ⟨l', hl', hinv'⟩ := inv_step hinv hs
      exact ⟨l', hl.step hl', hinv'⟩
  have hheld : ∀ c m, s.pc c = .held m → l.holder = some (c, m) := by
    intro c m hp
    obtain ⟨w, rfl, -, -⟩ := hinv.holding (by rw [hp]; rfl) (by simp [hp]) (by simp [hp])
    rfl
  refine ⟨⟨l, hl, ?_, hheld⟩, ?_, FifoLock.acquired_prefix hl, ?_, ?_⟩
  · rw [hinv.lock]
    simp
  · intro c c' m m' hc hc'
    have := (hheld c m hc).symm.trans (hheld c' m' hc')
    exact congrArg Prod.fst (Option.some.inj this)
  · intro c hp
    have := hinv.here c
    rwa [hp] at this
  · intro c m hp hn
    obtain ⟨w, -, hh, hwait⟩ := hinv.holding (by rw [hp]; rfl) (by simp [hp]) (by simp [hp])
    rw [hp] at hh
    exact hwait.owed hh.2 hn

/-- Two cores: the second one exchanges while the first holds the lock. -/
theorem spinlock_correct_sample :
    FifoLock.acquired [.silent, .silent, .enter true 1, .acquire true, .silent, .silent,
      .enter false 2] <+:
    FifoLock.entered [.silent, .silent, .enter true 1, .acquire true, .silent, .silent,
      .enter (A := Bool) (N := ℕ) false 2] := by
  have h₁ := Run.step
    (.refl : Run Step (initial (C := Bool) (fun _ : ℕ => true) fun _ => none) [] _)
    (.initLocked (c := true) (m := 1) rfl (by simp [initial, Pc.member]))
  have h₂ := h₁.step (.initNext (c := true) (m := 1) rfl)
  have h₃ := h₂.step (.exchange (c := true) (m := 1) rfl)
  have h₄ := h₃.step (.fast (c := true) (m := 1) rfl)
  have h₅ := h₄.step (.initLocked (c := false) (m := 2) rfl (by
    intro c'
    cases c' <;> simp [initial, State.setPc, Pc.member, update]))
  have h₆ := h₅.step (.initNext (c := false) (m := 2) rfl)
  have h₇ := h₆.step (.exchange (c := false) (m := 2) rfl)
  exact (spinlock_correct h₇).2.2.1

end MyosIo.Spinlock
