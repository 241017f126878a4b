import MyosIo.Sched.Tokens

/-! A thread is in the hands of one core, in `schedulable_threads`, or blocked: a step that takes
it from one of these puts it into another. -/
namespace MyosIo.Sched

open Function

variable {C T P : Type*}

/-- The thread a core has in its hands: the one it runs until it publishes it, then the one it
has removed from a queue. -/
def Pc.hand (r : Option T) : Pc T → Option T
  | .run | .link _ | .incNum _ | .testNum _ | .testIdle _ | .ipi _ | .incOld _ => r
  | .tickFail | .tick => r
  | .tickAppend me => some me
  | .handOff u | .wake u | .switch u | .unlock _ u | .clear _ u | .finish _ u => some u
  | _ => none

def State.hand (s : State C T P) (c : C) : Option T := (s.pc c).hand (s.running c)

variable [DecidableEq C] [DecidableEq T]

def one (u : T) (o : Option T) : ℕ := if o = some u then 1 else 0

/-- Every thread is in exactly one place. -/
def Placed [Fintype C] (s : State C T P) : Prop :=
  ∀ u, s.queue.count u + total (one u) s.hand + (s.blocked u).toNat = 1

variable {s t : State C T P} {e : Event C T} {c d : C} {u : T}

omit [DecidableEq C] [DecidableEq T] in
theorem hand_of_eq (hp : t.pc d = s.pc d) (hr : t.running d = s.running d) :
    t.hand d = s.hand d := by
  rw [State.hand, State.hand, hp, hr]

/-- Threads come into the hands of a core off a wait queue or out of the list. -/
theorem hand_step (hst : Standing s) (hs : Step s e t) (hc : t.hand c = some u) :
    s.hand c = some u ∨ s.blocked u = true ∧ t.blocked u = false ∨ u ∈ s.queue := by
  have hstand := hst c
  cases hs
  all_goals
    simp only [State.setPc, State.append, State.hand, update_apply] at *
  all_goals
    grind -linarith [Pc.hand, Pc.stands]

/-- One core moves a thread at a time. -/
theorem step_places (hst : Standing s) (hb : ∀ c u, s.hand c = some u → s.blocked u = false)
    (hs : Step s e t) : ∃ c, (∀ d ≠ c, t.hand d = s.hand d) ∧ ∀ u,
    t.queue.count u + one u (t.hand c) + (t.blocked u).toNat =
      s.queue.count u + one u (s.hand c) + (s.blocked u).toNat := by
  have hc (c : C) := hst c
  cases hs
  all_goals
    refine ⟨‹C›, fun d hd => hand_of_eq ?_ ?_, fun u => ?_⟩
    · simp [State.setPc, State.append, hd]
    · simp [State.setPc, State.append, hd]
  all_goals
    simp only [State.setPc, State.append, State.hand, update_apply, List.count_append] at *
  all_goals
    grind -linarith [Pc.hand, one, Pc.stands, List.Nodup.count]

variable [Fintype C]

omit [DecidableEq C] in
theorem Placed.count_add (hi : Placed s) (c : C) (u : T) :
    s.queue.count u + one u (s.hand c) + (s.blocked u).toNat ≤ 1 := by
  have := hi u
  have := le_total (one u) s.hand c
  omega

omit [DecidableEq C] in
theorem Placed.not_blocked (hi : Placed s) (h : s.hand c = some u) : s.blocked u = false := by
  have := hi.count_add c u
  cases hb : s.blocked u
  · rfl
  · simp [hb, one, h] at this

omit [DecidableEq C] in
theorem Placed.not_queued (hi : Placed s) (h : s.hand c = some u) : u ∉ s.queue := by
  have := hi.count_add c u
  intro hq
  have := List.count_pos_iff.mpr hq
  simp only [one, h, if_pos] at *
  omega

omit [DecidableEq C] in
theorem Placed.queue_nodup (hi : Placed s) : s.queue.Nodup := by
  refine List.nodup_iff_count_le_one.mpr fun u => ?_
  have := hi u
  omega

theorem Placed.hand_unique (hi : Placed s) (hc : s.hand c = some u) (hd : s.hand d = some u) :
    c = d := by
  by_contra hne
  -- taking the thread out of the hands of `c` leaves it in those of `d`
  have h := total_update (one u) s.hand c none
  have hle := le_total (one u) (update s.hand c none) d
  rw [update_of_ne (Ne.symm hne)] at hle
  have := hi u
  simp only [one, hc, hd, if_pos, reduceCtorEq, if_neg, not_false_eq_true] at *
  omega

theorem placed_step (hst : Standing s) (hi : Placed s) (hs : Step s e t) : Placed t := by
  obtain ⟨c, hframe, hmove⟩ := step_places hst (fun _ _ => hi.not_blocked) hs
  have hup : t.hand = update s.hand c (t.hand c) := by
    funext d
    rcases eq_or_ne d c with rfl | hd
    · simp
    · rw [update_of_ne hd, hframe d hd]
  intro u
  have h := total_update (one u) s.hand c (t.hand c)
  rw [← hup] at h
  have := hi u
  have := hmove u
  omega

variable {bsp : C} {main : T} {proc : C → P} {xs : List (Event C T)}

theorem placed_boot : Placed (boot bsp main proc : State C T P) := by
  intro u
  have h : total (one u) (boot bsp main proc : State C T P).hand =
      (Finset.univ.filter fun c => c = bsp ∧ main = u).card :=
    total_eq_card _ fun c => by
      simp only [boot, State.hand, one]
      by_cases hc : c = bsp <;> simp [hc, Pc.hand]
  rw [h]
  by_cases hu : main = u
  · simp [boot, hu, Finset.filter_eq']
  · simp [boot, hu, Ne.symm hu]

/-- Where a thread may be. -/
inductive Place (C : Type*)
  | listed
  | blocked
  | core (c : C)

def State.at (s : State C T P) (u : T) : Place C → Prop
  | .listed => u ∈ s.queue
  | .blocked => s.blocked u = true
  | .core c => s.hand c = some u

omit [DecidableEq C] in
theorem Placed.exists_place (hi : Placed s) (u : T) : ∃ p, s.at u p := by
  by_contra hno
  have hcount : s.queue.count u = 0 := List.count_eq_zero.mpr fun hq => hno ⟨.listed, hq⟩
  have hblocked : s.blocked u = false := Bool.eq_false_of_not_eq_true fun hb => hno ⟨.blocked, hb⟩
  have hhand : total (one u) s.hand = 0 := total_eq_zero fun c => by
    exact if_neg fun hc => hno ⟨.core c, hc⟩
  have := hi u
  rw [hcount, hblocked, hhand] at this
  simp at this

theorem Placed.place_unique (hi : Placed s) {p q : Place C} (hp : s.at u p) (hq : s.at u q) :
    p = q := by
  cases p with
  | listed =>
    cases q with
    | listed => rfl
    | blocked =>
      have hpos := List.count_pos_iff.mpr hp
      have := hi u
      rw [show s.blocked u = true from hq] at this
      simp only [Bool.toNat_true] at this
      omega
    | core c => exact absurd hp (hi.not_queued hq)
  | blocked =>
    cases q with
    | listed =>
      have hpos := List.count_pos_iff.mpr hq
      have := hi u
      rw [show s.blocked u = true from hp] at this
      simp only [Bool.toNat_true] at this
      omega
    | blocked => rfl
    | core c => exact absurd ((hi.not_blocked hq).symm.trans hp) (by decide)
  | core c =>
    cases q with
    | listed => exact absurd hq (hi.not_queued hp)
    | blocked => exact absurd ((hi.not_blocked hp).symm.trans hq) (by decide)
    | core d => exact congrArg Place.core (hi.hand_unique hp hq)

end MyosIo.Sched
