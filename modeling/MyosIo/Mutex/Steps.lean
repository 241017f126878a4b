import MyosIo.Mutex.Front

/-! Every access to the words of a mutex keeps their invariant. -/
namespace MyosIo.Mutex

open Function

variable {A N : Type*}
  {q q' : Queue A N} {s t : Core A N} {a b : A} {n h w : N} {o : Op N} {c : Cell N}

namespace Core.Inv

theorem fair_of_end (hI : Inv q s) (he : s.waitEnd = none) : q.fair = (none, []) := by
  have hfree : q.view.free := by
    by_contra h
    simp [hI.waitEnd h] at he
  simp [Queue.fair, Queue.waiting, hfree.1, hfree.2, (hI.free hfree).2]

theorem fair_enterFree (hI : Inv q s) (he : s.waitEnd = none) {p : Cell N → Option (A × N)}
    {x : Option A} (c : Cell N) :
    Fair q.fair (.enter n) (Queue.fair ⟨⟨none, [n], c⟩, x, [], p⟩) := by
  rw [hI.fair_of_end he]
  exact .enter

theorem rest_ne_nil (hI : Inv q s) (hf : ¬ q.view.free) (he : s.waitEnd ≠ some q.view.start) :
    q.rest ≠ [] := by
  intro h
  have := hI.waitEnd hf
  rw [h] at this
  exact he this

theorem waiters_ne_mutex (hI : Inv q s) (hs : q.view.start = .waiters) :
    s.mem .waiters ≠ .mutex := by
  intro hm
  have hchain := hI.chain
  rw [hs] at hchain
  obtain ⟨n, -, -, hn⟩ := (links N).chain_value hchain (by simp [hm])
  simp [hm] at hn

/-- The thread at the end of the chain. -/
theorem end_mem (hI : Inv q s) (hs : q.view.start = .waiters) (he : s.waitEnd = some (.temp0 n)) :
    q.rest ≠ [] ∧ n ∈ q.rest := by
  have hf : ¬ q.view.free := fun h => by simp [(hI.free h).1] at he
  have hne : q.rest ≠ [] := hI.rest_ne_nil hf (by rw [he, hs]; simp)
  have hend := hI.waitEnd hf
  rw [he, Option.some.injEq] at hend
  obtain ⟨m, hm, hl⟩ := (links N).lastCell_eq_cell (c := q.view.start) hne
  rw [hl] at hend
  exact ⟨hne, Cell.temp0.inj hend ▸ hm⟩

/-- A release that has lost a race, or has read a link, goes on with the same queue. -/
theorem release_setOp [DecidableEq A] (hI : Inv q s) {p p' : Release N} (ho : s.op a = .release h p)
    (hv : (Op.release h p').view = (Op.release h p).view)
    (hs : Stage s.mem s.owner q.rest (.release h p) → Stage s.mem s.owner q.rest (.release h p')) :
    Inv q (s.setOp a (.release h p')) := by
  have hst := (hI.here a).stage
  rw [ho] at hst
  exact hI.setOp (by rw [hv, ho]) (hs hst) (by simp [ho, Op.owes]) (by simp [Op.node])
    (by simp [Op.nulled]) (by simp)

/-- Every access keeps the invariant and is a step of the mutex as its users see it. -/
theorem step [DecidableEq N] [DecidableEq A] {e : Ev N} (hI : Inv q s) (hs : Core.Step s (a, e) t) :
    ∃ q', Inv q' t ∧ Fair q.fair e q'.fair := by
  cases hs with
  | @fastEnd _ n ho =>
    refine ⟨q, hI.setOp ?_ ?_ ?_ ?_ ?_ ?_, .silent⟩
    all_goals split <;> simp [ho, Op.view, Op.owes, Op.node, Op.nulled, Stage]
  | @fastCas _ n ho he =>
    exact ⟨_, hI.enterFree (by rw [ho]; rfl) he rfl (.inl rfl) fun h _ => h,
      hI.fair_enterFree he _⟩
  | @fastFail _ n ho he =>
    refine ⟨q, hI.setOp ?_ ?_ ?_ ?_ ?_ ?_, .silent⟩
    all_goals simp [ho, Op.view, Op.owes, Op.node, Op.nulled, Stage]
  | @null _ v n ho => exact ⟨q, hI.null ho, .silent⟩
  | @loadEnd _ v n ho =>
    refine ⟨q, hI.setOp ?_ ?_ ?_ ?_ ?_ ?_, .silent⟩
    all_goals
      split <;> cases v <;>
        simp [ho, Op.view, Op.owes, Op.node, Op.nulled, Stage, Enter.afterCas]
  | @casOk _ v n ho he =>
    exact ⟨_, hI.enterFree (by rw [ho]; rfl) he rfl (.inl rfl) fun h _ => h,
      hI.fair_enterFree he _⟩
  | @casFail _ v n ho he =>
    refine ⟨q, hI.setOp ?_ ?_ ?_ ?_ ?_ ?_, .silent⟩
    all_goals
      cases v <;> simp [ho, Op.view, Op.owes, Op.node, Op.nulled, Stage, Enter.afterCas]
  | @exchange _ v n ho =>
    cases he : s.waitEnd with
    | none =>
      have hm := (hI.here a).null n (by simp [ho, Op.nulled])
      exact ⟨_, hI.enterFree (by rw [ho]; rfl) he rfl (.inr ⟨rfl, hm⟩) fun h hw => ⟨h, hw⟩,
        hI.fair_enterFree he _⟩
    | some c =>
      refine ⟨_, hI.exchange ho he, ?_⟩
      have hf : Fair q.fair (.enter n) (q.view.holder, q.waiting ++ [n]) := .enter
      simpa [Queue.fair, Queue.waiting] using hf
  | @casNodeOk _ v n ho he =>
    obtain ⟨-, hq⟩ := hI.agent_eq (a := a) (by rw [ho]; rfl)
    refine ⟨_, hI.casNodeOk ho he, ?_⟩
    simpa [Queue.fair, Queue.waiting, hq] using Fair.silent
  | @casNodeFail _ v n ho he =>
    obtain ⟨-, hq⟩ := hI.agent_eq (a := a) (by rw [ho]; rfl)
    have hst : s.owner = none ∧ s.mem .waiters = .null := by
      simpa [ho, Stage] using (hI.here a).stage
    have hrest : q.rest ≠ [] := by
      intro h
      have := hI.waitEnd (by simp [hq, View.free])
      simp [hq, h] at this
      exact he this
    refine ⟨q, hI.setOp ?_ ⟨hst.1, hrest⟩ ?_ ?_ ?_ ?_, .silent⟩
    all_goals simp [ho, Op.view, Op.owes, Op.node, Op.nulled]
  | @own _ v n ho =>
    obtain ⟨-, hq⟩ := hI.agent_eq (a := a) (by rw [ho]; rfl)
    refine ⟨_, hI.own ho, ?_⟩
    simpa [Queue.fair, Queue.waiting, hq] using Fair.own
  | @ownFollow _ v n ho =>
    obtain ⟨-, hq⟩ := hI.agent_eq (a := a) (by rw [ho]; rfl)
    refine ⟨_, hI.ownFollow ho, ?_⟩
    simpa [Queue.fair, Queue.waiting, hq] using Fair.own
  | @copyLoad _ v n ho hv =>
    have hst : s.owner = some n ∧ q.rest ≠ [] := by simpa [ho, Stage] using (hI.here a).stage
    refine ⟨q, hI.setOp ?_ ⟨hst.1, rfl, hv⟩ ?_ ?_ ?_ ?_, .silent⟩
    all_goals simp [ho, Op.view, Op.owes, Op.node, Op.nulled]
  | @copyStore _ v n x ho =>
    obtain ⟨-, hq⟩ := hI.agent_eq (a := a) (by rw [ho]; rfl)
    refine ⟨_, hI.copyStore ho, ?_⟩
    simpa [Queue.fair, Queue.waiting, hq] using Fair.silent
  | @link _ v n c ho => exact ⟨_, hI.link ho, .queued⟩
  | @loadWaiters _ h ho =>
    obtain ⟨-, hq⟩ := hI.agent_eq (a := a) (by rw [ho]; rfl)
    have hst : s.owner = some h := by simpa [ho, Stage] using (hI.here a).stage
    cases hw : s.mem .waiters with
    | null => exact ⟨q, hI.release_setOp ho rfl id, .silent⟩
    | node w =>
      obtain ⟨r, hr, hI'⟩ := hI.advance (p := .loadNext w) (by rw [ho]; rfl) hw rfl
        fun r _ => .inl hst
      refine ⟨_, hI', ?_⟩
      simpa [Queue.fair, Queue.waiting, hq, hr] using Fair.silent
    | mutex => exact absurd hw (hI.waiters_ne_mutex (by rw [hq]; rfl))
  | @loadEndRelease _ h ho =>
    obtain ⟨-, hq⟩ := hI.agent_eq (a := a) (by rw [ho]; rfl)
    have hst : s.owner = some h := by simpa [ho, Stage] using (hI.here a).stage
    have hend := hI.waitEnd (by simp [hq, View.free])
    cases he : s.waitEnd with
    | none => simp [he] at hend
    | some c =>
      cases c with
      | waiters => exact ⟨q, hI.release_setOp ho rfl id, .silent⟩
      | temp0 e =>
        obtain ⟨hne, hmem⟩ := hI.end_mem (by rw [hq]; rfl) he
        refine ⟨q, hI.release_setOp ho rfl fun _ => ⟨.inl hst, hne, ?_⟩, .silent⟩
        simpa using hmem
  | @clearOwner _ h ho => exact ⟨q, hI.clearOwner ho, .silent⟩
  | @casFree _ h ho he =>
    obtain ⟨-, hq⟩ := hI.agent_eq (a := a) (by rw [ho]; rfl)
    obtain ⟨hrest, hI'⟩ := hI.casFree ho he
    refine ⟨_, hI', ?_⟩
    simpa [Queue.fair, Queue.waiting, hq, hrest] using Fair.free
  | @casFreeFail _ h ho he =>
    obtain ⟨-, hq⟩ := hI.agent_eq (a := a) (by rw [ho]; rfl)
    have hst : s.owner = none := by simpa [ho, Stage] using (hI.here a).stage
    have hend := hI.waitEnd (by simp [hq, View.free])
    cases hx : s.waitEnd with
    | none => simp [hx] at hend
    | some c =>
      cases c with
      | waiters => exact absurd hx he
      | temp0 e =>
        obtain ⟨hne, hmem⟩ := hI.end_mem (by rw [hq]; rfl) hx
        refine ⟨q, hI.release_setOp ho rfl fun _ => ⟨.inr hst, hne, ?_⟩, .silent⟩
        simpa using hmem
  | @spinWaiters _ h e ho hv =>
    obtain ⟨-, hq⟩ := hI.agent_eq (a := a) (by rw [ho]; rfl)
    obtain ⟨hst, -, he⟩ : (s.owner = some h ∨ s.owner = none) ∧ q.rest ≠ [] ∧
        ∀ n ∈ e, n ∈ q.rest := by simpa [ho, Stage] using (hI.here a).stage
    cases hw : s.mem .waiters with
    | null => exact absurd hw hv
    | mutex => exact absurd hw (hI.waiters_ne_mutex (by rw [hq]; rfl))
    | node w =>
      have hadv {p : Release N} := hI.advance (p := p) (by rw [ho]; rfl) hw
      have hfair (r : List N) (hr : q.rest = w :: r) :
          Fair q.fair .silent
            (Queue.fair { q with view := ⟨some h, [w], .temp0 w⟩, rest := r }) := by
        simpa [Queue.fair, Queue.waiting, hq, hr] using Fair.silent
      cases e with
      | none =>
        obtain ⟨r, hr, hI'⟩ := hadv (p := .loadNext w) rfl fun r _ => hst
        exact ⟨_, hI', hfair r hr⟩
      | some e =>
        by_cases hew : e = w
        · obtain ⟨r, hr, hI'⟩ := hadv (p := .clearWaiters w) rfl fun r _ => hst
          exact ⟨_, by simpa [hew] using hI', hfair r hr⟩
        · obtain ⟨r, hr, hI'⟩ := hadv (p := .spinNext w) rfl fun r hr => ⟨hst, fun h => by
            have := he e rfl
            simp [hr, h, hew] at this⟩
          exact ⟨_, by simpa [hew] using hI', hfair r hr⟩
  | @loadNext _ h w ho =>
    by_cases hv : s.mem (.temp0 w) = .null
    · rw [if_pos hv]
      exact ⟨q, hI.release_setOp ho rfl id, .silent⟩
    · rw [if_neg hv]
      exact ⟨q, hI.release_setOp ho rfl fun hst => ⟨hst, rfl, hv⟩, .silent⟩
  | @loadEndNext _ h w ho =>
    obtain ⟨-, hq⟩ := hI.agent_eq (a := a) (by rw [ho]; rfl)
    by_cases he : s.waitEnd = some (.temp0 w)
    · rw [if_pos he]
      exact ⟨q, hI.release_setOp ho rfl id, .silent⟩
    · rw [if_neg he]
      exact ⟨q, hI.release_setOp ho rfl fun hst => ⟨hst, hI.rest_ne_nil (by simp [hq, View.free])
        (by rwa [hq])⟩, .silent⟩
  | @clearWaiters _ h w ho => exact ⟨q, hI.clearWaiters ho, .silent⟩
  | @casLast _ h w ho he =>
    obtain ⟨-, hq⟩ := hI.agent_eq (a := a) (by rw [ho]; rfl)
    refine ⟨_, hI.casLast ho he, ?_⟩
    simpa [Queue.fair, Queue.waiting, hq] using Fair.hand
  | @casLastFail _ h w ho he =>
    obtain ⟨-, hq⟩ := hI.agent_eq (a := a) (by rw [ho]; rfl)
    exact ⟨q, hI.release_setOp ho rfl fun hst => ⟨hst.1, hI.rest_ne_nil (by simp [hq, View.free])
      (by rwa [hq])⟩, .silent⟩
  | @spinNext _ h w ho hv =>
    exact ⟨q, hI.release_setOp ho rfl fun hst => ⟨hst.1, rfl, hv⟩, .silent⟩
  | @storeWaiters _ h w x ho =>
    obtain ⟨-, hq⟩ := hI.agent_eq (a := a) (by rw [ho]; rfl)
    refine ⟨_, hI.storeWaiters ho, ?_⟩
    simpa [Queue.fair, Queue.waiting, hq] using Fair.hand
  | @storeOwner _ h w ho =>
    obtain ⟨-, hq⟩ := hI.agent_eq (a := a) (by rw [ho]; rfl)
    refine ⟨_, hI.storeOwner ho, ?_⟩
    simpa [Queue.fair, Queue.waiting, hq] using Fair.own

/-- A thread that is nowhere in the mutex. -/
def Outside (q : Queue A N) (s : Core A N) (n : N) : Prop :=
  n ∉ q.waiting ∧ q.view.start ≠ .temp0 n ∧ ∀ a, (s.op a).node ≠ some n

theorem enterCall [DecidableEq A] (hI : Inv q s) (hv : (s.op a).view = none ∧ (s.op a).owes = none)
    (hn : Outside q s n)
    (ho : o = .fastEnd n ∨ o = .enter false n .null ∨ o = .enter true n .loadEnd) :
    Inv q (s.setOp a o) := by
  obtain ⟨hwait, hstart, hnode⟩ := hn
  have hagent : q.agent ≠ some a := fun h => by
    have := (hI.here a).agent h
    simp [hv.1] at this
  have hon : o.node = some n ∧ o.view = none ∧ o.owes = none ∧ o.nulled = none ∧
      o ≠ .unreachable := by
    rcases ho with rfl | rfl | rfl <;> simp [Op.node, Op.view, Op.owes, Op.nulled]
  refine { hI with apart := fun b b' m hb hb' => ?_, here := fun b => ?_ }
  · rw [setOp_op, update_apply] at hb hb'
    split at hb <;> split at hb'
    · simp_all
    · exact absurd hb' (by simp_all)
    · exact absurd hb (by simp_all)
    · exact hI.apart b b' m hb hb'
  · by_cases hb : b = a
    · subst hb
      have howes := (hI.here b).owes
      constructor <;> simp only [setOp_op, update_self, hon]
      · simp
      · exact fun h => absurd h hagent
      · exact stage_of_view _ _ _ hon.2.1
      · simpa [hv.2] using howes
      · rintro m ⟨rfl⟩
        exact ⟨hwait, hstart⟩
      · simp
      · exact hon.2.2.2.2
    · obtain ⟨h1, h2, h3, h4, h5, h6, h7⟩ := hI.here b
      constructor <;> simpa [update_of_ne hb]

theorem releaseCall [DecidableEq A] (hI : Inv q s)
    (ho : (s.op a).view = none ∧ (s.op a).owes = none)
    (ha : q.agent = none) (how : s.owner = some h) :
    Inv { q with agent := some a } (s.setOp a (.release h .loadWaiters)) := by
  have hq : q.view = .quiet (some h) := by rw [hI.quiet ha, how]
  refine hI.frontStep rfl rfl (fun _ => rfl) (by simp [ha])
    (fun b hb h => hb (Option.some.inj h).symm) { hI.toChained with quiet := by simp }
    (fun _ => Or.inl) (fun _ => Or.inl) (by simp [hq, Op.view]) how ⟨ho.2, rfl⟩ rfl (by simp)

/-- Whoever got a node back may write its word. -/
theorem write [DecidableEq N] (hI : Inv q s) (hn : Outside q s n) (v : Word N) :
    Inv q { s with mem := update s.mem (.temp0 n) v } := by
  obtain ⟨hwait, hstart, hnode⟩ := hn
  have hout : .temp0 n ∉ (links N).cells q.view.start q.rest := by
    rw [← links_cell, Links.cell_mem_cells]
    rintro (h | h)
    · exact hstart h.symm
    · exact hwait (List.mem_append_right _ h)
  refine { hI with
    chain := (links N).chain_write hI.chain hout _
    here := fun b => hI.bystander rfl rfl rfl rfl (List.prefix_refl _) (by simp) ?_
      (fun _ _ => Iff.rfl) (fun m hm => ((hI.here b).fresh m hm).1) fun m hm h0 => ?_ }
  · simp [update_of_ne hstart]
  · have hmn : m ≠ n := by
      rintro rfl
      exact hnode b hm
    simpa [hmn] using h0

/-- A call has come to its end. -/
theorem idle [DecidableEq A] (hI : Inv q s) (ho : (s.op a).view = none ∧ (s.op a).owes = none) :
    Inv q (s.setOp a .idle) :=
  hI.setOp ho.1.symm trivial ⟨ho.2, rfl⟩ (by simp [Op.node]) (by simp [Op.nulled]) (by simp)

/-- Whoever waits for a first link waits for an agent that still owes it. -/
theorem start_owed (hI : Inv q s) (hr : q.rest ≠ []) (hm : s.mem q.view.start = .null) :
    ∃ b n, (s.op b).owes = some (q.view.start, n) := by
  obtain ⟨b, n, hp⟩ := (links N).chain_owed hI.chain hr hm
  exact ⟨b, n, ((hI.here b).owes _ _).mp hp⟩

end Core.Inv

/-- The cell an agent reads again and again until it is not null. -/
def Op.spins : Op N → Option (Cell N)
  | .enter _ n .copyLoad => some (.temp0 n)
  | .release _ (.spinWaiters _) => some .waiters
  | .release _ (.spinNext w) => some (.temp0 w)
  | _ => none

theorem Core.Inv.spin_owed (hI : Core.Inv q s) (hs : (s.op a).spins = some c)
    (hm : s.mem c = .null) : ∃ b n, (s.op b).owes = some (c, n) := by
  have hst := (hI.here a).stage
  have hv := (hI.here a).busy
  unfold Op.spins at hs
  split at hs
  case h_4 => cases hs
  all_goals
    obtain rfl := Option.some.inj hs
    rename_i ho
    rw [ho] at hst hv
    obtain ⟨-, hq⟩ := hv _ rfl
    have hstart := hI.start_owed (by simp_all [Stage]) (by simpa [hq] using hm)
    simpa [hq] using hstart

end MyosIo.Mutex
