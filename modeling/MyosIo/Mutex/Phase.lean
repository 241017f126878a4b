import MyosIo.Mutex.Steps
import MyosIo.Mutex.Model

/-! What the callers have to know of a thread's place in the words of the mutex. -/
namespace MyosIo.Mutex

open Function

variable {A N : Type*}

/-- `fast` and `before` the thread is in the queue, `inside` until it is the owner or has linked
itself; `owned` until the caller knows; a release is `releasing` until the mutex is free or has been
taken by the next thread, which it then is `handing` over. -/
inductive Phase (N : Type*)
  | idle
  | fast (n : N)
  | before (behalf : Bool) (n : N)
  | inside (behalf : Bool) (n : N)
  | owned (n : N)
  | busy
  | releasing (h : N)
  | handing (h w : N)
  | handed (w : N)
  | unreachable

def Op.phase : Op N → Phase N
  | .idle => .idle
  | .fastEnd n | .fastCas n => .fast n
  | .enter b n .null | .enter b n .loadEnd | .enter b n .cas | .enter b n .exchange => .before b n
  | .enter b n .casNode | .enter b n .own | .enter b n .ownFollow | .enter b n (.link _) =>
    .inside b n
  | .enter _ n .copyLoad | .enter _ n (.copyStore _) | .done (.owner n) => .owned n
  | .done .busy => .busy
  | .done (.handed w) => .handed w
  | .release h (.storeOwner w) => .handing h w
  | .release h _ => .releasing h
  | .unreachable => .unreachable

/-- How an access moves its agent. -/
def Phase.Next : Phase N → Ev N → Phase N → Prop
  | p, .silent, p' => p' = p ∨ (∃ n, p = .fast n) ∧ p' = .busy ∨ p' = .unreachable
  | p, .enter n, p' => p = .fast n ∧ p' = .inside false n ∨ ∃ b, p = .before b n ∧ p' = .inside b n
  | p, .own n, p' => (∃ b, p = .inside b n) ∧ p' = .owned n ∨
      (∃ h, p = .handing h n) ∧ p' = .handed n
  | p, .hand h w, p' => p = .releasing h ∧ p' = .handing h w
  | p, .free h, p' => p = .releasing h ∧ p' = .idle
  | p, .queued n, p' => (∃ b, p = .inside b n) ∧ p' = .idle

variable [DecidableEq A] {q q' : Queue A N} {s t : Core A N} {a b : A} {n h w : N}
  {o : Op N} {e : Ev N}

theorem Fair.cases {x y : Option N × List N} (h : Fair x e y) : match e with
    | .enter n => y.1 = x.1 ∧ y.2 = x.2 ++ [n]
    | .own n => x.1 = none ∧ y.1 = some n ∧ x.2 = n :: y.2
    | .hand h w => x.1 = some h ∧ y.1 = none ∧ y.2 = x.2 ∧ w ∈ x.2
    | .free h => x.1 = some h ∧ x.2 = [] ∧ y.1 = none ∧ y.2 = []
    | .queued _ | .silent => y = x := by
  cases h <;> simp

theorem Core.Step.phase [DecidableEq N] (hs : Core.Step s (a, e) t) :
    t.op = update s.op a (t.op a) ∧ (s.op a).phase.Next e (t.op a).phase := by
  cases hs
  all_goals
    refine ⟨by simp [Core.setOp], ?_⟩
    simp only [Core.setOp, update_self, Enter.afterCas]
  all_goals grind -linarith [Op.phase, Phase.Next]

theorem Core.Step.phase_of_ne [DecidableEq N] (hs : Core.Step s (a, e) t) (hb : b ≠ a) :
    (t.op b).phase = (s.op b).phase := by
  rw [hs.phase.1, update_of_ne hb]

theorem phase_eq_idle : o.phase = .idle ↔ o = .idle := by
  cases o with
  | enter v n p => cases p <;> simp [Op.phase]
  | release h p => cases p <;> simp [Op.phase]
  | done r => cases r <;> simp [Op.phase]
  | _ => simp [Op.phase]

theorem phase_eq_unreachable : o.phase = .unreachable ↔ o = .unreachable := by
  cases o with
  | enter v n p => cases p <;> simp [Op.phase]
  | release h p => cases p <;> simp [Op.phase]
  | done r => cases r <;> simp [Op.phase]
  | _ => simp [Op.phase]

theorem Core.Step.works [DecidableEq N] (hs : Core.Step s (a, e) t) : (s.op a).phase ≠ .idle := by
  rw [Ne, phase_eq_idle]
  cases hs <;> simp_all

theorem phase_of_node (h : o.node = some n) :
    o.phase = .fast n ∨ ∃ b, o.phase = .before b n := by
  unfold Op.node at h
  split at h <;> simp_all [Op.phase]

theorem view_of_inside {v : Bool} (h : o.phase = .inside v n) :
    (∃ c, o.view = some ⟨none, [n], c⟩) ∨ ∃ c, o.owes = some (c, n) := by
  unfold Op.phase at h
  split at h <;> simp_all [Op.view, Op.owes]

theorem view_of_releasing (h' : o.phase = .releasing h) :
    ∃ v, o.view = some v ∧ v.holder = some h := by
  cases o with
  | release k p => cases p <;> simp_all [Op.phase, Op.view]
  | enter v n p => cases p <;> simp_all [Op.phase]
  | done r => cases r <;> simp_all [Op.phase]
  | _ => simp_all [Op.phase]

theorem view_of_handing (h' : o.phase = .handing h w) : o.view = some ⟨none, [w], .waiters⟩ := by
  unfold Op.phase at h'
  split at h' <;> simp_all [Op.view]

/-- A chain starts from a node only while its thread is at the front or copies its link. -/
theorem phase_of_start {v : View N} (h : o.view = some v) (hs : v.start = .temp0 n) :
    n ∈ v.front ∨ o.phase = .owned n := by
  unfold Op.view at h
  split at h <;> cases h <;> simp_all [Op.phase]

/-- Who may have the mutex while an agent is at the front. -/
theorem phase_of_holder {v : View N} (h' : o.view = some v) (hh : v.holder = some h) :
    o.phase = .owned h ∨ o.phase = .releasing h := by
  unfold Op.view at h'
  split at h' <;> cases h' <;> simp_all [Op.phase]

namespace Core.Inv

omit [DecidableEq A] in
theorem waiting_of_owes (hI : Inv q s) {c : Cell N} (h : (s.op a).owes = some (c, n)) :
    n ∈ q.rest := by
  have hp : q.pend c = some (a, n) := ((hI.here a).owes c n).mpr h
  exact (links N).chain_mem_of_owed hI.chain (hI.inside c (by simp [hp])) hp

omit [DecidableEq A] in
theorem waiting_of_inside (hI : Inv q s) {v : Bool} (h : (s.op a).phase = .inside v n) :
    n ∈ q.waiting := by
  rcases view_of_inside h with ⟨c, hc⟩ | ⟨c, hc⟩
  · simp [Queue.waiting, (hI.agent_eq hc).2]
  · exact List.mem_append_right _ (hI.waiting_of_owes hc)

omit [DecidableEq A] in
theorem releasing (hI : Inv q s) (h' : (s.op a).phase = .releasing h) :
    q.agent = some a ∧ q.view.holder = some h := by
  obtain ⟨v, hv, hh⟩ := view_of_releasing h'
  obtain ⟨ha, rfl⟩ := hI.agent_eq hv
  exact ⟨ha, hh⟩

omit [DecidableEq A] in
theorem handing (hI : Inv q s) (h' : (s.op a).phase = .handing h w) :
    q.agent = some a ∧ q.view = ⟨none, [w], .waiters⟩ :=
  hI.agent_eq (view_of_handing h')

omit [DecidableEq A] in
theorem start_phase (hI : Inv q s) (hs : q.view.start = .temp0 n) :
    n ∈ q.waiting ∨ ∃ a, (s.op a).phase = .owned n := by
  cases ha : q.agent with
  | none => simp [hI.quiet ha] at hs
  | some a =>
    refine (phase_of_start ((hI.here a).agent ha) hs).imp ?_ fun h => ⟨a, h⟩
    exact fun h => List.mem_append_left _ h

omit [DecidableEq A] in
/-- The holder is left alone, or an agent is at work for it. -/
theorem holder_phase (hI : Inv q s) (hh : q.view.holder = some h) :
    q.agent = none ∧ s.owner = some h ∨
      ∃ a, (s.op a).phase = .owned h ∨ (s.op a).phase = .releasing h := by
  cases ha : q.agent with
  | none =>
    left
    have := hI.quiet ha
    simp_all
  | some a => exact .inr ⟨a, phase_of_holder ((hI.here a).agent ha) hh⟩

omit [DecidableEq A] in
/-- The same for whom `owner` names. -/
theorem owner_phase (hI : Inv q s) (ho : s.owner = some h) :
    q.agent = none ∧ q.view = .quiet (some h) ∨ ∃ a, (s.op a).phase = .owned h ∨
      (s.op a).phase = .releasing h ∨ ∃ w, (s.op a).phase = .handing h w := by
  cases ha : q.agent with
  | none => exact .inl ⟨rfl, by rw [hI.quiet ha, ho]⟩
  | some a =>
    refine .inr ⟨a, ?_⟩
    have hst := (hI.here a).stage
    have hv := (hI.here a).agent ha
    cases hop : s.op a with
    | release k p =>
      rw [hop] at hst
      cases p <;> simp_all [Stage, Op.phase]
    | enter v n p =>
      rw [hop] at hst hv
      cases p <;> simp_all [Stage, Op.phase, Op.view]
    | _ => simp [hop, Op.view] at hv

/-- A holder is disturbed by its own release only. -/
theorem keeps [DecidableEq N] (hI : Inv q s) (hs : Core.Step s (a, e) t)
    (hf : Fair q.fair e q'.fair) (hh : q.view.holder = some h) (ho : s.owner = some h)
    (hr : (s.op a).phase ≠ .releasing h) : q'.view.holder = some h ∧ t.owner = some h := by
  have hnext := hs.phase.2
  have hfair := hf.cases
  constructor
  · cases e <;> simp_all [Queue.fair, Phase.Next]
  · cases hs with
    | own | ownFollow | storeOwner => simp_all [Queue.fair]
    | clearOwner ho' =>
      have := (hI.releasing (h := _) (a := a) (by rw [ho']; rfl)).2
      simp_all [Op.phase]
    | _ => exact ho

/-- No access touches the node of a thread that is nowhere in the mutex. -/
theorem mem_outside [DecidableEq N] (hI : Inv q s) (hs : Core.Step s (a, e) t) (hw : n ∉ q.waiting)
    (hst : q.view.start ≠ .temp0 n) (hn : (s.op a).node ≠ some n) :
    t.mem (.temp0 n) = s.mem (.temp0 n) := by
  cases hs with
  | @null _ b m ho =>
    have hmn : n ≠ m := by
      rintro rfl
      simp [ho, Op.node] at hn
    simp [hmn]
  | @link _ b m c ho =>
    have hp : q.pend c = some (a, m) := ((hI.here a).owes c m).mpr (by simp [ho, Op.owes])
    have hc := hI.inside c (by simp [hp])
    have hcn : .temp0 n ≠ c := by
      rintro rfl
      rw [← links_cell, Links.cell_mem_cells] at hc
      rcases hc with h | h
      · exact hst h.symm
      · exact hw (List.mem_append_right _ h)
    simp [hcn]
  | _ => simp [Core.setOp]

/-- Whoever makes a thread the owner is the agent at the front, with that thread before it. -/
theorem own_front [DecidableEq N] (hI : Inv q s) (hs : Core.Step s (a, .own n) t) :
    q.agent = some a ∧ q.view.holder = none ∧ q.view.front = [n] ∧ t.owner = some n := by
  cases hs with
  | own ho =>
    obtain ⟨ha, hq⟩ := hI.agent_eq (a := a) (by rw [ho]; rfl)
    simp [ha, hq]
  | ownFollow ho =>
    obtain ⟨ha, hq⟩ := hI.agent_eq (a := a) (by rw [ho]; rfl)
    simp [ha, hq]
  | storeOwner ho =>
    obtain ⟨ha, hq⟩ := hI.agent_eq (a := a) (by rw [ho]; rfl)
    simp [ha, hq]

omit [DecidableEq A] in
/-- The thread at the front does not owe a link any more. -/
theorem inside_front (hI : Inv q s) {v : Bool} (hp : (s.op b).phase = .inside v n)
    (hf : q.view.front = [n]) : q.agent = some b := by
  rcases view_of_inside hp with ⟨c, hc⟩ | ⟨c, hc⟩
  · exact (hI.agent_eq hc).1
  · exact absurd (hI.waiting_of_owes hc) (hI.front n (by simp [hf]))

omit [DecidableEq A] in
theorem outside (hI : Inv q s) (hw : n ∉ q.waiting) (hf : ∀ a, (s.op a).phase ≠ .fast n)
    (hb : ∀ a v, (s.op a).phase ≠ .before v n) (ho : ∀ a, (s.op a).phase ≠ .owned n) :
    Outside q s n := by
  refine ⟨hw, fun h => ?_, fun a h => ?_⟩
  · rcases hI.start_phase h with h | ⟨a, h⟩
    · exact hw h
    · exact ho a h
  · rcases phase_of_node h with h | ⟨v, h⟩
    · exact hf a h
    · exact hb a v h

end Core.Inv
end MyosIo.Mutex
