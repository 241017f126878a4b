import MyosIo.Mutex.Queue

/-! What each kind of access does to the chain: the threads behind it do not notice. -/
namespace MyosIo.Mutex

open Function

variable {A N : Type*} [DecidableEq A]
  {q q' : Queue A N} {s t : Core A N} {a b : A} {n h w : N} {o : Op N} {c : Cell N}

@[simp] theorem links_cell (n : N) : (links N).cell n = .temp0 n := rfl

@[simp] theorem links_ptr (n : N) : (links N).ptr n = .node n := rfl

@[simp] theorem links_null : (links N).null = .null := rfl

theorem waiters_notMem_cells (r : List N) : Cell.waiters ∉ (links N).cells (.temp0 n) r := by
  simp [Links.cells]

/-- What an agent knows survives what the others may do: pay links and lengthen the chain. -/
theorem Stage.mono {mem mem' : Cell N → Word N} {owner : Option N} {rest rest' : List N}
    {v : View N} (hs : Stage mem owner rest o) (hv : o.view = some v)
    (hw : v.start ≠ .waiters → mem' .waiters = mem .waiters)
    (hm : mem v.start ≠ .null → mem' v.start = mem v.start) (hr : rest <+: rest') :
    Stage mem' owner rest' o := by
  have hne : rest ≠ [] → rest' ≠ [] := fun h h' => h (by simpa [h'] using hr)
  have hsub := hr.subset
  unfold Op.view at hv
  split at hv <;> cases hv
  all_goals
    simp only [Stage, View.quiet, ne_eq, reduceCtorEq, not_false_eq_true, forall_const,
      not_true_eq_false, false_imp_iff] at *
  all_goals grind -linarith

namespace Core.Inv

omit [DecidableEq A] in
/-- The cell an entering thread links with is outside the chain. -/
theorem node_outside (hI : Inv q s) (hn : (s.op a).node = some n) :
    .temp0 n ∉ (links N).cells q.view.start q.rest := by
  obtain ⟨hw, hs⟩ := (hI.here a).fresh n hn
  rw [← links_cell, Links.cell_mem_cells]
  rintro (h | h)
  · exact hs h.symm
  · exact hw (List.mem_append_right _ h)

omit [DecidableEq A] in
theorem pend_outside (hI : Inv q s) (hc : c ∉ (links N).cells q.view.start q.rest) :
    q.pend c = none := by
  by_contra h
  exact hc (hI.inside c h)

/-- A step that writes no word, by an agent that keeps its place. -/
theorem setOp (hI : Inv q s) (hv : o.view = (s.op a).view) (hs : Stage s.mem s.owner q.rest o)
    (hw : (s.op a).owes = none ∧ o.owes = none) (hn : ∀ n, o.node = some n → (s.op a).node = some n)
    (h0 : ∀ n, o.nulled = some n → (s.op a).nulled = some n) (hr : o ≠ .unreachable) :
    Inv q (s.setOp a o) where
  chain := hI.chain
  nodup := hI.nodup
  front := hI.front
  free := hI.free
  waitEnd := hI.waitEnd
  quiet := hI.quiet
  inside := hI.inside
  apart b b' n hb hb' := by
    refine hI.apart b b' n ?_ ?_
    · by_cases h : b = a <;> simp_all [Core.setOp]
    · by_cases h : b' = a <;> simp_all [Core.setOp]
  here b := by
    by_cases h : b = a
    · subst h
      obtain ⟨h1, h2, -, h4, h5, h6, -⟩ := hI.here b
      constructor <;> simp only [Core.setOp, update_self] <;> grind -linarith
    · obtain ⟨h1, h2, h3, h4, h5, h6, h7⟩ := hI.here b
      constructor <;> simpa [Core.setOp, update_of_ne h]

omit [DecidableEq A] in
/-- The words as another agent finds them after a step that left the front alone. -/
theorem bystander (hI : Inv q s) (hop : t.op b = s.op b) (hview : q'.view = q.view)
    (hagent : q'.agent = q.agent) (howner : t.owner = s.owner) (hrest : q.rest <+: q'.rest)
    (hw : q.view.start ≠ .waiters → t.mem .waiters = s.mem .waiters)
    (hm : s.mem q.view.start ≠ .null → t.mem q.view.start = s.mem q.view.start)
    (howes : ∀ c n, q'.pend c = some (b, n) ↔ q.pend c = some (b, n))
    (hfresh : ∀ n, (s.op b).node = some n → n ∉ q'.waiting)
    (hnull : ∀ n, (s.op b).node = some n → s.mem (.temp0 n) = .null →
      t.mem (.temp0 n) = .null) : Here q' t b where
  busy v hv := by
    rw [hop] at hv
    rw [hview, hagent]
    exact (hI.here b).busy v hv
  agent hb := by
    rw [hop, hview]
    exact (hI.here b).agent (by rwa [← hagent])
  stage := by
    rw [hop, howner]
    cases hv : (s.op b).view with
    | none => exact stage_of_view _ _ _ hv
    | some v =>
      obtain ⟨-, rfl⟩ := hI.agent_eq hv
      exact (hI.here b).stage.mono hv hw hm hrest
  owes c n := by rw [howes, hop]; exact (hI.here b).owes c n
  fresh n hn := by
    rw [hop] at hn
    rw [hview]
    exact ⟨hfresh n hn, ((hI.here b).fresh n hn).2⟩
  null n hn := by
    rw [hop] at hn
    exact hnull n (node_of_nulled hn) ((hI.here b).null n hn)
  reachable := by rw [hop]; exact (hI.here b).reachable

omit [DecidableEq A] in
/-- An agent whose thread has just entered, or never meant to, owes nothing else. -/
theorem node_ne (hI : Inv q s) (ha : (s.op a).node = some n) (hb : (s.op b).node = some h)
    (hab : b ≠ a) : h ≠ n := by
  rintro rfl
  exact hab (hI.apart b a h hb ha)

theorem apart_step (hI : Inv q s) (hop : t.op = update s.op a o)
    (hn : ∀ n, o.node = some n → (s.op a).node = some n) (b b' : A) (n : N)
    (hb : (t.op b).node = some n) (hb' : (t.op b').node = some n) : b = b' := by
  refine hI.apart b b' n ?_ ?_
  · by_cases h : b = a <;> simp_all
  · by_cases h : b' = a <;> simp_all

theorem null [DecidableEq N] {v : Bool} (hI : Inv q s) (ho : s.op a = .enter v n .null) :
    Inv q { s.setOp a (.enter v n (if v then .exchange else .loadEnd)) with
      mem := update s.mem (.temp0 n) .null } := by
  have hnode : (s.op a).node = some n := by simp [ho, Op.node]
  have hout := hI.node_outside hnode
  have hview : (Op.enter v n (if v then .exchange else .loadEnd)).view = none := by
    cases v <;> rfl
  have hagent : q.agent ≠ some a := fun h => by
    have := (hI.here a).agent h
    simp [ho, Op.view] at this
  refine { hI with
    chain := (links N).chain_write hI.chain hout _
    apart := hI.apart_step rfl ?_
    here := fun b => ?_ }
  · cases v <;> simp [ho, Op.node]
  · by_cases hb : b = a
    · subst hb
      obtain ⟨-, -, -, h4, h5, -, -⟩ := hI.here b
      constructor
      · simp [Core.setOp, hview]
      · exact fun h => absurd h hagent
      · exact stage_of_view _ _ _ (by simpa [Core.setOp] using hview)
      · cases v <;> simpa [Core.setOp, ho, Op.owes] using h4
      · cases v <;> simpa [Core.setOp, ho, Op.node] using h5
      · cases v <;> simp [Core.setOp, Op.nulled]
      · simp [Core.setOp]
    · have hst : .temp0 n ≠ q.view.start := fun h => hout (by simp [Links.cells, h])
      refine hI.bystander (by simp [Core.setOp, hb]) rfl rfl rfl (List.prefix_refl _) ?_ ?_
        (fun _ _ => Iff.rfl) (fun m hm => ((hI.here b).fresh m hm).1) ?_
      · simp
      · simp [update_of_ne (Ne.symm hst)]
      · intro m hm h0
        have := hI.node_ne hnode hm hb
        simpa [this] using h0

/-- The store that pays a link. -/
theorem link [DecidableEq N] {v : Bool} (hI : Inv q s) (ho : s.op a = .enter v n (.link c)) :
    Inv { q with pend := update q.pend c none }
      { s.setOp a .idle with mem := update s.mem c (.node n) } := by
  have hp : q.pend c = some (a, n) := ((hI.here a).owes c n).mpr (by simp [ho, Op.owes])
  have hc : c ∈ (links N).cells q.view.start q.rest := hI.inside c (by simp [hp])
  have hagent : q.agent ≠ some a := fun h => by
    have := (hI.here a).agent h
    simp [ho, Op.view] at this
  refine { hI with
    chain := (links N).chain_link hI.chain hp
    inside := fun d hd => hI.inside d fun h => ?_
    apart := hI.apart_step rfl (by simp [Op.node])
    here := fun b => ?_ }
  · by_cases hdc : d = c <;> simp_all
  · by_cases hb : b = a
    · subst hb
      constructor <;> simp [Core.setOp, Op.view, Op.owes, Op.node, Op.nulled, Stage, hagent]
      intro d m
      by_cases hdc : d = c
      · simp [hdc]
      · have := (hI.here b).owes d m
        simp_all [Op.owes, Ne.symm hdc]
    · have hnull : s.mem c = .null := (links N).chain_null_of_owed hI.chain hc (by simp [hp])
      refine hI.bystander (by simp [Core.setOp, hb]) rfl rfl rfl (List.prefix_refl _) ?_ ?_ ?_
        (fun m hm => ((hI.here b).fresh m hm).1) ?_
      · intro hw
        have hcw : Cell.waiters ≠ c := by
          rintro rfl
          simp [Links.cells, Ne.symm hw] at hc
        simp [hcw]
      · intro hm
        have hcs : q.view.start ≠ c := fun h => hm (h ▸ hnull)
        simp [hcs]
      · intro d m
        by_cases hdc : d = c
        · simp [hdc, hp, Ne.symm hb]
        · simp [hdc]
      · intro m hm h0
        have hcm : .temp0 m ≠ c := by
          rintro rfl
          exact hI.node_outside hm hc
        simpa [hcm] using h0

/-- The exchange that finds the mutex taken. -/
theorem exchange [DecidableEq N] {v : Bool} (hI : Inv q s) (ho : s.op a = .enter v n .exchange)
    (he : s.waitEnd = some c) :
    Inv { q with rest := q.rest ++ [n], pend := update q.pend c (some (a, n)) }
      { s.setOp a (.enter v n (.link c)) with waitEnd := some (.temp0 n) } := by
  have hnode : (s.op a).node = some n := by simp [ho, Op.node]
  have hm : s.mem (.temp0 n) = .null := (hI.here a).null n (by simp [ho, Op.nulled])
  have hout := hI.node_outside hnode
  have hwait := ((hI.here a).fresh n hnode).1
  have hagent : q.agent ≠ some a := fun h => by
    have := (hI.here a).agent h
    simp [ho, Op.view] at this
  have hfree : ¬ q.view.free := fun h => by simp [(hI.free h).1] at he
  have hc : c = (links N).lastCell q.view.start q.rest := by
    have := hI.waitEnd hfree
    simpa [he] using this
  have hcells (d : Cell N) : d ∈ (links N).cells q.view.start (q.rest ++ [n]) ↔
      d ∈ (links N).cells q.view.start q.rest ∨ d = .temp0 n := by
    simp [Links.cells, or_assoc]
  have hpc : q.pend c = none := by
    rw [hc]
    exact ((links N).chain_last hI.chain).2
  refine { hI with
    chain := ?_
    nodup := (links N).cells_nodup_snoc hI.nodup hout
    front := fun m hm' => ?_
    free := fun h => absurd h hfree
    waitEnd := fun _ => by simp
    inside := fun d hd => ?_
    apart := hI.apart_step rfl (by simp [Op.node])
    here := fun b => ?_ }
  · rw [hc]
    exact (links N).chain_enqueue hI.chain hI.nodup hout hm (hI.pend_outside hout) a
  · have hmn : m ≠ n := by
      rintro rfl
      exact hwait (List.mem_append_left _ hm')
    simp [hI.front m hm', hmn]
  · rw [hcells]
    by_cases hdc : d = c
    · rw [hdc, hc]
      exact Or.inl (links N).lastCell_mem_cells
    · exact Or.inl (hI.inside d (by simpa [hdc] using hd))
  · by_cases hb : b = a
    · subst hb
      constructor <;> simp [Core.setOp, Op.view, Op.owes, Op.node, Op.nulled, Stage, hagent]
      intro d m
      by_cases hdc : d = c
      · simp [hdc]
      · have hd := (hI.here b).owes d m
        simp only [ho, Op.owes, reduceCtorEq, iff_false] at hd
        simp [hdc, Ne.symm hdc, hd]
    · refine hI.bystander (by simp [Core.setOp, hb]) rfl rfl rfl (List.prefix_append _ _)
        (fun _ => rfl) (fun _ => rfl) ?_ ?_ (fun _ _ h => h)
      · intro d m
        by_cases hdc : d = c
        · simp [hdc, hpc, Ne.symm hb]
        · simp [hdc]
      · intro m hm'
        have hmn := hI.node_ne hnode hm' hb
        have := ((hI.here b).fresh m hm').1
        simp_all [Queue.waiting]

omit [DecidableEq A] in
theorem agent_of_free (hI : Inv q s) (hf : q.view.free) : q.agent = none := by
  by_contra h
  obtain ⟨a, ha⟩ := Option.ne_none_iff_exists'.mp h
  have hv := (hI.here a).agent ha
  obtain ⟨h1, h2⟩ := hf
  unfold Op.view at hv
  split at hv <;> simp_all [View.quiet] <;> simp [← hv] at h1 h2

/-- A step of the agent at the front: it alone changes the view, and it leaves the words of
the waiting threads alone. -/
theorem frontStep (hI : Inv q s) (hop : t.op = update s.op a o) (hpend : q'.pend = q.pend)
    (hmem : ∀ m, t.mem (.temp0 m) = s.mem (.temp0 m)) (hq : ∀ b ≠ a, q.agent ≠ some b)
    (hq' : ∀ b ≠ a, q'.agent ≠ some b) (hc : Chained q' t)
    (hwait : ∀ m ∈ q'.waiting, m ∈ q.waiting ∨ (s.op a).node = some m)
    (hstart : ∀ m, q'.view.start = .temp0 m →
      q.view.start = .temp0 m ∨ m ∈ q.waiting ∨ (s.op a).node = some m)
    (hview : o.view = if q'.agent = some a then some q'.view else none)
    (hstage : Stage t.mem t.owner q'.rest o)
    (howes : (s.op a).owes = none ∧ o.owes = none) (hnode : o.node = none)
    (hr : o ≠ .unreachable) : Inv q' t where
  toChained := hc
  apart := hI.apart_step hop (by simp [hnode])
  here b := by
    by_cases hb : b = a
    · subst hb
      have hnull (m : N) : o.nulled ≠ some m := fun h => by
        simp [node_of_nulled h] at hnode
      constructor <;> simp only [hop, update_self]
      · intro v hv
        rw [hview] at hv
        split at hv
        · exact ⟨‹_›, Option.some.inj hv⟩
        · cases hv
      · intro h
        rw [hview, if_pos h]
      · exact hstage
      · intro c m
        rw [hpend, (hI.here b).owes, howes.1, howes.2]
      · simp [hnode]
      · exact fun m hm => absurd hm (hnull m)
      · exact hr
    · refine hI.others (by rw [hop, update_of_ne hb]) (hq b hb) (hq' b hb)
        (fun c m => by rw [hpend]) (fun m hm => ⟨fun hw => ?_, fun hs => ?_⟩) fun m _ => hmem m
      · rcases hwait m hw with hw | ha
        · exact ((hI.here b).fresh m hm).1 hw
        · exact hb (hI.apart b a m hm ha)
      · rcases hstart m hs with hs | hw | ha
        · exact ((hI.here b).fresh m hm).2 hs
        · exact ((hI.here b).fresh m hm).1 hw
        · exact hb (hI.apart b a m hm ha)

/-- Whoever finds no `wait_end` becomes the agent at the front of an empty queue. -/
theorem enterFree {c : Cell N} (hI : Inv q s) (hnode : (s.op a).node = some n)
    (he : s.waitEnd = none) (hv : o.view = some ⟨none, [n], c⟩)
    (hc : c = .waiters ∨ c = .temp0 n ∧ s.mem (.temp0 n) = .null)
    (hs : s.owner = none → s.mem .waiters = .null → Stage s.mem s.owner [] o) :
    Inv { q with view := ⟨none, [n], c⟩, agent := some a, rest := [] }
      { s.setOp a o with waitEnd := some c } := by
  have hfree : q.view.free := by
    by_contra h
    simp [hI.waitEnd h] at he
  have hnone := hI.agent_of_free hfree
  have hq : q.view = .quiet s.owner := hI.quiet hnone
  have howner : s.owner = none := by
    have := hfree.1
    rwa [hq] at this
  have hrest := (hI.free hfree).2
  have hchain := hI.chain
  rw [hq, hrest] at hchain
  obtain ⟨hw, hpw⟩ : s.mem .waiters = .null ∧ q.pend .waiters = none := hchain
  have hpend (d : Cell N) : q.pend d = none := by
    by_contra h
    have hd := hI.inside d h
    rw [hq, hrest] at hd
    obtain rfl : d = .waiters := by simpa [Links.cells, View.quiet] using hd
    exact h hpw
  have hop : o ≠ .unreachable := by
    rintro rfl
    simp [Op.view] at hv
  have hne : o.view ≠ none := by simp [hv]
  have hcell : s.mem c = .null := by
    rcases hc with rfl | ⟨rfl, h⟩
    · exact hw
    · exact h
  have hchained : Chained { q with view := ⟨none, [n], c⟩, agent := some a, rest := [] }
      { s.setOp a o with waitEnd := some c } :=
    { chain := ⟨hcell, hpend c⟩
      nodup := by simp [Links.cells]
      front := by simp
      free := fun h => by simp [View.free] at h
      waitEnd := fun _ => rfl
      quiet := by simp
      inside := fun d hd => absurd (hpend d) hd }
  refine hI.frontStep rfl rfl (fun _ => rfl) (by simp [hnone])
    (fun b hb h => hb (Option.some.inj h).symm) hchained (by simp [Queue.waiting, hnode]) ?_
    (by simpa using hv) (hs howner hw) ⟨owes_of_node hnode, owes_of_view hne⟩ (node_of_view hne)
    hop
  intro m hm
  rcases hc with rfl | ⟨rfl, -⟩
  · cases hm
  · exact Or.inr (Or.inr (by rw [hnode, Cell.temp0.inj hm]))

omit [DecidableEq A] in
theorem waiters_pend (hI : Inv q s) (hs : q.view.start = .temp0 n) : q.pend .waiters = none :=
  hI.pend_outside (by rw [hs]; exact waiters_notMem_cells _)

omit [DecidableEq A] in
theorem rest_of_end (hI : Inv q s) (hf : ¬ q.view.free) (he : s.waitEnd = some q.view.start) :
    q.rest = [] := by
  rw [hI.waitEnd hf, Option.some.injEq] at he
  exact ((links N).lastCell_eq_head hI.nodup).mp he

/-- The compare-exchange that finds nobody in the chain: it starts from `waiters` again. -/
theorem restart (hI : Inv q s) (hs : q.view.start = .temp0 n) (hf : ¬ q.view.free)
    (he : s.waitEnd = some (.temp0 n)) (hw : s.mem .waiters = .null) {v : View N}
    (hvs : v.start = .waiters) (hvf : ¬ v.free) (ha : q.agent ≠ none) (o : Op N) :
    Chained { q with view := v } { s.setOp a o with waitEnd := some .waiters } := by
  have hrest : q.rest = [] := hI.rest_of_end hf (by rw [he, hs])
  have hpw := hI.waiters_pend hs
  have hchain := hI.chain
  simp only [hrest, hs] at hchain
  have hpend (d : Cell N) : q.pend d = none := by
    by_contra h
    have hd := hI.inside d h
    rw [hs, hrest] at hd
    obtain rfl : d = .temp0 n := by simpa [Links.cells] using hd
    exact h hchain.2
  exact
    { chain := by rw [hvs, hrest]; exact ⟨hw, hpw⟩
      nodup := by simp [hrest, Links.cells]
      front := by simp [hrest]
      free := fun h => absurd h hvf
      waitEnd := fun _ => by simp [hrest, hvs]
      quiet := fun h => absurd h ha
      inside := fun d hd => absurd (hpend d) hd }

/-- The one thread that waits is the front, and the chain starts anew behind it. -/
theorem closeLast {o : Op N} {h : Option N} (hI : Inv q s)
    (hv : (s.op a).view = some ⟨h, [w], .temp0 w⟩) (hn : (s.op a).owes = none)
    (hm : s.mem .waiters = .null) (he : s.waitEnd = some (.temp0 w))
    (ho : o.view = some ⟨none, [w], .waiters⟩) (hstage : ∀ rest, Stage s.mem s.owner rest o)
    (howes : o.owes = none) (hnode : o.node = none) :
    Inv { q with view := ⟨none, [w], .waiters⟩ }
      { s.setOp a o with waitEnd := some .waiters } := by
  obtain ⟨ha, hq⟩ := hI.agent_eq hv
  refine hI.frontStep rfl rfl (fun _ => rfl) (fun b hb h => hb (by simpa [ha] using h.symm))
    (fun b hb h => hb (by simpa [ha] using h.symm))
    (hI.restart (by rw [hq]) (by simp [hq, View.free]) he hm rfl ?_ ?_ _)
    (fun m hm => Or.inl (by simpa [Queue.waiting, hq] using hm)) (by simp) (by simp [ha, ho])
    (hstage _) ⟨hn, howes⟩ hnode (fun h => by simp [h, Op.view] at ho)
  · simp [View.free]
  · simp [ha]

theorem casNodeOk {v : Bool} (hI : Inv q s) (ho : s.op a = .enter v n .casNode)
    (he : s.waitEnd = some (.temp0 n)) :
    Inv { q with view := ⟨none, [n], .waiters⟩ }
      { s.setOp a (.enter v n .own) with waitEnd := some .waiters } := by
  have hst : s.owner = none ∧ s.mem .waiters = .null := by
    simpa [ho, Stage] using (hI.here a).stage
  exact hI.closeLast (by rw [ho]; rfl) (by rw [ho]; rfl) hst.2 he rfl (fun _ => hst.1) rfl rfl

/-- The front of the chain becomes the owner, and the agent is done. -/
theorem settle (r : Result N) (hI : Inv q s) (hv : (s.op a).view = some ⟨none, [w], .waiters⟩)
    (hn : (s.op a).owes = none) : Inv { q with view := .quiet (some w), agent := none }
      { s.setOp a (.done r) with owner := some w } := by
  obtain ⟨ha, hq⟩ := hI.agent_eq hv
  refine hI.frontStep rfl rfl (fun _ => rfl) (fun b hb h => hb (by simpa [ha] using h.symm))
    (fun b hb h => by simp at h) (hI.turn rfl rfl ?_ ?_ ?_ ?_ ?_) (fun m hm => Or.inl ?_) ?_ rfl
    trivial ⟨hn, rfl⟩ rfl (by simp)
  · simp [hq]
  · simp
  · simp [hq, View.free]
  · simp [View.free]
  · simp
  · exact List.mem_append_right _ (by simpa [Queue.waiting] using hm)
  · simp

theorem own {v : Bool} (hI : Inv q s) (ho : s.op a = .enter v n .own) :
    Inv { q with view := .quiet (some n), agent := none }
      { s.setOp a (.done (.owner n)) with owner := some n } :=
  hI.settle _ (by rw [ho]; rfl) (by rw [ho]; rfl)

theorem ownFollow {v : Bool} (hI : Inv q s) (ho : s.op a = .enter v n .ownFollow) :
    Inv { q with view := ⟨some n, [], .temp0 n⟩ }
      { s.setOp a (.enter v n .copyLoad) with owner := some n } := by
  obtain ⟨ha, hq⟩ := hI.agent_eq (a := a) (by rw [ho]; rfl)
  have hst : s.owner = none ∧ q.rest ≠ [] := by simpa [ho, Stage] using (hI.here a).stage
  refine hI.frontStep rfl rfl (fun _ => rfl) (fun b hb h => hb (by simpa [ha] using h.symm))
    (fun b hb h => hb (by simpa [ha] using h.symm)) (hI.turn rfl rfl ?_ ?_ ?_ ?_ ?_)
    (fun m hm => Or.inl ?_) ?_ (by simp [ha, Op.view]) ⟨rfl, hst.2⟩ (by simp [ho, Op.owes]) rfl
    (by simp)
  · simp [hq]
  · simp
  · simp [hq, View.free]
  · simp [View.free]
  · simp [ha]
  · exact List.mem_append_right _ (by simpa [Queue.waiting] using hm)
  · simp [hq]

/-- The first link of the chain is stored, and the chain starts from `waiters` again. -/
theorem retarget [DecidableEq N] (hI : Inv q s) (hs : q.view.start = .temp0 n) (hf : ¬ q.view.free)
    (hv : s.mem (.temp0 n) ≠ .null) {v : View N} {b : Option A} (hvs : v.start = .waiters)
    (hvf : ¬ v.free) (hfront : ∀ m ∈ v.front, m ∉ q.rest)
    (hquiet : b = none → v = .quiet s.owner) (o : Op N) :
    Chained { q with view := v, agent := b }
      { s.setOp a o with mem := update s.mem .waiters (s.mem (.temp0 n)) } := by
  have hchain := hI.chain
  rw [hs] at hchain
  obtain ⟨m, r, hr, hm⟩ := (links N).chain_value hchain hv
  have hout : Cell.waiters ∉ (links N).cells (.temp0 n) q.rest := waiters_notMem_cells _
  refine ⟨?_, ?_, hfront, fun h => absurd h hvf, fun _ => ?_, hquiet, fun c hc => ?_⟩
  · rw [hvs, hm, hr]
    exact (links N).chain_retarget (hr ▸ hchain) (hr ▸ hout) (hI.waiters_pend hs)
  · rw [hvs, Links.cells_nodup_iff]
    refine ⟨by simp, ?_⟩
    have := hI.nodup
    rw [Links.cells_nodup_iff] at this
    exact this.2
  · have := hI.waitEnd hf
    rw [hs, hr] at this
    simpa [hvs, hr] using this
  · have hin := hI.inside c hc
    rw [hs] at hin
    rw [hvs]
    rcases List.mem_cons.mp hin with rfl | hin
    · rw [hr] at hchain
      rcases hchain.1 with ⟨-, hp⟩ | ⟨h0, -⟩
      · exact absurd hp hc
      · exact absurd h0 hv
    · exact List.mem_cons_of_mem _ hin

theorem copyStore [DecidableEq N] {v : Bool} {x : Word N} (hI : Inv q s)
    (ho : s.op a = .enter v n (.copyStore x)) :
    Inv { q with view := .quiet (some n), agent := none }
      { s.setOp a (.done (.owner n)) with mem := update s.mem .waiters x } := by
  obtain ⟨ha, hq⟩ := hI.agent_eq (a := a) (by rw [ho]; rfl)
  obtain ⟨how, rfl, hx⟩ : s.owner = some n ∧ s.mem (.temp0 n) = x ∧ x ≠ .null := by
    simpa [ho, Stage] using (hI.here a).stage
  refine hI.frontStep rfl rfl (fun _ => rfl) (fun b hb h => hb (by simpa [ha] using h.symm))
    (fun b hb h => by simp at h)
    (hI.retarget (by rw [hq]) (by simp [hq, View.free]) hx rfl ?_ ?_ ?_ _)
    (fun m hm => Or.inl ?_) ?_ rfl trivial (by simp [ho, Op.owes]) rfl (by simp)
  · simp [View.free]
  · simp
  · simp [how]
  · exact List.mem_append_right _ (by simpa [Queue.waiting] using hm)
  · simp

/-- The load that reads the first waiting thread: the chain is followed from its node. -/
theorem advance {p : Release N} (hI : Inv q s) (hv : (s.op a).view = some (.quiet (some h)))
    (hm : s.mem .waiters = .node w) (ho : (Op.release h p).view = some ⟨some h, [w], .temp0 w⟩)
    (hs : ∀ r, q.rest = w :: r → Stage s.mem s.owner r (.release h p)) :
    ∃ r, q.rest = w :: r ∧ Inv { q with view := ⟨some h, [w], .temp0 w⟩, rest := r }
      (s.setOp a (.release h p)) := by
  obtain ⟨ha, hq⟩ := hI.agent_eq hv
  have hchain := hI.chain
  rw [hq] at hchain
  obtain ⟨r, hr, hp⟩ := (links N).chain_head hchain hm
  have hnd := hI.nodup
  rw [hq, hr] at hnd
  have hnd' : w ∉ r ∧ r.Nodup := by
    rw [Links.cells_nodup_iff] at hnd
    simpa using hnd.2
  have hne : (Op.release h p).view ≠ none := by simp [ho]
  have hchained : Chained { q with view := ⟨some h, [w], .temp0 w⟩, rest := r }
      (s.setOp a (.release h p)) :=
    { chain := (hr ▸ hchain).2
      nodup := (links N).cells_nodup_tail hnd
      front := by simpa using hnd'.1
      free := fun h => by simp [View.free] at h
      waitEnd := fun _ => by
        have := hI.waitEnd (by simp [hq, View.free])
        simpa [hq, hr] using this
      quiet := by simp [ha]
      inside := fun c hc => by
        have := hI.inside c hc
        rw [hq, hr] at this
        rcases List.mem_cons.mp this with rfl | h
        · exact absurd hp hc
        · simpa [Links.cells] using h }
  refine ⟨r, hr, hI.frontStep rfl rfl (fun _ => rfl)
    (fun b hb h => hb (by simpa [ha] using h.symm)) (fun b hb h => hb (by simpa [ha] using h.symm))
    hchained ?_ ?_ (by simpa [ha] using ho) (hs r hr)
    ⟨owes_of_view (by rw [hv]; simp), owes_of_view hne⟩ (node_of_view hne) (by simp)⟩
  · intro m hm
    exact Or.inl (by simpa [Queue.waiting, hq, hr] using hm)
  · simp [Queue.waiting, hq, hr]

theorem clearOwner (hI : Inv q s) (ho : s.op a = .release h .clearOwner) :
    Inv q { s.setOp a (.release h .casFree) with owner := none } := by
  obtain ⟨ha, hq⟩ := hI.agent_eq (a := a) (by rw [ho]; rfl)
  refine hI.frontStep rfl rfl (fun _ => rfl) (fun b hb h => hb (by simpa [ha] using h.symm))
    (fun b hb h => hb (by simpa [ha] using h.symm)) ?_ (fun _ => Or.inl) (fun _ => Or.inl)
    (by simp [ha, hq, Op.view]) rfl (by simp [ho, Op.owes]) rfl (by simp)
  exact { hI.toChained with quiet := by simp [ha] }

theorem casFree (hI : Inv q s) (ho : s.op a = .release h .casFree)
    (he : s.waitEnd = some .waiters) :
    q.rest = [] ∧ Inv { q with view := .quiet none, agent := none }
      { s.setOp a .idle with waitEnd := none } := by
  obtain ⟨ha, hq⟩ := hI.agent_eq (a := a) (by rw [ho]; rfl)
  have hst : s.owner = none := by simpa [ho, Stage] using (hI.here a).stage
  have hrest : q.rest = [] := hI.rest_of_end (by simp [hq, View.free]) (by simpa [hq] using he)
  have hchained : Chained { q with view := .quiet none, agent := none }
      { s.setOp a .idle with waitEnd := none } :=
    { chain := by simpa [hq] using hI.chain
      nodup := by simpa [hq] using hI.nodup
      front := by simp
      free := fun _ => ⟨rfl, hrest⟩
      waitEnd := fun h => absurd ⟨rfl, rfl⟩ h
      quiet := fun _ => by rw [← hst]; rfl
      inside := by simpa [hq] using hI.inside }
  refine ⟨hrest, hI.frontStep rfl rfl (fun _ => rfl)
    (fun b hb h => hb (by simpa [ha] using h.symm)) (fun b hb h => by simp at h) hchained ?_ ?_ rfl
    trivial (by simp [ho, Op.owes]) rfl (by simp)⟩
  · simp [Queue.waiting, hrest]
  · simp

theorem clearWaiters [DecidableEq N] (hI : Inv q s) (ho : s.op a = .release h (.clearWaiters w)) :
    Inv q { s.setOp a (.release h (.casLast w)) with mem := update s.mem .waiters .null } := by
  obtain ⟨ha, hq⟩ := hI.agent_eq (a := a) (by rw [ho]; rfl)
  have hst : s.owner = some h ∨ s.owner = none := by simpa [ho, Stage] using (hI.here a).stage
  refine hI.frontStep rfl rfl (fun m => by simp) (fun b hb h => hb (by simpa [ha] using h.symm))
    (fun b hb h => hb (by simpa [ha] using h.symm)) ?_ (fun _ => Or.inl) (fun _ => Or.inl)
    (by simp [ha, hq, Op.view]) ⟨hst, by simp⟩ (by simp [ho, Op.owes]) rfl (by simp)
  have hchain := (links N).chain_write hI.chain
    (by rw [hq]; exact waiters_notMem_cells _ : Cell.waiters ∉ _) .null
  exact { hI.toChained with
    chain := hchain
    quiet := by simp [ha] }

theorem casLast (hI : Inv q s) (ho : s.op a = .release h (.casLast w))
    (he : s.waitEnd = some (.temp0 w)) :
    Inv { q with view := ⟨none, [w], .waiters⟩ }
      { s.setOp a (.release h (.storeOwner w)) with waitEnd := some .waiters } := by
  have hst : (s.owner = some h ∨ s.owner = none) ∧ s.mem .waiters = .null := by
    simpa [ho, Stage] using (hI.here a).stage
  exact hI.closeLast (by rw [ho]; rfl) (by rw [ho]; rfl) hst.2 he rfl (fun _ => hst.1) rfl rfl

theorem storeWaiters [DecidableEq N] {x : Word N} (hI : Inv q s)
    (ho : s.op a = .release h (.storeWaiters w x)) : Inv { q with view := ⟨none, [w], .waiters⟩ }
      { s.setOp a (.release h (.storeOwner w)) with mem := update s.mem .waiters x } := by
  obtain ⟨ha, hq⟩ := hI.agent_eq (a := a) (by rw [ho]; rfl)
  obtain ⟨hst, rfl, hx⟩ : (s.owner = some h ∨ s.owner = none) ∧ s.mem (.temp0 w) = x ∧
      x ≠ .null := by simpa [ho, Stage] using (hI.here a).stage
  have hfront : w ∉ q.rest := hI.front w (by simp [hq])
  refine hI.frontStep rfl rfl (fun _ => by simp) (fun b hb h => hb (by simpa [ha] using h.symm))
    (fun b hb h => hb (by simpa [ha] using h.symm))
    (hI.retarget (by rw [hq]) (by simp [hq, View.free]) hx rfl ?_ ?_ ?_ _)
    (fun m hm => Or.inl (by simpa [Queue.waiting, hq] using hm)) (by simp) (by simp [ha, Op.view])
    hst (by simp [ho, Op.owes]) rfl (by simp)
  · simp [View.free]
  · simpa using hfront
  · simp [ha]

theorem storeOwner (hI : Inv q s) (ho : s.op a = .release h (.storeOwner w)) :
    Inv { q with view := .quiet (some w), agent := none }
      { s.setOp a (.done (.handed w)) with owner := some w } :=
  hI.settle _ (by rw [ho]; rfl) (by rw [ho]; rfl)

end Core.Inv
end MyosIo.Mutex
