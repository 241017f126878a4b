import MyosIo.Mutex.Calm
import MyosIo.Mutex.Passing

/-! Who is moved, from where to where. -/
namespace MyosIo.Mutex

open Function

variable {K T : Type*} [DecidableEq T] {q q' : Queue T T} {loc : T → Loc K T}
  {s t : State K T} {a b n m w x : T} {k : K} {d : Bool} {r : List T}

namespace Inv

omit [DecidableEq T] in
/-- A thread a broadcast leaves alone sleeps, with the mutex. -/
theorem sleeps_of_null (hI : Inv q loc s) (hp : s.pc a = .temp n)
    (hm : s.core.mem (.temp0 n) = .null) : s.pc n = .asleep true := by
  have hn : loc n = .hand a := (hI.hand n a).mpr (.inl hp)
  have hdeep := (hI.kept n).waits (.inr (.inr ⟨a, hp⟩))
  have hlink := (hI.here n).linking
  cases hpc : s.pc n <;> simp_all [Pc.deep, Pc.linking]

omit [DecidableEq T] in
theorem asleep (hI : Inv q loc s) (h : (s.pc n).sleeps) :
    (∃ d, s.pc n = .asleep d) ∧ (s.core.op n).phase = .idle := by
  have hfit := (hI.here n).fits
  cases hpc : s.pc n <;> simp_all [Pc.sleeps, Fits]

/-- Only the node of the last thread of a list is written. -/
theorem alNode_last {l : List T} {f : T → Option T} {x : T} (hx : x ∉ l) (v : Option T) :
    (match l.getLast? with
      | none => f
      | some p => update f p v) x = f x := by
  cases h : l.getLast? with
  | none => rfl
  | some p =>
    have hxp : x ≠ p := by
      rintro rfl
      exact hx (List.mem_of_getLast? h)
    simp [hxp]

/-- The node of a thread that has no use for it is not the last one of a batch. -/
theorem alNode_unused (hI : Inv q loc s) {x : T} (hx : Unused loc s x) (v : Option T) :
    (match (s.batch a).getLast? with
      | none => s.alNode
      | some p => update s.alNode p v) x = s.alNode x := by
  refine alNode_last (fun h => ?_) v
  have hl := (hI.batch x a).mpr (.inl h)
  simp [Unused, hl] at hx

omit [DecidableEq T] in
/-- The threads a broadcast has in its batch sleep. -/
theorem batch_sleeps (hI : Inv q loc s) (ha : ¬ (s.pc a).sleeps) (hx : x ∈ s.batch a) :
    x ≠ a ∧ (s.pc x).sleeps := by
  have hs := (hI.here a).sleeps x ((hI.batch x a).mpr (.inl hx))
  refine ⟨?_, hs⟩
  rintro rfl
  exact ha hs

omit [DecidableEq T] in
/-- The thread a release has to wake. -/
theorem given_sleeps (hI : Inv q loc s) (ho : s.core.op a = .done (.handed w)) :
    loc w = .given a ∧ (w ≠ a → (s.pc w).sleeps) := by
  have hw : loc w = .given a := (hI.given w a).mpr (by rw [ho]; rfl)
  exact ⟨hw, ((hI.here a).given w hw).resolve_right⟩

theorem append [DecidableEq K] (hI : Inv q loc s) (hp : s.pc a = .waitAppend k d) :
    Inv q (update loc a (.cond k))
      { s.setPc a (.waitLink k d) with cond := update s.cond k (s.cond k ++ [a]) } := by
  have hidle : (s.core.op a).phase = .idle := by simpa [hp, Fits] using (hI.here a).fits
  have hl : loc a = .self := (hI.self a).mpr (by simp [hp, hidle, Pc.runs])
  have ha : a ∉ s.cond k := fun h => by simpa [hl] using (hI.cond a k).mpr h
  have hm : Passes loc a s
      { s.setPc a (.waitLink k d) with cond := update s.cond k (s.cond k ++ [a]) } := by
    constructor
    case cond =>
      intro i _ hne
      by_cases hi : i = k
      · subst hi
        simp [List.head?_append_of_ne_nil _ hne]
      · simp [hi, hne]
    all_goals simp +contextual [State.setPc, hp, hl, Pc.sleeps, Pc.parked]
  have hP : Placed q (update loc a (.cond k))
      { s.setPc a (.waitLink k d) with cond := update s.cond k (s.cond k ++ [a]) } := by
    refine hI.toPlaced.move_one hm hl ⟨trivial, trivial⟩ ?_ fun x p hnear hx => ?_
    · simp [At, State.setPc, Pc.runs]
    · cases p with
      | self =>
        have hxa : x ≠ a := by simpa using hx
        simp [At, State.setPc, hxa]
      | ready => by_cases hxa : x = a <;> simp [At, State.setPc, hxa, hp]
      | cond i =>
        by_cases hi : i = k
        · have hxa : x ≠ a := by simpa [hi] using hx
          simp [At, hi, hxa]
        · simp [At, hi]
      | hand b | batch b =>
        obtain rfl : b = a := hnear
        simp [At, State.setPc, hp]
      | _ => exact Iff.rfl
  refine hI.pass hm hI.core hP (fun x hx _ => .inl (update_of_ne hx ..)) (fun i => ?_) ?_
    fun hT x => ?_
  · by_cases hi : i = k
    · have hne (x) (hx : x ∈ s.cond k) : x ≠ a := fun h => ha (h ▸ hx)
      simpa [hi, List.nodup_append] using ⟨hI.condNodup k, hne⟩
    · simpa [hi] using hI.condNodup i
  · exact hP.local_of_empty hidle (by simp [State.setPc, Fits]) (by simp [State.setPc, Pc.clears])
      (fun _ => ⟨k, update_self ..⟩) ((hI.here a).walks (by simp [hp, Pc.walks]))
  · by_cases hx : x = a
    · subst hx
      have hmem := (hI.kept x).append k d hp
      exact hI.kept_taken hT hm (.inl ⟨k, by simp⟩) (by simp)
        (by simpa [State.setPc, Pc.deep] using hmem) (by simp [State.setPc])
        (by simp [hp, Pc.holds])
    · exact hI.kept_still hT hm (update_of_ne hx ..) (fun h => absurd h hx) fun _ => rfl

theorem clear [DecidableEq K] (hI : Inv q loc s) (hp : s.pc a = .clearExchange k) :
    Inv q (fun x => if x ∈ s.cond k then .chain a else loc x)
      { s.setPc a (.clearUnlock k) with
        cond := update s.cond k []
        chain := update s.chain a (s.cond k) } := by
  have hidle : (s.core.op a).phase = .idle := by simpa [hp, Fits] using (hI.here a).fits
  have hl : loc a = .self := (hI.self a).mpr (by simp [hp, hidle, Pc.runs])
  have ha (x) (hx : x ∈ s.cond k) : x ≠ a := by
    rintro rfl
    simpa [hl] using (hI.cond x k).mpr hx
  have hlock : s.condLock k = some a := (hI.here a).lock k (by simp [hp, Pc.clears])
  obtain ⟨hchain, hbatch⟩ := (hI.here a).walks (by simp [hp, Pc.walks])
  have hm : Passes loc a s
      { s.setPc a (.clearUnlock k) with
        cond := update s.cond k []
        chain := update s.chain a (s.cond k) } := by
    constructor
    case cond =>
      intro i hi hne
      have hik : i ≠ k := by
        rintro rfl
        exact hi hlock
      simp [hik, hne]
    all_goals simp +contextual [State.setPc, hp, Pc.sleeps, Pc.parked, Pc.linking]
  have hP : Placed q (fun x => if x ∈ s.cond k then .chain a else loc x)
      { s.setPc a (.clearUnlock k) with
        cond := update s.cond k []
        chain := update s.chain a (s.cond k) } := by
    refine hI.toPlaced.move hm (fun x => (hI.cond x k).mpr) ⟨trivial, rfl⟩ ?_
      fun x p hnear hx => ?_
    · intro x hx
      simpa [At] using hx
    · cases p with
      | self | ready => by_cases hxa : x = a <;> simp [At, State.setPc, hxa, hp, Pc.runs]
      | cond i =>
        by_cases hi : i = k
        · have hxk : x ∉ s.cond k := by simpa [hi] using hx
          simpa [At, hi] using hxk
        · simp [At, hi]
      | chain b =>
        obtain rfl : b = a := hnear
        have hxk : x ∉ s.cond k := by simpa using hx
        simpa [At, hchain] using hxk
      | hand b | batch b =>
        obtain rfl : b = a := hnear
        simp [At, State.setPc, hp]
      | _ => exact Iff.rfl
  refine hI.pass hm hI.core hP (fun x hx _ => ?_) (fun i => ?_) ?_ fun hT x => ?_
  · by_cases hxk : x ∈ s.cond k <;> simp [hxk]
  · by_cases hi : i = k
    · simp [hi]
    · simpa [hi] using hI.condNodup i
  · refine hP.local_of_walks hidle (by simp [State.setPc, Fits]) (fun i hi => ?_)
      (by simp [State.setPc, Pc.walks]) (by simpa using hI.condNodup k) (fun x hx => ?_)
      (by simp [State.setPc, hbatch])
    · obtain rfl : k = i := by simpa [State.setPc, Pc.clears] using hi
      exact hlock
    · have hx : x ∈ (s.cond k).head? := by simpa using hx
      have hxa := ha x (List.mem_of_mem_head? hx)
      simpa [State.setPc, hxa] using (hI.here a).linked k hp x hx
  · by_cases hx : x ∈ s.cond k
    · have hxa := ha x hx
      have hpc : update s.pc a (.clearUnlock k) x = s.pc x := update_of_ne hxa ..
      refine hI.kept_taken hT hm (.inr (.inl ⟨a, by simpa using hx⟩)) (by simp [hx]) ?_
        (fun i d h => hpc.symm.trans h) fun h => hpc ▸ h
      simpa [State.setPc, hxa] using (hI.kept x).waits (.inl ⟨k, hx⟩)
    · refine hI.kept_still hT hm (if_neg hx) (fun h => ?_) fun _ => rfl
      subst h
      simp [State.setPc, hp, Pc.deep, Pc.holds]
theorem next (hI : Inv q loc s) (hp : s.pc a = .next) (hc : s.chain a = n :: r)
    (hl : ∀ m ∈ r.head?, ¬ (s.pc m).linking) :
    Inv q (update loc n (.hand a))
      { s.setPc a (.temp n) with
        chain := update s.chain a r
        alNode := update s.alNode n r.head? } := by
  have hidle : (s.core.op a).phase = .idle := by simpa [hp, Fits] using (hI.here a).fits
  have hn : loc n = .chain a := (hI.chain n a).mpr (by simp [hc])
  have hna : n ≠ a := by
    rintro rfl
    simpa [hn] using (hI.self n).mpr (by simp [hp, hidle, Pc.runs])
  obtain ⟨hnr, hr⟩ := List.nodup_cons.mp (hc ▸ (hI.here a).nodup)
  have hm : Passes loc a s
      { s.setPc a (.temp n) with
        chain := update s.chain a r
        alNode := update s.alNode n r.head? } := by
    constructor
    all_goals simp +contextual [State.setPc, hp, Pc.sleeps, Pc.parked, Pc.linking]
  have hP : Placed q (update loc n (.hand a))
      { s.setPc a (.temp n) with
        chain := update s.chain a r
        alNode := update s.alNode n r.head? } := by
    refine hI.toPlaced.move_one hm hn ⟨rfl, rfl⟩ ?_ fun x p hnear hx => ?_
    · simpa [At, State.setPc] using hnr
    · cases p with
      | self | ready => by_cases hxa : x = a <;> simp [At, State.setPc, hxa, hp, Pc.runs]
      | chain b =>
        obtain rfl : b = a := hnear
        have hxn : x ≠ n := by simpa using hx
        simp [At, hc, hxn]
      | hand b =>
        obtain rfl : b = a := hnear
        have hxn : x ≠ n := by simpa using hx
        simp [At, State.setPc, hp, hxn.symm]
      | batch b =>
        obtain rfl : b = a := hnear
        simp [At, State.setPc, hp]
      | _ => exact Iff.rfl
  have hfirst : ¬ (s.pc n).linking := (hI.here a).first n (by simp [hc])
  refine hI.pass hm hI.core hP (fun x _ hx => .inl (update_of_ne ?_ ..)) hI.condNodup ?_
    fun hT x => ?_
  · rintro rfl
    exact hfirst hx
  · refine hP.local_of_walks hidle (by simp [State.setPc, Fits]) (by simp [State.setPc, Pc.clears])
      (by simp [State.setPc, Pc.walks]) (by simpa using hr) (fun x hx => ?_) fun x hx => ?_
    · have hx : x ∈ r.head? := by simpa using hx
      by_cases hxa : x = a
      · simp [State.setPc, hxa, Pc.linking]
      · simpa [State.setPc, hxa] using hl x hx
    · have hxa : x ≠ a := by
        rintro rfl
        have hb := (hI.here x).sleeps x ((hI.batch x x).mpr (.inl hx))
        simp [hp, Pc.sleeps] at hb
      simpa [State.setPc, hxa] using (hI.here a).sleeps x ((hI.batch x a).mpr (.inl hx))
  · by_cases hx : x = n
    · subst hx
      have hpc : update s.pc a (.temp x) x = s.pc x := update_of_ne hna ..
      refine hI.kept_taken hT hm (.inr (.inr ⟨a, by simp [State.setPc]⟩)) (by simp) ?_
        (fun i d h => hpc.symm.trans h) fun h => hpc ▸ h
      simpa [State.setPc, hna] using (hI.kept x).waits (.inr (.inl ⟨a, by simp [hc]⟩))
    · refine hI.kept_still hT hm (update_of_ne hx ..) (fun h => ?_) fun _ => update_of_ne hx ..
      subst h
      simp [State.setPc, hp, Pc.deep, Pc.holds]

theorem untouched (hI : Inv q loc s) (hp : s.pc a = .temp n)
    (hm : s.core.mem (.temp0 n) = .null) :
    Inv q (update loc n (.batch a)) ((s.setPc a .next).listAdd a n) := by
  have hidle : (s.core.op a).phase = .idle := by simpa [hp, Fits] using (hI.here a).fits
  have hn : loc n = .hand a := (hI.hand n a).mpr (.inl hp)
  have hsleeps := hI.sleeps_of_null hp hm
  have hna : n ≠ a := by
    rintro rfl
    cases hp.symm.trans hsleeps
  have hm : Passes loc a s ((s.setPc a .next).listAdd a n) := by
    constructor
    all_goals simp +contextual [State.setPc, State.listAdd, hp, Pc.sleeps, Pc.parked, Pc.linking]
  have hP : Placed q (update loc n (.batch a)) ((s.setPc a .next).listAdd a n) := by
    refine hI.toPlaced.move_one hm hn ⟨rfl, rfl⟩ ?_ fun x p hnear hx => ?_
    · simp [At, State.setPc, State.listAdd, hidle]
    · cases p with
      | self | ready =>
        by_cases hxa : x = a <;> simp [At, State.setPc, State.listAdd, hxa, hp, Pc.runs]
      | hand b =>
        obtain rfl : b = a := hnear
        have hxn : x ≠ n := by simpa using hx
        simp [At, State.setPc, State.listAdd, hp, hxn.symm]
      | batch b =>
        obtain rfl : b = a := hnear
        have hxn : x ≠ n := by simpa using hx
        simp [At, State.setPc, State.listAdd, hp, hxn]
      | _ => exact Iff.rfl
  refine hI.pass hm hI.core hP (fun x _ hx => .inl (update_of_ne ?_ ..)) hI.condNodup ?_
    fun hT x => ?_
  · rintro rfl
    simp [hsleeps, Pc.linking] at hx
  · refine hP.local_of_walks hidle (by simp [State.setPc, State.listAdd, Fits])
      (by simp [State.setPc, State.listAdd, Pc.clears])
      (by simp [State.setPc, State.listAdd, Pc.walks]) (hI.here a).nodup (fun x hx => ?_)
      fun x hx => ?_
    · by_cases hxa : x = a
      · simp [State.setPc, State.listAdd, hxa, Pc.linking]
      · simpa [State.setPc, State.listAdd, hxa] using (hI.here a).first x hx
    · have hx : x ∈ s.batch a ∨ x = n := by simpa [State.setPc, State.listAdd] using hx
      rcases hx with hx | rfl
      · obtain ⟨hxa, hs⟩ := hI.batch_sleeps (by simp [hp, Pc.sleeps]) hx
        simpa [State.setPc, State.listAdd, hxa] using hs
      · simp [State.setPc, State.listAdd, hna, hsleeps, Pc.sleeps]
  · by_cases hx : x = n
    · subst hx
      refine hI.kept_batch hT hm (b := a) ?_ (update_self ..)
        ((hI.kept x).holds (.inl (by simp [hsleeps, Pc.holds])))
      simp [State.setPc, State.listAdd, hna]
    · refine hI.kept_still hT hm (update_of_ne hx ..) (fun h => ?_) fun h => hI.alNode_unused h _
      subst h
      simp [State.setPc, State.listAdd, hp, Pc.deep, Pc.holds]

theorem owner (hI : Inv q loc s) (hp : s.pc a = .move n) (ho : s.core.op a = .done (.owner m)) :
    Inv q (loc)
      ((s.call a .next .idle).listAdd a n) := by
  obtain rfl : m = n := by simpa [hp, ho, Fits, Op.phase] using (hI.here a).fits
  have hl : loc m = .batch a := (hI.batch m a).mpr (.inr ⟨hp, by rw [ho]; rfl⟩)
  have hm : Passes loc a s ((s.call a .next .idle).listAdd a m) := by
    constructor
    case mine => exact .inr ⟨_, ho, by simp [State.call, State.listAdd, Core.setOp]⟩
    all_goals
      simp +contextual [State.call, State.setPc, State.listAdd, Core.setOp, hp, Pc.sleeps,
        Pc.parked, Pc.linking]
  have hP : Placed q loc ((s.call a .next .idle).listAdd a m) := by
    refine hI.toPlaced.same hm fun x p hnear => ?_
    cases p with
    | self | ready =>
      by_cases hxa : x = a <;>
        simp [At, State.call, State.setPc, State.listAdd, hxa, hp, ho, Pc.runs, Op.phase]
    | hand b | given b =>
      obtain rfl : b = a := hnear
      simp [At, State.call, State.setPc, State.listAdd, hp, ho, Op.phase]
    | batch b =>
      obtain rfl : b = a := hnear
      simp [At, State.call, State.setPc, State.listAdd, hp, ho, Op.phase, eq_comm]
    | _ => exact Iff.rfl
  refine hI.pass hm (hI.core.idle (idle_view (.inr ⟨_, ho⟩))) hP (fun x _ _ => .inl rfl)
    hI.condNodup ?_ fun hT x => ?_
  · have hpc {x} (hx : x ≠ a) : ((s.call a .next .idle).listAdd a m).pc x = s.pc x := by
      simp [State.call, State.setPc, State.listAdd, hx]
    refine hP.local_of_walks (by simp [State.call, State.listAdd, Op.phase])
      (by simp [State.call, State.setPc, State.listAdd, Fits])
      (by simp [State.call, State.setPc, State.listAdd, Pc.clears])
      (by simp [State.call, State.setPc, State.listAdd, Pc.walks]) (hI.here a).nodup
      (fun x hx => ?_) fun x hx => ?_
    · by_cases hxa : x = a
      · simp [State.call, State.setPc, State.listAdd, hxa, Pc.linking]
      · rw [hpc hxa]
        exact (hI.here a).first x hx
    · have hx : loc x = .batch a := (hP.batch x a).mpr (.inl hx)
      have hs := (hI.here a).sleeps x hx
      have hxa : x ≠ a := by
        rintro rfl
        simp [hp, Pc.sleeps] at hs
      rwa [hpc hxa]
  · refine hI.kept_still hT hm rfl (fun h => ?_) fun h => hI.alNode_unused h _
    subst h
    simp [State.call, State.setPc, State.listAdd, hp, Pc.deep, Pc.holds]

theorem publish (hI : Inv q loc s) (hp : s.pc a = .next) (hc : s.chain a = []) :
    Inv q (fun x => if x ∈ s.batch a then .ready else loc x)
      ({ s with
        pc := update (fun x => if x ∈ s.batch a then .ready else s.pc x) a .out
        batch := update s.batch a []
        alNode := match (s.batch a).getLast? with
          | none => s.alNode
          | some p => update s.alNode p none }) := by
  have hidle : (s.core.op a).phase = .idle := by simpa [hp, Fits] using (hI.here a).fits
  have hsleeps {x} := hI.batch_sleeps (x := x) (a := a) (by simp [hp, Pc.sleeps])
  have hl (x) (hx : x ∈ s.batch a) : loc x = .batch a := (hI.batch x a).mpr (.inl hx)
  have hm : Passes loc a s
      { s with
        pc := update (fun x => if x ∈ s.batch a then .ready else s.pc x) a .out
        batch := update s.batch a []
        alNode := match (s.batch a).getLast? with
          | none => s.alNode
          | some p => update s.alNode p none } := by
    constructor
    case pc =>
      intro b hb
      by_cases hbatch : b ∈ s.batch a
      · have hs := (hsleeps hbatch).2
        exact .inr ⟨⟨hs, (hI.asleep hs).2, .inl (hl b hbatch)⟩, .inl (by simp [hb, hbatch])⟩
      · exact .inl (by simp [hb, hbatch])
    all_goals simp +contextual [hp, Pc.sleeps, Pc.parked, Pc.linking]
  have hP : Placed q (fun x => if x ∈ s.batch a then .ready else loc x)
      { s with
        pc := update (fun x => if x ∈ s.batch a then .ready else s.pc x) a .out
        batch := update s.batch a []
        alNode := match (s.batch a).getLast? with
          | none => s.alNode
          | some p => update s.alNode p none } := by
    refine hI.toPlaced.move hm hl ⟨rfl, trivial⟩ (fun x hx => ?_)
      fun x p hnear hx => ?_
    · simp [At, hx, (hsleeps hx).1]
    · cases p with
      | self =>
        by_cases hxa : x = a
        · simp [At, hxa, hp, Pc.runs]
        · by_cases hbatch : x ∈ s.batch a
          · obtain ⟨d, hd⟩ := (hI.asleep (hsleeps hbatch).2).1
            simp [At, hxa, hbatch, hd, Pc.runs]
          · simp [At, hxa, hbatch]
      | ready =>
        have hbatch : x ∉ s.batch a := by simpa using hx
        by_cases hxa : x = a <;> simp [At, hxa, hbatch, hp]
      | hand b =>
        obtain rfl : b = a := hnear
        simp [At, hp]
      | batch b =>
        obtain rfl : b = a := hnear
        have hbatch : x ∉ s.batch b := by simpa using hx
        simp [At, hp, hbatch]
      | _ => exact Iff.rfl
  refine hI.pass hm hI.core hP (fun x hx hlink => .inl (if_neg fun hbatch => ?_)) hI.condNodup ?_
    fun hT x => ?_
  · obtain ⟨d, hd⟩ := (hI.asleep (hsleeps hbatch).2).1
    simp [hd, Pc.linking] at hlink
  · exact hP.local_of_empty hidle (by simp [Fits]) (by simp [Pc.clears])
      (by simp [Pc.linking]) ⟨hc, update_self ..⟩
  · by_cases hx : x ∈ s.batch a
    · exact kept_woken hT hm ((hI.kept x).holds (.inr (.inl ⟨a, hl x hx⟩)))
        (.inl (by simp [hx, (hsleeps hx).1])) (.inl (if_pos hx))
    · refine hI.kept_still hT hm (if_neg hx) (fun h => ?_) fun h => hI.alNode_unused h _
      subst h
      simp [hp, Pc.deep, Pc.holds]

theorem wake (hI : Inv q loc s) (hp : s.pc a = .unlock) (ho : s.core.op a = .done (.handed w)) :
    Inv q (update loc w .ready)
      ((s.call a .out .idle).setPc w .ready) := by
  obtain ⟨hw, hsleeps⟩ := hI.given_sleeps ho
  have hwa : w ≠ a := by
    rintro rfl
    simpa [hw] using (hI.self w).mpr (by simp [hp, ho, Pc.runs, Op.phase])
  have hsleeps := hsleeps hwa
  obtain ⟨⟨d, hd⟩, hidle⟩ := hI.asleep hsleeps
  have hm : Passes loc a s ((s.call a .out .idle).setPc w .ready) := by
    constructor
    case mine => exact .inr ⟨_, ho, by simp [State.call, State.setPc, Core.setOp]⟩
    case pc =>
      intro b hb
      by_cases hbw : b = w
      · subst hbw
        exact .inr ⟨⟨hsleeps, hidle, .inr hw⟩, .inl (by simp [State.setPc])⟩
      · exact .inl (by simp [State.call, State.setPc, hb, hbw])
    all_goals
      simp +contextual [State.call, State.setPc, Core.setOp, hp, hwa.symm, Pc.sleeps, Pc.parked,
        Pc.linking]
  have hP : Placed q (update loc w .ready) ((s.call a .out .idle).setPc w .ready) := by
    refine hI.toPlaced.move_one hm hw ⟨rfl, trivial⟩ ?_ fun x p hnear hx => ?_
    · simp [At, State.call, State.setPc, Op.phase]
    · cases p with
      | self =>
        by_cases hxa : x = a
        · simp [At, State.call, State.setPc, hxa, hwa.symm, hp, ho, Pc.runs, Op.phase]
        · by_cases hxw : x = w
          · simp [At, State.call, State.setPc, hxw, hwa, hd, Pc.runs]
          · simp [At, State.call, State.setPc, hxa, hxw]
      | ready =>
        have hxw : x ≠ w := by simpa using hx
        by_cases hxa : x = a <;> simp [At, State.call, State.setPc, hxa, hxw, hwa.symm, hp]
      | hand b | batch b =>
        obtain rfl : b = a := hnear
        simp [At, State.call, State.setPc, hwa.symm, hp, ho, Op.phase]
      | given b =>
        obtain rfl : b = a := hnear
        have hxw : x ≠ w := by simpa using hx
        simp [At, State.call, State.setPc, ho, Op.phase, hxw.symm]
      | _ => exact Iff.rfl
  refine hI.pass hm (hI.core.idle (idle_view (.inr ⟨_, ho⟩))) hP
    (fun x hx hlink => .inl (update_of_ne ?_ ..)) hI.condNodup ?_ fun hT x => ?_
  · rintro rfl
    simp [hd, Pc.linking] at hlink
  · exact hP.local_of_empty (by simp [State.call, State.setPc, Op.phase])
      (by simp [State.call, State.setPc, hwa.symm, Fits])
      (by simp [State.call, State.setPc, hwa.symm, Pc.clears])
      (by simp [State.call, State.setPc, hwa.symm, Pc.linking])
      ((hI.here a).walks (by simp [hp, Pc.walks]))
  · by_cases hx : x = w
    · subst hx
      exact kept_woken hT hm ((hI.kept x).holds (.inr (.inr (.inl ⟨a, hw⟩))))
        (.inl (by simp [State.setPc])) (.inl (update_self ..))
    · refine hI.kept_still hT hm (update_of_ne hx ..) (fun h => ?_) fun _ => rfl
      subst h
      simp [State.call, State.setPc, hp, hx, Pc.deep, Pc.holds]

theorem switchTo (hI : Inv q loc s) (hp : s.pc a = .release)
    (ho : s.core.op a = .done (.handed w)) :
    Inv q (update loc w .self)
      ((s.call a (.asleep false) .idle).setPc w .ret) := by
  obtain ⟨hw, hsleeps⟩ := hI.given_sleeps ho
  have hm : Passes loc a s ((s.call a (.asleep false) .idle).setPc w .ret) := by
    constructor
    case mine => exact .inr ⟨_, ho, by simp [State.call, State.setPc, Core.setOp]⟩
    case pc =>
      intro b hb
      by_cases hbw : b = w
      · subst hbw
        exact .inr ⟨⟨hsleeps hb, (hI.asleep (hsleeps hb)).2, .inr hw⟩, .inr (by simp [State.setPc])⟩
      · exact .inl (by simp [State.call, State.setPc, hb, hbw])
    case parked =>
      intro hg _
      have hwa : a ≠ w := fun h => hg (h ▸ hw)
      simp [State.call, State.setPc, hwa, Pc.parked]
    case linking =>
      by_cases hwa : a = w <;> simp [State.call, State.setPc, hwa, Pc.linking]
    all_goals simp +contextual [State.call, State.setPc, Core.setOp, hp, Pc.sleeps]
  have hP : Placed q (update loc w .self) ((s.call a (.asleep false) .idle).setPc w .ret) := by
    refine hI.toPlaced.move_one hm hw ⟨rfl, trivial⟩ ?_ fun x p hnear hx => ?_
    · rcases eq_or_ne w a with rfl | hwa
      · simp [At, State.call, State.setPc, Pc.runs, Op.phase]
      · have hidle := phase_eq_idle.mp (hI.asleep (hsleeps hwa)).2
        simp [At, State.call, State.setPc, hwa, hidle, Pc.runs, Op.phase]
    · cases p with
      | self =>
        have hxw : x ≠ w := by simpa using hx
        by_cases hxa : x = a
        · subst hxa
          simp [At, State.call, State.setPc, hxw, hp, Pc.runs]
        · simp [At, State.call, State.setPc, hxa, hxw]
      | ready =>
        rcases eq_or_ne x a with rfl | hxa
        · rcases eq_or_ne x w with rfl | hxw
          · simp [At, State.setPc, hp]
          · simp [At, State.call, State.setPc, hxw, hp]
        · by_cases hxw : x = w
          · subst hxw
            obtain ⟨d, hd⟩ := (hI.asleep (hsleeps hxa)).1
            simp [At, State.call, State.setPc, hd]
          · simp [At, State.call, State.setPc, hxa, hxw]
      | hand b | batch b =>
        obtain rfl : b = a := hnear
        rcases eq_or_ne b w with rfl | hbw
        · simp [At, State.call, State.setPc, hp, ho, Op.phase]
        · simp [At, State.call, State.setPc, hbw, hp, ho, Op.phase]
      | given b =>
        obtain rfl : b = a := hnear
        have hxw : x ≠ w := by simpa using hx
        simp [At, State.call, State.setPc, ho, Op.phase, hxw.symm]
      | _ => exact Iff.rfl
  refine hI.pass hm (hI.core.idle (idle_view (.inr ⟨_, ho⟩))) hP
    (fun x hx hlink => .inl (update_of_ne ?_ ..)) hI.condNodup ?_ fun hT x => ?_
  · rintro rfl
    obtain ⟨⟨d, hd⟩, -⟩ := hI.asleep (hsleeps hx)
    simp [hd, Pc.linking] at hlink
  · refine hP.local_of_empty (by simp [State.call, State.setPc, Op.phase]) ?_ ?_ ?_
      ((hI.here a).walks (by simp [hp, Pc.walks]))
    all_goals
      by_cases hwa : a = w <;>
        simp [State.call, State.setPc, hwa, Fits, Pc.clears, Pc.linking]
  · by_cases hx : x = w
    · subst hx
      exact kept_woken hT hm ((hI.kept x).holds (.inr (.inr (.inl ⟨a, hw⟩))))
        (.inr (by simp [State.setPc]))
        (.inr ⟨update_self .., (hI.kept x).clean (.inr (.inr ⟨a, hw⟩))⟩)
    · refine hI.kept_still hT hm (update_of_ne hx ..) (fun h => ?_) fun _ => rfl
      subst h
      simp [State.call, State.setPc, hp, hx, Pc.deep, Pc.holds]

theorem dispatch (hI : Inv q loc s) (hp : s.pc a = .ready) :
    Inv q (update loc a .self)
      ({ s.setPc a .ret with alNode := update s.alNode a none }) := by
  have hl : loc a = .ready := (hI.ready a).mpr hp
  have hidle : (s.core.op a).phase = .idle := by simpa [hp, Fits] using (hI.here a).fits
  have hlists := (hI.here a).walks (by simp [hp, Pc.walks])
  have hm : Passes loc a s { s.setPc a .ret with alNode := update s.alNode a none } := by
    constructor
    all_goals simp +contextual [State.setPc, hp, Pc.sleeps, Pc.parked, Pc.linking]
  have hP : Placed q (update loc a .self)
      { s.setPc a .ret with alNode := update s.alNode a none } := by
    refine hI.toPlaced.move_one hm hl ⟨trivial, trivial⟩ ?_ fun x p hnear hx => ?_
    · simp [At, State.setPc, hidle, Pc.runs]
    · cases p with
      | self | ready =>
        have hxa : x ≠ a := by simpa using hx
        simp [At, State.setPc, hxa]
      | hand b | batch b =>
        obtain rfl : b = a := hnear
        simp [At, State.setPc, hp]
      | _ => exact Iff.rfl
  refine hI.pass hm hI.core hP (fun x hx _ => .inl (update_of_ne hx ..)) hI.condNodup ?_
    fun hT x => ?_
  · exact hP.local_of_empty hidle (by simp [State.setPc, Fits]) (by simp [State.setPc, Pc.clears])
      (by simp [State.setPc, Pc.linking]) hlists
  · by_cases hx : x = a
    · subst hx
      exact kept_woken hT hm ((hI.kept x).holds (.inl (by simp [hp, Pc.holds])))
        (.inr (by simp [State.setPc])) (.inr (by simp))
    · exact hI.kept_still hT hm (update_of_ne hx ..) (fun h => absurd h hx)
        fun _ => update_of_ne hx ..

end Inv

end MyosIo.Mutex
