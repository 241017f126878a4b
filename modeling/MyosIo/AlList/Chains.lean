import MyosIo.AlList.Steps

/-! The exchange of `al_appends` puts a whole chain at the end of a list. It is as good as an
exchange for each of the nodes with the links between them stored at once. -/
namespace MyosIo.AlList

open Function

variable {K P N W : Type*} [DecidableEq K] [DecidableEq P] [DecidableEq N] [DecidableEq W]
  {f : Fifo K N W} {pend : Cell K N → Option (P × N)} {loc : N → Loc K W}
  {s : State K P N W} {k : K} {p r : P} {n m : N} {ns : List N}

omit [DecidableEq K] [DecidableEq P] [DecidableEq N] [DecidableEq W] in
/-- Fewer nodes that are known to be free. -/
theorem Inv.linked_mono (hI : Inv f pend loc s) {l : N → Bool}
    (hl : ∀ n, l n = false → s.linked n = false) : Inv f pend loc { s with linked := l } :=
  ⟨hI.last, hI.list, hI.walk, hI.owes, hI.held, hI.leaving, fun n hn => hI.free n (hl n hn)⟩

/-- Memory after the nodes have been linked behind node `n`. -/
def linkAll (mem : Cell K N → Option N) : N → List N → Cell K N → Option N
  | _, [] => mem
  | n, m :: ns => linkAll (update (update mem (.node m) none) (.node n) (some m)) m ns

/-- The links of a chain are there already. -/
theorem linkAll_stored {mem : Cell K N → Option N} (hnd : (n :: ns).Nodup)
    (h : (links K N).Stored mem (.node n) ns) :
    linkAll (update mem (.node n) none) n ns = mem := by
  induction ns generalizing n with
  | nil => exact update_eq_self_iff.mpr h.symm
  | cons m ns ih =>
    obtain ⟨hn, hnd⟩ := List.nodup_cons.mp hnd
    obtain ⟨hm, hrest⟩ := h
    have hne : Cell.node (K := K) n ≠ .node m := by
      rintro ⟨⟩
      exact hn List.mem_cons_self
    have hself : update mem (.node n) (some m) = mem := update_eq_self_iff.mpr hm.symm
    rw [linkAll, update_comm hne, update_idem, update_comm hne.symm, hself]
    exact ih hnd hrest

/-- A node behind the last one, with its link. -/
theorem Inv.appendLinked (hI : Inv f pend loc s) (hp : s.prod r = .idle)
    (hlast : s.last k = some n) (hm : s.linked m = false) : ∃ f' pend' loc',
      f'.queue = update f.queue k (f.queue k ++ [m]) ∧ Inv f' pend' loc' { s with
        mem := update (update s.mem (.node m) none) (.node n) (some m)
        last := update s.last k (some m)
        linked := update s.linked m true } := by
  obtain ⟨f₁, pend₁, loc₁, h₁, hI₁⟩ := hI.client (v := none) hm
  cases h₁
  obtain ⟨f₂, pend₂, loc₂, h₂, hI₂⟩ := hI₁.exchange (k := k) (p := r) hp hm (update_self ..)
  cases h₂
  obtain ⟨f₃, pend₃, loc₃, h₃, hI₃⟩ := hI₂.link (p := r) (update_self ..) true
  cases h₃
  refine ⟨{ f with queue := update f.queue k (f.queue k ++ [m]) }, pend₃, loc₃, rfl, ?_⟩
  have hprod : update s.prod r .idle = s.prod := update_eq_self_iff.mpr hp.symm
  simp only [hlast, linkCell, update_idem, hprod] at hI₃
  exact hI₃

/-- Nodes behind the last one, each with its link. -/
theorem Inv.extend (hI : Inv f pend loc s) (hp : s.prod r = .idle) (hlast : s.last k = some n)
    (hnd : ns.Nodup) (hl : ∀ m ∈ ns, s.linked m = false) : ∃ f' pend' loc',
      f'.queue = update f.queue k (f.queue k ++ ns) ∧
        ∀ l : N → Bool, (∀ x, l x = false → s.linked x = false ∧ x ∉ ns) →
          Inv f' pend' loc' { s with
            mem := linkAll s.mem n ns
            last := update s.last k (some ((n :: ns).getLast (List.cons_ne_nil n ns)))
            linked := l } := by
  induction ns generalizing n s f pend loc with
  | nil =>
    refine ⟨f, pend, loc, by simp, fun l hl => ?_⟩
    have hsame : update s.last k (some n) = s.last := update_eq_self_iff.mpr hlast.symm
    rw [List.getLast_singleton, hsame]
    exact hI.linked_mono fun x hx => (hl x hx).1
  | cons m ns ih =>
    obtain ⟨hm, hnd⟩ := List.nodup_cons.mp hnd
    obtain ⟨f₁, pend₁, loc₁, hq₁, hI₁⟩ := hI.appendLinked hp hlast (hl m List.mem_cons_self)
    have hne : ∀ x ∈ ns, x ≠ m := fun x hx => ne_of_mem_of_not_mem hx hm
    obtain ⟨f₂, pend₂, loc₂, hq₂, hI₂⟩ := ih hI₁ hp (update_self ..) hnd fun x hx =>
      (update_of_ne (hne x hx) _ _).trans (hl x (List.mem_cons_of_mem m hx))
    refine ⟨f₂, pend₂, loc₂, by simp [hq₂, hq₁], fun l hl' => ?_⟩
    have hI₃ := hI₂ l fun x hx => by
      obtain ⟨hs, hx⟩ := hl' x hx
      obtain ⟨hxm, hx⟩ := not_or.mp (mt List.mem_cons.mpr hx)
      exact ⟨(update_of_ne hxm _ _).trans hs, hx⟩
    rw [update_idem] at hI₃
    exact hI₃

/-- The exchange that appends a chain. `r` stands for nobody. -/
theorem Inv.appendChain (hI : Inv f pend loc s) (hp : s.prod p = .idle) (hr : s.prod r = .idle)
    (hne : r ≠ p) (hnd : (n :: ns).Nodup) (hl : ∀ m ∈ n :: ns, s.linked m = false)
    (hstored : (links K N).Stored s.mem (.node n) ns)
    {l : N → Bool} (hl' : ∀ x, l x = false → s.linked x = false ∧ x ∉ n :: ns) :
    ∃ f' pend' loc', f'.queue = update f.queue k (f.queue k ++ n :: ns) ∧
      Inv f' pend' loc' { s with
        last := update s.last k (some ((n :: ns).getLast (List.cons_ne_nil n ns)))
        prod := update s.prod p (.store n (linkCell k (s.last k)))
        linked := l } := by
  obtain ⟨hn, hnd'⟩ := List.nodup_cons.mp hnd
  obtain ⟨f₁, pend₁, loc₁, h₁, hI₁⟩ := hI.client (v := none) (hl n List.mem_cons_self)
  cases h₁
  obtain ⟨f₂, pend₂, loc₂, h₂, hI₂⟩ :=
    hI₁.exchange (k := k) (p := p) hp (hl n List.mem_cons_self) (update_self ..)
  cases h₂
  have hfree : ∀ x ∈ ns, update s.linked n true x = false := fun x hx =>
    (update_of_ne (ne_of_mem_of_not_mem hx hn) _ _).trans (hl x (List.mem_cons_of_mem n hx))
  obtain ⟨f₃, pend₃, loc₃, hq₃, hI₃⟩ := hI₂.extend (r := r) (k := k) (n := n)
    ((update_of_ne hne _ _).trans hr) (update_self ..) hnd' hfree
  refine ⟨f₃, pend₃, loc₃, by simp [hq₃], ?_⟩
  have hI₄ := hI₃ l fun x hx => by
    obtain ⟨hs, hx⟩ := hl' x hx
    obtain ⟨hxn, hx⟩ := not_or.mp (mt List.mem_cons.mpr hx)
    exact ⟨(update_of_ne hxn _ _).trans hs, hx⟩
  simp only [linkAll_stored hnd hstored, update_idem] at hI₄
  exact hI₄

end MyosIo.AlList
