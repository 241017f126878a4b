import Mathlib.Logic.Function.Basic
import Mathlib.Data.List.Induction

/-! Finite runs of a labelled step relation, and the rules every model below reasons with. -/
namespace MyosIo

variable {σ τ ε : Type*}

/-- A finite run from `s₀`: the labels in the order taken, and the state reached. -/
inductive Run (Step : σ → ε → σ → Prop) (s₀ : σ) : List ε → σ → Prop
  | refl : Run Step s₀ [] s₀
  | step {xs : List ε} {s t : σ} {e : ε} :
      Run Step s₀ xs s → Step s e t → Run Step s₀ (xs ++ [e]) t

variable {Step : σ → ε → σ → Prop} {s₀ s t : σ} {xs : List ε} {e : ε}

/-- The invariant rule: what holds at the start and is kept by a step holds along every run. -/
theorem Run.invariant {Inv : σ → Prop} (h : Run Step s₀ xs s) (h₀ : Inv s₀)
    (hstep : ∀ s e t, Inv s → Step s e t → Inv t) : Inv s := by
  induction h with
  | refl => exact h₀
  | step _ hs ih => exact hstep _ _ _ ih hs

/-- The same rule for a relation between the state and the history of labels. -/
theorem Run.history {Inv : List ε → σ → Prop} (h : Run Step s₀ xs s) (h₀ : Inv [] s₀)
    (hstep : ∀ xs s e t, Inv xs s → Step s e t → Inv (xs ++ [e]) t) : Inv xs s := by
  induction h with
  | refl => exact h₀
  | step _ hs ih => exact hstep _ _ _ _ ih hs

/-- A component of a system runs along: a step of the system is one of its own steps or leaves it as
it is. -/
theorem Run.project {σ' ε' : Type*} {Step' : σ' → ε' → σ' → Prop} (h : Run Step s₀ xs s)
    (f : σ → σ') {g : ε → Option ε'}
    (hstep : ∀ s e t, Step s e t →
      g e = none ∧ f t = f s ∨ ∃ e', g e = some e' ∧ Step' (f s) e' (f t)) :
    Run Step' (f s₀) (xs.filterMap g) (f s) := by
  induction h with
  | refl => exact .refl
  | step _ hs ih =>
    rw [List.filterMap_append]
    obtain ⟨hnone, hsame⟩ | ⟨e', hsome, hs'⟩ := hstep _ _ _ hs
    · rw [hsame]
      simpa [hnone] using ih
    · simpa [hsome] using ih.step hs'

/-- A run goes on as one of a weaker step relation. -/
theorem Run.mono {Step' : σ → ε → σ → Prop} (h : Run Step s₀ xs s)
    (hstep : ∀ s e t, Step s e t → Step' s e t) : Run Step' s₀ xs s := by
  induction h with
  | refl => exact .refl
  | step _ hs ih => exact ih.step (hstep _ _ _ hs)

/-- A step before a run. -/
theorem Run.cons (h : Run Step s xs t) (hs : Step s₀ e s) : Run Step s₀ (e :: xs) t := by
  induction h with
  | refl => exact Run.refl.step hs
  | step _ hs' ih => exact ih.step hs'

/-- The last step of a run. -/
theorem Run.of_concat (h : Run Step s₀ (xs ++ [e]) t) :
    ∃ r, Run Step s₀ xs r ∧ Step r e t := by
  generalize hz : xs ++ [e] = zs at h
  cases h with
  | refl => simp at hz
  | step h hs =>
    obtain ⟨rfl, hlast⟩ := List.append_inj' hz rfl
    obtain rfl := List.singleton_inj.mp hlast
    exact ⟨_, h, hs⟩

/-- A run can be cut anywhere. -/
theorem Run.split {ys : List ε} (h : Run Step s₀ (xs ++ ys) t) :
    ∃ r, Run Step s₀ xs r ∧ Run Step r ys t := by
  induction ys using List.reverseRecOn generalizing t with
  | nil => exact ⟨t, by simpa using h, .refl⟩
  | append_singleton ys e ih =>
    rw [← List.append_assoc] at h
    obtain ⟨r', h, hs⟩ := h.of_concat
    obtain ⟨r, hxs, hys⟩ := ih h
    exact ⟨r, hxs, hys.step hs⟩

/-- The same steps, labelled also with the state they start from. -/
def Traced (Step : σ → ε → σ → Prop) (s : σ) (e : σ × ε) (t : σ) : Prop := e.1 = s ∧ Step s e.2 t

theorem Run.trace {xs : List (σ × ε)} (h : Run (Traced Step) s₀ xs s) (hs : Step s e t) :
    Run (Traced Step) s₀ (xs ++ [(s, e)]) t :=
  h.step ⟨rfl, hs⟩

/-- The abstract state a history denotes: its labels applied to `a₀` in order. -/
def replay (upd : τ → ε → τ) (a₀ : τ) (xs : List ε) : τ := xs.foldl upd a₀

@[simp] theorem replay_nil (upd : τ → ε → τ) (a₀ : τ) : replay upd a₀ [] = a₀ := rfl

@[simp] theorem replay_snoc (upd : τ → ε → τ) (a₀ : τ) (xs : List ε) (e : ε) :
    replay upd a₀ (xs ++ [e]) = upd (replay upd a₀ xs) e := by
  simp [replay]

end MyosIo
