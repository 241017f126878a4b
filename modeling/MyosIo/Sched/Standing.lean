import MyosIo.Sched.Model

/-! The running thread of a core at every place. -/
namespace MyosIo.Sched

open Function

variable {C T P : Type*}

/-- What `running_thread` is at each place. -/
def Pc.stands (r : Option T) : Pc T → Prop
  | .run | .link _ | .incNum _ | .testNum _ | .testIdle _ | .ipi _ | .incOld _ => r.isSome
  | .leave | .handOff _ | .announce | .setNull | .tickFail | .tick => r.isSome
  | .window | .withdraw | .load | .reannounce | .idle | .decOld | .wake _ => r = none
  | .reserve v => r = none ∧ v ≠ 0
  | .lock cur | .spin cur | .pop cur | .unlock cur _ | .clear cur _ => r = cur
  | .tickAppend me | .tickLink me | .finish me _ => r = some me
  | .switch _ => True

def Standing (s : State C T P) : Prop := ∀ c, (s.pc c).stands (s.running c)

variable [DecidableEq C] [DecidableEq T]
variable {s t : State C T P} {e : Event C T}

theorem standing_step (hi : Standing s) (hs : Step s e t) : Standing t := by
  intro d
  have hd := hi d
  cases hs
  case deliverRun => exact hd
  all_goals
    simp only [State.setPc, State.append, update_apply]
    split
  all_goals grind -linarith [Pc.stands]

end MyosIo.Sched
