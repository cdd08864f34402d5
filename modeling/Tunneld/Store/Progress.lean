import Tunneld.Store.Spool

/-!
# The writer does not wait on an event

Between `select` and `select` the writer makes a bounded number of steps, whatever the system calls
answer: `open` has only so many tries, and nothing else in `append` or `rotate` is a loop.
`Proc.work` counts what is left, the events in the queue included.

* `work_lt_of_step` says that every step of the writer but a tick makes it smaller;
* `exists_step` that there is such a step, unless the writer has returned or the queue is open and
  empty.
-/

universe u

namespace Tunneld.Spool

variable {ε : Type u} {c : Codec ε} {lim : Limits} {p p' : Proc c} {d : Disk c}

/-- The steps that a rotation is from `select` or from the end, and those that follow it in
`append`. -/
def Next.work : Next c → Nat
  | .stop => 1
  | .done => 3
  | .cap _ _ => 2 * maxNameTries + 9

/-- A bound on the steps until the writer is back in `select`, and two more to return. -/
def Pc.work : Pc c → Nat
  | .stopped => 0
  | .select => 2
  | .rotate next => next.work
  | .undo _ => 4
  | .write _ => 5
  | .lstat _ _ _ left => 2 * left + 7
  | .create _ _ _ left => 2 * left + 8
  | .cap _ _ => 2 * maxNameTries + 8
  | .encoded _ => 2 * maxNameTries + 10
  | .got _ => 2 * maxNameTries + 11

/-- A bound on the steps until the writer has no event left. -/
def Proc.work (p : Proc c) : Nat := p.pc.work + (2 * maxNameTries + 10) * p.queue.length

theorem Next.work_pc_lt (next : Next c) : next.pc.work < next.work := by
  cases next <;> simp [Next.pc, Next.work, Pc.work]

theorem work_lt_of_pc (hq : p'.queue = p.queue) (hpc : p'.pc.work < p.pc.work) :
    p'.work < p.work := by
  unfold Proc.work
  rw [hq]
  exact Nat.add_lt_add_right hpc _

theorem work_take_lt {e : ε} {q : List ε} (hpc : p.pc = .select) (hq : p.queue = e :: q) :
    ({ p with queue := q, pc := .got e } : Proc c).work < p.work := by
  simp only [Proc.work, Pc.work, hpc, hq, List.length_cons, Nat.mul_succ]
  omega

theorem work_move_lt {a : WriterAct} {q : List ε} {pc : Pc c} (h : Moves p d a q pc)
    (ha : ∀ now, a ≠ .tick now) : ({ p with queue := q, pc := pc } : Proc c).work < p.work := by
  cases h with
  | take hpc hq => exact work_take_lt hpc hq
  | expire | tick => exact absurd rfl (ha _)
  | lstat hpc =>
    refine work_lt_of_pc rfl ?_
    simp only [hpc, Pc.work]
    omega
  | _ hpc =>
    refine work_lt_of_pc rfl ?_
    simp [hpc, Pc.work, Next.work]

/-- Wherever an event is in hand, `select` is some steps away. -/
theorem work_lose_lt {e : ε} (plain : p.pc.Plain) (hand : p.pc.hand = [e]) :
    (p.lose e).work < p.work := by
  refine work_lt_of_pc rfl ?_
  cases hpc : p.pc with
  | select | undo | stopped => simp [hpc, Pc.hand] at hand
  | rotate => exact (hpc ▸ plain : (Pc.rotate _).Plain).elim
  | _ => simp [Proc.lose, Pc.work]

theorem work_lt_of_step {a : WriterAct} {r : Proc c × Disk c}
    (hs : writerStep lim p d a = some r) (ha : ∀ now, a ≠ .tick now) : r.1.work < p.work := by
  have hw := writes_of_step hs
  generalize r.1 = p', r.2 = d' at hw
  cases hw with
  | move moves => exact work_move_lt moves ha
  | lose plain hand => exact work_lose_lt plain hand
  | create pc | fail pc | undo pc | tear pc =>
    exact work_lt_of_pc rfl (by simp [pc, Pc.work, Next.work])
  | write pc =>
    refine work_lt_of_pc rfl ?_
    dsimp only
    split <;> simp [pc, Pc.work, Next.work]
  | @leave next _ _ _ pc | @remove next _ _ _ _ pc | @finish next _ _ _ _ pc =>
    exact work_lt_of_pc rfl (pc ▸ next.work_pc_lt)

/-- The writer has something to do: it has not returned, and it is not in `select` with a queue that
is open and empty. -/
def Proc.Busy (p : Proc c) : Prop :=
  p.pc ≠ .stopped ∧ (p.pc = .select → p.queue = [] → p.closed = true)

theorem exists_step (lim : Limits) (hbusy : p.Busy) (hwriting : p.pc.Writing → p.active ≠ none)
    (d : Disk c) :
    ∃ a r, (∀ now, a ≠ .tick now) ∧ writerStep lim p d a = some r := by
  suffices h : ∃ a, (∀ now, a ≠ .tick now) ∧ (writerStep lim p d a).isSome = true by
    obtain ⟨a, ha, hs⟩ := h
    obtain ⟨r, hr⟩ := Option.isSome_iff_exists.1 hs
    exact ⟨a, r, ha, hr⟩
  cases hpc : p.pc with
  | select =>
    refine ⟨.take, by simp, ?_⟩
    cases hq : p.queue with
    | nil => simp [writerStep, hpc, hq, hbusy.2 hpc hq]
    | cons e q => simp [writerStep, hpc, hq]
  | got e =>
    refine ⟨.check, by simp, ?_⟩
    simp only [writerStep, hpc]
    split
    · rfl
    · split <;> rfl
  | encoded x =>
    refine ⟨.clock 0, by simp, ?_⟩
    simp only [writerStep, hpc]
    split <;> rfl
  | cap x now =>
    refine ⟨.cap, by simp, ?_⟩
    simp only [writerStep, hpc]
    split
    · rfl
    · split <;> rfl
  | lstat x now start left =>
    refine ⟨.lstat false, by simp, ?_⟩
    cases left <;> simp [writerStep, hpc]
  | create x now start left => exact ⟨.create false, by simp, by simp [writerStep, hpc]⟩
  | write x =>
    obtain ⟨w, hw⟩ := Option.ne_none_iff_exists'.1 (hwriting (hpc ▸ trivial))
    exact ⟨.write none, by simp, by simp [writerStep, hpc, hw]⟩
  | undo n =>
    obtain ⟨w, hw⟩ := Option.ne_none_iff_exists'.1 (hwriting (hpc ▸ trivial))
    exact ⟨.undo true, by simp, by simp [writerStep, hpc, hw]⟩
  | rotate next =>
    refine ⟨.rotate true true true, by simp, ?_⟩
    simp only [writerStep, hpc]
    split <;> rfl
  | stopped => exact absurd hpc hbusy.1

end Tunneld.Spool
