import Resourcery.Logic.Points

/-!
# What no step takes back

`Grows m m'` collects what only ever moves forward: phases, counters, flags, the sites of the
generations that exist, and that a detached slot stays detached. Every action of every thread
keeps it, so a fact that follows from such a bound holds for good.
-/

namespace Resourcery

open Interleaving Function Transition ResourceContext

variable {R K E : Type}

/-- `m'` may come after `m`. -/
structure Grows (m m' : Memory R K E) : Prop where
  phase : m.phase.rank ≤ m'.phase.rank
  shutdown : m.shutdown = true → m'.shutdown = true
  quiescent : m.quiescent ≤ m'.quiescent
  nextTask : m.nextTask ≤ m'.nextTask
  nextSlot : ∀ i, m.nextSlot i ≤ m'.nextSlot i
  attached : ∀ i n, n < m.nextSlot i → m'.entries i = some n → m.entries i = some n
  changed : ∀ i n, m.changed i n ≤ m'.changed i n
  nextGen : m.nextGen ≤ m'.nextGen
  ident : ∀ g, g < m.nextGen → m'.ident g = m.ident g
  site : ∀ g, g < m.nextGen → m'.site g = m.site g
  registered : ∀ g, m.taskId g ≠ none → m'.taskId g ≠ none
  control : ∀ g, (m.control g).rank ≤ (m'.control g).rank
  cancels : ∀ g, m.cancels g ≤ m'.cancels g
  start : ∀ g, m.start g ≠ .pending → m'.start g ≠ .pending
  aborted : ∀ g, m.aborted g = true → m'.aborted g = true
  outcome : ∀ g, m.outcome g ≠ none → m'.outcome g ≠ none
  version : ∀ g, m.version g ≤ m'.version g
  closed : ∀ g, m.closed g = true → m'.closed g = true

namespace Grows

variable {m m' m'' : Memory R K E}

theorem refl (m : Memory R K E) : Grows m m := by
  constructor <;> intros <;> first | exact Nat.le_refl _ | assumption | rfl

theorem trans (h : Grows m m') (h' : Grows m' m'') : Grows m m'' where
  phase := h.phase.trans h'.phase
  shutdown hs := h'.shutdown (h.shutdown hs)
  quiescent := h.quiescent.trans h'.quiescent
  nextTask := h.nextTask.trans h'.nextTask
  nextSlot i := (h.nextSlot i).trans (h'.nextSlot i)
  attached i n hn he := h.attached i n hn (h'.attached i n (hn.trans_le (h.nextSlot i)) he)
  changed i n := (h.changed i n).trans (h'.changed i n)
  nextGen := h.nextGen.trans h'.nextGen
  ident g hg := (h'.ident g (hg.trans_le h.nextGen)).trans (h.ident g hg)
  site g hg := (h'.site g (hg.trans_le h.nextGen)).trans (h.site g hg)
  registered g hr := h'.registered g (h.registered g hr)
  control g := (h.control g).trans (h'.control g)
  cancels g := (h.cancels g).trans (h'.cancels g)
  start g hs := h'.start g (h.start g hs)
  aborted g ha := h'.aborted g (h.aborted g ha)
  outcome g ho := h'.outcome g (h.outcome g ho)
  version g := (h.version g).trans (h'.version g)
  closed g hc := h'.closed g (h.closed g hc)

/-- A domain that accepts did so before. -/
theorem accepting (h : Grows m m') (ha : m'.Accepting) : m.Accepting := by
  have := h.phase
  unfold Memory.Accepting at *
  rw [ha] at this
  cases hp : m.phase <;> simp_all [DomainPhase.rank]

theorem terminated (h : Grows m m') (ht : m.phase = .terminated) : m'.phase = .terminated := by
  have := h.phase
  rw [ht] at this
  cases hp : m'.phase <;> simp_all [DomainPhase.rank]

theorem finished {g : GenId} (h : Grows m m') (hg : m.control g = .finished) :
    m'.control g = .finished := by
  have := h.control g
  rw [hg] at this
  cases hp : m'.control g <;> simp_all [Phase.rank]

end Grows

variable {cfg : Config R K} {t : Tid} {m m' : Memory R K E} {p : Pc R K E}

theorem DomainPhase.rank_le_terminated (ph : DomainPhase) :
    ph.rank ≤ DomainPhase.terminated.rank := by
  cases ph <;> decide

theorem Phase.rank_le_finished (ph : Phase) : ph.rank ≤ Phase.finished.rank := by
  cases ph <;> decide

theorem Phase.Cancellable.rank_le {ph : Phase} (h : ph.Cancellable) :
    ph.rank ≤ Phase.cancelling.rank := by
  rcases h with rfl | rfl <;> decide

theorem rank_le_update {f : GenId → Phase} {g : GenId} {ph : Phase}
    (h : (f g).rank ≤ ph.rank) (x : GenId) : (f x).rank ≤ (update f g ph x).rank := by
  by_cases hx : x = g
  · rw [hx, update_self]; exact h
  · rw [update_of_ne hx]

theorem le_update_succ {α : Type} [DecidableEq α] {f : α → ℕ} {a : α} (x : α) :
    f x ≤ update f a (f a + 1) x := by
  by_cases hx : x = a
  · rw [hx, update_self]; omega
  · rw [update_of_ne hx]

/-- A flag that is being set stays set where it was. -/
theorem update_of_imp {α β : Type} [DecidableEq α] (P : β → Prop) {f : α → β} {a : α} {b : β}
    (hb : P b) (x : α) (h : P (f x)) : P (update f a b x) := by
  by_cases hx : x = a
  · rw [hx, update_self]; exact hb
  · rw [update_of_ne hx]; exact h

variable [DecidableEq R] [DecidableEq K]

theorem wp_grows {α : Type} (ins : Instr R K E α) : ins.wp cfg t m fun m' _ _ => Grows m m' := by
  cases ins
  all_goals
    repeat' first
      | apply And.intro
      | intro _
  all_goals
    first
    | exact .refl m
    | constructor
  case exchangeShuttingDown.left.phase hm =>
    rw [hm]
    exact Nat.zero_le _
  case storeTerminated.phase => exact DomainPhase.rank_le_terminated _
  case cancelShutdown.shutdown => exact fun _ => rfl
  case insertTask.registered => exact update_of_imp (· ≠ none) (Option.some_ne_none _)
  case insertSlot.nextSlot => exact le_update_succ
  case insertSlot.attached i k => intro j n hn he; grind [update]
  case removeEntry.attached i k => intro j n hn he; grind [update]
  case notify.changed i n k => intro j n'; grind [update₂_apply]
  case exchangeActive.left.control hm =>
    refine rank_le_update ?_
    rw [hm]
    decide
  case exchangeCancelling.left.control current _ hm =>
    refine rank_le_update ?_
    rw [hm]
    exact current.2.rank_le
  case storeFinished.control => exact rank_le_update (Phase.rank_le_finished _)
  case newEntry.ident | newEntry.site => exact fun g hg => update_of_ne hg.ne _ _
  case sendStart.start => exact update_of_imp (· ≠ Start.pending) (by decide)
  case dropStart.start => exact update_of_imp (· ≠ Start.pending) (by decide)
  case abort.aborted => exact update_of_imp (· = true) rfl
  case dropSender.closed => exact update_of_imp (· = true) rfl
  case send.right.outcome => exact update_of_imp (· ≠ none) (Option.some_ne_none _)
  all_goals
    first
    | exact Nat.le_refl _
    | exact fun _ => Nat.le_refl _
    | exact fun _ h => h
    | exact fun _ _ => rfl
    | exact fun _ _ => Nat.le_refl _
    | exact id
    | exact fun _ _ _ h => h
    | exact le_update_succ
    | exact Nat.le_succ _

omit [DecidableEq R] [DecidableEq K] in
theorem HoldCases.grows {a : Action R K E} {c : Option (Pc R K E)} (h : HoldCases m a m' c) :
    Grows m m' := by
  cases h <;> constructor <;> intros <;> first | exact Nat.le_refl _ | assumption | rfl

omit [DecidableEq R] [DecidableEq K] in
theorem CallCases.grows {c : Call R K} (h : CallCases cfg m c m' p) : Grows m m' := by
  cases h <;> constructor <;> intros <;> first | exact Nat.le_refl _ | assumption | rfl

/-- **Progress.** No action takes anything back. -/
theorem grows_step {s s' : State R K E} {a : Action R K E} (h : step cfg s a = some s') :
    Grows s.mem s'.mem := by
  refine mem_step (Grows s.mem) h (.refl _) ?_ ?_ ?_ ?_
  · exact fun t p _ _ _ => wp_grows _
  · exact fun c m p _ hc => hc.grows
  · intro g st _
    constructor <;> intros <;> first | exact Nat.le_refl _ | assumption | rfl
  · exact fun m c hh => hh.grows

theorem grows_of_reach {ok : State R K E → Action R K E → Prop} {s s' : State R K E}
    (hr : Reach (step cfg) ok s s') : Grows s.mem s'.mem :=
  hr.rel (fun s s' => Grows s.mem s'.mem) (fun _ => .refl _) (fun _ _ _ => .trans)
    fun _ _ _ _ h => grows_step h

end Resourcery
