import Resourcery.Model.System

/-!
# Weakest preconditions of atomic steps

`Instr.wp cfg t m Q ins` says that whatever step the instruction `ins` of thread `t` takes in the
memory `m`, and however its choice falls, `Q` holds of the new memory, the next program point and
the thread it starts. A proof about all program points is a case analysis on the point; at each
the precondition unfolds to what that point has to show, one part for each way the value read can
turn out.
-/

namespace Resourcery

open Interleaving Function

variable {R K E α : Type} [DecidableEq R] [DecidableEq K]

/-- `P` of the value, if there is one. -/
def ForSome {β : Type} (P : β → Prop) : Option β → Prop
  | none => True
  | some b => P b

/-- `P` of each phase of a control. -/
def Phase.All (P : Phase → Prop) : Prop := P .starting ∧ P .active ∧ P .cancelling ∧ P .finished

theorem Phase.All.apply {P : Phase → Prop} (h : Phase.All P) (ph : Phase) : P ph := by
  cases ph
  exacts [h.1, h.2.1, h.2.2.1, h.2.2.2]

/-- `P` of each phase of a domain. -/
def DomainPhase.All (P : DomainPhase → Prop) : Prop :=
  P .running ∧ P .shuttingDown ∧ P .terminated

theorem DomainPhase.All.apply {P : DomainPhase → Prop} (h : DomainPhase.All P)
    (ph : DomainPhase) : P ph := by
  cases ph
  exacts [h.1, h.2.1, h.2.2]

/-- The weakest precondition of `Q` for one step. -/
def Instr.wp (cfg : Config R K) (t : Tid) (m : Memory R K E)
    (Q : Memory R K E → α → Option α → Prop) : Instr R K E α → Prop
  | .halt => True
  | .skip k => Q m k none
  | .isAccepting k =>
    (m.Accepting → Q m (k true) none) ∧ (¬ m.Accepting → Q m (k false) none)
  | .loadPhase k =>
    DomainPhase.All fun ph => m.phase = ph → Q m (k ph) none
  | .exchangeShuttingDown k =>
    (m.phase = .running → Q { m with phase := .shuttingDown } (k true) none) ∧
      (m.phase ≠ .running → Q m (k false) none)
  | .cancelShutdown k => Q { m with shutdown := true } k none
  | .storeTerminated k => Q { m with phase := .terminated } k none
  | .lockSupervisor k => m.supervisor = none → Q { m with supervisor := some t } k none
  | .unlockSupervisor k => Q { m with supervisor := none } k none
  | .insertTask g k =>
    Q { m with
      nextTask := m.nextTask + 1
      tasks := (m.nextTask, g) :: m.tasks
      taskId := update m.taskId g (some m.nextTask) } (k m.nextTask) none
  | .removeTask id k => Q { m with tasks := m.tasks.filter (·.1 ≠ id) } k none
  | .loadTasks k =>
    (m.tasks = [] → Q m (k []) none) ∧ ∀ e es, m.tasks = e :: es → Q m (k (e :: es)) none
  | .notifyWaiters k => Q { m with quiescent := m.quiescent + 1 } k none
  | .notified k => Q m (k m.quiescent) none
  | .awaitNotified seen k => seen < m.quiescent → Q m k none
  | .domainUpgrade k => Q m (k true) none ∧ Q m (k false) none
  | .lockShard i panic k =>
    Q m panic none ∧ (m.shard i.ty (cfg.shardOf i) = none →
      (∀ n, m.entries i = some n →
        Q { m with shard := update₂ m.shard i.ty (cfg.shardOf i) (some t) } (k (some n)) none) ∧
      (m.entries i = none →
        Q { m with shard := update₂ m.shard i.ty (cfg.shardOf i) (some t) } (k none) none))
  | .unlockShard i k =>
    Q { m with shard := update₂ m.shard i.ty (cfg.shardOf i) none } k none
  | .slot i panic k =>
    Q m panic none ∧ (m.shard i.ty (cfg.shardOf i) = none →
      (∀ n, m.entries i = some n → Q m (k (some n)) none) ∧
      (m.entries i = none → Q m (k none) none))
  | .cloneKey panic k => Q m panic none ∧ Q m k none
  | .insertSlot i k =>
    Q { m with
      entries := update m.entries i (some (m.nextSlot i))
      nextSlot := update m.nextSlot i (m.nextSlot i + 1)
      state := update₂ m.state i (m.nextSlot i) (.starting 1) } (k (m.nextSlot i)) none
  | .removeEntry i k => Q { m with entries := update m.entries i none } k none
  | .lockSlot i n k => m.slotLock i n = none →
      (∀ generation, m.state i n = .starting generation →
        Q { m with slotLock := update₂ m.slotLock i n (some t) } (k (.starting generation)) none) ∧
      ∀ generation g, m.state i n = .active generation g →
        Q { m with slotLock := update₂ m.slotLock i n (some t) } (k (.active generation g)) none
  | .unlockSlot i n k => Q { m with slotLock := update₂ m.slotLock i n none } k none
  | .storeState i n st k => Q { m with state := update₂ m.state i n st } k none
  | .listen i n k => Q m (k (m.changed i n)) none
  | .notify i n k =>
    Q { m with changed := update₂ m.changed i n (m.changed i n + 1) } k none
  | .awaitListener i n seen k => seen < m.changed i n → Q m k none
  | .insertLive r id g k =>
    Q { m with live := update m.live r ((id, g) :: (m.live r).filter (·.1 ≠ id)) } k none
  | .removeLive r id k =>
    Q { m with live := update m.live r ((m.live r).filter (·.1 ≠ id)) } k none
  | .iterLive r k => Q m (k ((m.live r).map Prod.fst)) none
  | .nextLive r keys seen yield stop =>
    (∀ e ∈ m.live r, e.1 ∉ seen.map Prod.fst → Q m (yield e) none) ∧
      ((∀ n ∈ keys, n ∈ (m.live r).map Prod.fst → n ∈ seen.map Prod.fst) → Q m stop none)
  | .loadControl g k => Phase.All fun ph => m.control g = ph → Q m (k ph) none
  | .exchangeActive g k =>
    (m.control g = .starting →
      Q { m with control := update m.control g .active } (k true) none) ∧
      (m.control g ≠ .starting → Q m (k false) none)
  | .exchangeCancelling g current k =>
    (m.control g = current.1 →
      Q { m with control := update m.control g .cancelling } (k none) none) ∧
      Phase.All fun ph => m.control g = ph → Q m (k (some ph)) none
  | .storeFinished g k => Q { m with control := update m.control g .finished } k none
  | .cancelToken g k => Q { m with cancels := update m.cancels g (m.cancels g + 1) } k none
  | .build panic unwind k => Q m panic none ∧ Q m unwind none ∧ Q m k none
  | .newEntry i site k =>
    Q { m with
      nextGen := m.nextGen + 1
      ident := update m.ident m.nextGen (some i)
      site := update m.site m.nextGen site
      strong := update m.strong m.nextGen 1
      receivers := update m.receivers m.nextGen 1 } (k m.nextGen) none
  | .upgrade g k =>
    (0 < m.strong g →
      Q { m with strong := update m.strong g (m.strong g + 1) } (k true) none) ∧
      (m.strong g = 0 → Q m (k false) none)
  | .dropStrong g destructor k =>
    (m.strong g = 1 →
      Q { m with strong := update m.strong g 0 } k (some destructor)) ∧
      (m.strong g ≠ 1 →
        Q { m with strong := update m.strong g (m.strong g - 1) } k none)
  | .deliver gs k => Q { m with refs := gs.map (Prod.mk .outside) ++ m.refs } k none
  | .spawnTask g k => Q { m with task := update m.task g .gated } k none
  | .sendStart g k => Q { m with start := update m.start g .sent } k none
  | .dropStart g k => Q { m with start := update m.start g .dropped } k none
  | .abort g k => Q { m with aborted := update m.aborted g true } k none
  | .join g k => ∀ result, m.task g = .ended result → Q m (k result) none
  | .spawn child k => Q m k (some child)
  | .pick gs k stop =>
    (gs = [] → Q m stop none) ∧
      ∀ n g, gs[n]? = some g → Q m (k g (gs.eraseIdx n)) none
  | .send g outcome k =>
    (m.receivers g = 0 → Q m k none) ∧
      (m.receivers g ≠ 0 →
        Q { m with
          outcome := update m.outcome g (some outcome)
          version := update m.version g (m.version g + 1) } k none)
  | .dropSender g k => Q { m with closed := update m.closed g true } k none
  | .borrow g k =>
    (m.outcome g = none → Q m (k none) none) ∧
      ∀ outcome, m.outcome g = some outcome → Q m (k (some outcome)) none
  | .hasChanged g seen k gone =>
    (m.version g ≠ seen → Q m (k (m.version g)) none) ∧
      (m.version g = seen → m.closed g = true → Q m gone none)
  | .dropReceiver g k =>
    Q { m with receivers := update m.receivers g (m.receivers g - 1) } k none

variable {cfg : Config R K} {t : Tid} {ch : Choice} {m : Memory R K E}
  {Q Q' : Memory R K E → α → Option α → Prop} {ins : Instr R K E α}
  {mv : Move (Memory R K E) α}

omit [DecidableEq R] [DecidableEq K] in
theorem eq_of_goOn {p : α} (h : goOn m p = some mv) : mv = { mem := m, pc := p } :=
  (Option.some.inj h).symm

omit [DecidableEq R] [DecidableEq K] in
/-- Closes the instructions that go on in one way only. -/
theorem wp_of_goOn {m' : Memory R K E} {p : α} (hq : Q m' p none) (h : goOn m' p = some mv) :
    Q mv.mem mv.pc mv.child := by
  rw [eq_of_goOn h]
  exact hq

/-- **Soundness.** Every step an instruction takes satisfies what its precondition promises. -/
theorem Instr.wp.sound (hwp : ins.wp cfg t m Q) (h : execute cfg t ch m ins = some mv) :
    Q mv.mem mv.pc mv.child := by
  cases ins
  case halt => cases h
  case spawn child k =>
    obtain rfl := Option.some.inj h
    exact hwp
  case isAccepting k =>
    by_cases hm : m.Accepting
    · refine wp_of_goOn (hwp.1 hm) ?_
      rw [← decide_eq_true hm]
      exact h
    · refine wp_of_goOn (hwp.2 hm) ?_
      rw [← decide_eq_false hm]
      exact h
  case domainUpgrade k =>
    by_cases hc : ch = .domainGone
    · subst hc
      exact wp_of_goOn hwp.2 h
    · refine wp_of_goOn hwp.1 ?_
      rw [← decide_eq_true hc]
      exact h
  case nextLive r keys seen yield stop =>
    simp only [execute] at h
    split at h
    · split at h
      · rename_i n e he
        split_ifs at h with hs
        refine wp_of_goOn (hwp.1 e (List.mem_of_find?_eq_some he) ?_) h
        have := List.find?_some he
        simp only [decide_eq_true_eq] at this
        rwa [this]
      · cases h
    · split_ifs at h with hs
      exact wp_of_goOn (hwp.2 hs) h
  case join g k =>
    simp only [execute] at h
    split at h
    · rename_i result hr
      exact wp_of_goOn (hwp result hr) h
    · cases h
  case pick gs k stop =>
    simp only [execute] at h
    split at h
    · exact wp_of_goOn (hwp.1 rfl) h
    · obtain ⟨g, hg, h⟩ := Option.bind_eq_some_iff.mp h
      exact wp_of_goOn (hwp.2 _ g hg) h
    · cases h
  case dropStrong g destructor k =>
    simp only [execute] at h
    split_ifs at h with hs
    · obtain rfl := Option.some.inj h
      exact hwp.1 hs
    · exact wp_of_goOn (hwp.2 hs) h
  case exchangeCancelling g current k =>
    simp only [execute] at h
    split_ifs at h with hs
    · exact wp_of_goOn (hwp.1 hs.1) h
    · exact wp_of_goOn (hwp.2.apply (m.control g) rfl) h
  case upgrade g k =>
    simp only [execute] at h
    split_ifs at h with hs
    · exact wp_of_goOn (hwp.1 hs) h
    · exact wp_of_goOn (hwp.2 (by omega)) h
  case hasChanged g seen k gone =>
    simp only [execute] at h
    split_ifs at h with hs hc
    · exact wp_of_goOn (hwp.1 hs) h
    · exact wp_of_goOn (hwp.2 (not_not.mp hs) hc) h
  case lockSupervisor | awaitNotified | awaitListener =>
    simp only [execute] at h
    split_ifs at h with hs
    exact wp_of_goOn (hwp hs) h
  case loadPhase k =>
    have hall : DomainPhase.All fun ph => m.phase = ph → Q m (k ph) none := hwp
    exact wp_of_goOn (hall.apply m.phase rfl) h
  case loadControl g k =>
    have hall : Phase.All fun ph => m.control g = ph → Q m (k ph) none := hwp
    exact wp_of_goOn (hall.apply (m.control g) rfl) h
  case loadTasks k =>
    cases ht : m.tasks with
    | nil => exact wp_of_goOn (hwp.1 ht) (ht ▸ h)
    | cons e es => exact wp_of_goOn (hwp.2 e es ht) (ht ▸ h)
  case borrow g k =>
    cases ho : m.outcome g with
    | none => exact wp_of_goOn (hwp.1 ho) (ho ▸ h)
    | some outcome => exact wp_of_goOn (hwp.2 outcome ho) (ho ▸ h)
  case lockSlot i n k =>
    simp only [execute] at h
    split_ifs at h with hs
    cases hst : m.state i n with
    | starting generation => exact wp_of_goOn ((hwp hs).1 generation hst) (hst ▸ h)
    | active generation g => exact wp_of_goOn ((hwp hs).2 generation g hst) (hst ▸ h)
  case lockShard i panic k | slot i panic k =>
    simp only [execute] at h
    split_ifs at h with hc hs
    · exact wp_of_goOn hwp.1 h
    · cases he : m.entries i with
      | none => exact wp_of_goOn ((hwp.2 hs).2 he) (he ▸ h)
      | some n => exact wp_of_goOn ((hwp.2 hs).1 n he) (he ▸ h)
  case cloneKey =>
    simp only [execute] at h
    split_ifs at h with hc
    · exact wp_of_goOn hwp.1 h
    · exact wp_of_goOn hwp.2 h
  case build =>
    simp only [execute] at h
    split_ifs at h with hc hc'
    · exact wp_of_goOn hwp.1 h
    · exact wp_of_goOn hwp.2.1 h
    · exact wp_of_goOn hwp.2.2 h
  case exchangeShuttingDown | exchangeActive =>
    simp only [execute] at h
    split_ifs at h with hs
    · exact wp_of_goOn (hwp.1 hs) h
    · exact wp_of_goOn (hwp.2 hs) h
  case send =>
    simp only [execute] at h
    split_ifs at h with hs
    · exact wp_of_goOn (hwp.1 hs) h
    · exact wp_of_goOn (hwp.2 hs) h
  all_goals exact wp_of_goOn hwp h

/-- A weaker postcondition has a weaker precondition. -/
theorem Instr.wp.mono (hwp : ins.wp cfg t m Q) (h : ∀ m p c, Q m p c → Q' m p c) :
    ins.wp cfg t m Q' := by
  cases ins
  case halt => trivial
  case loadPhase =>
    exact ⟨fun e => h _ _ _ (hwp.1 e), fun e => h _ _ _ (hwp.2.1 e), fun e => h _ _ _ (hwp.2.2 e)⟩
  case loadControl =>
    exact ⟨fun e => h _ _ _ (hwp.1 e), fun e => h _ _ _ (hwp.2.1 e),
      fun e => h _ _ _ (hwp.2.2.1 e), fun e => h _ _ _ (hwp.2.2.2 e)⟩
  case exchangeCancelling =>
    obtain ⟨h0, h1, h2, h3, h4⟩ := hwp
    exact ⟨fun e => h _ _ _ (h0 e), fun e => h _ _ _ (h1 e), fun e => h _ _ _ (h2 e),
      fun e => h _ _ _ (h3 e), fun e => h _ _ _ (h4 e)⟩
  case loadTasks => exact ⟨fun e => h _ _ _ (hwp.1 e), fun a b e => h _ _ _ (hwp.2 a b e)⟩
  case lockShard | slot =>
    exact ⟨h _ _ _ hwp.1, fun e => ⟨fun n e' => h _ _ _ ((hwp.2 e).1 n e'),
      fun e' => h _ _ _ ((hwp.2 e).2 e')⟩⟩
  case lockSlot =>
    exact fun e => ⟨fun n e' => h _ _ _ ((hwp e).1 n e'), fun n g e' => h _ _ _ ((hwp e).2 n g e')⟩
  case nextLive =>
    exact ⟨fun e he hs => h _ _ _ (hwp.1 e he hs), fun hs => h _ _ _ (hwp.2 hs)⟩
  case pick => exact ⟨fun e => h _ _ _ (hwp.1 e), fun n g e => h _ _ _ (hwp.2 n g e)⟩
  case borrow => exact ⟨fun e => h _ _ _ (hwp.1 e), fun o e => h _ _ _ (hwp.2 o e)⟩
  case join => exact fun r e => h _ _ _ (hwp r e)
  case hasChanged => exact ⟨fun e => h _ _ _ (hwp.1 e), fun e e' => h _ _ _ (hwp.2 e e')⟩
  case lockSupervisor | awaitNotified | awaitListener => exact fun e => h _ _ _ (hwp e)
  case domainUpgrade | cloneKey => exact ⟨h _ _ _ hwp.1, h _ _ _ hwp.2⟩
  case build => exact ⟨h _ _ _ hwp.1, h _ _ _ hwp.2.1, h _ _ _ hwp.2.2⟩
  case isAccepting | exchangeShuttingDown | exchangeActive | upgrade | dropStrong | send =>
    exact ⟨fun e => h _ _ _ (hwp.1 e), fun e => h _ _ _ (hwp.2 e)⟩
  all_goals exact h _ _ _ hwp

/-- Two postconditions can be shown apart. -/
theorem Instr.wp.and (hwp : ins.wp cfg t m Q) (hwp' : ins.wp cfg t m Q') :
    ins.wp cfg t m fun m p c => Q m p c ∧ Q' m p c := by
  cases ins
  case halt => trivial
  case loadPhase =>
    exact ⟨fun e => ⟨hwp.1 e, hwp'.1 e⟩, fun e => ⟨hwp.2.1 e, hwp'.2.1 e⟩,
      fun e => ⟨hwp.2.2 e, hwp'.2.2 e⟩⟩
  case loadControl =>
    exact ⟨fun e => ⟨hwp.1 e, hwp'.1 e⟩, fun e => ⟨hwp.2.1 e, hwp'.2.1 e⟩,
      fun e => ⟨hwp.2.2.1 e, hwp'.2.2.1 e⟩, fun e => ⟨hwp.2.2.2 e, hwp'.2.2.2 e⟩⟩
  case exchangeCancelling =>
    obtain ⟨h0, h1, h2, h3, h4⟩ := hwp
    obtain ⟨h0', h1', h2', h3', h4'⟩ := hwp'
    exact ⟨fun e => ⟨h0 e, h0' e⟩, fun e => ⟨h1 e, h1' e⟩, fun e => ⟨h2 e, h2' e⟩,
      fun e => ⟨h3 e, h3' e⟩, fun e => ⟨h4 e, h4' e⟩⟩
  case loadTasks =>
    exact ⟨fun e => ⟨hwp.1 e, hwp'.1 e⟩, fun a b e => ⟨hwp.2 a b e, hwp'.2 a b e⟩⟩
  case lockShard | slot =>
    exact ⟨⟨hwp.1, hwp'.1⟩, fun e => ⟨fun n e' => ⟨(hwp.2 e).1 n e', (hwp'.2 e).1 n e'⟩,
      fun e' => ⟨(hwp.2 e).2 e', (hwp'.2 e).2 e'⟩⟩⟩
  case lockSlot =>
    exact fun e => ⟨fun n e' => ⟨(hwp e).1 n e', (hwp' e).1 n e'⟩,
      fun n g e' => ⟨(hwp e).2 n g e', (hwp' e).2 n g e'⟩⟩
  case nextLive =>
    exact ⟨fun e he hs => ⟨hwp.1 e he hs, hwp'.1 e he hs⟩, fun hs => ⟨hwp.2 hs, hwp'.2 hs⟩⟩
  case pick => exact ⟨fun e => ⟨hwp.1 e, hwp'.1 e⟩, fun n g e => ⟨hwp.2 n g e, hwp'.2 n g e⟩⟩
  case borrow => exact ⟨fun e => ⟨hwp.1 e, hwp'.1 e⟩, fun o e => ⟨hwp.2 o e, hwp'.2 o e⟩⟩
  case join => exact fun r e => ⟨hwp r e, hwp' r e⟩
  case hasChanged =>
    exact ⟨fun e => ⟨hwp.1 e, hwp'.1 e⟩, fun e e' => ⟨hwp.2 e e', hwp'.2 e e'⟩⟩
  case lockSupervisor | awaitNotified | awaitListener => exact fun e => ⟨hwp e, hwp' e⟩
  case domainUpgrade | cloneKey => exact ⟨⟨hwp.1, hwp'.1⟩, hwp.2, hwp'.2⟩
  case build => exact ⟨⟨hwp.1, hwp'.1⟩, ⟨hwp.2.1, hwp'.2.1⟩, hwp.2.2, hwp'.2.2⟩
  case isAccepting | exchangeShuttingDown | exchangeActive | upgrade | dropStrong | send =>
    exact ⟨fun e => ⟨hwp.1 e, hwp'.1 e⟩, fun e => ⟨hwp.2 e, hwp'.2 e⟩⟩
  all_goals exact ⟨hwp, hwp'⟩

end Resourcery
