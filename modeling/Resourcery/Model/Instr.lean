import Resourcery.Lib.Pool
import Resourcery.Model.Memory

/-!
# Atomic steps

`Instr` lists what a thread does to the shared memory in one step: an atomic access, taking or
releasing a lock, an access to what a held lock protects, a call of tokio or of an event listener.
An instruction carries the program points at which the thread continues. `execute` gives its
meaning: `none` while it blocks. Where the outcome is not determined by the memory (a spurious
failure of `compare_exchange_weak`, a panic of user code, the order of an iteration), a `Choice`
determines it.

`notified()` and `listen()` return the number of notifications so far, and the future they stand
for is ready when there have been more: a notification reaches what was created before it.
-/

namespace Resourcery

open Interleaving Function

/-- What decides a step that the memory leaves open. -/
inductive Choice
  | go
  /-- `compare_exchange_weak` fails spuriously. -/
  | spurious
  /-- `R::build` panics. -/
  | buildPanics
  /-- `R::build` panics, and so does the drop of its payload. -/
  | payloadPanics
  /-- `Clone`, `Eq` or `Hash` of a key, or `placement_key`, panics. -/
  | keyPanics
  /-- The weak pointer to the domain cannot be upgraded. -/
  | domainGone
  /-- The next element of an iteration. -/
  | pick (n : ℕ)
deriving DecidableEq

/-- What is fixed for a program: which resource types have a canonical placement, and the shard
of its registry's map in which a key lies. -/
structure Config (R K : Type) where
  canonical : R → Bool
  shardOf : Ident R K → ℕ

inductive Instr (R K E α : Type)
  /-- No step: the thread has ended. -/
  | halt
  /-- A step that touches nothing that is shared. -/
  | skip (k : α)
  -- `Domain`
  | isAccepting (k : Bool → α)
  | loadPhase (k : DomainPhase → α)
  | exchangeShuttingDown (k : Bool → α)
  | cancelShutdown (k : α)
  | storeTerminated (k : α)
  | lockSupervisor (k : α)
  | unlockSupervisor (k : α)
  | insertTask (g : GenId) (k : ℕ → α)
  | removeTask (id : ℕ) (k : α)
  | loadTasks (k : List (ℕ × GenId) → α)
  | notifyWaiters (k : α)
  | notified (k : ℕ → α)
  | awaitNotified (seen : ℕ) (k : α)
  | domainUpgrade (k : Bool → α)
  -- `Registry`
  | lockShard (i : Ident R K) (panic : α) (k : Option ℕ → α)
  | unlockShard (i : Ident R K) (k : α)
  | slot (i : Ident R K) (panic : α) (k : Option ℕ → α)
  | cloneKey (panic k : α)
  | insertSlot (i : Ident R K) (k : ℕ → α)
  | removeEntry (i : Ident R K) (k : α)
  | lockSlot (i : Ident R K) (n : ℕ) (k : RegistrySlotState → α)
  | unlockSlot (i : Ident R K) (n : ℕ) (k : α)
  | storeState (i : Ident R K) (n : ℕ) (st : RegistrySlotState) (k : α)
  | listen (i : Ident R K) (n : ℕ) (k : ℕ → α)
  | notify (i : Ident R K) (n : ℕ) (k : α)
  | awaitListener (i : Ident R K) (n seen : ℕ) (k : α)
  | insertLive (r : R) (id : ℕ) (g : GenId) (k : α)
  | removeLive (r : R) (id : ℕ) (k : α)
  | iterLive (r : R) (k : List ℕ → α)
  | nextLive (r : R) (keys : List ℕ) (seen : List (ℕ × GenId)) (yield : ℕ × GenId → α) (stop : α)
  -- `Control`
  | loadControl (g : GenId) (k : Phase → α)
  | exchangeActive (g : GenId) (k : Bool → α)
  | exchangeCancelling (g : GenId) (current : CancellablePhase) (k : Option Phase → α)
  | storeFinished (g : GenId) (k : α)
  | cancelToken (g : GenId) (k : α)
  -- `Entry`
  | build (panic unwind k : α)
  | newEntry (i : Ident R K) (site : Option Site) (k : GenId → α)
  | upgrade (g : GenId) (k : Bool → α)
  | dropStrong (g : GenId) (destructor k : α)
  | deliver (gs : List GenId) (k : α)
  -- the task, its gate and its supervisor
  | spawnTask (g : GenId) (k : α)
  | sendStart (g : GenId) (k : α)
  | dropStart (g : GenId) (k : α)
  | abort (g : GenId) (k : α)
  | join (g : GenId) (k : JoinResult E → α)
  | spawn (child k : α)
  | pick (gs : List GenId) (k : GenId → List GenId → α) (stop : α)
  -- the outcome channel
  | send (g : GenId) (outcome : ResourceOutcome E) (k : α)
  | dropSender (g : GenId) (k : α)
  | borrow (g : GenId) (k : Option (ResourceOutcome E) → α)
  | hasChanged (g : GenId) (seen : ℕ) (k : ℕ → α) (gone : α)
  | dropReceiver (g : GenId) (k : α)

variable {R K E α : Type} [DecidableEq R] [DecidableEq K]

/-- The step that leaves the memory `m` and goes on at `p`. -/
def goOn (m : Memory R K E) (p : α) : Option (Move (Memory R K E) α) :=
  some { mem := m, pc := p }

/-- One step of thread `t`. -/
def execute (cfg : Config R K) (t : Tid) (ch : Choice) (m : Memory R K E) :
    Instr R K E α → Option (Move (Memory R K E) α)
  | .halt => none
  | .skip k => goOn m k
  | .isAccepting k => goOn m (k (decide m.Accepting))
  | .loadPhase k => goOn m (k m.phase)
  | .exchangeShuttingDown k =>
    if m.phase = .running then goOn { m with phase := .shuttingDown } (k true)
    else goOn m (k false)
  | .cancelShutdown k => goOn { m with shutdown := true } k
  | .storeTerminated k => goOn { m with phase := .terminated } k
  | .lockSupervisor k =>
    if m.supervisor = none then goOn { m with supervisor := some t } k else none
  | .unlockSupervisor k => goOn { m with supervisor := none } k
  | .insertTask g k =>
    goOn { m with
      nextTask := m.nextTask + 1
      tasks := (m.nextTask, g) :: m.tasks
      taskId := update m.taskId g (some m.nextTask) } (k m.nextTask)
  | .removeTask id k => goOn { m with tasks := m.tasks.filter (·.1 ≠ id) } k
  | .loadTasks k => goOn m (k m.tasks)
  | .notifyWaiters k => goOn { m with quiescent := m.quiescent + 1 } k
  | .notified k => goOn m (k m.quiescent)
  | .awaitNotified seen k => if seen < m.quiescent then goOn m k else none
  | .domainUpgrade k => goOn m (k (ch ≠ .domainGone))
  | .lockShard i panic k =>
    if ch = .keyPanics then goOn m panic
    else if m.shard i.ty (cfg.shardOf i) = none then
      goOn { m with shard := update₂ m.shard i.ty (cfg.shardOf i) (some t) } (k (m.entries i))
    else none
  | .unlockShard i k =>
    goOn { m with shard := update₂ m.shard i.ty (cfg.shardOf i) none } k
  | .slot i panic k =>
    if ch = .keyPanics then goOn m panic
    else if m.shard i.ty (cfg.shardOf i) = none then goOn m (k (m.entries i)) else none
  | .cloneKey panic k => goOn m (if ch = .keyPanics then panic else k)
  | .insertSlot i k =>
    goOn { m with
      entries := update m.entries i (some (m.nextSlot i))
      nextSlot := update m.nextSlot i (m.nextSlot i + 1)
      state := update₂ m.state i (m.nextSlot i) (.starting 1) } (k (m.nextSlot i))
  | .removeEntry i k => goOn { m with entries := update m.entries i none } k
  | .lockSlot i n k =>
    if m.slotLock i n = none then
      goOn { m with slotLock := update₂ m.slotLock i n (some t) } (k (m.state i n))
    else none
  | .unlockSlot i n k => goOn { m with slotLock := update₂ m.slotLock i n none } k
  | .storeState i n st k => goOn { m with state := update₂ m.state i n st } k
  | .listen i n k => goOn m (k (m.changed i n))
  | .notify i n k => goOn { m with changed := update₂ m.changed i n (m.changed i n + 1) } k
  | .awaitListener i n seen k => if seen < m.changed i n then goOn m k else none
  | .insertLive r id g k =>
    goOn { m with live := update m.live r ((id, g) :: (m.live r).filter (·.1 ≠ id)) } k
  | .removeLive r id k =>
    goOn { m with live := update m.live r ((m.live r).filter (·.1 ≠ id)) } k
  | .iterLive r k => goOn m (k ((m.live r).map Prod.fst))
  | .nextLive r keys seen yield stop =>
    match ch with
    | .pick n =>
      match (m.live r).find? (·.1 = n) with
      | some e => if n ∈ seen.map Prod.fst then none else goOn m (yield e)
      | none => none
    | _ =>
      if ∀ n ∈ keys, n ∈ (m.live r).map Prod.fst → n ∈ seen.map Prod.fst then goOn m stop
      else none
  | .loadControl g k => goOn m (k (m.control g))
  | .exchangeActive g k =>
    if m.control g = .starting then
      goOn { m with control := update m.control g .active } (k true)
    else goOn m (k false)
  | .exchangeCancelling g current k =>
    if m.control g = current.1 ∧ ch ≠ .spurious then
      goOn { m with control := update m.control g .cancelling } (k none)
    else goOn m (k (some (m.control g)))
  | .storeFinished g k => goOn { m with control := update m.control g .finished } k
  | .cancelToken g k => goOn { m with cancels := update m.cancels g (m.cancels g + 1) } k
  | .build panic unwind k =>
    goOn m (if ch = .buildPanics then panic else if ch = .payloadPanics then unwind else k)
  | .newEntry i site k =>
    goOn { m with
      nextGen := m.nextGen + 1
      ident := update m.ident m.nextGen (some i)
      site := update m.site m.nextGen site
      strong := update m.strong m.nextGen 1
      receivers := update m.receivers m.nextGen 1 } (k m.nextGen)
  | .upgrade g k =>
    if 0 < m.strong g then
      goOn { m with strong := update m.strong g (m.strong g + 1) } (k true)
    else goOn m (k false)
  | .dropStrong g destructor k =>
    if m.strong g = 1 then
      some
        { mem := { m with strong := update m.strong g 0 }
          pc := k
          child := some destructor
          joins := true }
    else goOn { m with strong := update m.strong g (m.strong g - 1) } k
  | .deliver gs k => goOn { m with refs := gs.map (Prod.mk .outside) ++ m.refs } k
  | .spawnTask g k => goOn { m with task := update m.task g .gated } k
  | .sendStart g k => goOn { m with start := update m.start g .sent } k
  | .dropStart g k => goOn { m with start := update m.start g .dropped } k
  | .abort g k => goOn { m with aborted := update m.aborted g true } k
  | .join g k =>
    match m.task g with
    | .ended result => goOn m (k result)
    | _ => none
  | .spawn child k => some { mem := m, pc := k, child := some child }
  | .pick gs k stop =>
    match gs, ch with
    | [], _ => goOn m stop
    | gs, .pick n => (gs[n]?).bind fun g => goOn m (k g (gs.eraseIdx n))
    | _, _ => none
  | .send g outcome k =>
    if m.receivers g = 0 then goOn m k
    else
      goOn { m with
        outcome := update m.outcome g (some outcome)
        version := update m.version g (m.version g + 1) } k
  | .dropSender g k => goOn { m with closed := update m.closed g true } k
  | .borrow g k => goOn m (k (m.outcome g))
  | .hasChanged g seen k gone =>
    if m.version g ≠ seen then goOn m (k (m.version g))
    else if m.closed g then goOn m gone
    else none
  | .dropReceiver g k =>
    goOn { m with receivers := update m.receivers g (m.receivers g - 1) } k

end Resourcery
