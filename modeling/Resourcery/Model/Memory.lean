import Mathlib.Data.Nat.Notation
import Mathlib.Logic.Function.Basic

/-!
# The memory of a resource domain

Everything the threads of one `Domain` share: the domain phase and the supervisor table
(`domain.rs`), for each identity the registry entry and its slots (`domain.rs`), and for each
generation its `Control`, the strong count of its `Entry`, its start gate, its task and its
outcome channel (`lifecycle.rs`, `reference.rs`, `context.rs`).

A resource type is an element of `R`, a key an element of `K`; an identity is the pair. A slot of
an identity is named by the order in which the slots of that identity were allocated, a generation
by the order in which the entries of the domain were. Each is a number nothing else has, as the
address of an `Arc` is. The counters of the source are `u64`; here they do not wrap.
-/

namespace Resourcery

/-! ## Phases -/

/-- `Phase` of a `Control`. -/
inductive Phase
  | starting | active | cancelling | finished
deriving DecidableEq, Repr

/-- The order in which a control goes through its phases. -/
def Phase.rank : Phase → ℕ
  | .starting => 0
  | .active => 1
  | .cancelling => 2
  | .finished => 3

/-- `Control::cancel` exchanges this phase for `Cancelling`. -/
def Phase.Cancellable (ph : Phase) : Prop := ph = .starting ∨ ph = .active

instance (ph : Phase) : Decidable ph.Cancellable :=
  inferInstanceAs (Decidable (ph = .starting ∨ ph = .active))

/-- What `Control::cancel` can have observed when it tries its exchange. -/
abbrev CancellablePhase := {ph : Phase // ph.Cancellable}

inductive DomainPhase
  | running | shuttingDown | terminated
deriving DecidableEq, Repr

/-- The order in which a domain goes through its phases. -/
def DomainPhase.rank : DomainPhase → ℕ
  | .running => 0
  | .shuttingDown => 1
  | .terminated => 2

/-! ## Names -/

/-- A resource type and a key of its placement. -/
structure Ident (R K : Type) where
  ty : R
  key : K
deriving DecidableEq

/-- A thread: a caller, a destructor or a supervising future. -/
abbrev Tid := ℕ

/-- A generation. -/
abbrev GenId := ℕ

/-- What a canonical construction establishes: a slot of its identity and the generation number
it has there. -/
structure Site where
  slot : ℕ
  generation : ℕ
deriving DecidableEq

/-! ## Slots -/

/-- `RegistrySlotState`; the weak entry is the generation it points to. -/
inductive RegistrySlotState
  | starting (generation : ℕ)
  | active (generation : ℕ) (entry : GenId)
deriving DecidableEq

/-- The generation number in a slot state. -/
@[simp] def RegistrySlotState.generation : RegistrySlotState → ℕ
  | .starting generation => generation
  | .active generation _ => generation

/-! ## Outcomes and tasks -/

/-- The payload of a task's panic, as far as the supervising future looks at it. -/
inductive Payload
  | str (message : String)
  | string (message : String)
  | other
deriving DecidableEq

/-- What awaiting a task's `JoinHandle` gives. -/
inductive JoinResult (E : Type)
  | ok
  | err (error : E)
  | panicked (payload : Payload)
  | cancelled
deriving DecidableEq

inductive ResourceOutcome (E : Type)
  | completed
  | failed (error : E)
  | panicked (message : String)
  | aborted
deriving DecidableEq

/-- The message the supervising future takes out of a panic payload. -/
def Payload.message : Payload → String
  | .str message => message
  | .string message => message
  | .other => "resource task panicked"

/-- The outcome the supervising future maps a finished task to. -/
def JoinResult.outcome {E : Type} : JoinResult E → ResourceOutcome E
  | .ok => .completed
  | .err error => .failed error
  | .panicked payload => .panicked payload.message
  | .cancelled => .aborted

/-- What awaiting a task gives whose future has been dropped: it has been cancelled, unless the
drop panics. -/
def JoinResult.ofDrop {E : Type} : Option Payload → JoinResult E
  | none => .cancelled
  | some payload => .panicked payload

/-- The sender of a generation's start gate: still held, used, or dropped unused. -/
inductive Start
  | pending | sent | dropped
deriving DecidableEq

/-- The task `create` spawns. It is `gated` until `start_rx` resolves in one of its polls;
`polling` is a poll that has not reached `start_rx` yet. From then on it is in the user's body,
`running` in a poll or `suspended` between two. -/
inductive TaskState (E : Type)
  | unspawned
  | gated
  | polling
  | running
  | suspended
  | ended (result : JoinResult E)
deriving DecidableEq

/-- The task has come to its end. -/
@[simp] def TaskState.hasEnded {E : Type} : TaskState E → Bool
  | .ended _ => true
  | _ => false

/-- Who holds a `ResourceRef`: a generation's interface, a generation's task, or somebody else. -/
inductive Holder
  | outside
  | interface (g : GenId)
  | task (g : GenId)
deriving DecidableEq

/-! ## The shared memory -/

structure Memory (R K E : Type) where
  /-- `Domain::phase`. -/
  phase : DomainPhase
  /-- Whether `Domain::shutdown` has been cancelled. -/
  shutdown : Bool
  /-- The holder of the supervisor lock. -/
  supervisor : Option Tid
  nextTask : ℕ
  /-- The supervisor table; a generation stands for its control and its abort handle. -/
  tasks : List (ℕ × GenId)
  /-- How often `quiescent.notify_waiters()` has run. -/
  quiescent : ℕ
  /-- The holder of the write lock of a shard of `Registry::entries`. -/
  shard : R → ℕ → Option Tid
  /-- `Registry::entries`. -/
  entries : Ident R K → Option ℕ
  nextSlot : Ident R K → ℕ
  /-- `RegistrySlot::state`. -/
  state : Ident R K → ℕ → RegistrySlotState
  /-- The holder of the lock of `RegistrySlot::state`. -/
  slotLock : Ident R K → ℕ → Option Tid
  /-- How often `changed.notify(usize::MAX)` of a slot has run. -/
  changed : Ident R K → ℕ → ℕ
  /-- `Registry::live`. -/
  live : R → List (ℕ × GenId)
  nextGen : GenId
  /-- The identity a generation was created for. -/
  ident : GenId → Option (Ident R K)
  /-- What the `on_finish` closure of a generation has captured, for a canonical one. -/
  site : GenId → Option Site
  /-- The id `Domain::register` gave a generation. -/
  taskId : GenId → Option ℕ
  /-- `Control::phase`. -/
  control : GenId → Phase
  /-- How often `Control::cancel` has cancelled the token. -/
  cancels : GenId → ℕ
  /-- The strong count of the `Entry`. -/
  strong : GenId → ℕ
  start : GenId → Start
  task : GenId → TaskState E
  /-- Whether the task's abort handle has been used. -/
  aborted : GenId → Bool
  /-- The value in the outcome channel. -/
  outcome : GenId → Option (ResourceOutcome E)
  /-- The version of the value in the outcome channel. -/
  version : GenId → ℕ
  /-- Whether `finished_tx` has been dropped. -/
  closed : GenId → Bool
  receivers : GenId → ℕ
  /-- The `ResourceCompletion`s that are held and not being waited on. -/
  completions : GenId → ℕ
  /-- The `ResourceRef`s that are held, each with its holder. -/
  refs : List (Holder × GenId)

variable {R K E : Type}

namespace Memory

/-- `Domain::new()`, with no registry entry and no generation. -/
def new : Memory R K E where
  phase := .running
  shutdown := false
  supervisor := none
  nextTask := 0
  tasks := []
  quiescent := 0
  shard := fun _ _ => none
  entries := fun _ => none
  nextSlot := fun _ => 0
  state := fun _ _ => .starting 0
  slotLock := fun _ _ => none
  changed := fun _ _ => 0
  live := fun _ => []
  nextGen := 0
  ident := fun _ => none
  site := fun _ => none
  taskId := fun _ => none
  control := fun _ => .starting
  cancels := fun _ => 0
  strong := fun _ => 0
  start := fun _ => .pending
  task := fun _ => .unspawned
  aborted := fun _ => false
  outcome := fun _ => none
  version := fun _ => 0
  closed := fun _ => false
  receivers := fun _ => 0
  completions := fun _ => 0
  refs := []

/-- The domain accepts acquisitions. -/
def Accepting (m : Memory R K E) : Prop := m.phase = .running

instance (m : Memory R K E) : Decidable m.Accepting :=
  inferInstanceAs (Decidable (m.phase = .running))

/-- The token of `g` is cancelled: a child of the domain's token, it is cancelled with it. -/
def Cancelled (m : Memory R K E) (g : GenId) : Prop := 0 < m.cancels g ∨ m.shutdown = true

instance (m : Memory R K E) (g : GenId) : Decidable (m.Cancelled g) :=
  inferInstanceAs (Decidable (0 < m.cancels g ∨ m.shutdown = true))

/-- A holder that can still use what it holds. -/
def Alive (m : Memory R K E) : Holder → Prop
  | .outside => True
  | .interface g => 0 < m.strong g
  | .task g => g < m.nextGen ∧ (m.task g).hasEnded = false

instance (m : Memory R K E) : (h : Holder) → Decidable (m.Alive h)
  | .outside => .isTrue trivial
  | .interface g => inferInstanceAs (Decidable (0 < m.strong g))
  | .task g => inferInstanceAs (Decidable (g < m.nextGen ∧ (m.task g).hasEnded = false))

end Memory

/-! ## Updating a table with two arguments -/

/-- The table `f` with the value at `a`, `b` replaced. -/
def update₂ {α β γ : Type} [DecidableEq α] [DecidableEq β] (f : α → β → γ) (a : α) (b : β)
    (c : γ) : α → β → γ :=
  fun x y => if x = a ∧ y = b then c else f x y

@[simp] theorem update₂_apply {α β γ : Type} [DecidableEq α] [DecidableEq β] (f : α → β → γ)
    (a : α) (b : β) (c : γ) (x : α) (y : β) :
    update₂ f a b c x y = if x = a ∧ y = b then c else f x y := rfl

end Resourcery
