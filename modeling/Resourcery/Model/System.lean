import Resourcery.Lib.Run
import Resourcery.Model.Context

/-!
# The system

`State` is a domain's memory with all the threads that work on it; `step` takes one action. An
action starts a call, lets a thread take its next step, drops a suspended future, polls a task, or
is something the holders of references and observers do. The actions `dropTask`, `dropSupervisor`
and `unwind` are the executor's: dropping a spawned future between two polls (runtime shutdown)
and a supervising future that unwinds because a value it drops panics.

Nothing bounds the number of callers, of calls, of generations or of identities, and any thread
may move next.
-/

namespace Resourcery

open Interleaving Function ResourceContext

/-! ## Program points -/

/-- `get` or `status`. -/
inductive Query
  | get | status
deriving DecidableEq

/-- The program points of all threads. -/
inductive Pc (R K E : Type)
  | idle
  | acquire (q : Request R K) (p : AcquirePc)
  | discover (q : Query) (i : Ident R K) (p : StatusPc)
  | all (r : R) (p : AllPc)
  | upgrade (g : GenId) (p : WeakResourceRef.UpgradePc)
  | cancel (p : Domain.CancelPc)
  | cancelled
  | shutdown (p : Domain.ShutdownPc)
  | terminate (p : Domain.TerminatePc)
  | wait (g : GenId) (p : ResourceCompletion.WaitPc E)
  | drop (g : GenId) (p : Entry.DropPc)
  | supervise (i : Ident R K) (g : GenId) (id : ℕ) (site : Option Site) (p : SupervisePc E)
deriving DecidableEq

variable {R K E : Type}

/-- Where the destructor of the entry of `g` starts. -/
def Pc.destructor (g : GenId) : Pc R K E := .drop g (.cancel .load)

/-- The instruction at a program point. -/
def Pc.code : Pc R K E → Instr R K E (Pc R K E)
  | .idle => .halt
  | .acquire q p => ResourceContext.acquire q (.acquire q) Pc.destructor
    (fun site g id => .supervise q.ident g id site .unpolled) p
  | .discover q i p => ResourceContext.status i (.discover q i) Pc.destructor p
  | .all r p => ResourceContext.all r (.all r) Pc.destructor p
  | .upgrade g p => WeakResourceRef.upgrade g (.upgrade g) Pc.destructor p
  | .cancel p => Domain.cancel .cancel .cancelled p
  | .cancelled => .halt
  | .shutdown p => Domain.shutdown .shutdown p
  | .terminate p => Domain.terminate .terminate p
  | .wait g p => ResourceCompletion.wait g (.wait g) p
  | .drop g p => Entry.drop g (.drop g) p
  | .supervise i g id site p =>
    ResourceContext.supervise i g id site (.supervise i g id site) p

/-- Where a caller goes when its future is dropped, at a point where it is suspended. -/
def Pc.dropFuture : Pc R K E → Option (Pc R K E)
  | .acquire q (.listener _ _) => some (.acquire q (.returned .dropped))
  | .acquire q (.create (some ⟨n, generation⟩) .build) =>
    some (.acquire q (.guard n generation .dropped (.remove .entry)))
  | .acquire q (.create none .build) => some (.acquire q (.returned .dropped))
  | .shutdown (.wait _) => some (.shutdown .dropped)
  | .terminate (.shutdown (.wait _)) => some (.terminate (.shutdown .dropped))
  | .wait g (.changed _) => some (.wait g (.dropReceiver none))
  | _ => none

/-- Where a supervising future goes when the executor drops it before its first poll or at its
suspension point. The finalizer exists only from the first poll on. -/
def Pc.dropSupervising : Pc R K E → Option (Pc R K E)
  | .supervise i g id site .unpolled => some (.supervise i g id site (.dropSender .dropped))
  | .supervise i g id site .join => some (.supervise i g id site (.finalize .dropped .lock))
  | _ => none

/-- Where a supervising future goes when dropping a value panics: the payload of the task before
`control.finish()`, that of `on_finish` before the outcome is sent, or the error of the task in an
outcome that `send` gives back because nobody is left to receive it. -/
def Pc.unwind (m : Memory R K E) : Pc R K E → Option (Pc R K E)
  | .supervise i g id site (.finish (.panicked _)) =>
    some (.supervise i g id site (.finalize .unwound .lock))
  | .supervise i g id site (.publish _ true) =>
    some (.supervise i g id site (.finalize .unwound .lock))
  | .supervise i g id site (.publish (.failed _) false) =>
    if m.receivers g = 0 then some (.supervise i g id site (.finalize .unwound .lock)) else none
  | _ => none

/-! ## Actions -/

/-- The calls the users of a domain make. -/
inductive Call (R K : Type)
  | acquire (q : Request R K)
  | discover (q : Query) (i : Ident R K)
  | all (r : R)
  | upgrade (g : GenId)
  | cancel
  | shutdown
  | terminate
  /-- `ResourceRef::finished`. -/
  | finished (h : Holder) (g : GenId)
  /-- `ResourceCompletion::wait`. -/
  | wait (g : GenId)

inductive Action (R K E : Type)
  | call (c : Call R K)
  | run (t : Tid) (ch : Choice)
  | dropFuture (t : Tid)
  -- the executor and the task of a generation
  | poll (g : GenId)
  | gate (g : GenId)
  | yield (g : GenId)
  | finish (g : GenId) (result : JoinResult E)
  | reap (g : GenId) (panic : Option Payload)
  | dropTask (g : GenId) (panic : Option Payload)
  | dropSupervisor (t : Tid)
  | unwind (t : Tid)
  -- the holders of references and observers
  | clone (h : Holder) (g : GenId)
  | move (h h' : Holder) (g : GenId)
  | release (h : Holder) (g : GenId)
  | completion (h : Holder) (g : GenId)
  | cloneCompletion (g : GenId)
  | dropCompletion (g : GenId)

/-- The executor drops a task between two polls. -/
def Action.dropsTask : Action R K E → Bool
  | .dropTask .. => true
  | _ => false

/-- A supervising future ends before it has run through. -/
def Action.endsSupervisor : Action R K E → Bool
  | .dropSupervisor _ | .unwind _ => true
  | _ => false

/-- A key operation panics. -/
def Action.keyPanics : Action R K E → Bool
  | .run _ .keyPanics => true
  | _ => false

/-- Not a task dropped by the executor. -/
abbrev Action.KeepsTask (a : Action R K E) : Prop := a.dropsTask = false

/-- Not the end of a supervising future before it has run through. -/
abbrev Action.KeepsSupervisor (a : Action R K E) : Prop := a.endsSupervisor = false

/-- Not a panic of a key operation. -/
abbrev Action.KeysSound (a : Action R K E) : Prop := a.keyPanics = false

/-- A domain and the threads that work on it. -/
abbrev State (R K E : Type) := Pool (Memory R K E) (Pc R K E)

/-- A new domain. -/
def State.new : State R K E := Pool.initial Memory.new .idle

/-- Whether the thread at `p` has ended the destructor another thread awaits. -/
def Pc.destroyed : Pc R K E → Bool
  | .drop _ .finished => true
  | _ => false

/-- Thread `t` has been started and awaits no destructor. -/
def State.Ready (s : State R K E) (t : Tid) : Prop :=
  t < s.size ∧ ∀ c, (s.thread t).awaits = some c → (s.pc c).destroyed = true

instance (s : State R K E) (t : Tid) : Decidable (s.Ready t) :=
  match h : (s.thread t).awaits with
  | none => decidable_of_iff (t < s.size) (by simp [State.Ready, h])
  | some c => decidable_of_iff (t < s.size ∧ (s.pc c).destroyed = true) (by simp [State.Ready, h])

variable [DecidableEq R] [DecidableEq K]

/-- How a call starts: what it takes and its first program point. `get`, `status`, `get_or_spawn`
and `try_get_or_spawn` exist only for canonical placements; `spawn` on another one is
`create_and_start`. -/
def begin (cfg : Config R K) (m : Memory R K E) :
    Call R K → Option (Memory R K E × Pc R K E)
  | .acquire q =>
    if cfg.canonical q.ident.ty then some (m, .acquire q .accepting)
    else if q.op = .spawn then some (m, .acquire q (.create none .accepting)) else none
  | .discover q i => if cfg.canonical i.ty then some (m, .discover q i .slot) else none
  | .all r => some (m, .all r .iter)
  | .upgrade g => if g < m.nextGen then some (m, .upgrade g .entry) else none
  | .cancel => some (m, .cancel .lock)
  | .shutdown => some (m, .shutdown (.cancel .lock))
  | .terminate => some (m, .terminate (.cancel .lock))
  | .finished h g =>
    if (h, g) ∈ m.refs ∧ m.Alive h then
      some ({ m with receivers := update m.receivers g (m.receivers g + 1) }, .wait g (.borrow 0))
    else none
  | .wait g =>
    if 0 < m.completions g then
      some ({ m with completions := update m.completions g (m.completions g - 1) },
        .wait g (.borrow 0))
    else none

/-- The next state of the task of `g` when the executor or the task itself acts. tokio polls no
task that has been aborted; it drops its future instead, unless a poll is in progress. Dropping the
future can panic. -/
def taskStep (m : Memory R K E) (g : GenId) : Action R K E → Option (TaskState E)
  | .poll _ =>
    match m.task g with
    | .gated => if m.aborted g then none else some .polling
    | .suspended => if m.aborted g then none else some .running
    | _ => none
  | .gate _ =>
    match m.task g with
    | .polling => some (if m.start g = .pending then .gated else .running)
    | _ => none
  | .yield _ =>
    match m.task g with
    | .running => some .suspended
    | _ => none
  | .finish _ result =>
    match m.task g, result with
    | .running, .cancelled => none
    | .running, result => some (.ended result)
    | _, _ => none
  | .reap _ panic =>
    match m.task g with
    | .gated | .suspended => if m.aborted g then some (.ended (.ofDrop panic)) else none
    | _ => none
  | .dropTask _ panic =>
    match m.task g with
    | .gated | .suspended => some (.ended (.ofDrop panic))
    | _ => none
  | _ => none

/-- What a holder of a `ResourceRef`, or of a completion, does to the memory, and the destructor
this starts. -/
def hold (m : Memory R K E) : Action R K E → Option (Memory R K E × Option (Pc R K E))
  | .clone h g =>
    if (h, g) ∈ m.refs ∧ m.Alive h then
      some ({ m with
        strong := update m.strong g (m.strong g + 1)
        refs := (h, g) :: m.refs }, none)
    else none
  | .move h h' g =>
    if (h, g) ∈ m.refs ∧ m.Alive h ∧ m.Alive h' then
      some ({ m with refs := (h', g) :: m.refs.erase (h, g) }, none)
    else none
  | .release h g =>
    if (h, g) ∈ m.refs then
      some ({ m with
        strong := update m.strong g (m.strong g - 1)
        refs := m.refs.erase (h, g) }, if m.strong g = 1 then some (.destructor g) else none)
    else none
  | .completion h g =>
    if (h, g) ∈ m.refs ∧ m.Alive h then
      some ({ m with
        receivers := update m.receivers g (m.receivers g + 1)
        completions := update m.completions g (m.completions g + 1) }, none)
    else none
  | .cloneCompletion g =>
    if 0 < m.completions g then
      some ({ m with
        receivers := update m.receivers g (m.receivers g + 1)
        completions := update m.completions g (m.completions g + 1) }, none)
    else none
  | .dropCompletion g =>
    if 0 < m.completions g then
      some ({ m with
        receivers := update m.receivers g (m.receivers g - 1)
        completions := update m.completions g (m.completions g - 1) }, none)
    else none
  | _ => none

/-- The generation whose task an action is about. -/
def Action.taskOf : Action R K E → Option GenId
  | .poll g | .gate g | .yield g | .finish g _ | .reap g _ | .dropTask g _ => some g
  | _ => none

/-- One action. -/
def step (cfg : Config R K) (s : State R K E) (a : Action R K E) : Option (State R K E) :=
  match a with
  | .call c => (begin cfg s.mem c).map fun (m, p) => (s.setMem m).fork (some p)
  | .run t ch =>
    if s.Ready t then (execute cfg t ch s.mem (s.pc t).code).map (s.advance t) else none
  | .dropFuture t => if s.Ready t then (s.pc t).dropFuture.map (s.setPc t) else none
  | .dropSupervisor t => if s.Ready t then (s.pc t).dropSupervising.map (s.setPc t) else none
  | .unwind t => if s.Ready t then ((s.pc t).unwind s.mem).map (s.setPc t) else none
  | a =>
    match a.taskOf with
    | some g => (taskStep s.mem g a).map fun st =>
      s.setMem { s.mem with task := update s.mem.task g st }
    | none => (hold s.mem a).map fun (m, child) => (s.setMem m).fork child

/-! ## A small program -/

/-- One resource type, canonical or not, with one key. -/
def Config.single (canonical : Bool) : Config Unit Unit := ⟨fun _ => canonical, fun _ => 0⟩

/-- What the actions `as` make of a new domain of that program. -/
def afterwards (canonical : Bool) (as : List (Action Unit Unit Unit)) :
    Option (State Unit Unit Unit) :=
  Transition.exec (step (.single canonical)) State.new as

theorem reach_afterwards {canonical : Bool} {as : List (Action Unit Unit Unit)}
    (P : Action Unit Unit Unit → Prop) (hP : ∀ a ∈ as, P a)
    (h : (afterwards canonical as).isSome = true) :
    Transition.Reach (step (.single canonical)) (fun _ a => P a) State.new
      ((afterwards canonical as).get h) :=
  Transition.reach_exec (fun _ _ h => h) hP h

end Resourcery
